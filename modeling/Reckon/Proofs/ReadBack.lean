import Reckon.Number.Text
import Reckon.Proofs.Interval

namespace Reckon.Number

/-! Whole doubles are read back from their text.

The search for the shortest decimal ends on the grid of the natural numbers or
before it exactly where the double is whole.  The text is then a run of digits
that denotes the double, and has a point otherwise.
-/

namespace Magnitude

variable {value : Magnitude} {grid : Int} {decimal : Decimal}

theorem exponent_of_onGrid? (offered : value.onGrid? grid = some decimal) :
    decimal.exponent = grid := by
  unfold onGrid? at offered
  split at offered
  · cases offered
    split <;> rfl
  · cases offered
    rfl
  · cases offered
    rfl
  · cases offered

theorem onGrid?_ne_none (read : value.isReadFrom (value.atOrBelow grid) = true) :
    value.onGrid? grid ≠ none := by
  unfold onGrid?
  rw [read]
  split <;> simp_all

/-- The search stops on a grid behind others that offer nothing.  What it ends with
reads back, unless it has come to the last grid. -/
theorem firstOnGrids_spec (value : Magnitude) (finer : Nat) (grid : Int) :
    ∃ steps : Nat, steps ≤ finer ∧ (value.firstOnGrids finer grid).exponent = grid - steps ∧
      (∀ fewer : Nat, fewer < steps → value.onGrid? (grid - fewer) = none) ∧
      (value.isReadFrom (value.firstOnGrids finer grid) = true ∨
        steps = finer ∧ value.onGrid? (grid - steps) = none) := by
  induction finer generalizing grid with
  | zero =>
      refine ⟨0, Nat.le_refl 0, ?_, fun fewer less => absurd less (Nat.not_lt_zero _), ?_⟩
      · cases offered : value.onGrid? grid with
        | none => simp [firstOnGrids, offered, atOrBelow]
        | some decimal => simp [firstOnGrids, offered, exponent_of_onGrid? offered]
      · cases offered : value.onGrid? grid with
        | none => exact .inr ⟨rfl, by simpa using offered⟩
        | some decimal =>
            exact .inl (by simpa [firstOnGrids, offered] using isReadFrom_of_onGrid? offered)
  | succ finer ih =>
      cases offered : value.onGrid? grid with
      | some decimal =>
          refine ⟨0, Nat.zero_le _, ?_, fun fewer less => absurd less (Nat.not_lt_zero _), .inl ?_⟩
          · simp [firstOnGrids, offered, exponent_of_onGrid? offered]
          · simpa [firstOnGrids, offered] using isReadFrom_of_onGrid? offered
      | none =>
          obtain ⟨steps, bound, place, earlier, result⟩ := ih (grid - 1)
          have passed :
              value.firstOnGrids (finer + 1) grid = value.firstOnGrids finer (grid - 1) := by
            simp [firstOnGrids, offered]
          have lastGrid : grid - 1 - steps = grid - ↑(steps + 1) := by omega
          rw [lastGrid] at place result
          refine ⟨steps + 1, Nat.succ_le_succ bound, passed ▸ place, ?_, ?_⟩
          · intro fewer less
            cases fewer with
            | zero => simpa using offered
            | succ fewer =>
                rw [show grid - ↑(fewer + 1) = grid - 1 - fewer by omega]
                exact earlier fewer (Nat.lt_of_succ_lt_succ less)
          · rw [passed]
            exact result.imp_right fun ⟨last, missing⟩ => ⟨congrArg (· + 1) last, missing⟩

theorem onGrid?_zero_ne_none {number : Nat} (positive : 0 < value.significand)
    (equal : number * value.parts = value.significand * value.unit) : value.onGrid? 0 ≠ none := by
  have balance : value.stepSize 0 * value.unit = 4 * (1 * value.parts) * value.quarterSize 0 :=
    value.stepSize_mul_unit 0
  have point : value.quarters * value.quarterSize 0 = number * value.stepSize 0 := by
    apply Nat.eq_of_mul_eq_mul_right value.unit_pos
    calc value.quarters * value.quarterSize 0 * value.unit
        = 4 * value.quarterSize 0 * (value.significand * value.unit) := by rw [quarters]; grind
      _ = number * (4 * (1 * value.parts) * value.quarterSize 0) := by rw [← equal]; grind
      _ = number * value.stepSize 0 * value.unit := by rw [← balance, Nat.mul_assoc]
  have below : value.atOrBelow 0 = ⟨number, (0 : Nat)⟩ := by
    rw [atOrBelow, point, Nat.mul_div_cancel _ (value.stepSize_pos 0)]
    rfl
  apply onGrid?_ne_none
  rw [below, isReadFrom_natural_iff]
  exact surrounds_of_exact positive (by simpa using equal)

theorem one_le_coarsestGrid {number : Nat} (positive : 0 < value.significand)
    (equal : number * value.parts = value.significand * value.unit) : 1 ≤ value.coarsestGrid := by
  have bits : 1 ≤ (value.significand.log2 : Int) + 1 + value.exponent := by
    by_cases coarse : 0 ≤ value.exponent
    · omega
    · have bound := parts_le_significand positive equal (by omega)
      have places := (Nat.le_log2 (Nat.ne_of_gt positive)).mpr bound
      omega
  rw [coarsestGrid, if_pos (by omega)]
  omega

theorem shortest_of_whole (positive : 0 < value.significand) (whole : value.Whole) :
    ∃ digits zeros : Nat,
      value.shortest = ⟨digits, zeros⟩ ∧ value.Surrounds (digits * 10 ^ zeros) := by
  obtain ⟨number, equal⟩ := whole
  have natural := onGrid?_zero_ne_none positive equal
  have coarse := one_le_coarsestGrid positive equal
  have fine : value.exactGrid ≤ 0 := Int.min_le_right _ _
  rw [shortest, if_neg (Nat.ne_of_gt positive)]
  obtain ⟨steps, bound, place, earlier, result⟩ :=
    value.firstOnGrids_spec (value.coarsestGrid - value.exactGrid).toNat value.coarsestGrid
  generalize value.firstOnGrids _ _ = decimal at place result ⊢
  obtain ⟨digits, exponent⟩ := decimal
  dsimp only at place
  have reached : (steps : Int) ≤ value.coarsestGrid := by
    apply Int.not_lt.mp
    intro beyond
    apply natural
    rw [← earlier value.coarsestGrid.toNat (by omega)]
    congr 1
    omega
  obtain ⟨zeros, rfl⟩ : ∃ zeros : Nat, exponent = zeros := ⟨exponent.toNat, by omega⟩
  refine ⟨digits, zeros, rfl, isReadFrom_natural_iff.mp (result.resolve_right ?_)⟩
  intro lastGrid
  obtain ⟨last, missing⟩ := lastGrid
  apply natural
  rw [← missing]
  congr 1
  omega

theorem whole_of_nonneg (coarse : 0 ≤ value.exponent) : value.Whole := by
  refine ⟨value.significand * value.unit, ?_⟩
  rw [parts, Int.toNat_of_nonpos (by omega), Nat.pow_zero, Nat.mul_one]

theorem shortest_of_not_whole (broken : ¬ value.Whole) : value.shortest.exponent < 0 := by
  have fine : value.exponent < 0 := Int.not_le.mp fun coarse => broken (whole_of_nonneg coarse)
  have nonzero : value.significand ≠ 0 := by
    intro zero
    exact broken ⟨0, by rw [zero, Nat.zero_mul, Nat.zero_mul]⟩
  rw [shortest, if_neg nonzero]
  obtain ⟨steps, bound, place, earlier, result⟩ :=
    value.firstOnGrids_spec (value.coarsestGrid - value.exactGrid).toNat value.coarsestGrid
  rcases result with read | ⟨last, missing⟩
  · apply Int.not_le.mp
    intro natural
    apply broken
    generalize value.firstOnGrids _ _ = decimal at read natural
    obtain ⟨digits, exponent⟩ := decimal
    obtain ⟨zeros, rfl⟩ := Int.eq_ofNat_of_zero_le natural
    exact ⟨_, (isReadFrom_natural_iff.mp read).exact (Int.le_of_lt fine)⟩
  · have least : value.exactGrid = value.exponent := Int.min_eq_left (Int.le_of_lt fine)
    omega

end Magnitude

/-- Whether a double is finite and a whole number. -/
def Whole (value : Float) : Prop :=
  ∃ negative magnitude, view value = .finite negative magnitude ∧ magnitude.Whole

theorem whole_iff {value : Float} :
    Whole value ↔ exponentField value ≠ topExponentField ∧ (magnitude value).Whole := by
  rw [Whole, view]
  constructor
  · intro valueWhole
    obtain ⟨negative, content, shown, whole⟩ := valueWhole
    split at shown
    · split at shown <;> cases shown
    · rename_i finite
      cases shown
      exact ⟨finite, whole⟩
  · intro parts
    obtain ⟨finite, whole⟩ := parts
    rw [if_neg finite]
    exact ⟨_, _, rfl, whole⟩

theorem whole_neg {value : Float} (negative : isNegative value = true) :
    Whole (-value) ↔ Whole value := by
  obtain ⟨_, sameExponent, sameFraction⟩ := fields_neg negative
  have sameMagnitude : magnitude (-value) = magnitude value := by
    rw [magnitude, magnitude, sameExponent, sameFraction]
  rw [whole_iff, whole_iff, sameExponent, sameMagnitude]

theorem nearest_zero {value : Float} (positive : isNegative value = false)
    (zero : (magnitude value).significand = 0) : nearest 0 = value := by
  apply nearest_of_nearestBits
  rw [nearestBits_zero, toNat_toBits_of_not_isNegative positive]
  rw [magnitude] at zero
  split at zero
  · rename_i subnormal
    change fractionField value = 0 at zero
    rw [subnormal, zero, Nat.zero_mul]
  · exact absurd zero (by simp [fractionBits])

/-- The text of a whole double without a sign is that of a natural number which the
double is nearest to. -/
theorem text_of_whole {value : Float} (positive : isNegative value = false) (whole : Whole value) :
    ∃ number, text value = Nat.repr number ∧ nearest number = value := by
  obtain ⟨finite, equal⟩ := whole_iff.mp whole
  have written : text value = (magnitude value).shortest.text := by
    rw [text, view, if_neg finite, positive]
    exact String.empty_append
  rcases Nat.eq_zero_or_pos (magnitude value).significand with zero | nonzero
  · refine ⟨0, ?_, nearest_zero positive zero⟩
    rw [written, Magnitude.shortest, if_pos zero]
    rfl
  · obtain ⟨digits, zeros, short, surrounds⟩ := Magnitude.shortest_of_whole nonzero equal
    refine ⟨_, ?_, nearest_of_surrounds positive finite nonzero surrounds⟩
    rw [written, short]
    rfl

theorem text_of_not_whole {value : Float} (broken : ¬ Whole value) :
    ∃ character ∈ (text value).toList, character = '.' ∨ character = 'N' ∨ character = 'i' := by
  rw [whole_iff, Classical.not_and_iff_not_or_not, Classical.not_not] at broken
  rw [text, view]
  split
  · split
    · exact ⟨'i', by simp [View.text], by decide⟩
    · exact ⟨'N', by simp [View.text], by decide⟩
  · rename_i finite
    have places := Magnitude.shortest_of_not_whole (broken.resolve_left (absurd · finite))
    refine ⟨'.', ?_, .inl rfl⟩
    rw [View.text, Decimal.text]
    generalize (magnitude value).shortest = decimal at places ⊢
    obtain ⟨digits, exponent⟩ := decimal
    cases exponent with
    | ofNat zeros => exact absurd places (Int.not_lt.mpr (Int.natCast_nonneg zeros))
    | negSucc behind => simp

end Reckon.Number
