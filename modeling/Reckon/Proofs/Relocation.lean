import Reckon.Proofs.Prefixes

namespace Reckon

/-! What a scanner delivers of a text that stands elsewhere.

A delivery says where it is about, and nothing else of it depends on that.  What
is delivered of two texts that are put together is therefore what is delivered of
each, with the positions of the second one moved behind the first.
-/

/-- The fault of the same cause at a position. -/
def Fault.moveTo (position : Nat) : Fault → Fault
  | .invalidCharacter character _ => .invalidCharacter character position
  | .unexpectedToken expected found _ => .unexpectedToken expected found position

def Fault.relocate (move : Nat → Nat) (fault : Fault) : Fault := fault.moveTo (move fault.position)

namespace Scanner

/-- The delivery of the same token or character at a position. -/
def moveTo (position : Nat) : Except Fault Lexeme → Except Fault Lexeme
  | .ok lexeme => .ok ⟨lexeme.token, position⟩
  | .error fault => .error (fault.moveTo position)

def relocate (move : Nat → Nat) (delivered : Except Fault Lexeme) : Except Fault Lexeme :=
  moveTo (move (place delivered)) delivered

section

variable (position other : Nat) (move : Nat → Nat) (fault : Fault) (delivered : Except Fault Lexeme)

@[simp] theorem position_moveTo : (fault.moveTo position).position = position := by
  cases fault <;> rfl

@[simp] theorem moveTo_position : fault.moveTo fault.position = fault := by
  cases fault <;> rfl

@[simp] theorem moveTo_moveTo_fault :
    (fault.moveTo other).moveTo position = fault.moveTo position := by
  cases fault <;> rfl

@[simp] theorem place_moveTo : place (moveTo position delivered) = position := by
  cases delivered <;> simp [moveTo, place]

@[simp] theorem moveTo_place : moveTo (place delivered) delivered = delivered := by
  cases delivered <;> simp [moveTo, place]

@[simp] theorem moveTo_moveTo :
    moveTo position (moveTo other delivered) = moveTo position delivered := by
  cases delivered <;> simp [moveTo]

@[simp] theorem isLast_moveTo : isLast (moveTo position delivered) = isLast delivered := by
  cases delivered <;> rfl

@[simp] theorem place_relocate : place (relocate move delivered) = move (place delivered) :=
  place_moveTo _ _

@[simp] theorem isLast_relocate : isLast (relocate move delivered) = isLast delivered :=
  isLast_moveTo _ _

end

theorem Step.translate {text rest : List Char} {position behind : Nat}
    {delivered : Except Fault Lexeme} (step : Step ⟨text, position⟩ delivered ⟨rest, behind⟩)
    (offset : Nat) :
    Step ⟨text, position + offset⟩ (relocate (· + offset) delivered) ⟨rest, behind + offset⟩ := by
  cases step with
  | @ended count split =>
      have moved := @Step.ended ⟨text, position + offset⟩ count split
      simpa [relocate, moveTo, place, Nat.add_right_comm] using moved
  | @token count token piece _ split spelled apart =>
      have moved := @Step.token ⟨text, position + offset⟩ count token piece rest split spelled apart
      simpa [relocate, moveTo, place, Nat.add_right_comm] using moved
  | @invalid count character _ split invalid =>
      have moved := @Step.invalid ⟨text, position + offset⟩ count character rest split invalid
      simpa [relocate, moveTo, place, Fault.moveTo, Fault.position, Nat.add_right_comm] using moved

/-- A text that stands further behind is delivered alike, as much further behind. -/
theorem deliveries_translate (text : List Char) (position offset : Nat) :
    (⟨text, position + offset⟩ : Scanner).deliveries =
      (⟨text, position⟩ : Scanner).deliveries.map (relocate (· + offset)) := by
  obtain ⟨delivered, ⟨rest, behind⟩, step⟩ := exists_step ⟨text, position⟩
  have stepped := next_of_step step
  rw [deliveries_of_next stepped, deliveries_of_next (next_of_step (step.translate offset)),
    isLast_relocate]
  by_cases more : isLast delivered = false
  · have shorter : rest.length < text.length := next_rest_length_lt_of_isLast stepped more
    rw [if_pos more, if_pos more, List.map_cons, deliveries_translate rest behind offset]
  · rw [if_neg more, if_neg more, List.map_singleton]
termination_by text.length

theorem deliveries_spaces (count : Nat) (text : List Char) (position : Nat) :
    (⟨List.replicate count ' ' ++ text, position⟩ : Scanner).deliveries =
      (⟨text, position + count⟩ : Scanner).deliveries := by
  obtain ⟨delivered, behind, step⟩ := exists_step ⟨text, position + count⟩
  rw [deliveries_of_next (next_of_step step), deliveries_of_next (next_of_step step.of_spaces)]

/-- The end of the text is delivered last. -/
theorem exists_deliveries_concat (text : List Char) (position : Nat) :
    ∃ items, (⟨text, position⟩ : Scanner).deliveries =
      items ++ [.ok ⟨.endOfInput, position + byteLength text⟩] := by
  obtain ⟨delivered, ⟨rest, behind⟩, step⟩ := exists_step ⟨text, position⟩
  have stepped := next_of_step step
  rw [deliveries_of_next stepped]
  by_cases more : isLast delivered = false
  · have shorter : rest.length < text.length := next_rest_length_lt_of_isLast stepped more
    have size : behind + byteLength rest = position + byteLength text :=
      step.position_add_byteLength
    obtain ⟨items, concluded⟩ := exists_deliveries_concat rest behind
    exact ⟨delivered :: items, by rw [if_pos more, concluded, size, List.cons_append]⟩
  · cases step with
    | @ended count split =>
        dsimp only at split
        exact ⟨[], by simp [more, split, byteLength_replicate_space]⟩
    | token _ spelled _ => simp [isLast, spelled.ne_endOfInput] at more
    | invalid => simp [isLast] at more
termination_by text.length

/-- What is delivered of two texts that do not join into one run of digits. -/
theorem deliveries_append {head tail : List Char} (apart : Apart head tail) (position : Nat) :
    (⟨head ++ tail, position⟩ : Scanner).deliveries =
      (⟨head, position⟩ : Scanner).deliveries.dropLast ++
        (⟨tail, position + byteLength head⟩ : Scanner).deliveries := by
  obtain ⟨delivered, ⟨rest, behind⟩, step⟩ := exists_step ⟨head, position⟩
  have stepped := next_of_step step
  rw [deliveries_of_next stepped]
  by_cases more : isLast delivered = false
  · have shorter : rest.length < head.length := next_rest_length_lt_of_isLast stepped more
    have size : behind + byteLength rest = position + byteLength head :=
      step.position_add_byteLength
    rw [← List.append_nil head] at step
    obtain ⟨middle, same, _, apartRest, stepBoth⟩ :=
      step.replace_tail more (by omega) apart
    rw [List.append_nil] at same
    subst same
    have nonempty : (⟨rest, behind⟩ : Scanner).deliveries ≠ [] := by
      obtain ⟨items, concluded⟩ := exists_deliveries_concat rest behind
      simp [concluded]
    rw [deliveries_of_next (next_of_step stepBoth), if_pos more, if_pos more,
      deliveries_append apartRest behind, size, List.dropLast_cons_of_ne_nil nonempty,
      List.cons_append]
  · cases step with
    | @ended count split =>
        dsimp only at split
        rw [if_neg more, split, deliveries_spaces, byteLength_replicate_space]
        rfl
    | token _ spelled _ => simp [isLast, spelled.ne_endOfInput] at more
    | invalid => simp [isLast] at more
termination_by head.length

/-- Everything in front of the end of a text stands within it. -/
theorem place_lt_of_mem_dropLast {text : List Char} {position : Nat} {item : Except Fault Lexeme}
    (member : item ∈ (⟨text, position⟩ : Scanner).deliveries.dropLast) :
    place item < position + byteLength text := by
  have ordered := pairwise_deliveries ⟨text, position⟩
  obtain ⟨items, concluded⟩ := exists_deliveries_concat text position
  rw [concluded, List.dropLast_concat] at member
  rw [concluded, List.pairwise_append] at ordered
  exact ordered.2.2 item member _ (List.mem_singleton_self _)

/-- Positions from a boundary on move behind what is put in there. -/
def shiftFrom (boundary count position : Nat) : Nat :=
  if boundary ≤ position then position + count else position

section Insertion

variable {before tail inserted digits rest text : List Char} {boundary count position : Nat}
  {delivered : Except Fault Lexeme}

theorem relocate_of_lt (early : place delivered < boundary) :
    relocate (shiftFrom boundary count) delivered = delivered := by
  rw [relocate, shiftFrom, if_neg (Nat.not_le_of_lt early), moveTo_place]

/-- A text behind the boundary moves as a whole. -/
theorem map_deliveries_shiftFrom (behind : boundary ≤ position) :
    (⟨text, position⟩ : Scanner).deliveries.map (relocate (shiftFrom boundary count)) =
      (⟨text, position + count⟩ : Scanner).deliveries := by
  rw [deliveries_translate]
  apply List.map_congr_left
  intro item member
  have late : position ≤ place item := position_le_of_mem_deliveries member
  rw [relocate, relocate, shiftFrom, if_pos (Nat.le_trans behind late)]

/-- What stands in front of a change is delivered as before. -/
theorem deliveries_replace_tail (apart : Apart before tail) (apartInserted : Apart before inserted)
    (behind : byteLength before ≤ boundary)
    (moved : (⟨inserted, byteLength before⟩ : Scanner).deliveries =
      (⟨tail, byteLength before⟩ : Scanner).deliveries.map (relocate (shiftFrom boundary count))) :
    (⟨before ++ inserted, 0⟩ : Scanner).deliveries =
      (⟨before ++ tail, 0⟩ : Scanner).deliveries.map (relocate (shiftFrom boundary count)) := by
  have fixed :
      (⟨before, 0⟩ : Scanner).deliveries.dropLast.map (relocate (shiftFrom boundary count)) =
      (⟨before, 0⟩ : Scanner).deliveries.dropLast := by
    refine (List.map_congr_left fun item member => ?_).trans (List.map_id _)
    have early := place_lt_of_mem_dropLast member
    exact relocate_of_lt (by omega)
  rw [deliveries_append apart, deliveries_append apartInserted, List.map_append, fixed,
    Nat.zero_add, moved]

theorem deliveries_insert_spaces (apart : Apart before tail) (count : Nat) :
    (⟨before ++ (List.replicate count ' ' ++ tail), 0⟩ : Scanner).deliveries =
      (⟨before ++ tail, 0⟩ : Scanner).deliveries.map
        (relocate (shiftFrom (byteLength before) count)) := by
  have apartSpaces : Apart before (List.replicate count ' ' ++ tail) := by
    cases count with
    | zero => simpa using apart
    | succ count => exact .of_startsDigit rfl
  apply deliveries_replace_tail apart apartSpaces (Nat.le_refl _)
  rw [deliveries_spaces, map_deliveries_shiftFrom (Nat.le_refl _)]

theorem deliveries_of_digits (nonempty : digits ≠ [])
    (all : ∀ character ∈ digits, character.isDigit = true) (plain : startsDigit rest = false)
    (position : Nat) :
    (⟨digits ++ rest, position⟩ : Scanner).deliveries =
      .ok ⟨.integer (Number.ofDigits digits), position⟩ ::
        (⟨rest, position + digits.length⟩ : Scanner).deliveries := by
  have step := @Step.token ⟨digits ++ rest, position⟩ 0 _ digits rest rfl (.integer nonempty all)
    (.of_startsDigit plain)
  have size : byteLength digits = digits.length :=
    byteLength_of_ascii fun character member => utf8Size_of_isDigit (all character member)
  rw [deliveries_of_next (next_of_step step), size]
  rfl

theorem exists_digits (first : startsDigit text = true) :
    ∃ digits rest, text = digits ++ rest ∧ digits ≠ [] ∧
      (∀ character ∈ digits, character.isDigit = true) ∧ startsDigit rest = false := by
  refine ⟨text.takeWhile Char.isDigit, text.dropWhile Char.isDigit,
    List.takeWhile_append_dropWhile.symm, ?_, ?_, startsDigit_dropWhile text⟩
  · cases text with
    | nil => cases first
    | cons character others =>
        have digit : character.isDigit = true := first
        simp [digit]
  · exact fun character member => List.all_eq_true.mp List.all_takeWhile character member

/-- Zeros in front of an integer belong to it, so that only what is behind it moves. -/
theorem deliveries_zeros (first : startsDigit text = true) (count position : Nat) :
    (⟨List.replicate count '0' ++ text, position⟩ : Scanner).deliveries =
      (⟨text, position⟩ : Scanner).deliveries.map (relocate (shiftFrom (position + 1) count)) := by
  obtain ⟨digits, rest, rfl, nonempty, all, plain⟩ := exists_digits first
  have allZeros : ∀ character ∈ List.replicate count '0' ++ digits, character.isDigit = true := by
    intro character member
    rcases List.mem_append.mp member with zero | member
    · rw [List.eq_of_mem_replicate zero]
      rfl
    · exact all character member
  have size := List.length_pos_iff.mpr nonempty
  have place : position + (List.replicate count '0' ++ digits).length =
      position + digits.length + count := by
    simp only [List.length_append, List.length_replicate]
    omega
  have stays : relocate (shiftFrom (position + 1) count)
      (.ok ⟨.integer (Number.ofDigits digits), position⟩) =
        .ok ⟨.integer (Number.ofDigits digits), position⟩ :=
    relocate_of_lt (Nat.lt_succ_self position)
  rw [← List.append_assoc, deliveries_of_digits (by simp [nonempty]) allZeros plain,
    deliveries_of_digits nonempty all plain, Number.ofDigits_replicate_zero_append, place,
    List.map_cons, stays, map_deliveries_shiftFrom (by omega)]

theorem deliveries_insert_zeros (plain : endsDigit before = false) (first : startsDigit tail = true)
    (count : Nat) :
    (⟨before ++ (List.replicate count '0' ++ tail), 0⟩ : Scanner).deliveries =
      (⟨before ++ tail, 0⟩ : Scanner).deliveries.map
        (relocate (shiftFrom (byteLength before + 1) count)) :=
  deliveries_replace_tail (.of_endsDigit plain) (.of_endsDigit plain) (Nat.le_succ _)
    (deliveries_zeros first count _)

end Insertion

end Scanner

end Reckon
