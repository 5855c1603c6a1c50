import Reckon.Proofs.Reading
import Reckon.Proofs.Spelling

namespace Reckon

/-! Everything that a scanner delivers.

The deliveries of a scanner run on behind a fault, up to the end of the text.
Their positions grow strictly, so that a position parts them into what was
delivered before it and what is delivered from it on.
-/

namespace Scanner

def place : Except Fault Lexeme → Nat
  | .ok lexeme => lexeme.position
  | .error fault => fault.position

def isLast : Except Fault Lexeme → Bool
  | .ok lexeme => decide (lexeme.token = .endOfInput)
  | .error _ => false

theorem next_rest_length_lt_of_isLast {scanner behind : Scanner} {delivered : Except Fault Lexeme}
    (stepped : scanner.next = (delivered, behind)) (more : isLast delivered = false) :
    behind.rest.length < scanner.rest.length :=
  next_rest_length_lt stepped (by intro position same; simp [same, isLast] at more)

/-- The lexemes and faults from a scanner on, with the first end of the text last. -/
def deliveries (scanner : Scanner) : List (Except Fault Lexeme) :=
  match stepped : scanner.next with
  | (delivered, behind) =>
      if more : isLast delivered = false then
        have := next_rest_length_lt_of_isLast stepped more
        delivered :: behind.deliveries
      else [delivered]
termination_by scanner.rest.length

theorem deliveries_of_next {scanner behind : Scanner} {delivered : Except Fault Lexeme}
    (stepped : scanner.next = (delivered, behind)) :
    scanner.deliveries =
      if isLast delivered = false then delivered :: behind.deliveries else [delivered] := by
  rw [deliveries]
  split
  rename_i stepped'
  cases stepped'.symm.trans stepped
  rfl

namespace Step

variable {scanner behind : Scanner} {delivered : Except Fault Lexeme}

theorem position_le_place (step : Step scanner delivered behind) :
    scanner.position ≤ place delivered := by
  cases step <;> exact Nat.le_add_right _ _

theorem place_lt_position (step : Step scanner delivered behind) (more : isLast delivered = false) :
    place delivered < behind.position := by
  cases step with
  | ended split => simp [isLast] at more
  | token split spelled apart =>
      have size := byteLength_pos spelled.characters.1
      simp only [place]
      omega
  | @invalid count character rest split invalid =>
      have size := character.utf8Size_pos
      simp only [place, Fault.position]
      omega

/-- No byte of a text is lost between two scanners. -/
theorem position_add_byteLength (step : Step scanner delivered behind) :
    behind.position + byteLength behind.rest = scanner.position + byteLength scanner.rest := by
  cases step with
  | ended split =>
      rw [split, byteLength_replicate_space]
      rfl
  | token split spelled apart =>
      rw [split, byteLength_append, byteLength_append, byteLength_replicate_space]
      dsimp only
      omega
  | invalid split invalid =>
      rw [split, byteLength_append, byteLength_replicate_space]
      simp only [byteLength]
      omega

theorem position_of_ended {position : Nat}
    (step : Step scanner (.ok ⟨.endOfInput, position⟩) behind) :
    position = scanner.position + byteLength scanner.rest := by
  cases step with
  | ended split => rw [split, byteLength_replicate_space]
  | token split spelled apart => exact absurd rfl spelled.ne_endOfInput

end Step

theorem position_le_of_mem_deliveries {scanner : Scanner} {delivered : Except Fault Lexeme}
    (member : delivered ∈ scanner.deliveries) : scanner.position ≤ place delivered := by
  obtain ⟨first, behind, step⟩ := scanner.exists_step
  have stepped := next_of_step step
  rw [deliveries_of_next stepped] at member
  by_cases more : isLast first = false
  · have shorter := next_rest_length_lt_of_isLast stepped more
    rw [if_pos more] at member
    rcases List.mem_cons.mp member with rfl | member
    · exact step.position_le_place
    · have later := position_le_of_mem_deliveries member
      have place := step.place_lt_position more
      exact Nat.le_trans step.position_le_place (Nat.le_trans (Nat.le_of_lt place) later)
  · rw [if_neg more, List.mem_singleton] at member
    exact member ▸ step.position_le_place
termination_by scanner.rest.length

theorem pairwise_deliveries (scanner : Scanner) :
    scanner.deliveries.Pairwise (place · < place ·) := by
  obtain ⟨first, behind, step⟩ := scanner.exists_step
  have stepped := next_of_step step
  rw [deliveries_of_next stepped]
  by_cases more : isLast first = false
  · have shorter := next_rest_length_lt_of_isLast stepped more
    rw [if_pos more]
    refine List.pairwise_cons.mpr ⟨fun later member => ?_, pairwise_deliveries behind⟩
    exact Nat.lt_of_lt_of_le (step.place_lt_position more) (position_le_of_mem_deliveries member)
  · rw [if_neg more]
    exact List.pairwise_singleton _ _
termination_by scanner.rest.length

def tokenBefore? (position : Nat) : Except Fault Lexeme → Option Token
  | .ok lexeme => if lexeme.position < position then some lexeme.token else none
  | .error _ => none

/-- The tokens that a scanner delivers in front of a position. -/
def tokensBefore (scanner : Scanner) (position : Nat) : List Token :=
  scanner.deliveries.filterMap (tokenBefore? position)

theorem filterMap_tokenBefore? {position : Nat} {lexemes : List Lexeme}
    (before : ∀ lexeme ∈ lexemes, lexeme.position < position) :
    (lexemes.map .ok).filterMap (tokenBefore? position) = lexemes.map Lexeme.token := by
  induction lexemes with
  | nil => rfl
  | cons lexeme others ih =>
      have first : tokenBefore? position (.ok lexeme) = some lexeme.token :=
        if_pos (before lexeme List.mem_cons_self)
      rw [List.map_cons, List.filterMap_cons_some first, List.map_cons,
        ih fun other member => before other (List.mem_cons_of_mem lexeme member)]

theorem tokensBefore_place {scanner : Scanner} {lexemes : List Lexeme}
    {delivered : Except Fault Lexeme} {later : List (Except Fault Lexeme)}
    (split : scanner.deliveries = lexemes.map .ok ++ delivered :: later) :
    scanner.tokensBefore (place delivered) = lexemes.map Lexeme.token := by
  have ordered := scanner.pairwise_deliveries
  rw [split, List.pairwise_append, List.pairwise_cons] at ordered
  obtain ⟨_, ⟨after, _⟩, across⟩ := ordered
  have earlier : (lexemes.map .ok).filterMap (tokenBefore? (place delivered)) =
      lexemes.map Lexeme.token :=
    filterMap_tokenBefore? fun lexeme member =>
      across _ (List.mem_map_of_mem member) delivered List.mem_cons_self
  have others : (delivered :: later).filterMap (tokenBefore? (place delivered)) = [] := by
    refine List.filterMap_eq_nil_iff.mpr fun item member => ?_
    have notBefore : ¬ place item < place delivered := by
      rcases List.mem_cons.mp member with rfl | member
      · exact Nat.lt_irrefl _
      · exact Nat.lt_asymm (after item member)
    cases item with
    | error fault => rfl
    | ok lexeme => exact if_neg notBefore
  rw [tokensBefore, split, List.filterMap_append, earlier, others, List.append_nil]

theorem filter_place {scanner : Scanner} {before later : List (Except Fault Lexeme)}
    {delivered : Except Fault Lexeme} (split : scanner.deliveries = before ++ delivered :: later) :
    scanner.deliveries.filter (fun item => place item = place delivered) = [delivered] := by
  have ordered := scanner.pairwise_deliveries
  rw [split, List.pairwise_append, List.pairwise_cons] at ordered
  obtain ⟨_, ⟨after, _⟩, across⟩ := ordered
  have noneBefore : before.filter (fun item => place item = place delivered) = [] := by
    refine List.filter_eq_nil_iff.mpr fun item member same => ?_
    exact Nat.ne_of_lt (across item member delivered List.mem_cons_self) (of_decide_eq_true same)
  have noneAfter : later.filter (fun item => place item = place delivered) = [] := by
    refine List.filter_eq_nil_iff.mpr fun item member same => ?_
    exact Nat.ne_of_gt (after item member) (of_decide_eq_true same)
  rw [split, List.filter_append, noneBefore, List.filter_cons_of_pos (by simp), noneAfter]
  rfl

variable {scanner : Scanner} {cursor stop : Cursor} {taken : List Lexeme} {fault : Fault}

theorem deliveries_of_ofScanner (started : Cursor.ofScanner scanner = .ok cursor) :
    scanner.deliveries = .ok cursor.lookahead ::
      if cursor.lookahead.token = .endOfInput then [] else cursor.scanner.deliveries := by
  rw [deliveries_of_next (Cursor.ofScanner_eq_ok_iff.mp started)]
  by_cases ended : cursor.lookahead.token = .endOfInput
  · simp [isLast, ended]
  · simp [isLast, ended]

theorem deliveries_of_ofScanner_error (failed : Cursor.ofScanner scanner = .error fault) :
    ∃ later, scanner.deliveries = .error fault :: later := by
  obtain ⟨behind, stepped⟩ := Cursor.ofScanner_eq_error_iff.mp failed
  exact ⟨_, deliveries_of_next stepped⟩

theorem deliveries_of_reads (started : Cursor.ofScanner scanner = .ok cursor)
    (read : cursor.Reads taken stop) :
    scanner.deliveries = taken.map .ok ++ .ok stop.lookahead ::
      if stop.lookahead.token = .endOfInput then [] else stop.scanner.deliveries := by
  induction read generalizing scanner with
  | nil => exact deliveries_of_ofScanner started
  | cons more pulled rest ih =>
      rw [deliveries_of_ofScanner started, if_neg more, ih pulled, List.map_cons, List.cons_append]

theorem invalid_of_ofScanner_error (failed : Cursor.ofScanner scanner = .error fault) :
    ∃ character position, fault = .invalidCharacter character position := by
  obtain ⟨behind, stepped⟩ := Cursor.ofScanner_eq_error_iff.mp failed
  cases next_eq_iff.mp stepped
  exact ⟨_, _, rfl⟩

/-- The end of the text is delivered behind its last byte. -/
theorem position_of_reads_ended (started : Cursor.ofScanner scanner = .ok cursor)
    (read : cursor.Reads taken stop) (ended : stop.lookahead.token = .endOfInput) :
    stop.lookahead.position = scanner.position + byteLength scanner.rest := by
  induction read generalizing scanner with
  | nil cursor =>
      have step := next_eq_iff.mp (Cursor.ofScanner_eq_ok_iff.mp started)
      have delivered : cursor.lookahead = ⟨.endOfInput, cursor.lookahead.position⟩ := by
        rw [← ended]
      rw [delivered] at step
      exact step.position_of_ended
  | cons more pulled rest ih =>
      have step := next_eq_iff.mp (Cursor.ofScanner_eq_ok_iff.mp started)
      rw [ih pulled ended, step.position_add_byteLength]

end Scanner

end Reckon
