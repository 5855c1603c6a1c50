import Reckon.Proofs.Reading
import Reckon.Proofs.Spelling

namespace Reckon

/-! Reading a text that is cut short, or put in front of another.

Both leave the lexemes alone that were read before the seam, as long as no run
of digits lies across it.
-/

theorem Apart.of_append {before after more : List Char} (apart : Apart before (after ++ more)) :
    Apart before after := by
  cases after with
  | nil => exact .nil before
  | cons first others => exact apart

theorem Apart.append {before after more : List Char} (apart : Apart before after)
    (seam : Apart (before ++ after) more) : Apart before (after ++ more) := by
  cases after with
  | nil => simpa using seam
  | cons first others => exact apart

theorem Apart.of_append_left {before after more : List Char} (seam : Apart (before ++ after) more) :
    Apart after more := by
  cases after with
  | nil => exact .of_endsDigit rfl
  | cons first others =>
      unfold Apart at seam ⊢
      rwa [endsDigit_append (by simp)] at seam

namespace Scanner

theorem Step.append {text rest more : List Char} {position behind : Nat} {lexeme : Lexeme}
    (step : Step ⟨text, position⟩ (.ok lexeme) ⟨rest, behind⟩)
    (ahead : lexeme.token ≠ .endOfInput) (apart : Apart text more) :
    Step ⟨text ++ more, position⟩ (.ok lexeme) ⟨rest ++ more, behind⟩ ∧ Apart rest more := by
  cases step with
  | ended split => exact absurd rfl ahead
  | @token count token piece rest split spelled touching =>
      dsimp only at split
      rw [split] at apart
      refine ⟨.token ?_ spelled (touching.append apart.of_append_left),
        apart.of_append_left.of_append_left⟩
      simp [split]

theorem Step.of_spaces {text : List Char} {position count : Nat} {delivered : Except Fault Lexeme}
    {behind : Scanner} (step : Step ⟨text, position + count⟩ delivered behind) :
    Step ⟨List.replicate count ' ' ++ text, position⟩ delivered behind := by
  cases step with
  | @ended more split =>
      dsimp only at split ⊢
      rw [Nat.add_assoc]
      exact .ended (by rw [split, List.replicate_append_replicate])
  | @token more token piece rest split spelled apart =>
      dsimp only at split ⊢
      rw [Nat.add_assoc position]
      refine .token ?_ spelled apart
      rw [split, ← List.append_assoc, List.replicate_append_replicate]
  | @invalid more character rest split invalid =>
      dsimp only at split ⊢
      rw [Nat.add_assoc position]
      refine .invalid ?_ invalid
      rw [split, ← List.append_assoc, List.replicate_append_replicate]

/-- A delivered token does not depend on how far into a text it is. -/
theorem Step.at_position {text : List Char} {position : Nat} {lexeme : Lexeme} {behind : Scanner}
    (step : Step ⟨text, position⟩ (.ok lexeme) behind) (other : Nat) :
    ∃ place after, Step ⟨text, other⟩ (.ok ⟨lexeme.token, place⟩) after := by
  cases step with
  | ended split => exact ⟨_, _, .ended split⟩
  | token split spelled apart => exact ⟨_, _, .token split spelled apart⟩

end Scanner

namespace Cursor

theorem step_of_ofScanner {scanner : Scanner} {cursor : Cursor}
    (started : ofScanner scanner = .ok cursor) :
    Scanner.Step scanner (.ok cursor.lookahead) cursor.scanner :=
  Scanner.next_eq_iff.mp (ofScanner_eq_ok_iff.mp started)

theorem ofScanner_of_step {scanner behind : Scanner} {lexeme : Lexeme}
    (step : Scanner.Step scanner (.ok lexeme) behind) : ofScanner scanner = .ok ⟨lexeme, behind⟩ :=
  ofScanner_eq_ok_iff.mpr (Scanner.next_of_step step)

theorem Reads.glue {text more : List Char} {position : Nat} {cursor stop next : Cursor}
    {taken : List Lexeme} (started : ofScanner ⟨text, position⟩ = .ok cursor)
    (read : cursor.Reads taken stop) (ended : stop.lookahead.token = .endOfInput)
    (apart : Apart text more) (pulled : ofScanner ⟨more, stop.lookahead.position⟩ = .ok next) :
    ∃ start, ofScanner ⟨text ++ more, position⟩ = .ok start ∧ start.Reads taken next := by
  induction read generalizing text position with
  | nil cursor =>
      have step := step_of_ofScanner started
      obtain ⟨⟨token, place⟩, scanner⟩ := cursor
      cases ended
      cases step with
      | @ended count split =>
          dsimp only at split pulled ⊢
          rw [split]
          have further := (step_of_ofScanner pulled).of_spaces
          exact ⟨next, ofScanner_of_step further, .nil next⟩
      | token split spelled _ => exact absurd rfl spelled.ne_endOfInput
  | @cons cursor following stop taken ahead pulledNext rest ih =>
      obtain ⟨lexeme, ⟨others, behind⟩⟩ := cursor
      obtain ⟨step, apartRest⟩ := (step_of_ofScanner started).append ahead apart
      obtain ⟨start, startedRest, readRest⟩ := ih pulledNext ended apartRest pulled
      have stepped := ofScanner_of_step step
      exact ⟨_, stepped, .cons ahead startedRest readRest⟩

/-- Cutting a text where the lexeme in view starts leaves the end of the text in
view there, and the same lexemes before it. -/
theorem Reads.cut {text : List Char} {position : Nat} {cursor stop : Cursor} {taken : List Lexeme}
    (started : ofScanner ⟨text, position⟩ = .ok cursor) (read : cursor.Reads taken stop) :
    ∃ head tail, text = head ++ tail ∧ position + byteLength head = stop.lookahead.position ∧
      (stop.lookahead.token ≠ .endOfInput → tail ≠ []) ∧
      ∃ start last, ofScanner ⟨head, position⟩ = .ok start ∧ start.Reads taken last ∧
        last.lookahead.token = .endOfInput := by
  induction read generalizing text position with
  | nil cursor =>
      have spaces (count : Nat) : Scanner.Step ⟨List.replicate count ' ', position⟩
          (.ok ⟨.endOfInput, position + count⟩) ⟨[], position + count⟩ := .ended rfl
      obtain ⟨lexeme, scanner⟩ := cursor
      cases step_of_ofScanner started with
      | @ended count split =>
          refine ⟨_, [], by simpa using split, by rw [byteLength_replicate_space],
            fun more => absurd rfl more, _, _, ofScanner_of_step (spaces count), .nil _, rfl⟩
      | @token count token piece rest split spelled apart =>
          refine ⟨_, _, split, by rw [byteLength_replicate_space],
            fun _ => by simp [spelled.characters.1], _, _, ofScanner_of_step (spaces count),
            .nil _, rfl⟩
  | @cons cursor following stop taken ahead pulled rest ih =>
      obtain ⟨lexeme, ⟨others, behind⟩⟩ := cursor
      obtain ⟨head, tail, split, place, more, start, last, startedHead, readHead, ended⟩ :=
        ih pulled
      cases step_of_ofScanner started with
      | ended _ => exact absurd rfl ahead
      | @token count token piece _ splitText spelled apart =>
          rw [split] at apart
          have step : Scanner.Step ⟨List.replicate count ' ' ++ (piece ++ head), position⟩
              (.ok ⟨token, position + count⟩) ⟨head, position + count + byteLength piece⟩ :=
            .token rfl spelled apart.of_append
          refine ⟨_, tail, ?_, ?_, more, _, last, ofScanner_of_step step,
            .cons ahead startedHead readHead, ended⟩
          · dsimp only at splitText
            rw [splitText, split]
            simp
          · dsimp only at place
            rw [byteLength_append, byteLength_append, byteLength_replicate_space]
            omega

end Cursor

end Reckon
