import Reckon.Cursor

namespace Reckon

/-! What was read between two cursors.

`Cursor.Reads` forgets which rule asked for a lexeme and keeps the lexemes
themselves; it is what ties the tree of a rule to the tokens that it took.
-/

theorem Cursor.ofScanner_eq_ok_iff {scanner : Scanner} {cursor : Cursor} :
    ofScanner scanner = .ok cursor ↔ scanner.next = (.ok cursor.lookahead, cursor.scanner) := by
  unfold ofScanner
  rcases step : scanner.next with ⟨fault | lexeme, behind⟩
  · simp
  · simp only [Except.ok.injEq, Prod.mk.injEq]
    exact ⟨fun equal => by subst equal; exact ⟨rfl, rfl⟩, fun ⟨first, second⟩ => by
      subst first second; rfl⟩

theorem Cursor.ofScanner_eq_error_iff {scanner : Scanner} {fault : Fault} :
    ofScanner scanner = .error fault ↔ ∃ behind, scanner.next = (.error fault, behind) := by
  unfold ofScanner
  rcases step : scanner.next with ⟨fault' | lexeme, behind⟩ <;> simp

/-- Pulls nothing further than the lexeme in view of the last cursor. -/
inductive Cursor.Reads : Cursor → List Lexeme → Cursor → Prop where
  | nil (cursor : Cursor) : Reads cursor [] cursor
  | cons {cursor next stop : Cursor} {taken : List Lexeme}
      (more : cursor.lookahead.token ≠ .endOfInput)
      (pulled : ofScanner cursor.scanner = .ok next) (rest : Reads next taken stop) :
      Reads cursor (cursor.lookahead :: taken) stop

namespace Cursor

variable {start middle stop next : Cursor} {taken more : List Lexeme}

theorem Reads.append (first : start.Reads taken middle) (second : middle.Reads more stop) :
    start.Reads (taken ++ more) stop := by
  induction first with
  | nil => exact second
  | cons ahead pulled rest ih => exact .cons ahead pulled (ih second)

theorem Reads.single (ahead : start.lookahead.token ≠ .endOfInput)
    (pulled : ofScanner start.scanner = .ok next) : start.Reads [start.lookahead] next :=
  .cons ahead pulled (.nil next)

theorem Reads.exists_middle (read : start.Reads (taken ++ more) stop) :
    ∃ middle, start.Reads taken middle ∧ middle.Reads more stop := by
  induction taken generalizing start with
  | nil => exact ⟨start, .nil start, read⟩
  | cons lexeme taken ih =>
      cases read with
      | cons ahead pulled rest =>
          obtain ⟨middle, first, second⟩ := ih rest
          exact ⟨middle, .cons ahead pulled first, second⟩

theorem Reads.lookahead_eq {lexeme : Lexeme} (read : start.Reads (lexeme :: taken) stop) :
    start.lookahead = lexeme := by
  cases read
  rfl

theorem Reads.ne_endOfInput (read : start.Reads taken stop) :
    ∀ lexeme ∈ taken, lexeme.token ≠ .endOfInput := by
  induction read with
  | nil => simp
  | cons ahead pulled rest ih => exact List.forall_mem_cons.mpr ⟨ahead, ih⟩

/-- The cursor behind what was taken came from some scanner as well. -/
theorem Reads.exists_ofScanner {scanner : Scanner} (started : ofScanner scanner = .ok start)
    (read : start.Reads taken stop) : ∃ last, ofScanner last = .ok stop := by
  induction read generalizing scanner with
  | nil => exact ⟨scanner, started⟩
  | cons ahead pulled rest ih => exact ih pulled

section Eat

variable {expected : Token.Kind}

/-- Where what is asked for is in view, nothing is left to be decided by the comparison. -/
theorem map_eat (seen : start.lookahead.token.kind = expected) :
    (start.eat expected).map Subtype.val = ofScanner start.scanner := by
  unfold eat
  rw [dif_pos seen]
  split
  · rename_i pulled
    exact pulled.symm
  · rename_i pulled
    exact pulled.symm

theorem exists_eat (seen : start.lookahead.token.kind = expected)
    (pulled : ofScanner start.scanner = .ok next) :
    ∃ shorter, start.eat expected = .ok ⟨next, shorter⟩ := by
  rw [← map_eat seen] at pulled
  cases eaten : start.eat expected with
  | error fault => rw [eaten] at pulled; cases pulled
  | ok result =>
      rw [eaten] at pulled
      cases pulled
      exact ⟨result.2, rfl⟩

theorem ofScanner_of_eat_ok (seen : start.lookahead.token.kind = expected)
    {result : { next : Cursor // expected ≠ .endOfInput → next.remaining < start.remaining }}
    (eaten : start.eat expected = .ok result) : ofScanner start.scanner = .ok result.1 := by
  rw [← map_eat seen, eaten]
  rfl

theorem ofScanner_of_eat_error (seen : start.lookahead.token.kind = expected) {fault : Fault}
    (failed : start.eat expected = .error fault) : ofScanner start.scanner = .error fault := by
  rw [← map_eat seen, failed]
  rfl

/-- Behind the end of a text there is the end of it again. -/
theorem exists_ofScanner_of_ended {scanner : Scanner} (started : ofScanner scanner = .ok start)
    (ended : start.lookahead.token = .endOfInput) :
    ∃ next, ofScanner start.scanner = .ok next := by
  obtain ⟨⟨token, position⟩, ⟨rest, place⟩⟩ := start
  subst ended
  obtain rfl := Scanner.next_rest_of_endOfInput (ofScanner_eq_ok_iff.mp started)
  exact ⟨_, rfl⟩

theorem exists_eat_endOfInput {scanner : Scanner} (started : ofScanner scanner = .ok start)
    (ended : start.lookahead.token = .endOfInput) :
    ∃ result, start.eat .endOfInput = .ok result := by
  obtain ⟨next, pulled⟩ := exists_ofScanner_of_ended started ended
  obtain ⟨_, eaten⟩ := exists_eat (Token.kind_eq_endOfInput_iff.mpr ended) pulled
  exact ⟨_, eaten⟩

theorem eat_of_ne (other : start.lookahead.token.kind ≠ expected) :
    start.eat expected = .error (start.unexpected (.kind expected)) := by
  rw [eat, dif_neg other]

end Eat

end Cursor

namespace Scanner

variable {scanner : Scanner} {cursor stop : Cursor} {taken : List Lexeme}

theorem tokens_of_ofScanner (started : Cursor.ofScanner scanner = .ok cursor) :
    scanner.tokens = if cursor.lookahead.token = .endOfInput then .ok [cursor.lookahead]
      else (cursor.lookahead :: ·) <$> cursor.scanner.tokens := by
  have step := Cursor.ofScanner_eq_ok_iff.mp started
  rw [tokens]
  split
  · rename_i fault behind delivered
    cases delivered.symm.trans step
  · rename_i lexeme behind delivered
    cases delivered.symm.trans step
    rfl

theorem tokens_of_ofScanner_error {fault : Fault}
    (failed : Cursor.ofScanner scanner = .error fault) :
    scanner.tokens = .error fault := by
  obtain ⟨behind, step⟩ := Cursor.ofScanner_eq_error_iff.mp failed
  rw [tokens]
  split
  · rename_i fault' behind' delivered
    cases delivered.symm.trans step
    rfl
  · rename_i lexeme behind' delivered
    cases delivered.symm.trans step

theorem tokens_of_reads (started : Cursor.ofScanner scanner = .ok cursor)
    (read : cursor.Reads taken stop) (ended : stop.lookahead.token = .endOfInput) :
    scanner.tokens = .ok (taken ++ [stop.lookahead]) := by
  induction read generalizing scanner with
  | nil => rw [tokens_of_ofScanner started, if_pos ended, List.nil_append]
  | cons ahead pulled rest ih =>
      rw [tokens_of_ofScanner started, if_neg ahead, ih pulled ended]
      rfl

/-- What a scanner delivers as a whole is what was taken from it and what the
scanner behind the lexeme in view goes on with. -/
theorem tokens_of_reads_more (started : Cursor.ofScanner scanner = .ok cursor)
    (read : cursor.Reads taken stop) (more : stop.lookahead.token ≠ .endOfInput) :
    scanner.tokens = (fun others => taken ++ stop.lookahead :: others) <$> stop.scanner.tokens := by
  induction read generalizing scanner with
  | nil => rw [tokens_of_ofScanner started, if_neg more]; rfl
  | @cons cursor next stop taken ahead pulled rest ih =>
      rw [tokens_of_ofScanner started, if_neg ahead, ih pulled more]
      cases stop.scanner.tokens <;> rfl

theorem exists_reads_of_tokens {scanner : Scanner} {lexemes : List Lexeme}
    (delivered : scanner.tokens = .ok lexemes) :
    ∃ cursor taken stop, Cursor.ofScanner scanner = .ok cursor ∧ cursor.Reads taken stop ∧
      stop.lookahead.token = .endOfInput ∧ lexemes = taken ++ [stop.lookahead] := by
  cases started : Cursor.ofScanner scanner with
  | error fault => cases (tokens_of_ofScanner_error started).symm.trans delivered
  | ok cursor =>
      rw [tokens_of_ofScanner started] at delivered
      split at delivered
      · rename_i ended
        cases delivered
        exact ⟨cursor, [], cursor, rfl, .nil cursor, ended, rfl⟩
      · rename_i ahead
        have shorter : cursor.scanner.rest.length < scanner.rest.length :=
          next_rest_length_lt (Cursor.ofScanner_eq_ok_iff.mp started)
            (by intro position equal; exact ahead (congrArg Lexeme.token (Except.ok.inj equal)))
        cases behind : cursor.scanner.tokens with
        | error fault => rw [behind] at delivered; cases delivered
        | ok others =>
            rw [behind] at delivered
            cases delivered
            obtain ⟨next, taken, stop, pulled, read, ended, rfl⟩ := exists_reads_of_tokens behind
            exact ⟨cursor, _, stop, rfl, .cons ahead pulled read, ended, rfl⟩
termination_by scanner.rest.length

end Scanner

end Reckon
