import Mathlib.Data.List.Forall2
import Reckon.CommandLine
import Reckon.Proofs.OnDemand
import Reckon.Proofs.Texts

namespace Reckon.CommandLine

/-! What the dumps of tokens and tree add to a run.

A run reads its text up to three times, once for every section that it prints.
The tree and the value come of the same parse, and so stand or fall together;
the tokens are those of the whole text, and alone fail where it cannot be scanned.
-/

/-- The arguments that switch on what is wanted, with contents that are no switch. -/
def arguments (switches : Switches) (contents : String) : List String :=
  (if switches.file then ["--file"] else []) ++ (if switches.lenient then ["--lenient"] else []) ++
  (if switches.tokens then ["--tokens"] else []) ++ (if switches.tree then ["--ast"] else []) ++
  ["--", contents]

theorem ofArguments?_arguments (switches : Switches) (contents : String) :
    Command.ofArguments? (arguments switches contents) = some (.evaluate switches contents) := by
  obtain ⟨file, lenient, tokens, tree⟩ := switches
  cases file <;> cases lenient <;> cases tokens <;> cases tree <;> rfl

theorem run_arguments [Monad m] (readFile : String → m (Option ByteArray)) {switches : Switches}
    (direct : switches.file = false) (source : String) :
    run readFile (arguments switches source) = pure (evaluate switches source) := by
  simp [run, ofArguments?_arguments, direct]

theorem forall₂_line_text (lexemes : List Lexeme) :
    List.Forall₂ (fun lexeme printed => ∃ written, lexeme.token.Written written ∧
        printed = Nat.repr lexeme.position ++ ": " ++ written ++ "\n")
      lexemes (lexemes.map fun lexeme => line lexeme.text) := by
  rw [List.forall₂_map_right_iff, List.forall₂_same]
  exact fun lexeme _ => ⟨lexeme.token.text, lexeme.token.written_text, rfl⟩

variable {switches : Switches} {source : String} {fault : Fault} {tree : Expr}

theorem evaluate_of_parse_ok (quiet : switches.tokens = false)
    (parsed : Reckon.parse switches.mode source = .ok tree) :
    evaluate switches source =
      ⟨0, (if switches.tree then line tree.render else "") ++
        line (Number.text tree.value), ""⟩ := by
  have value : valueSection switches.mode source = .ok (line (Number.text tree.value)) := by
    rw [valueSection, evaluate_of_parse parsed]
    rfl
  have shown : treeSection switches.mode source = .ok (line tree.render) := by
    rw [treeSection, parsed]
    rfl
  cases dumped : switches.tree <;>
    simp [evaluate, sections, quiet, dumped, value, shown, Outcome.ofSections]

theorem evaluate_of_parse_error (quiet : switches.tokens = false)
    (failed : Reckon.parse switches.mode source = .error fault) :
    evaluate switches source = ⟨1, "", line fault.message⟩ := by
  have value : valueSection switches.mode source = .error fault := by
    rw [valueSection, evaluate_eq_map_parse, failed]
    rfl
  have shown : treeSection switches.mode source = .error fault := by
    rw [treeSection, failed]
    rfl
  cases dumped : switches.tree <;>
    simp [evaluate, sections, quiet, dumped, value, shown, Outcome.ofSections]

/-- A run without tokens succeeds exactly where the text has a tree. -/
theorem status_eq_zero_iff (quiet : switches.tokens = false) :
    (evaluate switches source).status = 0 ↔
      ∃ tree, Reckon.parse switches.mode source = .ok tree := by
  cases parsed : Reckon.parse switches.mode source with
  | ok tree => simp [evaluate_of_parse_ok quiet parsed]
  | error fault => simp [evaluate_of_parse_error quiet parsed]

theorem evaluate_of_tokens (shown : switches.tokens = true) :
    evaluate switches source =
      Outcome.ofSections
        (tokenSection source :: sections { switches with tokens := false } source) := by
  simp [evaluate, sections, shown, Switches.mode]

theorem evaluate_of_tokenize {lexemes : List Lexeme} (shown : switches.tokens = true)
    (tokenized : tokenize source = .ok lexemes) :
    evaluate switches source =
      { evaluate { switches with tokens := false } source with
        output := String.join (lexemes.map fun lexeme => line lexeme.text) ++
          (evaluate { switches with tokens := false } source).output } := by
  rw [evaluate_of_tokens shown, tokenSection, tokenized]
  rfl

theorem evaluate_of_tokenize_error (shown : switches.tokens = true)
    (failed : tokenize source = .error fault) :
    evaluate switches source = ⟨1, "", line fault.message⟩ := by
  rw [evaluate_of_tokens shown, tokenSection, failed]
  rfl

/-- The two runs without tokens come of the same parse. -/
theorem evaluate_tree_of_quiet (file lenient : Bool) (source : String) :
    (∃ tree, Reckon.parse (if lenient then .lenient else .strict) source = .ok tree ∧
      evaluate { file, lenient } source = ⟨0, line (Number.text tree.value), ""⟩ ∧
      evaluate { file, lenient, tree := true } source =
        ⟨0, line tree.render ++ line (Number.text tree.value), ""⟩) ∨
    ∃ fault : Fault, evaluate { file, lenient } source = ⟨1, "", line fault.message⟩ ∧
      evaluate { file, lenient, tree := true } source = ⟨1, "", line fault.message⟩ := by
  cases parsed : Reckon.parse (if lenient then .lenient else .strict) source with
  | ok tree =>
      have plain := @evaluate_of_parse_ok { file, lenient } source tree rfl parsed
      have dumped := @evaluate_of_parse_ok { file, lenient, tree := true } source tree rfl parsed
      exact .inl ⟨tree, rfl, by simpa using plain, by simpa using dumped⟩
  | error fault =>
      exact .inr ⟨fault, @evaluate_of_parse_error { file, lenient } source fault rfl parsed,
        @evaluate_of_parse_error { file, lenient, tree := true } source fault rfl parsed⟩

/-- A tree is one more line in front of the value, and nothing where there is no value.
Tokens put the same lines in front of both runs, or end them alike. -/
theorem evaluate_with_tree (file lenient tokens : Bool) (source : String) :
    (∃ tree before, Reckon.parse (if lenient then .lenient else .strict) source = .ok tree ∧
      evaluate { file, lenient, tokens } source =
        ⟨0, before ++ line (Number.text tree.value), ""⟩ ∧
      evaluate { file, lenient, tokens, tree := true } source =
        ⟨0, before ++ (line tree.render ++ line (Number.text tree.value)), ""⟩) ∨
    ((evaluate { file, lenient, tokens } source).status = 1 ∧
      evaluate { file, lenient, tokens, tree := true } source =
        evaluate { file, lenient, tokens } source) := by
  have quiet := evaluate_tree_of_quiet file lenient source
  cases tokens with
  | false =>
      rcases quiet with ⟨tree, parsed, plain, dumped⟩ | ⟨fault, plain, dumped⟩
      · exact .inl ⟨tree, "", parsed, by simpa using plain, by simpa using dumped⟩
      · exact .inr ⟨by rw [plain], by rw [plain, dumped]⟩
  | true =>
      cases tokenized : tokenize source with
      | error fault =>
          have failed (tree : Bool) := @evaluate_of_tokenize_error
            { file, lenient, tokens := true, tree } source fault rfl tokenized
          exact .inr ⟨by rw [failed], by rw [failed, failed]⟩
      | ok lexemes =>
          have shown (tree : Bool) := @evaluate_of_tokenize
            { file, lenient, tokens := true, tree } source lexemes rfl tokenized
          dsimp only at shown ⊢
          rw [shown, shown]
          rcases quiet with ⟨tree, parsed, plain, dumped⟩ | ⟨fault, plain, dumped⟩
          · exact .inl ⟨tree, _, parsed, by rw [plain], by rw [dumped]⟩
          · exact .inr ⟨by rw [plain], by rw [plain, dumped]⟩

/-- The part in front of the first character of a kind, and that character, are
the same in all ways to split a text there. -/
theorem first_unique {valid : Char → Prop} {before other after more : List Char}
    {character found : Char} (equal : before ++ character :: after = other ++ found :: more)
    (early : ∀ one ∈ before, valid one) (earlyOther : ∀ one ∈ other, valid one)
    (broken : ¬ valid character) (brokenFound : ¬ valid found) :
    before = other ∧ character = found := by
  induction before generalizing other with
  | nil =>
      cases other with
      | nil => exact ⟨rfl, (List.cons.inj equal).1⟩
      | cons first others =>
          rw [(List.cons.inj equal).1] at broken
          exact absurd (earlyOther first List.mem_cons_self) broken
  | cons first others ih =>
      cases other with
      | nil =>
          rw [← (List.cons.inj equal).1] at brokenFound
          exact absurd (early first List.mem_cons_self) brokenFound
      | cons second rest =>
          obtain ⟨rfl, behind⟩ := List.cons.inj equal
          obtain ⟨rfl, same⟩ := ih behind
            (fun one member => early one (List.mem_cons_of_mem first member))
            (fun one member => earlyOther one (List.mem_cons_of_mem first member))
          exact ⟨rfl, same⟩

theorem tokenize_of_first_invalid {before after : List Char} {character : Char}
    (split : source.toList = before ++ character :: after)
    (valid : ∀ other ∈ before, other ∈ alphabet) (foreign : character ∉ alphabet) :
    tokenize source = .error (.invalidCharacter character (byteLength before)) := by
  obtain ⟨fault, failed⟩ := (tokenize_error_iff source).mpr ⟨character, by simp [split], foreign⟩
  obtain ⟨other, found, more, splitOther, validOther, invalid, rfl⟩ :=
    Scanner.exists_invalid_of_tokens_error failed
  have known (one : Char) (plain : ¬ Invalid one) : one ∈ alphabet :=
    Classical.not_not.mp (mt invalid_iff_not_mem_alphabet.mpr plain)
  obtain ⟨rfl, rfl⟩ := first_unique (split.symm.trans splitOther) valid
    (fun one member => known one (validOther one member)) foreign
    (invalid_iff_not_mem_alphabet.mp invalid)
  rw [failed, Scanner.ofText, Nat.zero_add]

theorem exists_tokenize_of_alphabet (valid : ∀ character ∈ source.toList, character ∈ alphabet) :
    ∃ others, tokenize source = .ok (others ++ [⟨.endOfInput, source.utf8ByteSize⟩]) := by
  cases tokenized : tokenize source with
  | error fault =>
      obtain ⟨character, member, foreign⟩ := (tokenize_error_iff source).mp ⟨fault, tokenized⟩
      exact absurd (valid character member) foreign
  | ok lexemes =>
      obtain ⟨cursor, taken, stop, started, read, ended, rfl⟩ :=
        Scanner.exists_reads_of_tokens tokenized
      have place := Scanner.position_of_reads_ended started read ended
      rw [Scanner.ofText, Nat.zero_add, byteLength_toList] at place
      exact ⟨taken, by rw [← place, ← ended]⟩

/-- Where the tokens cannot be printed, a strict run has no value to print either. -/
theorem status_strict_of_tokenize_error (strict : switches.lenient = false)
    (quiet : switches.tokens = false) (failed : tokenize source = .error fault) :
    (evaluate switches source).status = 1 := by
  obtain ⟨failure, rejected, _⟩ := parse_strict_of_tokenize_error failed
  have mode : switches.mode = .strict := by rw [Switches.mode, strict]; rfl
  rw [evaluate_of_parse_error quiet (mode ▸ rejected)]

/-- With the tree a run prints one more line in front of the value, and is the same
run where it fails.  With the tokens it prints one line for each of them in front
of all else, the end of the text included and even if the text is no expression;
but a text with a character of no token is then refused for the first of them.
Only a lenient run can come to fail in this way. -/
theorem dumps_only_add_output [Monad m] (readFile : String → m (Option ByteArray))
    (source : String) (lenient : Bool) :
    (∀ tokens tree, run readFile (arguments { lenient, tokens, tree } source) =
      pure (evaluate { lenient, tokens, tree } source)) ∧
    (∀ tokens,
      (∃ tree before, Reckon.parse (if lenient then .lenient else .strict) source = .ok tree ∧
        evaluate { lenient, tokens } source =
          ⟨0, before ++ (Number.text tree.value ++ "\n"), ""⟩ ∧
        evaluate { lenient, tokens, tree := true } source =
          ⟨0, before ++ (tree.render ++ "\n" ++ (Number.text tree.value ++ "\n")), ""⟩) ∨
      ((evaluate { lenient, tokens } source).status = 1 ∧
        evaluate { lenient, tokens, tree := true } source = evaluate { lenient, tokens } source)) ∧
    ((∀ character ∈ source.toList, character ∈ alphabet) →
      ∃ lexemes others lines, tokenize source = .ok lexemes ∧
        lexemes = others ++ [⟨.endOfInput, source.utf8ByteSize⟩] ∧
        List.Forall₂ (fun lexeme printed => ∃ written, lexeme.token.Written written ∧
          printed = Nat.repr lexeme.position ++ ": " ++ written ++ "\n") lexemes lines ∧
        ∀ tree, evaluate { lenient, tokens := true, tree } source =
          { evaluate { lenient, tree } source with
            output := String.join lines ++ (evaluate { lenient, tree } source).output }) ∧
    (∀ before character after, source.toList = before ++ character :: after →
      (∀ other ∈ before, other ∈ alphabet) → character ∉ alphabet →
      ∀ tree, evaluate { lenient, tokens := true, tree } source =
        ⟨1, "", "Error at position " ++ Nat.repr (byteLength before) ++ ": Invalid character '" ++
          character.toString ++ "'." ++ "\n"⟩) ∧
    (∀ tree, lenient = false →
      (evaluate { lenient, tokens := true, tree } source).status =
        (evaluate { lenient, tree } source).status) ∧
    (∀ tree, lenient = true →
      ((evaluate { lenient, tree } source).status = 0 ∧
          (evaluate { lenient, tokens := true, tree } source).status ≠ 0 ↔
        (∃ parsed, Reckon.parse .lenient source = .ok parsed) ∧
          ∃ character ∈ source.toList, character ∉ alphabet)) := by
  have shown {lexemes : List Lexeme} (tokenized : tokenize source = .ok lexemes) (tree : Bool) :=
    @evaluate_of_tokenize { lenient, tokens := true, tree } source lexemes rfl tokenized
  have refused {fault : Fault} (failed : tokenize source = .error fault) (tree : Bool) :=
    @evaluate_of_tokenize_error { lenient, tokens := true, tree } source fault rfl failed
  refine ⟨fun tokens tree => run_arguments readFile rfl source,
    fun tokens => evaluate_with_tree false lenient tokens source, ?_, ?_, ?_, ?_⟩
  · intro valid
    obtain ⟨others, tokenized⟩ := exists_tokenize_of_alphabet valid
    exact ⟨_, others, _, tokenized, rfl, forall₂_line_text _, shown tokenized⟩
  · intro before character after split valid foreign tree
    rw [← Fault.message_invalidCharacter]
    exact refused (tokenize_of_first_invalid split valid foreign) tree
  · intro tree strict
    cases tokenized : tokenize source with
    | ok lexemes => rw [shown tokenized]
    | error fault =>
        rw [refused tokenized]
        exact (status_strict_of_tokenize_error strict rfl tokenized).symm
  · intro tree chosen
    subst chosen
    have success : (evaluate { lenient := true, tree } source).status = 0 ↔
        ∃ parsed, Reckon.parse .lenient source = .ok parsed := status_eq_zero_iff rfl
    rw [success, ← tokenize_error_iff]
    cases tokenized : tokenize source with
    | ok lexemes => simp [shown tokenized, success]
    | error fault => simp [refused tokenized]

/-- A run with both dumps, and a lenient run that leaves a foreign character alone unless
the tokens are asked for. -/
theorem dumps_only_add_output_runs :
    evaluate { tokens := true, tree := true } "1 +2" =
      ⟨0, "0: integer 1\n2: '+'\n3: integer 2\n4: end of input\n(1 + 2)\n3\n", ""⟩ ∧
    (evaluate { lenient := true } "1 2é").status = 0 ∧
    evaluate { lenient := true, tokens := true } "1 2é" =
      ⟨1, "", "Error at position 3: Invalid character 'é'.\n"⟩ := by
  obtain ⟨_, _, added, _⟩ := dumps_only_add_output (m := Id) (fun _ => none) "1 +2" false
  obtain ⟨_, _, _, refused, _, lenient⟩ :=
    dumps_only_add_output (m := Id) (fun _ => none) "1 2é" true
  refine ⟨?_, ?_, ?_⟩
  · obtain ⟨lexemes, others, lines, tokenized, _, listed, dumped⟩ := added (by simp [alphabet])
    have known : tokenize "1 +2" = .ok [⟨.integer (Number.nearest 1), 0⟩, ⟨.plus, 2⟩,
        ⟨.integer (Number.nearest 2), 3⟩, ⟨.endOfInput, 4⟩] := by decide +kernel
    obtain rfl := Except.ok.inj (known.symm.trans tokenized)
    simp only [List.forall₂_cons_left_iff, List.forall₂_nil_left_iff, Token.written_iff,
      exists_eq_left'] at listed
    obtain ⟨_, _, rfl, ⟨_, _, rfl, ⟨_, _, rfl, ⟨_, _, rfl, rfl, rfl⟩, rfl⟩, rfl⟩, rfl⟩ := listed
    rw [dumped true]
    decide +kernel
  · have accepted : Reckon.parse .lenient "1 2é" = .ok (.literal (Number.ofDigits ['1'])) := by
      decide +kernel
    exact ((lenient false rfl).mpr ⟨⟨_, accepted⟩, 'é', by decide, by decide⟩).1
  · exact refused ['1', ' ', '2'] 'é' [] rfl (by simp [alphabet]) (by decide) false

end Reckon.CommandLine
