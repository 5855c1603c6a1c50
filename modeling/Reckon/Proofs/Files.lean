import Reckon.Proofs.Dumps

namespace Reckon.CommandLine

/-! Texts that stand in a file.

A file holds the bytes of a text, with any number of line ends behind it.  What comes of
them is what comes of the text as an argument.  Line ends inside the text are left as they
are; they belong to no token, so that only a lenient run can pass over them.
-/

theorem isLineEnd_iff {character : Char} :
    isLineEnd character = true ↔ character = '\n' ∨ character = '\r' := by
  simp [isLineEnd]

section Decoding

theorem fromUTF8?_toUTF8 (text : String) : String.fromUTF8? text.toUTF8 = some text := by
  rw [String.fromUTF8?, String.toUTF8_eq_toByteArray, dif_pos text.isValidUTF8]
  rfl

/-- Bytes are refused only if they are the encoding of no text. -/
theorem fromUTF8?_eq_none {bytes : ByteArray} (foreign : ∀ text : String, text.toUTF8 ≠ bytes) :
    String.fromUTF8? bytes = none := by
  rw [String.fromUTF8?]
  split
  · rename_i valid
    exact absurd rfl (foreign (String.ofByteArray bytes valid))
  · rfl

end Decoding

section LineEnds

variable {source ends : String}

theorem dropWhile_reverse_of_getLast? {characters : List Char}
    (plain : ∀ character, characters.getLast? = some character → isLineEnd character = false) :
    characters.reverse.dropWhile isLineEnd = characters.reverse := by
  cases ahead : characters.reverse with
  | nil => rfl
  | cons first others =>
      have last : characters.getLast? = some first := by
        rw [← List.head?_reverse, ahead]
        rfl
      exact List.dropWhile_cons_of_neg (by simp [plain first last])

/-- All that is dropped of a text is the line ends that it closes with. -/
theorem withoutLineEnds_append (noFeed : source.toList.getLast? ≠ some '\n')
    (noReturn : source.toList.getLast? ≠ some '\r')
    (lineEnds : ∀ character ∈ ends.toList, character = '\n' ∨ character = '\r') :
    withoutLineEnds (source ++ ends) = source := by
  have closing : ∀ character ∈ ends.toList.reverse, isLineEnd character = true := by
    intro character member
    exact isLineEnd_iff.mpr (lineEnds character (List.mem_reverse.mp member))
  have inside : ∀ character, source.toList.getLast? = some character →
      isLineEnd character = false := by
    intro character last
    apply Bool.eq_false_iff.mpr
    intro lineEnd
    rcases isLineEnd_iff.mp lineEnd with rfl | rfl
    · exact noFeed last
    · exact noReturn last
  rw [withoutLineEnds, String.toList_append, List.reverse_append,
    List.dropWhile_append_of_pos closing, dropWhile_reverse_of_getLast? inside,
    List.reverse_reverse, String.ofList_toList]

end LineEnds

variable {switches : Switches} {source ends path : String}

theorem evaluateFile_of_text (path : String) (noFeed : source.toList.getLast? ≠ some '\n')
    (noReturn : source.toList.getLast? ≠ some '\r')
    (lineEnds : ∀ character ∈ ends.toList, character = '\n' ∨ character = '\r') :
    evaluateFile switches path (some (source ++ ends).toUTF8) = evaluate switches source := by
  simp only [evaluateFile, Option.bind_some, fromUTF8?_toUTF8,
    withoutLineEnds_append noFeed noReturn lineEnds]

theorem evaluateFile_of_foreign (path : String) {bytes : ByteArray}
    (foreign : ∀ text : String, text.toUTF8 ≠ bytes) :
    evaluateFile switches path (some bytes) = .unreadable path := by
  simp only [evaluateFile, Option.bind_some, fromUTF8?_eq_none foreign]

/-- Of a file that is named, nothing matters but its bytes. -/
theorem run_arguments_file [Monad m] [LawfulMonad m] (readFile : String → m (Option ByteArray))
    (named : switches.file = true) (path : String) :
    run readFile (arguments switches path) = evaluateFile switches path <$> readFile path := by
  simp [run, ofArguments?_arguments, named]

/-- A line end cannot be scanned, and is met unless the run is lenient and has no tokens to
print. -/
theorem status_of_lineEnd (inside : '\n' ∈ source.toList ∨ '\r' ∈ source.toList)
    (thorough : switches.lenient = false ∨ switches.tokens = true) :
    (evaluate switches source).status = 1 := by
  have foreign : ∃ character ∈ source.toList, character ∉ alphabet := by
    rcases inside with member | member
    · exact ⟨'\n', member, by decide⟩
    · exact ⟨'\r', member, by decide⟩
  obtain ⟨fault, failed⟩ := (tokenize_error_iff source).mpr foreign
  cases shown : switches.tokens with
  | true => rw [evaluate_of_tokenize_error shown failed]
  | false =>
      have strict : switches.lenient = false := by simpa [shown] using thorough
      exact status_strict_of_tokenize_error strict shown failed

/-- A run on a file is decided by the bytes of the file.  With the bytes of a text and any
line ends behind it, it is the run on that text as an argument.  A text that has line ends
of its own is refused by every strict run and by every run that prints the tokens, and
bytes that encode no text are refused by all of them. -/
theorem file_read_as_argument [Monad m] [LawfulMonad m] (readFile : String → m (Option ByteArray))
    (path : String) (lenient tokens tree : Bool) :
    run readFile (arguments { file := true, lenient, tokens, tree } path) =
      evaluateFile { file := true, lenient, tokens, tree } path <$> readFile path ∧
    (∀ source ends : String, source.toList.getLast? ≠ some '\n' →
      source.toList.getLast? ≠ some '\r' →
      (∀ character ∈ ends.toList, character = '\n' ∨ character = '\r') →
      readFile path = pure (some (source ++ ends).toUTF8) →
      run readFile (arguments { file := true, lenient, tokens, tree } path) =
        run readFile (arguments { lenient, tokens, tree } source)) ∧
    (∀ source : String, '\n' ∈ source.toList ∨ '\r' ∈ source.toList →
      lenient = false ∨ tokens = true →
      ∃ outcome : Outcome, outcome.status = 1 ∧
        run readFile (arguments { lenient, tokens, tree } source) = pure outcome) ∧
    (∀ bytes : ByteArray, (∀ text : String, text.toUTF8 ≠ bytes) →
      readFile path = pure (some bytes) →
      run readFile (arguments { file := true, lenient, tokens, tree } path) =
        pure ⟨1, "", "Failed to read the input file '" ++ path ++
          "'. Perhaps this file does not exist?" ++ "\n"⟩) := by
  have named : run readFile (arguments { file := true, lenient, tokens, tree } path) = _ :=
    run_arguments_file readFile rfl path
  have direct := @run_arguments m _ readFile { lenient, tokens, tree } rfl
  refine ⟨named, ?_, ?_, ?_⟩
  · intro source ends noFeed noReturn lineEnds content
    rw [named, content, map_pure, evaluateFile_of_text path noFeed noReturn lineEnds, direct]
    rfl
  · intro source inside thorough
    exact ⟨_, status_of_lineEnd inside thorough, direct source⟩
  · intro bytes foreign content
    rw [named, content, map_pure, evaluateFile_of_foreign path foreign]
    rfl

/-- A line end in the middle of a text stays, and a byte that begins no character is not
passed over. -/
theorem file_read_as_argument_broken :
    run (m := Id) (fun _ => some ("2\n*3" ++ "\r\n\n").toUTF8)
        (arguments { file := true, lenient := true, tokens := true } "sum") =
      run (m := Id) (fun _ => some ("2\n*3" ++ "\r\n\n").toUTF8)
        (arguments { lenient := true, tokens := true } "2\n*3") ∧
    (∃ outcome : Outcome, outcome.status = 1 ∧
      run (m := Id) (fun _ => none) (arguments { lenient := true, tokens := true } "2\n*3") =
        outcome) ∧
    run (m := Id) (fun _ => some ⟨#[49, 255]⟩) (arguments { file := true, tree := true } "sum") =
      ⟨1, "", "Failed to read the input file 'sum'. Perhaps this file does not exist?\n"⟩ := by
  have foreign : ∀ text : String, text.toUTF8 ≠ ⟨#[49, 255]⟩ := by
    intro text same
    have decoded := fromUTF8?_toUTF8 text
    rw [same, show String.fromUTF8? ⟨#[49, 255]⟩ = none by decide +kernel] at decoded
    cases decoded
  refine ⟨?_, ?_, ?_⟩
  · exact (file_read_as_argument (m := Id) _ "sum" true true false).2.1 "2\n*3" "\r\n\n"
      (by decide) (by decide) (by simp) rfl
  · exact (file_read_as_argument (m := Id) _ "sum" true true false).2.2.1 "2\n*3" (.inl (by decide))
      (.inr rfl)
  · exact (file_read_as_argument (m := Id) _ "sum" false false true).2.2.2 _ foreign rfl

example : evaluateFile { lenient := true } "sum" (some "7 / 2 \n1\r\n".toUTF8) =
    ⟨1, "", "Error at position 6: Invalid character '\n'.\n"⟩ := by
  decide +kernel

end Reckon.CommandLine
