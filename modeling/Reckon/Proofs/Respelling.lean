import Reckon.Proofs.Faults
import Reckon.Proofs.Relocation

namespace Reckon

/-! Texts that are spelled in different ways.

A parser asks for nothing but the next item of its scanner, and looks at no place
of it.  Texts with the same items have the same tree, or the same fault about the
item of the same number.  Spaces and the zeros in front of an integer change no
item but in its place.
-/

namespace Scanner

def throughFault : List (Except Fault Lexeme) → List (Except Fault Lexeme)
  | [] => []
  | .ok lexeme :: others => .ok lexeme :: throughFault others
  | .error fault :: _ => [.error fault]

/-- What is delivered up to the first end of the text or the first fault. -/
def items (scanner : Scanner) : List (Except Fault Lexeme) := throughFault scanner.deliveries

/-- A delivery without its place. -/
def unplaced (delivered : Except Fault Lexeme) : Except Fault Lexeme := moveTo 0 delivered

/-- The two scanners deliver the same items, each at a place of its own. -/
def Alike (scanner other : Scanner) : Prop := scanner.items.map unplaced = other.items.map unplaced

variable {scanner other : Scanner} {cursor stop : Cursor} {taken : List Lexeme} {fault : Fault}

theorem items_of_ofScanner (started : Cursor.ofScanner scanner = .ok cursor) :
    scanner.items = .ok cursor.lookahead ::
      if cursor.lookahead.token = .endOfInput then [] else cursor.scanner.items := by
  rw [items, deliveries_of_ofScanner started, throughFault]
  split
  · rfl
  · rfl

theorem items_of_ofScanner_error (failed : Cursor.ofScanner scanner = .error fault) :
    scanner.items = [.error fault] := by
  obtain ⟨later, delivered⟩ := deliveries_of_ofScanner_error failed
  rw [items, delivered, throughFault]

theorem items_of_reads (started : Cursor.ofScanner scanner = .ok cursor)
    (read : cursor.Reads taken stop) :
    scanner.items = taken.map .ok ++ .ok stop.lookahead ::
      if stop.lookahead.token = .endOfInput then [] else stop.scanner.items := by
  induction read generalizing scanner with
  | nil => exact items_of_ofScanner started
  | cons more pulled rest ih =>
      rw [items_of_ofScanner started, if_neg more, ih pulled, List.map_cons, List.cons_append]

theorem eq_moveTo_of_unplaced {delivered counterpart : Except Fault Lexeme}
    (same : unplaced delivered = unplaced counterpart) :
    counterpart = moveTo (place counterpart) delivered := by
  have moved := congrArg (moveTo (place counterpart)) same
  rw [unplaced, unplaced, moveTo_moveTo, moveTo_moveTo, moveTo_place] at moved
  exact moved.symm

namespace Alike

theorem exists_ofScanner_error (alike : Alike scanner other)
    (failed : Cursor.ofScanner scanner = .error fault) :
    ∃ position, Cursor.ofScanner other = .error (fault.moveTo position) := by
  rw [Alike, items_of_ofScanner_error failed] at alike
  cases started : Cursor.ofScanner other with
  | error counterpart =>
      rw [items_of_ofScanner_error started] at alike
      have same := eq_moveTo_of_unplaced (List.cons.inj alike).1
      exact ⟨_, congrArg Except.error (Except.error.inj same)⟩
  | ok cursor =>
      rw [items_of_ofScanner started] at alike
      cases (List.cons.inj alike).1

theorem exists_ofScanner (alike : Alike scanner other)
    (started : Cursor.ofScanner scanner = .ok cursor) :
    ∃ counterpart, Cursor.ofScanner other = .ok counterpart ∧
      counterpart.lookahead.token = cursor.lookahead.token ∧
      (cursor.lookahead.token ≠ .endOfInput → Alike cursor.scanner counterpart.scanner) := by
  rw [Alike, items_of_ofScanner started] at alike
  cases startedOther : Cursor.ofScanner other with
  | error fault =>
      rw [items_of_ofScanner_error startedOther] at alike
      cases (List.cons.inj alike).1
  | ok counterpart =>
      rw [items_of_ofScanner startedOther, List.map_cons, List.map_cons] at alike
      obtain ⟨first, rest⟩ := List.cons.inj alike
      have moved : counterpart.lookahead = ⟨cursor.lookahead.token, _⟩ :=
        Except.ok.inj (eq_moveTo_of_unplaced first)
      have same : counterpart.lookahead.token = cursor.lookahead.token := by rw [moved]
      refine ⟨counterpart, rfl, same, fun more => ?_⟩
      rw [same, if_neg more, if_neg more] at rest
      exact rest

/-- The same is read of both, up to lexemes of the same token. -/
theorem exists_reads (alike : Alike scanner other)
    (started : Cursor.ofScanner scanner = .ok cursor) (read : cursor.Reads taken stop) :
    ∃ start others last, Cursor.ofScanner other = .ok start ∧ start.Reads others last ∧
      words others = words taken ∧ last.lookahead.token = stop.lookahead.token ∧
      (stop.lookahead.token ≠ .endOfInput → Alike stop.scanner last.scanner) := by
  induction read generalizing scanner other with
  | nil cursor =>
      obtain ⟨counterpart, startedOther, same, behind⟩ := alike.exists_ofScanner started
      exact ⟨counterpart, [], counterpart, startedOther, .nil _, rfl, same, behind⟩
  | cons more pulled rest ih =>
      obtain ⟨counterpart, startedOther, same, behind⟩ := alike.exists_ofScanner started
      obtain ⟨next, others, last, pulledOther, readOther, spelled, seen, alikeLast⟩ :=
        ih (behind more) pulled
      have ahead := more
      rw [← same] at ahead
      exact ⟨counterpart, counterpart.lookahead :: others, last, startedOther,
        .cons ahead pulledOther readOther, by simp [words, same, spelled], seen, alikeLast⟩

end Alike

section

variable {start last : Cursor} {others : List Lexeme} {counterpart : Fault}

/-- What is in view behind as many lexemes, and what comes behind it, has the same
numbers among the items. -/
theorem zip_items_of_reads (started : Cursor.ofScanner scanner = .ok cursor)
    (read : cursor.Reads taken stop) (startedOther : Cursor.ofScanner other = .ok start)
    (readOther : start.Reads others last) (spelled : words others = words taken)
    (seen : last.lookahead.token = stop.lookahead.token) :
    ∃ before, scanner.items.zip other.items =
      before ++ (.ok stop.lookahead, .ok last.lookahead) ::
        if stop.lookahead.token = .endOfInput then [] else
          stop.scanner.items.zip last.scanner.items := by
  have count : taken.length = others.length := by
    simpa using (congrArg List.length spelled).symm
  rw [items_of_reads started read, items_of_reads startedOther readOther, seen,
    List.zip_append (by simpa using count), List.zip_cons_cons]
  split
  · exact ⟨_, by rw [List.zip_nil_left]⟩
  · exact ⟨_, rfl⟩

theorem mem_zip_items_of_reads (started : Cursor.ofScanner scanner = .ok cursor)
    (read : cursor.Reads taken stop) (startedOther : Cursor.ofScanner other = .ok start)
    (readOther : start.Reads others last) (spelled : words others = words taken)
    (seen : last.lookahead.token = stop.lookahead.token) :
    (.ok stop.lookahead, .ok last.lookahead) ∈ scanner.items.zip other.items := by
  obtain ⟨before, zipped⟩ := zip_items_of_reads started read startedOther readOther spelled seen
  simp [zipped]

theorem mem_zip_items_of_broken (started : Cursor.ofScanner scanner = .ok cursor)
    (read : cursor.Reads taken stop) (startedOther : Cursor.ofScanner other = .ok start)
    (readOther : start.Reads others last) (spelled : words others = words taken)
    (seen : last.lookahead.token = stop.lookahead.token)
    (more : stop.lookahead.token ≠ .endOfInput)
    (broken : Cursor.ofScanner stop.scanner = .error fault)
    (brokenOther : Cursor.ofScanner last.scanner = .error counterpart) :
    (.error fault, .error counterpart) ∈ scanner.items.zip other.items := by
  obtain ⟨before, zipped⟩ := zip_items_of_reads started read startedOther readOther spelled seen
  rw [zipped, if_neg more, items_of_ofScanner_error broken, items_of_ofScanner_error brokenOther]
  simp

end

end Scanner

variable {text other : String} {mode : Mode}

/-- Both texts have the same tree and value, or faults that differ in their position
alone and are about items of the same number. -/
def SameButPlaces (mode : Mode) (text other : String) : Prop :=
  (∃ tree, parse mode text = .ok tree ∧ parse mode other = .ok tree ∧
    evaluate mode text = .ok tree.value ∧ evaluate mode other = .ok tree.value) ∨
  ∃ fault counterpart, parse mode text = .error fault ∧ parse mode other = .error counterpart ∧
    counterpart = fault.moveTo counterpart.position ∧
    (fault.delivered, counterpart.delivered) ∈
      (Scanner.ofText text).items.zip (Scanner.ofText other).items

/-- What is said of two first expressions, if nothing but their places may differ. -/
inductive FirstAlike (text other : String) :
    Except Fault (Expr × Lexeme) → Except Fault (Expr × Lexeme) → Prop where
  | parsed {tree : Expr} {lexeme counterpart : Lexeme} (same : counterpart.token = lexeme.token)
      (paired : (.ok lexeme, .ok counterpart) ∈
        (Scanner.ofText text).items.zip (Scanner.ofText other).items) :
      FirstAlike text other (.ok (tree, lexeme)) (.ok (tree, counterpart))
  | failed {fault counterpart : Fault} (same : counterpart = fault.moveTo counterpart.position)
      (paired : (fault.delivered, counterpart.delivered) ∈
        (Scanner.ofText text).items.zip (Scanner.ofText other).items) :
      FirstAlike text other (.error fault) (.error counterpart)

theorem parseFirst_alike (alike : (Scanner.ofText text).Alike (.ofText other)) :
    FirstAlike text other (parseFirst text) (parseFirst other) := by
  have reading := parseFirst_reading text
  generalize decided : parseFirst text = result at reading ⊢
  cases reading with
  | unstarted failed =>
      obtain ⟨position, failedOther⟩ := alike.exists_ofScanner_error failed
      obtain ⟨character, place, rfl⟩ := Scanner.invalid_of_ofScanner_error failed
      rw [parseFirst_of_ofScanner_error failedOther]
      refine .failed rfl ?_
      rw [Scanner.items_of_ofScanner_error failed, Scanner.items_of_ofScanner_error failedOther]
      exact List.mem_singleton_self _
  | parsed started read derived within stops =>
      obtain ⟨start, others, last, startedOther, readOther, spelled, seen, _⟩ :=
        alike.exists_reads started read
      obtain ⟨parsed, ran, sameTree, _, sameRest⟩ :=
        (spelled.symm ▸ derived).exists_parsed within readOther (seen ▸ stops)
      have built : Rule.expression maxNesting start = .ok parsed := ran
      rw [parseFirst_of_ofScanner startedOther, built, ← sameTree]
      subst sameRest
      exact .parsed seen
        (Scanner.mem_zip_items_of_reads started read startedOther readOther spelled seen)
  | refused started read refuses =>
      obtain ⟨start, others, last, startedOther, readOther, spelled, seen, _⟩ :=
        alike.exists_reads started read
      have failed : Rule.expression maxNesting start = _ := refuses.rule_eq readOther spelled seen
      rw [parseFirst_of_ofScanner startedOther, failed]
      refine .failed ?_
        (Scanner.mem_zip_items_of_reads started read startedOther readOther spelled seen)
      rw [Cursor.unexpected, Cursor.unexpected, seen]
      rfl
  | unread started read more broken =>
      obtain ⟨start, others, last, startedOther, readOther, spelled, seen, behind⟩ :=
        alike.exists_reads started read
      obtain ⟨position, brokenOther⟩ := (behind more).exists_ofScanner_error broken
      obtain ⟨character, place, rfl⟩ := Scanner.invalid_of_ofScanner_error broken
      have failed : Phrase.expression.rule maxNesting _ = _ :=
        expression_of_parseFirst_error started decided
      have ran : Rule.expression maxNesting start = _ :=
        Phrase.rule_unread failed read broken readOther spelled seen brokenOther
      rw [parseFirst_of_ofScanner startedOther, ran]
      exact .failed rfl (Scanner.mem_zip_items_of_broken started read startedOther readOther spelled
        seen more broken brokenOther)

theorem sameButPlaces_of_alike (alike : (Scanner.ofText text).Alike (.ofText other)) (mode : Mode) :
    SameButPlaces mode text other := by
  have first := parseFirst_alike alike
  generalize decided : parseFirst text = result at first
  generalize decidedOther : parseFirst other = resultOther at first
  cases first with
  | failed same paired =>
      exact .inr ⟨_, _, parse_of_parseFirst_error decided, parse_of_parseFirst_error decidedOther,
        same, paired⟩
  | @parsed tree lexeme counterpart same paired =>
      have read := @parse_of_parseFirst text mode _ _ decided
      have readOther := @parse_of_parseFirst other mode _ _ decidedOther
      obtain ⟨_, position⟩ := lexeme
      obtain ⟨token, place⟩ := counterpart
      subst same
      cases mode with
      | lenient =>
          exact .inl ⟨tree, read, readOther, evaluate_of_parse read, evaluate_of_parse readOther⟩
      | strict =>
          rw [Mode.finish] at read readOther
          by_cases ended : token = .endOfInput
          · rw [if_pos ended] at read readOther
            exact .inl ⟨tree, read, readOther, evaluate_of_parse read, evaluate_of_parse readOther⟩
          · rw [if_neg ended] at read readOther
            exact .inr ⟨_, _, read, readOther, rfl, paired⟩

namespace Scanner

theorem unplaced_relocate (move : Nat → Nat) (delivered : Except Fault Lexeme) :
    unplaced (relocate move delivered) = unplaced delivered :=
  moveTo_moveTo _ _ _

theorem throughFault_map (move : Nat → Nat) (deliveries : List (Except Fault Lexeme)) :
    throughFault (deliveries.map (relocate move)) =
      (throughFault deliveries).map (relocate move) := by
  induction deliveries with
  | nil => rfl
  | cons first others ih =>
      cases first with
      | ok lexeme =>
          rw [throughFault, List.map_cons, List.map_cons, ← ih]
          rfl
      | error fault => rfl

/-- The one scanner delivers what the other does, at other places. -/
def Moved (move : Nat → Nat) (scanner other : Scanner) : Prop :=
  other.deliveries = scanner.deliveries.map (relocate move)

namespace Moved

variable {scanner other : Scanner} {move : Nat → Nat}

theorem items_eq (moved : Moved move scanner other) :
    other.items = scanner.items.map (relocate move) := by
  rw [items, moved, throughFault_map, items]

theorem alike (moved : Moved move scanner other) : scanner.Alike other := by
  simp [Alike, moved.items_eq, Function.comp_def, unplaced_relocate]

end Moved

end Scanner

theorem place_delivered_fault (fault : Fault) : Scanner.place fault.delivered = fault.position := by
  cases fault <;> rfl

theorem parse_of_moved {move : Nat → Nat}
    (moved : Scanner.Moved move (.ofText text) (.ofText other)) (mode : Mode) :
    parse mode other = (parse mode text).mapError (Fault.relocate move) := by
  rcases sameButPlaces_of_alike moved.alike mode with
    ⟨tree, read, readOther, _⟩ | ⟨fault, counterpart, failed, failedOther, same, paired⟩
  · rw [read, readOther]
    rfl
  · have pairs : (Scanner.ofText text).items.zip (Scanner.ofText other).items =
        (Scanner.ofText text).items.map fun item => (item, Scanner.relocate move item) := by
      rw [moved.items_eq]
      simpa using @List.zip_map' _ _ _ id (Scanner.relocate move) (Scanner.ofText text).items
    rw [pairs] at paired
    obtain ⟨item, _, equal⟩ := List.mem_map.mp paired
    obtain ⟨rfl, relocated⟩ := Prod.mk.inj equal
    have place := congrArg Scanner.place relocated
    rw [Scanner.place_relocate, place_delivered_fault, place_delivered_fault] at place
    rw [failed, failedOther, same, ← place]
    rfl

def spaces (count : Nat) : String := String.ofList (List.replicate count ' ')

def zeros (count : Nat) : String := String.ofList (List.replicate count '0')

section

variable {before after : String}

theorem moved_spaces (apart : Apart before.toList after.toList) (count : Nat) :
    Scanner.Moved (Scanner.shiftFrom before.utf8ByteSize count) (.ofText (before ++ after))
      (.ofText (before ++ (spaces count ++ after))) := by
  simpa [Scanner.Moved, Scanner.ofText, spaces, byteLength_toList] using
    Scanner.deliveries_insert_spaces apart count

theorem moved_zeros (plain : endsDigit before.toList = false)
    (first : startsDigit after.toList = true) (count : Nat) :
    Scanner.Moved (Scanner.shiftFrom (before.utf8ByteSize + 1) count) (.ofText (before ++ after))
      (.ofText (before ++ (zeros count ++ after))) := by
  simpa [Scanner.Moved, Scanner.ofText, zeros, byteLength_toList] using
    Scanner.deliveries_insert_zeros plain first count

end

/-- Texts that come from each other by putting in and taking out spaces, but none
between two digits, and zeros in front of integers. -/
inductive Respelled : String → String → Prop where
  | spaces {before after : String} (apart : Apart before.toList after.toList) (count : Nat) :
      Respelled (before ++ after) (before ++ (spaces count ++ after))
  | zeros {before after : String} (plain : endsDigit before.toList = false)
      (first : startsDigit after.toList = true) (count : Nat) :
      Respelled (before ++ after) (before ++ (zeros count ++ after))
  | refl (text : String) : Respelled text text
  | symm {text other : String} (respelled : Respelled text other) : Respelled other text
  | trans {text middle other : String} (first : Respelled text middle)
      (second : Respelled middle other) : Respelled text other

theorem Respelled.alike (respelled : Respelled text other) :
    (Scanner.ofText text).Alike (.ofText other) := by
  induction respelled with
  | spaces apart count => exact (moved_spaces apart count).alike
  | zeros plain first count => exact (moved_zeros plain first count).alike
  | refl text => rfl
  | symm respelled ih => exact Eq.symm ih
  | trans first second firstIH secondIH => exact Eq.trans firstIH secondIH

/-- A fault at the end of the text stands at its length. -/
theorem position_of_parse_error_endOfInput {expected : Expectation} {position : Nat}
    (failed : parse mode text = .error (.unexpectedToken expected .endOfInput position)) :
    position = text.utf8ByteSize := by
  obtain ⟨_, ended⟩ := (located_of_parse_error failed).delivered _ _ _ rfl
  simpa [Scanner.ofText, byteLength_toList] using ended rfl

/-- A text may be spelled in another way.  With the same items it is read as the same
tree, of the same value, or refused for the same reason about the same item, wherever
the items stand.  This is so for all spaces that leave the integers in one piece and
apart from each other, and for zeros in front of an integer; a fault then moves with
its token or character, and at the end of the text with the length of the text. -/
theorem respelling_changes_only_places (mode : Mode) :
    (∀ text other, (Scanner.ofText text).Alike (.ofText other) → SameButPlaces mode text other) ∧
    (∀ text other, Respelled text other →
      (Scanner.ofText text).Alike (.ofText other) ∧ SameButPlaces mode text other) ∧
    (∀ before after count, Apart before.toList after.toList →
      parse mode (before ++ (spaces count ++ after)) =
        (parse mode (before ++ after)).mapError
          (.relocate (Scanner.shiftFrom before.utf8ByteSize count))) ∧
    (∀ before after count, endsDigit before.toList = false → startsDigit after.toList = true →
      parse mode (before ++ (zeros count ++ after)) =
        (parse mode (before ++ after)).mapError
          (.relocate (Scanner.shiftFrom (before.utf8ByteSize + 1) count))) ∧
    ∀ text expected position,
      parse mode text = .error (.unexpectedToken expected .endOfInput position) →
      position = text.utf8ByteSize := by
  refine ⟨fun text other alike => sameButPlaces_of_alike alike mode, fun text other respelled =>
    ⟨respelled.alike, sameButPlaces_of_alike respelled.alike mode⟩, ?_, ?_, ?_⟩
  · exact fun before after count apart => parse_of_moved (moved_spaces apart count) mode
  · exact fun before after count plain first => parse_of_moved (moved_zeros plain first count) mode
  · exact fun text expected position failed => position_of_parse_error_endOfInput failed

theorem respelling_changes_only_places_unclosed :
    parse .strict "(1+" = .error (.unexpectedToken .operand .endOfInput 3) ∧
    parse .strict "( 001   +  " = .error (.unexpectedToken .operand .endOfInput 11) ∧
    SameButPlaces .strict "(1+" "( 001   +  " := by
  have respelled : Respelled "(1+" "( 001   +  " :=
    (((@Respelled.zeros "(" "1+" rfl rfl 2).trans
      (@Respelled.spaces "(" "001+" (.of_endsDigit rfl) 1)).trans
      (@Respelled.spaces "( 001" "+" (.of_startsDigit rfl) 3)).trans
      (@Respelled.spaces "( 001   +" "" (.nil _) 2)
  exact ⟨by decide +kernel, by decide +kernel,
    ((respelling_changes_only_places .strict).2.1 _ _ respelled).2⟩

end Reckon
