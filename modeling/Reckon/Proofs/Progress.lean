import Reckon.Proofs.Bookkeeping

namespace Reckon

/-! How far a parser gets.

A call that comes to a tree has consumed tokens, and so has every link of a chain.  What a
parser consumes it takes from the front of what its scanner delivers, and only the last thing
that it takes can be the end of the text.  So it asks no more often than there are tokens, but
for the lexeme in view and for one behind the end.
-/

namespace Scanner

/-- Whether a delivery is a token in front of the end of the text. -/
def isToken : Except Fault Lexeme → Bool
  | .ok lexeme => decide (lexeme.token ≠ .endOfInput)
  | .error _ => false

/-- How many tokens there are up to the end of the text or the first invalid character. -/
def tokenCount (scanner : Scanner) : Nat := (scanner.deliveries.takeWhile isToken).length

variable {scanner : Scanner} {cursor stop : Cursor} {taken : List Lexeme}

theorem tokenCount_of_reads (started : Cursor.ofScanner scanner = .ok cursor)
    (read : cursor.Reads taken stop) :
    scanner.tokenCount = taken.length +
      ((.ok stop.lookahead :: if stop.lookahead.token = .endOfInput then []
        else stop.scanner.deliveries : List (Except Fault Lexeme)).takeWhile isToken).length := by
  have tokens : ∀ delivered ∈ taken.map .ok, isToken delivered = true := by
    intro delivered member
    obtain ⟨lexeme, inside, rfl⟩ := List.mem_map.mp member
    exact decide_eq_true (read.ne_endOfInput lexeme inside)
  rw [tokenCount, deliveries_of_reads started read, List.takeWhile_append_of_pos tokens,
    List.length_append, List.length_map]

theorem length_le_tokenCount (started : Cursor.ofScanner scanner = .ok cursor)
    (read : cursor.Reads taken stop) : taken.length ≤ scanner.tokenCount := by
  rw [tokenCount_of_reads started read]
  exact Nat.le_add_right _ _

theorem length_lt_tokenCount (started : Cursor.ofScanner scanner = .ok cursor)
    (read : cursor.Reads taken stop) (more : stop.lookahead.token ≠ .endOfInput) :
    taken.length < scanner.tokenCount := by
  have ahead : isToken (.ok stop.lookahead) = true := decide_eq_true more
  rw [tokenCount_of_reads started read, List.takeWhile_cons_of_pos ahead]
  exact Nat.lt_add_of_pos_right (Nat.succ_pos _)

end Scanner

theorem Cursor.Reads.length_pos {start stop : Cursor} {taken : List Lexeme}
    (read : start.Reads taken stop) (shorter : stop.remaining < start.remaining) :
    1 ≤ taken.length := by
  cases read with
  | nil => exact absurd shorter (Nat.lt_irrefl _)
  | cons => exact Nat.le_add_left 1 _

namespace Machine

/-- The machine comes to do something else with the same calls open, at least so many tokens
further on, and none of them is the end of the text. -/
def Advances (machine : Machine) (least : Nat) (cursor : Cursor) (task : Task) : Prop :=
  ∃ taken, least ≤ taken.length ∧ (∀ lexeme ∈ taken, lexeme.token ≠ .endOfInput) ∧
    machine.cursor.Reads taken cursor ∧
    machine.Reaches (machine.behind taken cursor machine.frames task)

section Calls

variable {machine : Machine} {precedence : Precedence} {operand : Rule} {fault : Fault}

theorem Answers.advances {parsed : Parsed machine.cursor} (answers : machine.Answers (.ok parsed)) :
    machine.Advances 1 parsed.rest (.give ⟨parsed.tree, parsed.height⟩) := by
  cases answers with
  | gave read reached =>
      exact ⟨_, read.length_pos parsed.shorter, read.ne_endOfInput, read, reached⟩

theorem Answers.fails {start : Cursor}
    (answers : machine.Answers (.error fault : Except Fault (Parsed start))) :
    machine.Fails fault := by
  cases answers with
  | failed fails => exact fails

theorem linked_advances {left : Measured} {op : BinaryOp}
    (inner : Follows operand precedence.operand machine.nesting)
    (linking : machine.task = .extend precedence left)
    (spelled : precedence.operator? machine.cursor.lookahead.token = some op) :
    (∃ (right : Measured) (cursor : Cursor), machine.Advances 2 cursor
      (.extend precedence
        ⟨.binary op left.tree right.tree, max left.height right.height + 1⟩)) ∨
    ∃ fault, machine.Fails fault := by
  have decided := action_of_operator linking spelled
  cases pulled : Cursor.ofScanner machine.cursor.scanner with
  | error fault => exact .inr ⟨fault, .of_pull decided pulled⟩
  | ok next =>
      cases ran : operand next with
      | error fault => exact .inr ⟨fault, inner.fails_taken decided pulled ran Frame.noConfusion⟩
      | ok right =>
          obtain ⟨others, read, reached⟩ := inner.exists_taken decided pulled ran
          by_cases low : max left.height right.height + 1 ≤ maxHeight
          · have readAll : machine.cursor.Reads (machine.cursor.lookahead :: others) right.rest :=
              .cons (Precedence.ne_endOfInput_of_operator? spelled) pulled read
            exact .inl ⟨⟨right.tree, right.height⟩, right.rest, machine.cursor.lookahead :: others,
              Nat.succ_le_succ (read.length_pos right.shorter), readAll.ne_endOfInput, readAll,
              reached.trans (reaches_behind_go (if_pos low))⟩
          · exact .inr ⟨_, .pass reached (.of_refuse (if_neg low)) rfl Frame.noConfusion rfl⟩

end Calls

/-- The end of the text is asked for by nothing but a strict parse as a whole. -/
def AsksLast (mode : Mode) (frames : List Frame) : Prop :=
  ∀ rest, .text :: rest <:+ frames → rest = [] ∧ mode = .strict

/-- What a parse has taken, by where it stands: within the text, in front of what cannot be
scanned, or behind the end. -/
inductive Traced (machine : Machine) (start : Cursor) (mode : Mode) : Prop where
  | within (read : start.Reads machine.taken machine.cursor)
      (pulls : machine.pulls = machine.taken.length + 1)
  | broken {fault : Fault} (read : start.Reads machine.taken machine.cursor)
      (more : machine.cursor.lookahead.token ≠ .endOfInput) (failing : machine.task = .fail fault)
      (pulls : machine.pulls = machine.taken.length + 2)
  | ended {others : List Lexeme} {last : Cursor} {result : Measured}
      (read : start.Reads others last) (seen : last.lookahead.token = .endOfInput)
      (taken : machine.taken = others ++ [last.lookahead])
      (pulls : machine.pulls = machine.taken.length + 1) (strict : mode = .strict)
      (answered : machine.answer? = some (.ok result))

/-- How far a parse has got at a moment, and how far it gets from there. -/
structure Progresses (machine : Machine) (mode : Mode) (scanner : Scanner) : Prop where
  /-- A call takes at least one token where its rule comes to a tree. -/
  call : ∀ phrase, machine.task = .read phrase →
    match phrase.rule (maxNesting - machine.nesting) machine.cursor with
    | .ok parsed => machine.Advances 1 parsed.rest (.give ⟨parsed.tree, parsed.height⟩)
    | .error fault => machine.Fails fault
  /-- A link of a chain takes its operator and at least one token more. -/
  link : ∀ precedence left op, machine.task = .extend precedence left →
    precedence.operator? machine.cursor.lookahead.token = some op →
    (∃ (right : Measured) (cursor : Cursor), machine.Advances 2 cursor
      (.extend precedence ⟨.binary op left.tree right.tree, max left.height right.height + 1⟩)) ∨
    ∃ fault, machine.Fails fault
  /-- Nothing is left out and nothing is taken twice. -/
  taken : machine.taken.map .ok <+: scanner.deliveries
  /-- The end of the text is taken where it is asked for, behind the whole expression. -/
  asked : ∀ next, machine.step = some next → machine.cursor.lookahead.token = .endOfInput →
    next.taken = machine.taken ∨ machine.frames = [.text]
  more : ∀ lexeme ∈ machine.taken.dropLast, lexeme.token ≠ .endOfInput
  ended : ∀ lexeme ∈ machine.taken, lexeme.token = .endOfInput →
    mode = .strict ∧ ∃ result, machine.answer? = some (.ok result)
  pulls : machine.pulls ≤ scanner.tokenCount + 2

section Steps

variable {machine next : Machine} {frames others : List Frame} {task : Task} {fault : Fault}
  {scanner : Scanner} {start : Cursor} {mode : Mode}

theorem AsksLast.push {frame : Frame} (asks : AsksLast mode frames) (noText : frame ≠ .text) :
    AsksLast mode (frame :: frames) := by
  intro rest suffix
  rcases List.suffix_cons_iff.mp suffix with same | inside
  · cases same
    exact absurd rfl noText
  · exact asks rest inside

theorem AsksLast.pop {frame : Frame} (asks : AsksLast mode (frame :: frames)) :
    AsksLast mode frames :=
  fun rest suffix => asks rest (suffix.trans (List.suffix_cons frame frames))

theorem Shifts.asksLast (shifts : Shifts frames others) (asks : AsksLast mode frames) :
    AsksLast mode others := by
  cases shifts with
  | same => exact asks
  | push _ noText => exact asks.push noText
  | pop => exact asks.pop

theorem AsksLast.step (stepped : machine.step = some next) (asks : AsksLast mode machine.frames) :
    AsksLast mode next.frames := by
  cases moves_of_step stepped with
  | entered => exact asks.push Frame.noConfusion
  | left waits =>
      rw [waits] at asks
      exact asks.pop
  | went goes => exact goes.shifts.asksLast asks
  | took takes => exact takes.shifts.asksLast asks
  | broke => exact asks
  | refused => exact asks

/-- The end of the text is taken by the frame that asks for it, and nothing else takes it. -/
theorem Takes.ended_or_more (takes : machine.Takes frames task) :
    (machine.cursor.lookahead.token = .endOfInput ∧ machine.frames = .text :: frames ∧
      ∃ result, task = .give result) ∨
    machine.cursor.lookahead.token ≠ .endOfInput := by
  cases takes with
  | sign op _ seen => exact .inr (by cases op <;> simp [seen, UnaryOp.token])
  | opening _ seen | integer _ seen | closing _ _ seen => exact .inr (by simp [seen])
  | operator _ spelled => exact .inr (Precedence.ne_endOfInput_of_operator? spelled)
  | ending _ waits seen => exact .inl ⟨seen, waits, _, rfl⟩

theorem Takes.not_failing (takes : machine.Takes frames task) : machine.task ≠ .fail fault := by
  intro failing
  cases takes with
  | sign _ other | opening other | integer other | operator other | closing other
  | ending other => cases failing.symm.trans other

theorem Goes.of_failing (goes : machine.Goes frames task) (failing : machine.task = .fail fault) :
    ∃ fault, task = .fail fault := by
  cases goes with
  | called other | ended other | signed other | first other | linked other =>
      cases failing.symm.trans other
  | passed => exact ⟨_, rfl⟩

theorem Traced.step (started : Cursor.ofScanner scanner = .ok start)
    (stepped : machine.step = some next) (asks : AsksLast mode machine.frames)
    (traced : machine.Traced start mode) : next.Traced start mode := by
  cases traced with
  | within read pulls =>
      cases moves_of_step stepped with
      | entered | left | went | refused => exact .within read pulls
      | took takes pulled =>
          rcases takes.ended_or_more with ⟨seen, waits, result, rfl⟩ | more
          · rw [waits] at asks
            obtain ⟨rfl, strict⟩ := asks _ List.suffix_rfl
            exact .ended read seen rfl (by simp [pulls]) strict rfl
          · exact .within (read.append (.single more pulled)) (by simp [pulls])
      | broke takes failed =>
          rcases takes.ended_or_more with ⟨seen, _, _⟩ | more
          · obtain ⟨_, startedLast⟩ := read.exists_ofScanner started
            obtain ⟨_, pulled⟩ := Cursor.exists_ofScanner_of_ended startedLast seen
            cases failed.symm.trans pulled
          · exact .broken read more rfl (by simp [pulls])
  | broken read more failing pulls =>
      cases moves_of_step stepped with
      | entered called => cases failing.symm.trans called
      | left => exact .broken read more failing pulls
      | went goes =>
          obtain ⟨_, rfl⟩ := goes.of_failing failing
          exact .broken read more rfl pulls
      | took takes | broke takes => exact absurd failing takes.not_failing
      | refused => exact .broken read more rfl pulls
  | ended _ _ _ _ _ answered =>
      cases (step_of_answered (by rw [answered]; rfl)).symm.trans stepped

theorem asksLast_of_parsing (reached : (parsing ⟨start, mode⟩).Reaches machine) :
    AsksLast mode machine.frames := by
  refine reached.keeps (fun here => AsksLast mode here.frames) ?_ AsksLast.step
  intro rest suffix
  cases mode with
  | lenient => cases List.suffix_nil.mp suffix
  | strict =>
      rcases List.suffix_cons_iff.mp suffix with same | inside
      · exact ⟨(List.cons.inj same).2, rfl⟩
      · cases List.suffix_nil.mp inside

theorem traced_of_parsing (started : Cursor.ofScanner scanner = .ok start)
    (reached : (parsing ⟨start, mode⟩).Reaches machine) : machine.Traced start mode := by
  induction reached with
  | refl => exact .within (.nil start) rfl
  | tail reached stepped ih => exact ih.step started stepped (asksLast_of_parsing reached)

/-- The end of the text is taken in one place only. -/
theorem AsksLast.frames_of_endOfInput (asks : AsksLast mode machine.frames)
    (stepped : machine.step = some next) (seen : machine.cursor.lookahead.token = .endOfInput) :
    next.taken = machine.taken ∨ machine.frames = [.text] := by
  cases moves_of_step stepped with
  | took takes =>
      rcases takes.ended_or_more with ⟨_, waits, _⟩ | more
      · rw [waits] at asks
        obtain ⟨rfl, _⟩ := asks _ List.suffix_rfl
        exact .inr waits
      · exact absurd seen more
  | entered | left | went | broke | refused => exact .inl rfl

theorem Traced.prefix_deliveries (traced : machine.Traced start mode)
    (started : Cursor.ofScanner scanner = .ok start) :
    machine.taken.map .ok <+: scanner.deliveries := by
  cases traced with
  | within read | broken read => exact ⟨_, (Scanner.deliveries_of_reads started read).symm⟩
  | ended read seen taken =>
      rw [Scanner.deliveries_of_reads started read, taken, if_pos seen, List.map_append]
      exact List.prefix_rfl

theorem Traced.ne_endOfInput (traced : machine.Traced start mode) :
    ∀ lexeme ∈ machine.taken.dropLast, lexeme.token ≠ .endOfInput := by
  intro lexeme member
  cases traced with
  | within read | broken read => exact read.ne_endOfInput lexeme (List.dropLast_subset _ member)
  | ended read seen taken =>
      rw [taken, List.dropLast_concat] at member
      exact read.ne_endOfInput lexeme member

theorem Traced.of_endOfInput (traced : machine.Traced start mode) :
    ∀ lexeme ∈ machine.taken, lexeme.token = .endOfInput →
      mode = .strict ∧ ∃ result, machine.answer? = some (.ok result) := by
  intro lexeme member seen
  cases traced with
  | within read | broken read => exact absurd seen (read.ne_endOfInput lexeme member)
  | ended _ _ _ _ strict answered => exact ⟨strict, _, answered⟩

theorem Traced.pulls_le (traced : machine.Traced start mode)
    (started : Cursor.ofScanner scanner = .ok start) :
    machine.pulls ≤ scanner.tokenCount + 2 := by
  cases traced with
  | within read pulls =>
      have bound := Scanner.length_le_tokenCount started read
      omega
  | broken read more failing pulls =>
      have bound := Scanner.length_lt_tokenCount started read more
      omega
  | ended read seen taken pulls =>
      have bound := Scanner.length_le_tokenCount started read
      rw [taken, List.length_append, List.length_singleton] at pulls
      omega

theorem progresses_of_parsing (started : Cursor.ofScanner scanner = .ok start)
    (reached : (parsing ⟨start, mode⟩).Reaches machine) : machine.Progresses mode scanner := by
  have nested := (counts_of_parsing reached).nesting_le
  have asks := asksLast_of_parsing reached
  have traced := traced_of_parsing started reached
  refine ⟨?_, ?_, traced.prefix_deliveries started, fun next => asks.frames_of_endOfInput,
    traced.ne_endOfInput, traced.of_endOfInput, traced.pulls_le started⟩
  · intro phrase called
    have answers := phrase_follows phrase nested machine called rfl
    split
    · rename_i ran
      rw [ran] at answers
      exact answers.advances
    · rename_i failed
      rw [failed] at answers
      exact answers.fails
  · intro precedence left op linking spelled
    exact linked_advances (phrase_follows precedence.operand nested) linking spelled

end Steps

end Machine

open Machine

/-- Every parse comes to halt with its result, and gets further with every call on its way.
Where the rule of a call comes to a tree, the call takes at least one token in front of the
end, and every further link of a chain takes at least two.  What is taken is the front of what
the scanner delivers; only a strict parse takes the end of the text, and has nothing more to do
then.  So at most two lexemes more are asked for than there are tokens. -/
theorem parser_progress (mode : Mode) (text : String) :
    (∀ fault, Cursor.ofScanner (.ofText text) = .error fault → parse mode text = .error fault) ∧
    ∀ start, Cursor.ofScanner (.ofText text) = .ok start →
      (∃ last result, (parsing ⟨start, mode⟩).Reaches last ∧ last.answer? = some result ∧
        parse mode text = result.map Measured.tree ∧
        ∀ machine, (parsing ⟨start, mode⟩).Reaches machine → machine.Reaches last) ∧
      ∀ machine, (parsing ⟨start, mode⟩).Reaches machine →
        machine.Progresses mode (.ofText text) := by
  refine ⟨fun fault failed => parse_of_ofScanner_error failed, fun start started => ⟨?_, ?_⟩⟩
  · obtain ⟨last, result, ran, answered, same⟩ := parsing_halts mode started
    refine ⟨last, result, ran, answered, ?_, ?_⟩
    · rw [← same, parse, Parser.ofScanner, started]
      rfl
    · exact fun machine reached => ran.halts (step_of_answered (by rw [answered]; rfl)) reached
  · exact fun machine reached => progresses_of_parsing started reached

/-- The sum of two integers is a chain with one link, behind which a lenient parse halts. -/
theorem parser_progress_sum :
    ∃ start, Cursor.ofScanner (.ofText "1+2") = .ok start ∧
      (∃ parsed : Parsed start, (parsing ⟨start, .lenient⟩).Advances 1 parsed.rest
        (.give ⟨parsed.tree, parsed.height⟩)) ∧
      (∃ machine left, (parsing ⟨start, .lenient⟩).Reaches machine ∧
        machine.task = .extend .additive left ∧
        ((∃ (right : Measured) (cursor : Cursor), machine.Advances 2 cursor
          (.extend .additive ⟨.binary .add left.tree right.tree,
            max left.height right.height + 1⟩)) ∨
        ∃ fault, machine.Fails fault)) ∧
      ∃ last, (parsing ⟨start, .lenient⟩).Reaches last ∧ last.answer?.isSome ∧
        (∀ lexeme ∈ last.taken, lexeme.token ≠ .endOfInput) ∧ last.pulls ≤ 5 := by
  have accepted : parse .lenient "1+2" = .ok (.binary .add (.literal 1) (.literal 2)) := by
    decide +kernel
  have tokens : (Scanner.ofText "1+2").tokenCount = 3 := by decide +kernel
  have started : Cursor.ofScanner (.ofText "1+2") =
      .ok ⟨⟨.integer (Number.ofDigits ['1']), 0⟩, ⟨['+', '2'], 1⟩⟩ := by rfl
  obtain ⟨⟨last, result, ran, answered, _⟩, moments⟩ :=
    (parser_progress .lenient "1+2").2 _ started
  refine ⟨_, started, ?_, ?_, last, ran, by rw [answered]; rfl, ?_, ?_⟩
  · have call := (moments _ .refl).call .expression rfl
    split at call
    · rename_i parsed _
      exact ⟨parsed, call⟩
    · rename_i failed
      cases (parse_of_expression_error started failed).symm.trans accepted
  · obtain ⟨machine, left, reached, linking, spelled⟩ : ∃ machine left,
        (parsing ⟨⟨⟨.integer (Number.ofDigits ['1']), 0⟩, ⟨['+', '2'], 1⟩⟩, .lenient⟩).Reaches
          machine ∧
        machine.task = .extend .additive left ∧
        Precedence.additive.operator? machine.cursor.lookahead.token = some .add :=
      ⟨_, _, .head rfl <| .head rfl <| .head rfl <| .head rfl <| .head rfl <| .head rfl <|
        .head rfl <| .head rfl .refl, rfl, rfl⟩
    exact ⟨machine, left, reached, linking,
      (moments machine reached).link _ left .add linking spelled⟩
  · intro lexeme member seen
    cases ((moments last ran).ended lexeme member seen).1
  · have asked := (moments last ran).pulls
    rwa [tokens] at asked

end Reckon
