import Reckon.Proofs.OnDemand
import Reckon.Proofs.Pieces

namespace Reckon

/-! Putting an expression in the place of an integer.

Any factor can stand where an integer does, and parentheses make a factor of any
expression.  What is around the integer is then around every integer of the
expression as well, and nothing else of a derivation changes.
-/

namespace Expr

/-- The tree with another one in the place of a literal, counted from the left. -/
def substitute : Expr → Nat → Expr → Expr
  | .literal value, index, inner => if index = 0 then inner else .literal value
  | .unary op operand, index, inner => .unary op (operand.substitute index inner)
  | .binary op left right, index, inner =>
      if index < left.literals.length then .binary op (left.substitute index inner) right
      else .binary op left (right.substitute (index - left.literals.length) inner)

variable {op : BinaryOp} {left right inner : Expr} {index : Nat}

theorem substitute_left (inside : index < left.literals.length) :
    (binary op left right).substitute index inner =
      .binary op (left.substitute index inner) right :=
  if_pos inside

theorem substitute_right : (binary op left right).substitute (left.literals.length + index) inner =
    .binary op left (right.substitute index inner) := by
  rw [substitute, if_neg (by omega), Nat.add_sub_cancel_left]

end Expr

def Token.number? : Token → Option Float
  | .integer value => some value
  | _ => none

/-- The values of the integers among some tokens. -/
def integers (tokens : List Token) : List Float := tokens.filterMap Token.number?

section

variable {tokens others front behind : List Token} {token : Token} {value : Float}

@[simp] theorem integers_append :
    integers (tokens ++ others) = integers tokens ++ integers others :=
  List.filterMap_append

@[simp] theorem integers_nil : integers [] = [] := rfl

@[simp] theorem integers_integer :
    integers (.integer value :: tokens) = value :: integers tokens := rfl

@[simp] theorem integers_leftParen : integers (.leftParen :: tokens) = integers tokens := rfl

@[simp] theorem integers_rightParen : integers (.rightParen :: tokens) = integers tokens := rfl

@[simp] theorem integers_unary (op : UnaryOp) :
    integers (op.token :: tokens) = integers tokens := by
  cases op <;> rfl

@[simp] theorem integers_binary (op : BinaryOp) :
    integers (op.token :: tokens) = integers tokens := by
  cases op <;> rfl

/-- An integer is not the token in front, unless that is one. -/
theorem exists_front_of_cons (split : token :: tokens = front ++ .integer value :: behind)
    (other : token ≠ .integer value) :
    ∃ more, front = token :: more ∧ tokens = more ++ .integer value :: behind := by
  cases front with
  | nil => exact absurd (List.cons.inj split).1 other
  | cons first more =>
      obtain ⟨rfl, rest⟩ := List.cons.inj split
      exact ⟨more, rfl, rest⟩

/-- A token of a text in two parts is in one of them. -/
theorem exists_part_of_append (split : tokens ++ others = front ++ token :: behind) :
    (∃ more, tokens = front ++ token :: more ∧ behind = more ++ others) ∨
    (∃ more, front = tokens ++ more ∧ others = more ++ token :: behind) := by
  rcases List.append_eq_append_iff.mp split with ⟨more, rfl, rest⟩ | ⟨more, rfl, rest⟩
  · exact .inr ⟨more, rfl, rest⟩
  · cases more with
    | nil => exact .inr ⟨[], by simp, rest.symm⟩
    | cons first more =>
        obtain ⟨rfl, behindSplit⟩ := List.cons.inj rest
        exact .inl ⟨more, rfl, behindSplit⟩

end

namespace Derives

variable {phrase : Phrase} {tokens : List Token} {tree : Expr} {depths : List Nat}

theorem literals_eq (derived : Derives phrase tokens tree depths) :
    tree.literals = integers tokens := by
  induction derived with
  | integer value => rfl
  | signed op operand ih => rw [integers_unary, ← ih, Expr.literals]
  | grouped content ih => simpa using ih
  | single operand ih => exact ih
  | joined binds leftOperand rightOperand leftIH rightIH =>
      rw [Expr.literals, leftIH, rightIH, integers_append, integers_binary]

theorem length_depths (derived : Derives phrase tokens tree depths) :
    depths.length = tree.literals.length := by
  induction derived with
  | integer value => rfl
  | signed op operand ih => rw [List.length_map, ih, Expr.literals]
  | grouped content ih => rw [List.length_map, ih]
  | single operand ih => exact ih
  | joined binds leftOperand rightOperand leftIH rightIH =>
      rw [Expr.literals, List.length_append, List.length_append, leftIH, rightIH]

end Derives

/-- Any factor can stand between these tokens.  Its tree is in the place of the
literal there, and `depth` signs and parentheses are around it, while the counts
for the integers before and after it are as they were. -/
def Admits (phrase : Phrase) (front behind : List Token) (tree : Expr) (before : List Nat)
    (depth : Nat) (after : List Nat) : Prop :=
  ∀ inner innerTree innerDepths, Derives .factor inner innerTree innerDepths →
    Derives phrase (front ++ (inner ++ behind)) (tree.substitute (integers front).length innerTree)
      (before ++ (innerDepths.map (depth + ·) ++ after))

namespace Admits

variable {front behind tokens : List Token} {tree left right : Expr}
  {before after depths : List Nat} {depth : Nat}

theorem literal (value : Float) : Admits .factor [] [] (.literal value) [] 0 [] := by
  intro inner innerTree innerDepths factor
  simpa [Expr.substitute] using factor

theorem signed (op : UnaryOp) (admits : Admits .factor front behind tree before depth after) :
    Admits .factor (op.token :: front) behind (.unary op tree) (before.map (· + 1)) (depth + 1)
      (after.map (· + 1)) := by
  intro inner innerTree innerDepths factor
  have signed := (admits inner innerTree innerDepths factor).signed op
  simpa [Expr.substitute, Function.comp_def, Nat.add_right_comm] using signed

theorem grouped (admits : Admits .expression front behind tree before depth after) :
    Admits .factor (.leftParen :: front) (behind ++ [.rightParen]) tree (before.map (· + 1))
      (depth + 1) (after.map (· + 1)) := by
  intro inner innerTree innerDepths factor
  have grouped := (admits inner innerTree innerDepths factor).grouped
  simpa [Function.comp_def, Nat.add_right_comm] using grouped

variable {precedence : Precedence} {op : BinaryOp}

theorem joined_left (binds : op.precedence = precedence)
    (admits : Admits (.chain precedence) front behind left before depth after)
    (inside : (integers front).length < left.literals.length)
    (rightOperand : Derives precedence.operand tokens right depths) :
    Admits (.chain precedence) front (behind ++ op.token :: tokens) (.binary op left right) before
      depth (after ++ depths) := by
  intro inner innerTree innerDepths factor
  have joined := (admits inner innerTree innerDepths factor).joined binds rightOperand
  rw [Expr.substitute_left inside]
  simpa using joined

theorem joined_right (binds : op.precedence = precedence)
    (leftOperand : Derives (.chain precedence) tokens left depths)
    (admits : Admits precedence.operand front behind right before depth after) :
    Admits (.chain precedence) (tokens ++ op.token :: front) behind (.binary op left right)
      (depths ++ before) depth after := by
  intro inner innerTree innerDepths factor
  have joined := leftOperand.joined binds (admits inner innerTree innerDepths factor)
  rw [integers_append, integers_binary, List.length_append, ← leftOperand.literals_eq,
    Expr.substitute_right]
  simpa using joined

end Admits

/-- A factor can stand where an integer does. -/
theorem Derives.exists_admits {phrase : Phrase} {tokens front behind : List Token} {tree : Expr}
    {depths : List Nat} {value : Float} (derived : Derives phrase tokens tree depths)
    (split : tokens = front ++ .integer value :: behind) :
    ∃ before depth after, depths = before ++ depth :: after ∧
      before.length = (integers front).length ∧
      Admits phrase front behind tree before depth after := by
  induction derived generalizing front behind with
  | integer value' =>
      cases front with
      | nil =>
          obtain ⟨_, rfl⟩ := List.cons.inj split
          exact ⟨[], 0, [], rfl, rfl, .literal value'⟩
      | cons first others => simp at split
  | signed op operand ih =>
      obtain ⟨more, rfl, inside⟩ := exists_front_of_cons split (op.token_ne_integer value)
      obtain ⟨before, depth, after, rfl, count, admits⟩ := ih inside
      exact ⟨_, _, _, List.map_append, by simpa using count, admits.signed op⟩
  | grouped content ih =>
      obtain ⟨more, rfl, rest⟩ := exists_front_of_cons split Token.noConfusion
      rcases exists_part_of_append rest with ⟨others, inside, rfl⟩ | ⟨others, _, outside⟩
      · obtain ⟨before, depth, after, rfl, count, admits⟩ := ih inside
        exact ⟨_, _, _, List.map_append, by simpa using count, admits.grouped⟩
      · obtain ⟨_, _, closing⟩ := exists_front_of_cons outside Token.noConfusion
        simp at closing
  | single operand ih =>
      obtain ⟨before, depth, after, same, count, admits⟩ := ih split
      exact ⟨before, depth, after, same, count, fun inner innerTree innerDepths factor =>
        .single (admits inner innerTree innerDepths factor)⟩
  | @joined _ op binds _ _ left _ _ _ leftOperand rightOperand leftIH rightIH =>
      rcases exists_part_of_append split with ⟨more, inLeft, rfl⟩ | ⟨more, rfl, behindLeft⟩
      · obtain ⟨before, depth, after, rfl, count, admits⟩ := leftIH inLeft
        have inside : (integers front).length < left.literals.length := by
          rw [leftOperand.literals_eq, inLeft]
          simp
        exact ⟨before, depth, _, List.append_assoc _ _ _, count,
          admits.joined_left binds inside rightOperand⟩
      · obtain ⟨others, rfl, inRight⟩ := exists_front_of_cons behindLeft (op.token_ne_integer value)
        obtain ⟨before, depth, after, rfl, count, admits⟩ := rightIH inRight
        refine ⟨_, depth, after, (List.append_assoc _ _ _).symm, ?_,
          admits.joined_right binds leftOperand⟩
        simp [leftOperand.length_depths, leftOperand.literals_eq, count]

namespace Spelled

variable {text : List Char} {tokens others : List Token}

theorem unique (spelled : Spelled text tokens) (spelledOther : Spelled text others) :
    tokens = others := by
  obtain ⟨cursor, taken, stop, started, read, ended, rfl⟩ := spelled 0
  obtain ⟨cursor', taken', stop', started', read', ended', rfl⟩ := spelledOther 0
  have same := Scanner.tokens_of_reads started read ended
  rw [Scanner.tokens_of_reads started' read' ended', Except.ok.injEq] at same
  rw [(List.append_inj' same rfl).1]

theorem not_invalid (spelled : Spelled text tokens) : ∀ character ∈ text, ¬ Invalid character := by
  obtain ⟨cursor, taken, stop, started, read, ended, _⟩ := spelled 0
  exact read.not_invalid started ended

end Spelled

/-- Without invalid characters every part of a text is spelled. -/
theorem exists_spelled {text : List Char} (valid : ∀ character ∈ text, ¬ Invalid character) :
    ∃ tokens, Spelled text tokens := by
  obtain ⟨delivered, behind, step⟩ := (Scanner.mk text 0).exists_step
  cases step with
  | @ended count split =>
      dsimp only at split
      exact ⟨[], split ▸ .spaces count⟩
  | @token count token piece rest split spelled apart =>
      dsimp only at split
      have size := List.length_pos_iff.mpr spelled.characters.1
      have shorter : rest.length < text.length := by
        rw [split, List.length_append, List.length_append]
        omega
      have validRest : ∀ character ∈ rest, ¬ Invalid character := fun character member =>
        valid character (by simp [split, member])
      obtain ⟨tokens, spelledRest⟩ := exists_spelled validRest
      have both := (Spelled.of_spells spelled).append spelledRest apart
      exact ⟨_, split ▸ (Spelled.spaces count).append both (.of_endsDigit (endsDigit_spaces count))⟩
  | invalid split invalid =>
      dsimp only at split
      exact absurd invalid (valid _ (by simp [split]))
termination_by text.length

/-- The tokens of a text are an expression, the limits aside. -/
def Expresses (text : String) (tree : Expr) (depths : List Nat) : Prop :=
  ∃ lexemes, tokenize text = .ok lexemes ∧
    Derives .expression (words lexemes.dropLast) tree depths

theorem expresses_iff {text : String} {tree : Expr} {depths : List Nat} :
    Expresses text tree depths ↔
      ∃ tokens, Spelled text.toList tokens ∧ Derives .expression tokens tree depths := by
  constructor
  · intro expressed
    obtain ⟨lexemes, tokenized, derived⟩ := expressed
    obtain ⟨tokens, spelled⟩ := exists_spelled (Scanner.not_invalid_of_tokens tokenized)
    obtain ⟨cursor, taken, stop, started, read, ended, rfl⟩ := spelled 0
    cases (Scanner.tokens_of_reads started read ended).symm.trans tokenized
    rw [List.dropLast_concat] at derived
    exact ⟨_, spelled, derived⟩
  · intro expressed
    obtain ⟨tokens, spelled, derived⟩ := expressed
    obtain ⟨cursor, taken, stop, started, read, ended, rfl⟩ := spelled 0
    refine ⟨_, Scanner.tokens_of_reads started read ended, ?_⟩
    rw [List.dropLast_concat]
    exact derived

namespace Expresses

variable {text : String} {tree parsed : Expr} {depths : List Nat}

theorem parse_strict (expressed : Expresses text tree depths) :
    (Within maxNesting tree depths → parse .strict text = .ok tree) ∧
    (¬ Within maxNesting tree depths → ∃ found position,
      parse .strict text = .error (.unexpectedToken .shallowerNesting found position)) := by
  obtain ⟨lexemes, tokenized, derived⟩ := expressed
  rcases parse_strict_of_derives tokenized derived with ⟨within, accepted⟩ | ⟨beyond, place, failed⟩
  · exact ⟨fun _ => accepted, fun beyond => absurd within beyond⟩
  · exact ⟨fun within => absurd within beyond, fun _ => ⟨_, _, failed⟩⟩

theorem within (expressed : Expresses text tree depths)
    (accepted : parse .strict text = .ok parsed) : Within maxNesting tree depths := by
  apply Classical.byContradiction
  intro beyond
  obtain ⟨found, position, failed⟩ := expressed.parse_strict.2 beyond
  cases failed.symm.trans accepted

theorem parenthesized (expressed : Expresses text tree depths) :
    Expresses ("(" ++ text ++ ")") tree (depths.map (· + 1)) := by
  obtain ⟨tokens, spelled, derived⟩ := expresses_iff.mp expressed
  refine expresses_iff.mpr ⟨_, ?_, derived.grouped.of_factor⟩
  simpa using spelled.parenthesized

end Expresses

theorem exists_expresses {text : String} {tree : Expr} (accepted : parse .strict text = .ok tree) :
    ∃ depths, Expresses text tree depths := by
  obtain ⟨cursor, taken, stop, depths, started, read, ended, derived, _⟩ :=
    reads_of_parse_strict accepted
  refine ⟨depths, _, Scanner.tokens_of_reads started read ended, ?_⟩
  rw [List.dropLast_concat]
  exact derived

namespace Piece

variable {text : String} {piece : Piece text} {value : Float} {front behind : List Token}

/-- How many integers stand in front of the piece. -/
def index (piece : Piece text) : Nat :=
  (integers ((Scanner.ofText text).tokensBefore piece.first)).length

/-- The text with another one in the place of the piece. -/
def replace (piece : Piece text) (other : String) : String :=
  String.ofList (piece.before ++ (other.toList ++ piece.after))

theorem tokensBefore_first (integer : piece.delivered = .ok ⟨.integer value, piece.first⟩)
    (spelled : Spelled piece.before front) :
    (Scanner.ofText text).tokensBefore piece.first = front := by
  obtain ⟨spells, plain, other⟩ := spells_of_integer integer
  obtain ⟨cursor, taken, stop, started, read, ended, rfl⟩ := spelled 0
  have place : stop.lookahead.position = piece.first := by
    rw [Scanner.position_of_reads_ended started read ended]
    exact Nat.zero_add _
  have step : Scanner.Step ⟨piece.characters ++ piece.after, piece.first⟩
      (.ok ⟨.integer value, piece.first⟩) ⟨piece.after, piece.last⟩ :=
    @Scanner.Step.token ⟨_, piece.first⟩ 0 _ _ _ rfl spells (.of_startsDigit other)
  have pulled := Cursor.ofScanner_of_step step
  rw [← place] at pulled
  obtain ⟨start, startedWhole, readWhole⟩ :=
    Cursor.Reads.glue started read ended (.of_endsDigit plain) pulled
  rw [← piece.split] at startedWhole
  rw [← place]
  exact Scanner.tokensBefore_place (Scanner.deliveries_of_reads startedWhole readWhole)

end Piece

/-- Around each integer of the expression stand its own signs and parentheses,
the parentheses that it is put in and all that was around the integer before. -/
theorem Expresses.replace {text : String} {piece : Piece text} {value : Float} {tree : Expr}
    {depths : List Nat} (expressed : Expresses text tree depths)
    (integer : piece.delivered = .ok ⟨.integer value, piece.first⟩) :
    tree.literals[piece.index]? = some value ∧
    ∃ before depth after, depths = before ++ depth :: after ∧ before.length = piece.index ∧
      ∀ inner innerTree innerDepths, Expresses inner innerTree innerDepths →
        Expresses (piece.replace ("(" ++ inner ++ ")")) (tree.substitute piece.index innerTree)
          (before ++ (innerDepths.map (depth + 1 + ·) ++ after)) := by
  obtain ⟨tokens, spelled, derived⟩ := expresses_iff.mp expressed
  have valid := piece.split ▸ spelled.not_invalid
  obtain ⟨front, spelledFront⟩ := exists_spelled fun character member =>
    valid character (List.mem_append_left _ member)
  obtain ⟨behind, spelledBehind⟩ := exists_spelled fun character member =>
    valid character (List.mem_append_right _ (List.mem_append_right _ member))
  obtain ⟨spells, plain, other⟩ := Piece.spells_of_integer integer
  have count : (integers front).length = piece.index := by
    rw [Piece.index, Piece.tokensBefore_first integer spelledFront]
  have parts : tokens = front ++ .integer value :: behind := by
    have whole := spelledFront.append
      ((Spelled.of_spells spells).append spelledBehind (.of_startsDigit other))
        (.of_endsDigit plain)
    rw [← piece.split] at whole
    exact spelled.unique whole
  obtain ⟨before, depth, after, same, length, admits⟩ := derived.exists_admits parts
  rw [count] at length
  refine ⟨?_, before, depth, after, same, length, ?_⟩
  · rw [derived.literals_eq, parts, ← count]
    simp
  · intro inner innerTree innerDepths expressedInner
    obtain ⟨innerTokens, spelledInner, derivedInner⟩ := expresses_iff.mp expressedInner
    have closing : endsDigit ('(' :: (inner.toList ++ [')'])) = false := by
      rw [← List.cons_append, endsDigit_append (by simp)]
      rfl
    have whole := spelledFront.append
      (spelledInner.parenthesized.append spelledBehind (.of_endsDigit closing))
        (.of_startsDigit rfl)
    have factor := admits _ _ _ derivedInner.grouped
    have around : (innerDepths.map (· + 1)).map (depth + ·) = innerDepths.map (depth + 1 + ·) := by
      simp [Function.comp_def, Nat.add_assoc, Nat.add_comm 1]
    rw [around, count] at factor
    refine expresses_iff.mpr ⟨_, ?_, factor⟩
    simpa [Piece.replace] using whole

theorem within_replace_iff {tree other : Expr} {before after innerDepths : List Nat} {depth : Nat}
    (within : Within maxNesting tree (before ++ depth :: after)) :
    Within maxNesting other (before ++ (innerDepths.map (depth + 1 + ·) ++ after)) ↔
      (∀ innerDepth ∈ innerDepths, depth + 1 + innerDepth ≤ 255) ∧ other.height ≤ 2048 := by
  have limits := (within_maxNesting_iff.mp within).1
  rw [List.forall_mem_append, List.forall_mem_cons] at limits
  obtain ⟨inBefore, _, inAfter⟩ := limits
  rw [within_maxNesting_iff, List.forall_mem_append, List.forall_mem_append, List.forall_mem_map]
  constructor
  · intro both
    obtain ⟨⟨_, inner, _⟩, height⟩ := both
    exact ⟨inner, height⟩
  · intro both
    obtain ⟨inner, height⟩ := both
    exact ⟨⟨inBefore, inner, inAfter⟩, height⟩

/-- Where an accepted text has an integer, another accepted text in parentheses can
stand.  Its tree takes the place of the literal and all else remains, unless the
signs and parentheses around some integer or the levels of the tree are then too
many, which is the fault that is reported.  Parentheses around a whole text change
neither its tree nor its value, within the same limit. -/
theorem parse_replace_integer {text inner : String} {tree innerTree : Expr} {value : Float}
    (piece : Piece text) (integer : piece.delivered = .ok ⟨.integer value, piece.first⟩)
    (accepted : parse .strict text = .ok tree)
    (acceptedInner : parse .strict inner = .ok innerTree) :
    (∃ depths, Expresses text tree depths) ∧
    (∃ innerDepths, Expresses inner innerTree innerDepths) ∧
    tree.literals[piece.index]? = some value ∧
    ∀ depths innerDepths, Expresses text tree depths → Expresses inner innerTree innerDepths →
      (∃ depth, depths[piece.index]? = some depth ∧
        ((∀ innerDepth ∈ innerDepths, depth + 1 + innerDepth ≤ 255) ∧
          (tree.substitute piece.index innerTree).height ≤ 2048 →
          parse .strict (piece.replace ("(" ++ inner ++ ")")) =
            .ok (tree.substitute piece.index innerTree)) ∧
        (¬ ((∀ innerDepth ∈ innerDepths, depth + 1 + innerDepth ≤ 255) ∧
          (tree.substitute piece.index innerTree).height ≤ 2048) →
          ∃ found position, parse .strict (piece.replace ("(" ++ inner ++ ")")) =
            .error (.unexpectedToken .shallowerNesting found position))) ∧
      ((∀ innerDepth ∈ innerDepths, innerDepth + 1 ≤ 255) →
        parse .strict ("(" ++ inner ++ ")") = .ok innerTree ∧
        evaluate .strict ("(" ++ inner ++ ")") = evaluate .strict inner) ∧
      (¬ (∀ innerDepth ∈ innerDepths, innerDepth + 1 ≤ 255) →
        ∃ found position, parse .strict ("(" ++ inner ++ ")") =
          .error (.unexpectedToken .shallowerNesting found position)) := by
  obtain ⟨depths, expressed⟩ := exists_expresses accepted
  refine ⟨⟨depths, expressed⟩, exists_expresses acceptedInner, (expressed.replace integer).1, ?_⟩
  intro depths innerDepths expressed expressedInner
  refine ⟨?_, fun few => ?_, fun many => ?_⟩
  · obtain ⟨_, before, depth, after, rfl, count, replaced⟩ := expressed.replace integer
    have limits := @within_replace_iff tree (tree.substitute piece.index innerTree) before after
      innerDepths depth (expressed.within accepted)
    obtain ⟨built, tooDeep⟩ := (replaced inner innerTree innerDepths expressedInner).parse_strict
    rw [limits] at built tooDeep
    exact ⟨depth, by simp [← count], built, tooDeep⟩
  · have within := expressedInner.within acceptedInner
    have wrapped : parse .strict ("(" ++ inner ++ ")") = .ok innerTree := by
      have inside := within_maxNesting_iff.mpr ⟨List.forall_mem_map.mpr few, within.height⟩
      exact expressedInner.parenthesized.parse_strict.1 inside
    refine ⟨wrapped, ?_⟩
    rw [evaluate_eq_map_parse, evaluate_eq_map_parse, wrapped, acceptedInner]
  · refine expressedInner.parenthesized.parse_strict.2 fun within => many ?_
    exact List.forall_mem_map.mp (within_maxNesting_iff.mp within).1

/-- The operand of the sign. -/
def signedThree : Piece "-3*2" where
  before := ['-']
  characters := ['3']
  after := ['*', '2']
  delivered := .ok ⟨.integer (Number.ofDigits ['3']), 1⟩
  split := rfl
  stands := .integer (List.cons_ne_nil _ _) (List.all_eq_true.mp rfl) rfl rfl

theorem signedThree_expresses :
    Expresses "-3*2" (.binary .multiply (.unary .negate (.literal (Number.ofDigits ['3'])))
      (.literal (Number.ofDigits ['2']))) [1, 0] := by
  have read :
      tokenize "-3*2" = .ok [⟨.minus, 0⟩, ⟨.integer (Number.ofDigits ['3']), 1⟩, ⟨.times, 2⟩,
      ⟨.integer (Number.ofDigits ['2']), 3⟩, ⟨.endOfInput, 4⟩] := by
    decide +kernel
  have negated : Derives (.chain .multiplicative) [.minus, .integer (Number.ofDigits ['3'])]
      (.unary .negate (.literal (Number.ofDigits ['3']))) [1] :=
    .of_factor (.signed .negate (.integer _))
  have product : BinaryOp.multiply.precedence = .multiplicative := rfl
  exact ⟨_, read, .single (negated.joined product (.integer _))⟩

theorem sum_expresses :
    Expresses "1+2" (.binary .add (.literal (Number.ofDigits ['1']))
      (.literal (Number.ofDigits ['2']))) [0, 0] := by
  have read : tokenize "1+2" = .ok [⟨.integer (Number.ofDigits ['1']), 0⟩, ⟨.plus, 1⟩,
      ⟨.integer (Number.ofDigits ['2']), 2⟩, ⟨.endOfInput, 3⟩] := by
    decide +kernel
  have sum : BinaryOp.add.precedence = .additive := rfl
  exact ⟨_, read, (Derives.literal .expression _).joined sum (.literal .term _)⟩

/-- Neither the sign nor the product takes a part of the sum. -/
theorem parse_replace_signedThree :
    parse .strict "-(1+2)*2" = .ok (.binary .multiply
      (.unary .negate (.binary .add (.literal (Number.ofDigits ['1']))
        (.literal (Number.ofDigits ['2'])))) (.literal (Number.ofDigits ['2']))) := by
  have accepted : parse .strict "-3*2" = .ok (.binary .multiply
      (.unary .negate (.literal (Number.ofDigits ['3']))) (.literal (Number.ofDigits ['2']))) := by
    decide +kernel
  have acceptedSum : parse .strict "1+2" = .ok (.binary .add (.literal (Number.ofDigits ['1']))
      (.literal (Number.ofDigits ['2']))) := by
    decide +kernel
  have first : signedThree.index = 0 := by decide +kernel
  have outcome := (parse_replace_integer signedThree rfl accepted acceptedSum).2.2.2 _ _
    signedThree_expresses sum_expresses
  obtain ⟨⟨depth, around, built, _⟩, _⟩ := outcome
  rw [first] at around built
  cases around
  exact built (by decide)

end Reckon
