import Reckon.Rule

namespace Reckon

/-! The grammar of expressions, apart from any way of reading one.

A derivation relates a run of tokens to the tree that it spells, and counts for
each integer of the run the signs and parentheses around it.  Nothing here is
limited in depth: the limits are conditions on the counts and on the tree.
-/

namespace UnaryOp

def token : UnaryOp → Token
  | .plus => .plus
  | .negate => .minus

end UnaryOp

namespace BinaryOp

def token : BinaryOp → Token
  | .add => .plus
  | .subtract => .minus
  | .multiply => .times
  | .divide => .divide

def precedence : BinaryOp → Precedence
  | .add | .subtract => .additive
  | .multiply | .divide => .multiplicative

end BinaryOp

theorem Precedence.operator?_eq_some_iff {precedence : Precedence} {token : Token} {op : BinaryOp} :
    precedence.operator? token = some op ↔ op.precedence = precedence ∧ token = op.token := by
  cases precedence <;> cases token <;> cases op <;>
    simp [Precedence.operator?, BinaryOp.precedence, BinaryOp.token]

inductive Phrase where
  | factor
  | chain (precedence : Precedence)
deriving DecidableEq

namespace Phrase

abbrev term : Phrase := .chain .multiplicative

abbrev expression : Phrase := .chain .additive

end Phrase

def Precedence.operand : Precedence → Phrase
  | .additive => .term
  | .multiplicative => .factor

/-- `Derives phrase tokens tree depths`: the tokens are such a phrase and spell
the tree, and `depths` lists for their integers, from left to right, how many
signs and parentheses stand around each. -/
inductive Derives : Phrase → List Token → Expr → List Nat → Prop where
  | integer (value : Float) : Derives .factor [.integer value] (.literal value) [0]
  | signed (op : UnaryOp) {tokens : List Token} {tree : Expr} {depths : List Nat}
      (operand : Derives .factor tokens tree depths) :
      Derives .factor (op.token :: tokens) (.unary op tree) (depths.map (· + 1))
  | grouped {tokens : List Token} {tree : Expr} {depths : List Nat}
      (content : Derives .expression tokens tree depths) :
      Derives .factor (.leftParen :: (tokens ++ [.rightParen])) tree (depths.map (· + 1))
  | single {precedence : Precedence} {tokens : List Token} {tree : Expr} {depths : List Nat}
      (operand : Derives precedence.operand tokens tree depths) :
      Derives (.chain precedence) tokens tree depths
  | joined {precedence : Precedence} {op : BinaryOp} (binds : op.precedence = precedence)
      {before behind : List Token} {left right : Expr} {leftDepths rightDepths : List Nat}
      (leftOperand : Derives (.chain precedence) before left leftDepths)
      (rightOperand : Derives precedence.operand behind right rightDepths) :
      Derives (.chain precedence) (before ++ op.token :: behind) (.binary op left right)
        (leftDepths ++ rightDepths)

/-- A token that no phrase of this kind goes on with, once it is complete. -/
def Phrase.Stops : Phrase → Token → Prop
  | .factor, _ => True
  | .chain .multiplicative, token => Precedence.multiplicative.operator? token = none
  | .chain .additive, token =>
      Precedence.additive.operator? token = none ∧ Precedence.multiplicative.operator? token = none

namespace Phrase

theorem stops_chain_iff {precedence : Precedence} {token : Token} :
    (chain precedence).Stops token ↔
      precedence.operator? token = none ∧ precedence.operand.Stops token := by
  cases precedence <;> simp [Stops, Precedence.operand]

theorem stops_operator {op : BinaryOp} {precedence : Precedence}
    (binds : op.precedence = precedence) :
    precedence.operand.Stops op.token := by
  subst binds
  cases op <;> simp [BinaryOp.precedence, BinaryOp.token, Precedence.operand, Stops,
    Precedence.operator?]

theorem not_stops_operator {op : BinaryOp} {precedence : Precedence}
    (binds : op.precedence = precedence) : ¬ (chain precedence).Stops op.token := by
  intro stops
  have spelled := Precedence.operator?_eq_some_iff.mpr ⟨binds, rfl⟩
  rw [(stops_chain_iff.mp stops).1] at spelled
  cases spelled

theorem stops_rightParen (phrase : Phrase) : phrase.Stops .rightParen := by
  rcases phrase with _ | (_ | _) <;> simp [Stops, Precedence.operator?]

theorem stops_endOfInput (phrase : Phrase) : phrase.Stops .endOfInput := by
  rcases phrase with _ | (_ | _) <;> simp [Stops, Precedence.operator?]

end Phrase

namespace UnaryOp

theorem token_injective {op other : UnaryOp} (equal : op.token = other.token) : op = other := by
  cases op <;> cases other <;> first | rfl | cases equal

theorem token_ne_integer (op : UnaryOp) (value : Float) : op.token ≠ .integer value := by
  cases op <;> exact Token.noConfusion

theorem token_ne_leftParen (op : UnaryOp) : op.token ≠ .leftParen := by
  cases op <;> exact Token.noConfusion

theorem token_ne_endOfInput (op : UnaryOp) : op.token ≠ .endOfInput := by
  cases op <;> exact Token.noConfusion

@[simp] theorem kind_token (op : UnaryOp) : op.token.kind = op.kind := by
  cases op <;> rfl

end UnaryOp

namespace BinaryOp

theorem token_injective {op other : BinaryOp} (equal : op.token = other.token) : op = other := by
  cases op <;> cases other <;> first | rfl | cases equal

theorem token_ne_integer (op : BinaryOp) (value : Float) : op.token ≠ .integer value := by
  cases op <;> exact Token.noConfusion

end BinaryOp

def Token.startsOperand : Token → Bool
  | .integer _ | .plus | .minus | .leftParen => true
  | _ => false

namespace Derives

variable {phrase : Phrase} {precedence : Precedence} {tokens : List Token} {tree : Expr}
  {depths : List Nat}

theorem of_factor (factor : Derives .factor tokens tree depths) :
    Derives phrase tokens tree depths := by
  rcases phrase with _ | (_ | _)
  · exact factor
  · exact .single (.single factor)
  · exact .single factor

theorem of_chain {precedence : Precedence}
    (chain : Derives (.chain precedence) tokens tree depths) :
    Derives .expression tokens tree depths := by
  cases precedence with
  | additive => exact chain
  | multiplicative => exact .single chain

theorem literal (phrase : Phrase) (value : Float) :
    Derives phrase [.integer value] (.literal value) [0] :=
  of_factor (.integer value)

theorem exists_cons (derived : Derives phrase tokens tree depths) :
    ∃ first rest, tokens = first :: rest ∧ first.startsOperand = true := by
  induction derived with
  | integer value => exact ⟨_, _, rfl, rfl⟩
  | signed op operand ih => exact ⟨_, _, rfl, by cases op <;> rfl⟩
  | grouped content ih => exact ⟨_, _, rfl, rfl⟩
  | single operand ih => exact ih
  | joined binds leftOperand rightOperand leftIH rightIH =>
      obtain ⟨first, rest, rfl, starts⟩ := leftIH
      exact ⟨first, _, rfl, starts⟩

theorem depths_ne_nil (derived : Derives phrase tokens tree depths) : depths ≠ [] := by
  induction derived with
  | integer value => simp
  | signed op operand ih => simpa using ih
  | grouped content ih => simpa using ih
  | single operand ih => exact ih
  | joined binds leftOperand rightOperand leftIH rightIH => simp [leftIH]

end Derives

/-! Where a phrase ends is settled by the first token behind it, so that no two
phrases of one kind at the front of a text have different extents. -/

/-- Operators of one precedence, each with the operand behind it. -/
inductive Links (precedence : Precedence) : List Token → Prop where
  | nil : Links precedence []
  | cons {op : BinaryOp} (binds : op.precedence = precedence) {operand more : List Token}
      {tree : Expr} {depths : List Nat} (derived : Derives precedence.operand operand tree depths)
      (rest : Links precedence more) : Links precedence (op.token :: (operand ++ more))

namespace Links

variable {precedence : Precedence} {links : List Token}

theorem snoc {op : BinaryOp} {operand : List Token} {tree : Expr} {depths : List Nat}
    (first : Links precedence links) (binds : op.precedence = precedence)
    (derived : Derives precedence.operand operand tree depths) :
    Links precedence (links ++ op.token :: operand) := by
  induction first with
  | nil => simpa using Links.cons binds derived .nil
  | cons bindsFirst derivedFirst _ ih =>
      simpa only [List.cons_append, List.append_assoc] using Links.cons bindsFirst derivedFirst ih

/-- Whatever links a chain goes on with, the token in front of them ends its operand. -/
theorem operand_stops (linked : Links precedence links) {token : Token}
    (stops : (Phrase.chain precedence).Stops token) (behind : List Token) :
    ∃ first rest, links ++ token :: behind = first :: rest ∧ precedence.operand.Stops first := by
  cases linked with
  | nil => exact ⟨token, behind, rfl, (Phrase.stops_chain_iff.mp stops).2⟩
  | cons binds derived rest => exact ⟨_, _, rfl, Phrase.stops_operator binds⟩

end Links

theorem Derives.exists_links {precedence : Precedence} {tokens : List Token} {tree : Expr}
    {depths : List Nat} (derived : Derives (.chain precedence) tokens tree depths) :
    ∃ first firstTree firstDepths links, tokens = first ++ links ∧
      Derives precedence.operand first firstTree firstDepths ∧ Links precedence links := by
  generalize kind : Phrase.chain precedence = phrase at derived
  induction derived with
  | integer | signed | grouped => cases kind
  | single operand =>
      cases kind
      exact ⟨_, _, _, [], (List.append_nil _).symm, operand, .nil⟩
  | joined binds _ rightOperand leftIH =>
      cases kind
      obtain ⟨first, firstTree, firstDepths, links, rfl, derivedFirst, linked⟩ := leftIH rfl
      exact ⟨first, firstTree, firstDepths, _, by simp, derivedFirst,
        linked.snoc binds rightOperand⟩

/-- What can be added behind a phrase to make it a longer one of its kind. -/
def Phrase.Continues : Phrase → List Token → Prop
  | .factor, links => links = []
  | .chain precedence, links => Links precedence links

/-- A token in front of which a phrase is complete, or may be gone on with. -/
def Phrase.Pauses : Phrase → Token → Prop
  | .factor, _ => True
  | .chain precedence, token => precedence.operand.Stops token

theorem Phrase.Stops.pauses {phrase : Phrase} {token : Token} (stops : phrase.Stops token) :
    phrase.Pauses token := by
  cases phrase with
  | factor => trivial
  | chain precedence => exact (stops_chain_iff.mp stops).2

theorem Phrase.Continues.eq_nil {phrase : Phrase} {links rest more : List Token} {token : Token}
    (continued : phrase.Continues links) (stops : phrase.Stops token)
    (equal : token :: rest = links ++ more) : links = [] := by
  cases phrase with
  | factor => exact continued
  | chain precedence =>
      cases continued with
      | nil => rfl
      | cons binds derived linked =>
          rw [List.cons_append, List.cons.injEq] at equal
          rw [equal.1] at stops
          exact absurd stops (not_stops_operator binds)

namespace Derives

variable {phrase : Phrase} {tokens others rest more : List Token} {tree otherTree : Expr}
  {depths otherDepths : List Nat} {token other : Token}

/-- A phrase that stands in front of a pause at the beginning of a longer text
is where every complete phrase of its kind begins there. -/
theorem leads (derived : Derives phrase tokens tree depths)
    (complete : Derives phrase others otherTree otherDepths)
    (pauses : phrase.Pauses token) (stops : phrase.Stops other)
    (equal : tokens ++ token :: rest = others ++ other :: more) :
    ∃ links, others = tokens ++ links ∧ phrase.Continues links := by
  induction derived generalizing others otherTree otherDepths token other rest more with
  | integer value =>
      cases complete with
      | integer value' =>
          rw [List.singleton_append, List.singleton_append, List.cons.injEq] at equal
          exact ⟨[], by rw [equal.1, List.append_nil], rfl⟩
      | signed op operand =>
          exact absurd (List.cons.inj equal).1.symm (op.token_ne_integer value)
      | grouped content => cases (List.cons.inj equal).1
  | signed op operand ih =>
      cases complete with
      | integer value => exact absurd (List.cons.inj equal).1 (op.token_ne_integer value)
      | signed op' operand' =>
          obtain ⟨same, equal⟩ := List.cons.inj equal
          obtain ⟨links, rfl, rfl⟩ := ih operand' pauses stops equal
          exact ⟨[], by rw [same, List.append_nil, List.append_nil], rfl⟩
      | grouped content => exact absurd (List.cons.inj equal).1 op.token_ne_leftParen
  | grouped content ih =>
      cases complete with
      | integer value => cases (List.cons.inj equal).1
      | signed op operand =>
          exact absurd (List.cons.inj equal).1.symm op.token_ne_leftParen
      | grouped content' =>
          simp only [List.cons_append, List.append_assoc, List.nil_append, List.cons.injEq,
            true_and] at equal
          have closes := Phrase.stops_rightParen .expression
          obtain ⟨links, rfl, continued⟩ := ih content' closes.pauses closes equal
          rw [List.append_assoc, List.append_cancel_left_eq] at equal
          obtain rfl := continued.eq_nil closes equal
          exact ⟨[], by simp, rfl⟩
  | single operand ih =>
      obtain ⟨first, _, _, links, rfl, derivedFirst, linked⟩ := complete.exists_links
      obtain ⟨next, behind, split, nextStops⟩ := linked.operand_stops stops more
      rw [List.append_assoc, split] at equal
      obtain ⟨extra, rfl, continued⟩ := ih derivedFirst pauses.pauses nextStops equal
      rw [List.append_assoc, List.append_cancel_left_eq] at equal
      obtain rfl := continued.eq_nil pauses equal
      exact ⟨links, by simp, linked⟩
  | joined binds leftOperand rightOperand leftIH rightIH =>
      rw [List.append_assoc, List.cons_append] at equal
      obtain ⟨links, rfl, linked⟩ := leftIH complete (Phrase.stops_operator binds) stops equal
      rw [List.append_assoc, List.append_cancel_left_eq] at equal
      cases linked with
      | nil =>
          rw [(List.cons.inj equal).1.symm] at stops
          exact absurd stops (Phrase.not_stops_operator binds)
      | @cons op' binds' operand' links' _ _ derived' linked' =>
          rw [List.cons_append, List.cons.injEq, List.append_assoc] at equal
          obtain ⟨next, behind, split, nextStops⟩ := linked'.operand_stops stops more
          obtain ⟨same, equal⟩ := equal
          rw [split] at equal
          obtain ⟨extra, rfl, continued⟩ := rightIH derived' pauses.pauses nextStops equal
          rw [List.append_assoc, List.append_cancel_left_eq] at equal
          obtain rfl := continued.eq_nil pauses equal
          exact ⟨links', by simp [same], linked'⟩

/-- Two complete phrases of one kind at the front of one text are the same tokens. -/
theorem extent (derived : Derives phrase tokens tree depths)
    (derivedOther : Derives phrase others otherTree otherDepths)
    (stops : phrase.Stops token) (stopsOther : phrase.Stops other)
    (equal : tokens ++ token :: rest = others ++ other :: more) : tokens = others := by
  obtain ⟨links, rfl, continued⟩ := derived.leads derivedOther stops.pauses stopsOther equal
  rw [List.append_assoc, List.append_cancel_left_eq] at equal
  rw [continued.eq_nil stops equal, List.append_nil]

end Derives

/-- The limits on a tree and on the signs and parentheses around its integers. -/
structure Within (room : Nat) (tree : Expr) (depths : List Nat) : Prop where
  nesting : ∀ depth ∈ depths, depth < room
  height : tree.height ≤ maxHeight

namespace Within

variable {room : Nat} {tree left right : Expr} {depths leftDepths rightDepths : List Nat}

theorem signed_iff {op : UnaryOp} :
    Within (room + 1) (.unary op tree) (depths.map (· + 1)) ↔
      Within room tree depths ∧ tree.height + 1 ≤ maxHeight := by
  constructor
  · intro within
    have height : tree.height + 1 ≤ maxHeight := within.height
    exact ⟨⟨by simpa using within.nesting, Nat.le_of_succ_le height⟩, height⟩
  · intro both
    obtain ⟨within, height⟩ := both
    exact ⟨by simpa using within.nesting, height⟩

theorem grouped_iff :
    Within (room + 1) tree (depths.map (· + 1)) ↔ Within room tree depths :=
  ⟨fun within => ⟨by simpa using within.nesting, within.height⟩,
    fun within => ⟨by simpa using within.nesting, within.height⟩⟩

theorem joined_iff {op : BinaryOp} :
    Within room (.binary op left right) (leftDepths ++ rightDepths) ↔
      Within room left leftDepths ∧ Within room right rightDepths ∧
        max left.height right.height + 1 ≤ maxHeight := by
  constructor
  · intro within
    have height : max left.height right.height + 1 ≤ maxHeight := within.height
    refine ⟨⟨?_, by omega⟩, ⟨?_, by omega⟩, height⟩
    · exact fun depth member => within.nesting depth (List.mem_append_left _ member)
    · exact fun depth member => within.nesting depth (List.mem_append_right _ member)
  · intro parts
    obtain ⟨leftWithin, rightWithin, height⟩ := parts
    refine ⟨?_, height⟩
    intro depth member
    rcases List.mem_append.mp member with member | member
    · exact leftWithin.nesting depth member
    · exact rightWithin.nesting depth member

end Within

end Reckon
