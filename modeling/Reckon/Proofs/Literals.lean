import Reckon.Proofs.PlainNumbers
import Reckon.Proofs.Substitution

namespace Reckon

/-! The literals of a tree that was read.

They are the integers of the text, so that no literal has a sign or is a fraction. -/

theorem Cursor.Reads.exists_spells {scanner : Scanner} {cursor stop : Cursor}
    {taken : List Lexeme} (started : Cursor.ofScanner scanner = .ok cursor)
    (read : cursor.Reads taken stop) : ∀ lexeme ∈ taken, ∃ piece, Spells lexeme.token piece := by
  induction read generalizing scanner with
  | nil => simp
  | @cons cursor following stop taken more pulled rest ih =>
      obtain ⟨ahead, behind⟩ := cursor
      intro lexeme member
      rcases List.mem_cons.mp member with rfl | later
      · cases Cursor.step_of_ofScanner started with
        | ended => exact absurd rfl more
        | token _ spelled _ => exact ⟨_, spelled⟩
      · exact ih pulled lexeme later

section

variable {mode : Mode} {text : String} {tree : Expr} {value : Float}

theorem exists_reads_of_parse (accepted : parse mode text = .ok tree) :
    ∃ start taken stop depths, Cursor.ofScanner (.ofText text) = .ok start ∧
      start.Reads taken stop ∧ Derives .expression (words taken) tree depths ∧
      Within maxNesting tree depths := by
  have reading := parseFirst_reading text
  rw [parse_eq_finish] at accepted
  generalize parseFirst text = first at reading accepted
  cases reading with
  | unstarted _ => cases accepted
  | @parsed start stop taken parsed depths started read derived within _ =>
      have same : parsed = tree := by
        cases mode with
        | lenient => exact Except.ok.inj accepted
        | strict =>
            change (if stop.lookahead.token = .endOfInput then _ else _) = _ at accepted
            split at accepted
            · exact Except.ok.inj accepted
            · cases accepted
      subst same
      exact ⟨start, taken, stop, depths, started, read, derived, within⟩
  | refused _ _ _ => cases accepted
  | unread _ _ _ _ => cases accepted

theorem Token.number?_eq_some_iff {token : Token} :
    token.number? = some value ↔ token = .integer value := by
  cases token <;> simp [Token.number?]

theorem exists_nearest_of_parse (accepted : parse mode text = .ok tree)
    (leaf : value ∈ tree.literals) : ∃ number, value = Number.nearest number := by
  obtain ⟨start, taken, stop, depths, started, read, derived, _⟩ := exists_reads_of_parse accepted
  rw [derived.literals_eq, integers] at leaf
  obtain ⟨token, member, number⟩ := List.mem_filterMap.mp leaf
  obtain ⟨lexeme, inside, rfl⟩ := List.mem_map.mp member
  obtain ⟨piece, spelled⟩ := read.exists_spells started lexeme inside
  rw [Token.number?_eq_some_iff.mp number] at spelled
  cases spelled with
  | integer nonempty all => exact ⟨_, rfl⟩
  | symbol spelled => exact absurd rfl (Token.kind_of_ofSymbol? spelled).1

end

namespace Expr

/-- All literals of the tree are so. -/
def Every (good : Float → Prop) (tree : Expr) : Prop := ∀ value ∈ tree.literals, good value

section

variable {good : Float → Prop} {op : UnaryOp} {joint : BinaryOp} {operand left right : Expr}
  {value : Float}

@[simp] theorem every_literal : Every good (.literal value) ↔ good value := by
  simp [Every, literals]

@[simp] theorem every_unary : Every good (.unary op operand) ↔ operand.Every good := Iff.rfl

@[simp] theorem every_binary :
    Every good (.binary joint left right) ↔ left.Every good ∧ right.Every good := by
  simp [Every, literals, or_imp, forall_and]

end

abbrev Plain (tree : Expr) : Prop := tree.Every Number.Plain

theorem plain_of_parse {mode : Mode} {text : String} {tree : Expr}
    (accepted : parse mode text = .ok tree) : tree.Plain := by
  intro value leaf
  obtain ⟨number, rfl⟩ := exists_nearest_of_parse accepted leaf
  exact Number.plain_nearest number

end Expr

end Reckon
