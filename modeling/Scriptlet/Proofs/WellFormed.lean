import Scriptlet.Proofs.ParserGrammar

/-!
# Trees that come from texts

A tree that was parsed is much more regular than the type of trees allows:
its names are words, its numerals are digits, its operators are the four of
the grammar, only names are called, and definitions and assignments stand
in statement position alone. `IsExpression` and `IsStatement` say this, and
`isStatement_of_parseProgram` says that the parser builds nothing else.

The proof goes through the grammar: the lexical facts are facts about the
tokens that the scanner makes (`Token.Lexical`), and a derivation passes
them on to its tree.
-/

namespace Scriptlet

/-! ## Words and numerals -/

def IsNumeral (text : String) : Prop :=
  text.toList ≠ [] ∧ ∀ c ∈ text.toList, c.isDigit = true

/-- A word that is not reserved. -/
def IsName (word : String) : Prop :=
  (∃ c cs, word.toList = c :: cs ∧ isWordStart c = true ∧
    ∀ d ∈ cs, isWordPart d = true) ∧ word ∉ reservedWords

/-- The operators that a parsed expression can have. -/
def arithmeticOperators : List String := ["+", "-", "*", "/"]

/-! ## Trees -/

inductive IsExpression : Node → Prop
  | number {text : String} : IsNumeral text →
      IsExpression (.number (.text text))
  | identifier {name : String} : IsName name →
      IsExpression (.identifier (.text name))
  | binary {operator : String} {left right : Node} :
      operator ∈ arithmeticOperators → IsExpression left →
      IsExpression right → IsExpression (.binary (.text operator) left right)
  | call {name : String} {args : List Node} : IsName name →
      (∀ arg ∈ args, IsExpression arg) →
      IsExpression (.call (.identifier (.text name)) args)

inductive IsStatement : Node → Prop
  | expression {e : Node} : IsExpression e → IsStatement e
  | assign {name : String} {value : Node} : IsName name →
      IsExpression value → IsStatement (.assign (.text name) value)
  | define {name : String} {params : List String} {body : List Node} :
      IsName name → (∀ param ∈ params, IsName param) →
      (∀ statement ∈ body, IsStatement statement) →
      IsStatement (.define (.text name) (params.map .text) body)

/-! ## Tokens -/

/-- A token is spelled as its kind asks for. -/
structure Token.Lexical (t : Token) : Prop where
  number : t.kind = .number → IsNumeral t.lexeme
  identifier : t.kind = .identifier → IsName t.lexeme

theorem isNumeral_digits {c : Char} (rest : List Char)
    (hc : c.isDigit = true) :
    IsNumeral (String.ofList (c :: rest.takeWhile Char.isDigit)) := by
  constructor
  · simp
  · intro d hd
    simp only [String.toList_ofList, List.mem_cons] at hd
    rcases hd with rfl | hd
    · exact hc
    · exact List.all_eq_true.mp List.all_takeWhile d hd

theorem isName_letters {c : Char} (rest : List Char)
    (hc : isWordStart c = true)
    (hkind : wordKind (String.ofList (c :: rest.takeWhile isWordPart)) =
      .identifier) :
    IsName (String.ofList (c :: rest.takeWhile isWordPart)) := by
  constructor
  · refine ⟨c, rest.takeWhile isWordPart, by simp, hc, ?_⟩
    intro d hd
    exact List.all_eq_true.mp List.all_takeWhile d hd
  · intro hmem
    unfold wordKind at hkind
    rw [if_pos (List.contains_iff_mem.mpr hmem)] at hkind
    cases hkind

theorem Stream.lexical_scan (finish position : Int) (cs : List Char) :
    ∀ t ∈ (scan finish position cs).tokens.1, t.Lexical := by
  fun_induction scan finish position cs with
  | case1 =>
      intro t ht
      simp only [tokens, List.mem_singleton] at ht
      subst ht
      exact ⟨TokenKind.noConfusion, TokenKind.noConfusion⟩
  | case2 position c rest hspace ih => exact ih
  | case3 position c rest hspace hdigit digits ih =>
      intro t ht
      rcases List.mem_cons.mp ht with rfl | ht
      · exact ⟨fun _ => isNumeral_digits rest hdigit, TokenKind.noConfusion⟩
      · exact ih t ht
  | case4 position c rest hspace hdigit hword letters word ih =>
      intro t ht
      rcases List.mem_cons.mp ht with rfl | ht
      · constructor
        · intro hkind
          simp only [wordKind] at hkind
          split at hkind <;> cases hkind
        · exact isName_letters rest hword
      · exact ih t ht
  | case5 position c rest hspace hdigit hword kind hkind ih =>
      intro t ht
      rcases List.mem_cons.mp ht with rfl | ht
      · have hmem := symbolKind?_mem hkind
        constructor
        · intro h
          rw [show kind = .number from h] at hmem
          exact absurd hmem (by decide)
        · intro h
          rw [show kind = .identifier from h] at hmem
          exact absurd hmem (by decide)
      · exact ih t ht
  | case6 =>
      intro t ht
      cases ht

/-! ## Derivations -/

namespace Grammar

def LexicalRow (ts : List Token) : Prop := ∀ t ∈ ts, t.Lexical

theorem LexicalRow.head {t : Token} {ts : List Token}
    (h : LexicalRow (t :: ts)) : t.Lexical := h t List.mem_cons_self

theorem LexicalRow.tail {t : Token} {ts : List Token}
    (h : LexicalRow (t :: ts)) : LexicalRow ts :=
  fun u hu => h u (List.mem_cons_of_mem t hu)

theorem mem_arithmeticOperators {t : Token} (h : isArithmetic t = true) :
    t.lexeme ∈ arithmeticOperators := by
  simp only [isArithmetic, Bool.and_eq_true] at h
  exact List.contains_iff_mem.mp h.2

mutual

theorem Expression.wellFormed {ts rest : List Token} {e : Node} :
    Expression ts e rest → LexicalRow ts → IsExpression e ∧ LexicalRow rest
  | .intro hterm htail, hts => by
      obtain ⟨hleft, hmid⟩ := hterm.wellFormed hts
      exact htail.wellFormed hleft hmid

theorem Tail.wellFormed {left e : Node} {ts rest : List Token} :
    Tail left ts e rest → IsExpression left → LexicalRow ts →
      IsExpression e ∧ LexicalRow rest
  | .stop _, hleft, hts => ⟨hleft, hts⟩
  | .operator hop hterm htail, hleft, hts => by
      obtain ⟨hright, hmid⟩ := hterm.wellFormed hts.tail
      exact htail.wellFormed
        (.binary (mem_arithmeticOperators hop) hleft hright) hmid

theorem Term.wellFormed {ts rest : List Token} {e : Node} :
    Term ts e rest → LexicalRow ts → IsExpression e ∧ LexicalRow rest
  | .number hkind, hts => ⟨.number (hts.head.number hkind), hts.tail⟩
  | .name hkind _, hts => ⟨.identifier (hts.head.identifier hkind), hts.tail⟩
  | .call hkind _ hargs, hts => by
      obtain ⟨hall, hrest⟩ := hargs.wellFormed hts.tail.tail
      exact ⟨.call (hts.head.identifier hkind) hall, hrest⟩
  | .parens _ hexp _, hts => by
      obtain ⟨he, hrest⟩ := hexp.wellFormed hts.tail
      exact ⟨he, hrest.tail⟩

theorem Arguments.wellFormed {ts rest : List Token} {args : List Node} :
    Arguments ts args rest → LexicalRow ts →
      (∀ arg ∈ args, IsExpression arg) ∧ LexicalRow rest
  | .none _, hts => ⟨fun _ h => (List.not_mem_nil h).elim, hts.tail⟩
  | .some hrow _, hts => by
      obtain ⟨hall, hrest⟩ := hrow.wellFormed hts
      exact ⟨hall, hrest.tail⟩

theorem ArgumentRow.wellFormed {ts rest : List Token} {args : List Node} :
    ArgumentRow ts args rest → LexicalRow ts →
      (∀ arg ∈ args, IsExpression arg) ∧ LexicalRow rest
  | .last hexp _, hts => by
      obtain ⟨he, hrest⟩ := hexp.wellFormed hts
      exact ⟨List.forall_mem_singleton.mpr he, hrest⟩
  | .comma hexp _ hrow, hts => by
      obtain ⟨he, hmid⟩ := hexp.wellFormed hts
      obtain ⟨hall, hrest⟩ := hrow.wellFormed hmid.tail
      exact ⟨List.forall_mem_cons.mpr ⟨he, hall⟩, hrest⟩

end

theorem ParameterRow.wellFormed {ts rest : List Token} {params : List Json}
    (h : ParameterRow ts params rest) (hts : LexicalRow ts) :
    (∃ names : List String, params = names.map .text ∧
      ∀ name ∈ names, IsName name) ∧ LexicalRow rest := by
  induction h with
  | none _ => exact ⟨⟨[], rfl, fun _ h => (List.not_mem_nil h).elim⟩, hts⟩
  | @last t rest hkind _ =>
      exact ⟨⟨[t.lexeme], rfl,
        List.forall_mem_singleton.mpr (hts.head.identifier hkind)⟩, hts.tail⟩
  | @comma t comma ts rest others hkind _ _ ih =>
      obtain ⟨⟨names, rfl, hnames⟩, hrest⟩ := ih hts.tail.tail
      exact ⟨⟨t.lexeme :: names, rfl,
        List.forall_mem_cons.mpr ⟨hts.head.identifier hkind, hnames⟩⟩, hrest⟩

theorem ParameterList.wellFormed {ts rest : List Token} {params : List Json}
    (h : ParameterList ts params rest) (hts : LexicalRow ts) :
    (∃ names : List String, params = names.map .text ∧
      ∀ name ∈ names, IsName name) ∧ LexicalRow rest := by
  cases h with
  | absent _ => exact ⟨⟨[], rfl, fun _ h => (List.not_mem_nil h).elim⟩, hts⟩
  | present _ hrow _ =>
      obtain ⟨hnames, hrest⟩ := hrow.wellFormed hts.tail
      exact ⟨hnames, hrest.tail⟩

theorem OptionalSeparator.lexicalRow {ts rest : List Token}
    (h : OptionalSeparator ts rest) (hts : LexicalRow ts) :
    LexicalRow rest := by
  cases h with
  | absent _ => exact hts
  | present _ => exact hts.tail

mutual

theorem Statement.wellFormed {ts rest : List Token} {node : Node} :
    Statement ts node rest → LexicalRow ts →
      IsStatement node ∧ LexicalRow rest
  | .define _ hdef, hts => hdef.wellFormed hts.tail
  | .assign hkind _ hexp, hts => by
      obtain ⟨hvalue, hrest⟩ := hexp.wellFormed hts.tail.tail
      exact ⟨.assign (hts.head.identifier hkind) hvalue, hrest⟩
  | .expression hexp, hts => by
      obtain ⟨he, hrest⟩ := hexp.wellFormed hts
      exact ⟨.expression he, hrest⟩

theorem Definition.wellFormed {ts rest : List Token} {node : Node} :
    Definition ts node rest → LexicalRow ts →
      IsStatement node ∧ LexicalRow rest
  | .intro hkind hparams hbody, hts => by
      obtain ⟨⟨names, rfl, hnames⟩, hmid⟩ := hparams.wellFormed hts.tail
      obtain ⟨hall, hrest⟩ := hbody.wellFormed hmid
      exact ⟨.define (hts.head.identifier hkind) hnames hall, hrest⟩

theorem Body.wellFormed {ts rest : List Token} {statements : List Node} :
    Body ts statements rest → LexicalRow ts →
      (∀ statement ∈ statements, IsStatement statement) ∧ LexicalRow rest
  | .close _, hts => ⟨fun _ h => (List.not_mem_nil h).elim, hts.tail⟩
  | .statement hstatement hsep hbody, hts => by
      obtain ⟨hfirst, hmid⟩ := hstatement.wellFormed hts
      obtain ⟨hall, hrest⟩ := hbody.wellFormed (hsep.lexicalRow hmid)
      exact ⟨List.forall_mem_cons.mpr ⟨hfirst, hall⟩, hrest⟩

end

theorem Separators.lexicalRow {ts rest : List Token}
    (h : Separators ts rest) (hts : LexicalRow ts) : LexicalRow rest := by
  induction h with
  | stop _ => exact hts
  | semicolon _ _ ih => exact ih hts.tail

theorem Statements.wellFormed {ts : List Token} {nodes : List Node}
    (h : Statements ts nodes) (hts : LexicalRow ts) :
    ∀ node ∈ nodes, IsStatement node := by
  induction h with
  | done _ => exact fun _ h => (List.not_mem_nil h).elim
  | statement hstatement hseps _ ih =>
      obtain ⟨hfirst, hmid⟩ := hstatement.wellFormed hts
      exact List.forall_mem_cons.mpr ⟨hfirst, ih (hseps.lexicalRow hmid)⟩

end Grammar

/-! ## Parsed texts -/

/-- Every statement of a parsed text is well-formed. -/
theorem isStatement_of_parseProgram {limit : Nat} {source : String}
    {nodes : List Node} (h : parseProgram limit source = .ok nodes) :
    ∀ node ∈ nodes, IsStatement node := by
  obtain ⟨hseps, hstatements⟩ := program_of_parseProgram h
  have hlexical : Grammar.LexicalRow (Stream.ofText source).tokens.1 :=
    Stream.lexical_scan _ _ _
  exact hstatements.wellFormed (hseps.lexicalRow hlexical)

end Scriptlet
