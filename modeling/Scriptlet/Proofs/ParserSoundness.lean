import Scriptlet.Proofs.Reading

/-!
# What the parser returns is derivable

Whatever a parsing function returns, the tokens between its two cursors
derive it (`Finds`). The functions call each other with one unit of fuel
less, so the proof is one induction on the fuel over all of them at once:
`Sound fuel` holds the eight statements, and each lemma below takes one
function one unit further.
-/

namespace Scriptlet.Parse

open Grammar

/-- What the parser returns in front of `ts` is related by `R` to `ts` and
to the tokens it stops at. -/
def Finds {α : Type} (p : Parse α)
    (R : List Token → α → List Token → Prop) : Prop :=
  ∀ ⦃c c' : Cursor⦄ ⦃ts : List Token⦄ ⦃a : α⦄, c.Sees ts → p c = .done a c' →
    ∃ rest, c'.Sees rest ∧ R ts a rest

theorem Finds.tooDeep {α : Type} {R : List Token → α → List Token → Prop} :
    Finds (Step.fail .tooDeep) R := by
  intro c c' ts a hc h
  cases h

structure Sound (fuel : Nat) : Prop where
  statement : ∀ depth, Finds (statement fuel depth) Statement
  function : ∀ depth, Finds (function fuel depth) Definition
  body : ∀ depth, Finds (body fuel depth) Body
  expression : ∀ depth, Finds (expression fuel depth) Expression
  tail : ∀ depth left, Finds (tail fuel depth left) (Tail left)
  term : ∀ depth, Finds (term fuel depth) Term
  operand : ∀ depth name, name.kind = .identifier →
    Finds (operand fuel depth name) fun ts e rest => Term (name :: ts) e rest
  arguments : ∀ depth, Finds (arguments fuel depth) ArgumentRow

/-! ## Expressions -/

theorem expression_sound {fuel : Nat} (ih : Sound fuel) (depth : Nat) :
    Finds (expression (fuel + 1) depth) Expression := by
  intro c c' ts e hc h
  rw [expression] at h
  obtain ⟨left, c₁, hterm, htail⟩ := Step.bind_eq_done_iff.mp h
  obtain ⟨mid, hc₁, hleft⟩ := ih.term depth hc hterm
  obtain ⟨rest, hc', he⟩ := ih.tail depth left hc₁ htail
  exact ⟨rest, hc', .intro hleft he⟩

theorem tail_sound {fuel : Nat} (ih : Sound fuel) (depth : Nat)
    (left : Node) : Finds (tail (fuel + 1) depth left) (Tail left) := by
  intro c c' ts e hc h
  obtain ⟨more, rfl⟩ := hc.eq_cons
  rw [tail, current_bind] at h
  split at h
  · rename_i hop
    obtain ⟨c₁, hc₁, h⟩ :=
      of_advance_bind hc (Token.kind_of_isArithmetic hop) (by decide) h
    obtain ⟨right, c₂, hterm, htail⟩ := Step.bind_eq_done_iff.mp h
    obtain ⟨mid, hc₂, hright⟩ := ih.term depth hc₁ hterm
    obtain ⟨rest, hc', he⟩ := ih.tail depth _ hc₂ htail
    exact ⟨rest, hc', .operator hop hright he⟩
  · rename_i hop
    cases h
    exact ⟨_, hc, .stop (eq_false_of_ne_true hop)⟩

theorem term_sound {fuel : Nat} (ih : Sound fuel) (depth : Nat) :
    Finds (term (fuel + 1) depth) Term := by
  intro c c' ts e hc h
  obtain ⟨more, rfl⟩ := hc.eq_cons
  rw [term.eq_def] at h
  simp only [current_bind] at h
  split at h
  · rename_i hk
    have hkind : c.current.kind = .number := eq_of_beq hk
    obtain ⟨c₁, hc₁, h⟩ := of_advance_bind hc hkind (by decide) h
    cases h
    exact ⟨more, hc₁, .number hkind⟩
  · split at h
    · rename_i hk
      have hkind : c.current.kind = .identifier := eq_of_beq hk
      obtain ⟨c₁, hc₁, h⟩ := of_advance_bind hc hkind (by decide) h
      exact ih.operand depth _ hkind hc₁ h
    · split at h
      · rename_i hk
        have hkind : c.current.kind = .leftParen := eq_of_beq hk
        obtain ⟨c₁, hc₁, h⟩ := of_advance_bind hc hkind (by decide) h
        cases depth with
        | zero => cases h
        | succ depth =>
            obtain ⟨inner, c₂, hinner, h⟩ := Step.bind_eq_done_iff.mp h
            obtain ⟨mid, hc₂, hexp⟩ := ih.expression depth hc₁ hinner
            obtain ⟨_, c₃, hclose, h⟩ := Step.bind_eq_done_iff.mp h
            obtain ⟨closing, rest, rfl, hcl, hc₃⟩ :=
              of_closingParen hc₂ hclose
            cases h
            exact ⟨rest, hc₃, .parens hkind hexp hcl⟩
      · cases h

theorem operand_sound {fuel : Nat} (ih : Sound fuel) (depth : Nat)
    (name : Token) (hname : name.kind = .identifier) :
    Finds (operand (fuel + 1) depth name)
      fun ts e rest => Term (name :: ts) e rest := by
  intro c c' ts e hc h
  obtain ⟨more, rfl⟩ := hc.eq_cons
  rw [operand.eq_def] at h
  simp only [current_bind] at h
  split at h
  · rename_i hk
    have hkind : c.current.kind = .leftParen := eq_of_beq hk
    obtain ⟨c₁, hc₁, h⟩ := of_advance_bind hc hkind (by decide) h
    rw [current_bind] at h
    split at h
    · obtain ⟨_, c₂, hclose, h⟩ := Step.bind_eq_done_iff.mp h
      obtain ⟨closing, rest, rfl, hcl, hc₂⟩ := of_closingParen hc₁ hclose
      cases h
      exact ⟨rest, hc₂, .call hname hkind (.none hcl)⟩
    · cases depth with
      | zero => cases h
      | succ depth =>
          obtain ⟨args, c₂, hargs, h⟩ := Step.bind_eq_done_iff.mp h
          obtain ⟨mid, hc₂, hrow⟩ := ih.arguments depth hc₁ hargs
          obtain ⟨_, c₃, hclose, h⟩ := Step.bind_eq_done_iff.mp h
          obtain ⟨closing, rest, rfl, hcl, hc₃⟩ := of_closingParen hc₂ hclose
          cases h
          exact ⟨rest, hc₃, .call hname hkind (.some hrow hcl)⟩
  · rename_i hk
    cases h
    refine ⟨_, hc, .name hname ?_⟩
    intro hkind
    exact hk (by rw [hkind]; rfl)

theorem arguments_sound {fuel : Nat} (ih : Sound fuel) (depth : Nat) :
    Finds (arguments (fuel + 1) depth) ArgumentRow := by
  intro c c' ts args hc h
  rw [arguments] at h
  obtain ⟨first, c₁, hfirst, h⟩ := Step.bind_eq_done_iff.mp h
  obtain ⟨mid, hc₁, hexp⟩ := ih.expression depth hc hfirst
  obtain ⟨more, rfl⟩ := hc₁.eq_cons
  rw [current_bind] at h
  split at h
  · rename_i hcomma
    obtain ⟨c₂, hc₂, h⟩ :=
      of_advance_bind hc₁ (Token.kind_of_isOperator hcomma) (by decide) h
    obtain ⟨others, c₃, hothers, h⟩ := Step.bind_eq_done_iff.mp h
    obtain ⟨rest, hc₃, hrow⟩ := ih.arguments depth hc₂ hothers
    cases h
    exact ⟨rest, hc₃, .comma hexp hcomma hrow⟩
  · rename_i hcomma
    cases h
    exact ⟨_, hc₁, .last hexp (eq_false_of_ne_true hcomma)⟩

/-! ## Statements -/

theorem parameters_sound (fuel : Nat) :
    Finds (parameters fuel) ParameterRow := by
  induction fuel with
  | zero => exact .tooDeep
  | succ fuel ih =>
      intro c c' ts params hc h
      obtain ⟨more, rfl⟩ := hc.eq_cons
      rw [parameters, current_bind] at h
      split at h
      · rename_i hk
        have hkind : c.current.kind = .identifier := eq_of_beq hk
        obtain ⟨c₁, hc₁, h⟩ := of_advance_bind hc hkind (by decide) h
        obtain ⟨more', rfl⟩ := hc₁.eq_cons
        rw [current_bind] at h
        split at h
        · rename_i hcomma
          obtain ⟨c₂, hc₂, h⟩ :=
            of_advance_bind hc₁ (Token.kind_of_isOperator hcomma) (by decide) h
          obtain ⟨others, c₃, hothers, h⟩ := Step.bind_eq_done_iff.mp h
          obtain ⟨rest, hc₃, hrow⟩ := ih hc₂ hothers
          cases h
          exact ⟨rest, hc₃, .comma hkind hcomma hrow⟩
        · rename_i hcomma
          cases h
          exact ⟨_, hc₁, .last hkind (eq_false_of_ne_true hcomma)⟩
      · rename_i hk
        cases h
        refine ⟨_, hc, .none ?_⟩
        intro hkind
        exact hk (by rw [hkind]; rfl)

theorem statement_sound {fuel : Nat} (ih : Sound fuel) (depth : Nat) :
    Finds (statement (fuel + 1) depth) Statement := by
  intro c c' ts node hc h
  obtain ⟨more, rfl⟩ := hc.eq_cons
  rw [statement, current_bind] at h
  split at h
  · rename_i hdef
    obtain ⟨c₁, hc₁, h⟩ :=
      of_advance_bind hc (Token.kind_of_isKeyword hdef) (by decide) h
    obtain ⟨rest, hc', hfun⟩ := ih.function depth hc₁ h
    exact ⟨rest, hc', .define hdef hfun⟩
  · split at h
    · rename_i hk
      have hkind : c.current.kind = .identifier := eq_of_beq hk
      obtain ⟨c₁, hc₁, h⟩ := of_advance_bind hc hkind (by decide) h
      obtain ⟨more', rfl⟩ := hc₁.eq_cons
      rw [current_bind] at h
      split at h
      · rename_i hk₁
        have hassign : c₁.current.kind = .assign := eq_of_beq hk₁
        obtain ⟨c₂, hc₂, h⟩ := of_advance_bind hc₁ hassign (by decide) h
        obtain ⟨value, c₃, hvalue, h⟩ := Step.bind_eq_done_iff.mp h
        obtain ⟨rest, hc₃, hexp⟩ := ih.expression depth hc₂ hvalue
        cases h
        exact ⟨rest, hc₃, .assign hkind hassign hexp⟩
      · obtain ⟨left, c₂, hleft, h⟩ := Step.bind_eq_done_iff.mp h
        obtain ⟨mid, hc₂, hterm⟩ := ih.operand depth _ hkind hc₁ hleft
        obtain ⟨rest, hc', htail⟩ := ih.tail depth left hc₂ h
        exact ⟨rest, hc', .expression (.intro hterm htail)⟩
    · obtain ⟨rest, hc', hexp⟩ := ih.expression depth hc h
      exact ⟨rest, hc', .expression hexp⟩

/-- A function behind its parameter list, which is what both ways of
reading that list go on with. -/
theorem definition_of_body {fuel : Nat} (ih : Sound fuel) {depth : Nat}
    {name : Token} {params : List Json} {c c' : Cursor}
    {ts mid : List Token} {node : Node} (hname : name.kind = .identifier)
    (hparams : ParameterList ts params mid) (hc : c.Sees mid)
    (h : (match depth with
      | 0 => Step.fail .tooDeep
      | depth + 1 => do
        let statements ← body fuel depth
        return .define (.text name.lexeme) params statements : Parse Node) c =
      .done node c') :
    ∃ rest, c'.Sees rest ∧ Definition (name :: ts) node rest := by
  cases depth with
  | zero => cases h
  | succ depth =>
      obtain ⟨statements, c₁, hbody, h⟩ := Step.bind_eq_done_iff.mp h
      obtain ⟨rest, hc₁, hstatements⟩ := ih.body depth hc hbody
      cases h
      exact ⟨rest, hc₁, .intro hname hparams hstatements⟩

theorem function_sound {fuel : Nat} (ih : Sound fuel) (depth : Nat) :
    Finds (function (fuel + 1) depth) Definition := by
  intro c c' ts node hc h
  obtain ⟨more, rfl⟩ := hc.eq_cons
  rw [function, current_bind] at h
  split at h
  · rename_i hk
    have hkind : c.current.kind = .identifier := eq_of_beq hk
    obtain ⟨c₁, hc₁, h⟩ := of_advance_bind hc hkind (by decide) h
    obtain ⟨more', rfl⟩ := hc₁.eq_cons
    rw [current_bind] at h
    dsimp only at h
    split at h
    · rename_i hk₁
      have hopen : c₁.current.kind = .leftParen := eq_of_beq hk₁
      obtain ⟨c₂, hc₂, h⟩ := of_advance_bind hc₁ hopen (by decide) h
      obtain ⟨params, c₃, hparams, h⟩ := Step.bind_eq_done_iff.mp h
      obtain ⟨mid, hc₃, hrow⟩ := parameters_sound fuel hc₂ hparams
      obtain ⟨_, c₄, hclose, h⟩ := Step.bind_eq_done_iff.mp h
      obtain ⟨closing, rest, rfl, hcl, hc₄⟩ := of_closingParen hc₃ hclose
      exact definition_of_body ih hkind (.present hopen hrow hcl) hc₄ h
    · rename_i hk₁
      refine definition_of_body ih hkind (.absent ?_) hc₁ h
      intro hopen
      exact hk₁ (by rw [hopen]; rfl)
  · cases h

theorem body_sound {fuel : Nat} (ih : Sound fuel) (depth : Nat) :
    Finds (body (fuel + 1) depth) Body := by
  intro c c' ts statements hc h
  obtain ⟨more, rfl⟩ := hc.eq_cons
  rw [body, current_bind] at h
  split at h
  · rename_i hend
    obtain ⟨c₁, hc₁, h⟩ :=
      of_advance_bind hc (Token.kind_of_isKeyword hend) (by decide) h
    cases h
    exact ⟨more, hc₁, .close hend⟩
  · split at h
    · cases h
    · obtain ⟨first, c₁, hfirst, h⟩ := Step.bind_eq_done_iff.mp h
      obtain ⟨mid, hc₁, hstatement⟩ := ih.statement depth hc hfirst
      obtain ⟨more', rfl⟩ := hc₁.eq_cons
      rw [current_bind] at h
      dsimp only at h
      split at h
      · rename_i hsep
        obtain ⟨c₂, hc₂, h⟩ :=
          of_advance_bind hc₁ (Token.kind_of_isOperator hsep) (by decide) h
        obtain ⟨others, c₃, hothers, h⟩ := Step.bind_eq_done_iff.mp h
        obtain ⟨rest, hc₃, hbody⟩ := ih.body depth hc₂ hothers
        cases h
        exact ⟨rest, hc₃, .statement hstatement (.present hsep) hbody⟩
      · rename_i hsep
        obtain ⟨others, c₂, hothers, h⟩ := Step.bind_eq_done_iff.mp h
        obtain ⟨rest, hc₂, hbody⟩ := ih.body depth hc₁ hothers
        cases h
        exact ⟨rest, hc₂,
          .statement hstatement (.absent (eq_false_of_ne_true hsep)) hbody⟩

/-- With any fuel, what the parsing functions return is derivable. -/
theorem sound (fuel : Nat) : Sound fuel := by
  induction fuel with
  | zero =>
      -- without fuel nothing is returned
      exact {
        statement := fun _ => by rw [statement]; exact .tooDeep
        function := fun _ => by rw [function]; exact .tooDeep
        body := fun _ => by rw [body]; exact .tooDeep
        expression := fun _ => by rw [expression]; exact .tooDeep
        tail := fun _ _ => by rw [tail]; exact .tooDeep
        term := fun _ => by rw [term]; exact .tooDeep
        operand := fun _ _ _ => by rw [operand]; exact .tooDeep
        arguments := fun _ => by rw [arguments]; exact .tooDeep }
  | succ fuel ih =>
      exact {
        statement := statement_sound ih
        function := function_sound ih
        body := body_sound ih
        expression := expression_sound ih
        tail := tail_sound ih
        term := term_sound ih
        operand := operand_sound ih
        arguments := arguments_sound ih }

/-! ## Programs -/

theorem separators_sound : Finds skipSeparators fun ts _ rest =>
    Separators ts rest := by
  intro c c' ts a hc h
  obtain ⟨current, pending⟩ := c
  change skipSeparatorsFrom current pending = .done a c' at h
  fun_induction skipSeparatorsFrom current pending generalizing ts with
  | case1 current hsep head rest ih =>
      cases hc with
      | token _ hs =>
          cases hs with
          | token hne hs =>
              obtain ⟨rest', hc', hmore⟩ := ih (.token hne hs) h
              exact ⟨rest', hc', .semicolon hsep hmore⟩
  | case2 current hsep position =>
      cases h
      cases hc with
      | finish => cases hsep
      | token _ hs =>
          cases hs
          exact ⟨_, .finish, .semicolon hsep (.stop rfl)⟩
  | case3 => cases h
  | case4 current pending hsep =>
      cases h
      obtain ⟨more, rfl⟩ := hc.eq_cons
      exact ⟨_, hc, .stop (eq_false_of_ne_true hsep)⟩

/-- A program that was parsed to its end is derivable from its tokens. -/
theorem statements_sound (fuel depth : Nat) :
    Finds (statements fuel depth) fun ts nodes _ => Program ts nodes := by
  induction fuel with
  | zero => exact .tooDeep
  | succ fuel ih =>
      intro c c' ts nodes hc h
      rw [statements] at h
      obtain ⟨_, c₁, hskip, h⟩ := Step.bind_eq_done_iff.mp h
      obtain ⟨next, hc₁, hseps⟩ := separators_sound hc hskip
      obtain ⟨_, _, hget, h⟩ := Step.bind_eq_done_iff.mp h
      cases hget
      split at h
      · rename_i hend
        have hkind : c₁.current.kind = .endOfInput := eq_of_beq hend
        cases h
        obtain ⟨more, rfl⟩ := hc₁.eq_cons
        obtain rfl := hc₁.eq_nil_of_endOfInput hkind
        exact ⟨_, hc₁, .intro hseps (.done hkind)⟩
      · obtain ⟨first, c₂, hfirst, h⟩ := Step.bind_eq_done_iff.mp h
        obtain ⟨mid, hc₂, hstatement⟩ := (sound fuel).statement depth hc₁ hfirst
        obtain ⟨others, c₃, hothers, h⟩ := Step.bind_eq_done_iff.mp h
        obtain ⟨rest, hc₃, hprogram⟩ := ih hc₂ hothers
        cases h
        cases hprogram with
        | intro hseps' hmore =>
            exact ⟨rest, hc₃,
              .intro hseps (.statement hstatement hseps' hmore)⟩

end Scriptlet.Parse
