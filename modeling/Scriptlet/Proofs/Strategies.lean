import Scriptlet.Proofs.Spelling

/-!
# Parsers as strategies

The parser has no other access to a text than to look at the current token
and to consume it. What it does is therefore given by a strategy: in front
of a token of a certain kind and spelling it gives a value, objects to the
token, gives up, or consumes the token and goes on with another strategy
(`Plan`, `Strategy`). Every parsing function follows one, whatever its fuel
and its depth (`Parse.planned`), so what holds of all runs of strategies
holds of them.

Two things that the functions never do are part of this. A plan does not
consume the end of the input. And where a strategy gives a value at the end
of the input, it gives the same value at a semicolon
(`Strategy.EndsAlike`): a statement ends in front of either.

Skipping separators is not a strategy, because nothing but the text bounds
how far it goes, and it does tell the end from a semicolon.
-/

namespace Scriptlet

/-- What the parser sees of a token. -/
abbrev Form : Type := TokenKind × String

namespace Form

def token (form : Form) : Token := ⟨form.1, form.2, 0⟩

def inputEnd : Form := (.endOfInput, "")

def semicolon : Form := (.operator, ";")

end Form

/-- What the parser can have against a token. -/
inductive Objection where
  | unexpected (wanted : Wanted)
  | closingParen
  | functionName

def Objection.error : Objection → Token → ParseError
  | .unexpected wanted, t => .unexpected wanted t
  | .closingParen, t => .closingParen t
  | .functionName, t => .functionName t

/-- What to do in front of a token of the given form. The end of the input
is never consumed. -/
inductive Plan (α : Type) : Form → Type
  | give {form : Form} (a : α) : Plan α form
  | object {form : Form} (objection : Objection) : Plan α form
  | giveUp {form : Form} : Plan α form
  | consume {form : Form} (proper : form.1 ≠ .endOfInput)
      (σ : (form : Form) → Plan α form) : Plan α form

/-- What to do in front of a token. -/
abbrev Strategy (α : Type) : Type := (form : Form) → Plan α form

variable {α β : Type}

namespace Plan

def run {form : Form} : Plan α form → Parse α
  | .give a => pure a
  | .object objection => fun c =>
    .failed (.error (objection.error c.current)) c
  | .giveUp => Step.fail .tooDeep
  | .consume _ σ => do
    let _ ← Parse.advance
    let token ← Parse.current
    (σ token.form).run

def bind {form : Form} (plan : Plan α form) (next : α → Strategy β) :
    Plan β form :=
  match plan with
  | .give a => next a form
  | .object objection => .object objection
  | .giveUp => .giveUp
  | .consume proper σ => .consume proper fun form => (σ form).bind next

/-- What is given at the end of the input is also given at a semicolon. -/
def EndsAlike {form : Form} : Plan α form → Prop
  | .consume _ σ =>
    (∀ a, σ .inputEnd = .give a → σ .semicolon = .give a) ∧
      ∀ form, (σ form).EndsAlike
  | _ => True

end Plan

namespace Strategy

def run (σ : Strategy α) : Parse α := fun c => (σ c.current.form).run c

/-- What is given at the end of the input is also given at a semicolon. -/
def EndsAlike (σ : Strategy α) : Prop :=
  (∀ a, σ .inputEnd = .give a → σ .semicolon = .give a) ∧
    ∀ form, (σ form).EndsAlike

def bind (σ : Strategy α) (next : α → Strategy β) : Strategy β :=
  fun form => (σ form).bind next

end Strategy

/-! ## Sequences -/

namespace Plan

variable {form : Form}

theorem run_consume (proper : form.1 ≠ .endOfInput) (σ : Strategy α) :
    (Plan.consume proper σ).run = Parse.advance >>= fun _ => σ.run := rfl

theorem run_bind (plan : Plan α form) (next : α → Strategy β) {c : Cursor}
    (hc : c.current.form = form) :
    (plan.bind next).run c = (plan.run >>= fun a => (next a).run) c := by
  induction plan generalizing c with
  | give a =>
      subst hc
      rfl
  | object objection => rfl
  | giveUp => rfl
  | consume proper σ ih =>
      rw [bind, run_consume, run_consume, Step.bind_assoc, Step.bind_apply,
        Step.bind_apply]
      cases Parse.advance c with
      | failed e c' => rfl
      | done t c' => exact ih c'.current.form rfl

/-- Only where the first plan gives a value does a sequence give one at
once. -/
theorem bind_eq_give {plan : Plan α form} {next : α → Strategy β} {b : β}
    (h : plan.bind next = .give b) :
    ∃ a, plan = .give a ∧ next a form = .give b := by
  cases plan with
  | give a => exact ⟨a, rfl, h⟩
  | object objection => cases h
  | giveUp => cases h
  | consume proper σ => cases h

/-- A plan that consumes nothing in front of any cursor and returns `a` is
to give it. -/
theorem eq_give {plan : Plan α form} {a : α}
    (h : ∀ c : Cursor, c.current.form = form → plan.run c = .done a c) :
    plan = .give a := by
  -- In front of an unrecognised character nothing can be consumed.
  have hstuck := h ⟨form.token, .broken ⟨' ', 0⟩⟩ rfl
  cases plan with
  | give b =>
      cases hstuck
      rfl
  | object objection => cases hstuck
  | giveUp => cases hstuck
  | consume proper σ => cases hstuck

/-- At the end of the input there is nothing to be done for a value. -/
theorem eq_give_of_inputEnd {plan : Plan α .inputEnd} {a : α}
    {c c' : Cursor} (h : plan.run c = .done a c') :
    plan = .give a ∧ c' = c := by
  cases plan with
  | give b =>
      cases h
      exact ⟨rfl, rfl⟩
  | object objection => cases h
  | giveUp => cases h
  | consume proper σ => exact absurd rfl proper

theorem bind_root {σ : Strategy α} {next : α → Strategy β}
    (h : σ.EndsAlike) (hnext : ∀ a, (next a).EndsAlike) (b : β)
    (hb : σ.bind next .inputEnd = .give b) :
    σ.bind next .semicolon = .give b := by
  obtain ⟨a, ha, hb⟩ := bind_eq_give hb
  rw [Strategy.bind, h.1 a ha]
  exact (hnext a).1 b hb

theorem EndsAlike.bind {plan : Plan α form} {next : α → Strategy β}
    (h : plan.EndsAlike) (hnext : ∀ a, (next a).EndsAlike) :
    (plan.bind next).EndsAlike := by
  induction plan with
  | give a => exact (hnext a).2 _
  | object objection => trivial
  | giveUp => trivial
  | consume proper σ ih =>
      exact ⟨bind_root h hnext, fun form => ih form (h.2 form)⟩

end Plan

namespace Strategy

theorem run_bind (σ : Strategy α) (next : α → Strategy β) :
    (σ.bind next).run = σ.run >>= fun a => (next a).run := by
  funext c
  exact (σ c.current.form).run_bind next rfl

theorem EndsAlike.bind {σ : Strategy α} {next : α → Strategy β}
    (h : σ.EndsAlike) (hnext : ∀ a, (next a).EndsAlike) :
    (σ.bind next).EndsAlike :=
  ⟨Plan.bind_root h hnext, fun form => (h.2 form).bind hnext⟩

end Strategy

/-! ## Parsers that follow a strategy -/

namespace Parse

/-- The parser, which may have looked at the current token already, follows
a strategy. -/
def Looks (p : Token → Parse α) : Prop :=
  ∃ σ : Strategy α, σ.EndsAlike ∧ ∀ c : Cursor, p c.current c = σ.run c

/-- The parser follows a strategy. -/
def Planned (p : Parse α) : Prop := Looks fun _ => p

/-- In front of a token of the given form the parser follows a plan. -/
def PlannedAt (form : Form) (p : Token → Parse α) : Prop :=
  ∃ plan : Plan α form, plan.EndsAlike ∧
    ∀ c : Cursor, c.current.form = form → p c.current c = plan.run c

/-- In front of a token of the given form the parser returns `a` and
consumes nothing. -/
def Gives (form : Form) (p : Token → Parse α) (a : α) : Prop :=
  ∀ c : Cursor, c.current.form = form → p c.current c = .done a c

theorem Looks.planned {p : Token → Parse α} (h : Looks p) :
    Planned (current >>= p) := h

theorem Looks.plannedAt {p : Token → Parse α} (h : Looks p) (form : Form) :
    PlannedAt form p := by
  obtain ⟨σ, hσ, hrun⟩ := h
  refine ⟨σ form, hσ.2 form, fun c hc => ?_⟩
  rw [hrun c, Strategy.run, hc]

theorem Looks.gives {p : Token → Parse α} (h : Looks p) {a : α}
    (ha : Gives .inputEnd p a) : Gives .semicolon p a := by
  obtain ⟨σ, hσ, hrun⟩ := h
  have hend : σ .inputEnd = .give a := by
    refine Plan.eq_give fun c hc => ?_
    rw [← ha c hc, hrun c, Strategy.run, hc]
  intro c hc
  rw [hrun c, Strategy.run, hc, hσ.1 a hend]
  rfl

/-- A parser that has a plan for every token has a strategy. -/
theorem looks_of_plannedAt {p : Token → Parse α}
    (h : ∀ form, PlannedAt form p)
    (hroot : ∀ a, Gives .inputEnd p a → Gives .semicolon p a) : Looks p := by
  choose plan hplan hrun using h
  refine ⟨plan, ⟨fun a ha => ?_, hplan⟩, fun c => hrun _ c rfl⟩
  refine Plan.eq_give fun c hc => ?_
  rw [← hrun _ c hc]
  refine hroot a (fun c' hc' => ?_) c hc
  rw [hrun _ c' hc', ha]
  rfl

theorem Planned.tooDeep : Planned (Step.fail .tooDeep : Parse α) := by
  refine ⟨fun _ => .giveUp, ⟨fun a h => ?_, fun _ => trivial⟩, fun _ => rfl⟩
  cases h

theorem Planned.pure (a : α) : Planned (Pure.pure a : Parse α) := by
  refine ⟨fun _ => .give a, ⟨fun b h => ?_, fun _ => trivial⟩, fun _ => rfl⟩
  cases h
  rfl

theorem Planned.bind {p : Parse α} {next : α → Parse β} (h : Planned p)
    (hnext : ∀ a, Planned (next a)) : Planned (p >>= next) := by
  obtain ⟨σ, hσ, hp⟩ := h
  choose τ hτ hrun using hnext
  refine ⟨σ.bind τ, hσ.bind hτ, fun c => ?_⟩
  have hfirst : p c = σ.run c := hp c
  change (p >>= next) c = _
  rw [Strategy.run_bind, Step.bind_apply, Step.bind_apply, hfirst]
  cases σ.run c with
  | failed e c' => rfl
  | done a c' => exact hrun a c'

/-- An objection to the token that was looked at. -/
theorem Looks.object (objection : Objection) :
    Looks fun t => (failWith (objection.error t) : Parse α) := by
  refine ⟨fun _ => .object objection, ⟨fun a h => ?_, fun _ => trivial⟩,
    fun _ => rfl⟩
  cases h

theorem Planned.unexpected (wanted : Wanted) :
    Planned (Parse.unexpected wanted : Parse α) :=
  (Looks.object (.unexpected wanted)).planned

/-! ## Tests of the token -/

section

variable {form : Form} {test : Token → Bool} {p q : Token → Parse α}

theorem PlannedAt.congr (h : PlannedAt form p)
    (heq : ∀ t : Token, t.form = form → q t = p t) : PlannedAt form q := by
  obtain ⟨plan, hplan, hrun⟩ := h
  refine ⟨plan, hplan, fun c hc => ?_⟩
  rw [heq c.current hc]
  exact hrun c hc

/-- The test sees of a token what the parser sees. -/
def Formal (test : Token → Bool) : Prop :=
  ∀ t : Token, test t = test (Form.token t.form)

theorem PlannedAt.ite (htest : Formal test)
    (hp : test form.token = true → PlannedAt form p)
    (hq : test form.token = false → PlannedAt form q) :
    PlannedAt form fun t => if test t then p t else q t := by
  cases h : test form.token with
  | true =>
      refine (hp h).congr fun t ht => if_pos ?_
      rw [htest, ht, h]
  | false =>
      refine (hq h).congr fun t ht => if_neg ?_
      rw [htest, ht, h]
      exact Bool.false_ne_true

theorem gives_ite_iff (htest : Formal test) (h : test form.token = false)
    {a : α} :
    Gives form (fun t => if test t then p t else q t) a ↔ Gives form q a := by
  refine forall_congr' fun c => imp_congr_right fun hc => ?_
  have hfalse : ¬ test c.current = true := by
    rw [htest, hc, h]
    exact Bool.false_ne_true
  change (if test c.current = true then p c.current else q c.current) c = _ ↔ _
  rw [if_neg hfalse]

end

/-- A token that is not the end of the input is consumed. -/
theorem PlannedAt.advance {form : Form} {next : Token → Token → Parse α}
    (proper : form.1 ≠ .endOfInput)
    (hmoved : ∀ t : Token, next t t = next (Form.token t.form)
      (Form.token t.form))
    (hnext : Planned (next form.token form.token)) :
    PlannedAt form fun t => Parse.advance >>= next t := by
  obtain ⟨σ, hσ, hrun⟩ := hnext
  refine ⟨.consume proper σ, hσ, fun c hc => ?_⟩
  have hfollows : ∀ c', next c.current c.current c' = σ.run c' := by
    intro c'
    rw [hmoved, hc]
    exact hrun c'
  change (Parse.advance >>= next c.current) c = _
  rw [Plan.run_consume, Step.bind_apply, Step.bind_apply]
  unfold Parse.advance
  cases c.pending.next with
  | error e => rfl
  | ok drawn => exact hfollows _

/-- The end of the input is refused. -/
theorem Looks.refuseEnd {p : Parse α} (wanted : Wanted) (hp : Planned p) :
    Looks fun t =>
      if t.kind == .endOfInput then Parse.unexpected wanted else p := by
  refine looks_of_plannedAt (fun form => .ite (fun _ => rfl)
    (fun _ => (Planned.unexpected wanted).plannedAt form)
    fun _ => hp.plannedAt form) fun a ha => ?_
  cases ha ⟨Form.inputEnd.token, .finish 0⟩ rfl

/-- A semicolon makes no difference to a parser that needs more than the end
of the input. -/
theorem Looks.separator {p : Parse α} (hp : Planned p)
    (hmore : ∀ a, ¬ Gives .inputEnd (fun _ => p) a) :
    Looks fun t =>
      if t.isOperator ";" then Parse.advance >>= fun _ => p else p := by
  refine looks_of_plannedAt (fun form => .ite (fun _ => rfl) (fun h => ?_)
    fun _ => hp.plannedAt form) fun a ha => ?_
  · have hkind : form.1 = .operator := Token.kind_of_isOperator h
    refine .advance ?_ (fun _ => rfl) hp
    rw [hkind]
    decide
  · rw [gives_ite_iff (fun _ => rfl) (by decide)] at ha
    exact absurd ha (hmore a)

/-! ## Tokens that are consumed where they are looked for -/

/-- A class of tokens to which neither the end of the input nor a semicolon
belongs. -/
structure Mark (test : Token → Bool) : Prop where
  formal : Formal test
  kind_ne : ∀ t : Token, test t = true → t.kind ≠ .endOfInput
  semicolon : test Form.semicolon.token = false

namespace Mark

theorem kind {k : TokenKind} (hk : k ≠ .endOfInput ∧ k ≠ .operator) :
    Mark fun t => t.kind == k where
  formal _ := rfl
  kind_ne t ht := by
    rw [eq_of_beq ht]
    exact hk.1
  semicolon := beq_false_of_ne hk.2.symm

theorem keyword (word : String) : Mark (Token.isKeyword · word) where
  formal _ := rfl
  kind_ne t ht := by
    rw [Token.kind_of_isKeyword ht]
    decide
  semicolon := rfl

theorem operator {symbol : String} (h : ";" ≠ symbol) :
    Mark (Token.isOperator · symbol) where
  formal _ := rfl
  kind_ne t ht := by
    rw [Token.kind_of_isOperator ht]
    decide
  semicolon := beq_false_of_ne h

theorem arithmetic : Mark isArithmetic where
  formal _ := rfl
  kind_ne t ht := by
    rw [Token.kind_of_isArithmetic ht]
    decide
  semicolon := rfl

end Mark

theorem Looks.ite {test : Token → Bool} {p q : Token → Parse α}
    (hmark : Mark test)
    (hp : ∀ form : Form, test form.token = true → PlannedAt form p)
    (hq : Looks q) : Looks fun t => if test t then p t else q t := by
  have hend : test Form.inputEnd.token = false := by
    refine eq_false_of_ne_true fun h => ?_
    exact hmark.kind_ne _ h rfl
  refine looks_of_plannedAt
    (fun form => .ite hmark.formal (hp form) fun _ => hq.plannedAt form)
    fun a ha => ?_
  rw [gives_ite_iff hmark.formal hend] at ha
  rw [gives_ite_iff hmark.formal hmark.semicolon]
  exact hq.gives ha

/-- A token of the class is consumed; of the token only its form matters in
what follows. -/
theorem Looks.consume {test : Token → Bool} {next : Token → Token → Parse α}
    {q : Token → Parse α} (hmark : Mark test)
    (hmoved : ∀ t : Token, next t t = next (Form.token t.form)
      (Form.token t.form))
    (hnext : ∀ t : Token, Planned (next t t)) (hq : Looks q) :
    Looks fun t => if test t then Parse.advance >>= next t else q t := by
  refine .ite hmark (fun form h => ?_) hq
  exact .advance (hmark.kind_ne _ h) hmoved (hnext _)

/-! ## The parsing functions -/

theorem closingParen_planned : Planned closingParen := by
  refine Looks.planned ?_
  exact .consume (.kind (by decide)) (fun _ => rfl)
    (fun _ => .pure ()) (.object .closingParen)

theorem parameters_planned (fuel : Nat) : Planned (parameters fuel) := by
  induction fuel with
  | zero => exact .tooDeep
  | succ fuel ih =>
      rw [parameters]
      refine Looks.planned ?_
      refine .consume (.kind (by decide)) (fun _ => rfl)
        (fun name => ?_) (Planned.pure _)
      refine Looks.planned ?_
      refine .consume (.operator (by decide)) (fun _ => rfl)
        (fun comma => ?_) (Planned.pure _)
      exact .bind ih fun others => .pure _

/-- The parsing functions follow strategies when they have this fuel. -/
structure Strategic (fuel : Nat) : Prop where
  statement : ∀ depth, Planned (statement fuel depth)
  function : ∀ depth, Planned (function fuel depth)
  body : ∀ depth, Planned (body fuel depth)
  expression : ∀ depth, Planned (expression fuel depth)
  tail : ∀ depth left, Planned (tail fuel depth left)
  term : ∀ depth, Planned (term fuel depth)
  operand : ∀ depth name, Planned (operand fuel depth name)
  arguments : ∀ depth, Planned (arguments fuel depth)

section

variable {fuel depth : Nat}

/-- Of a name only the spelling matters. -/
theorem operand_form (name : Token) :
    operand fuel depth name = operand fuel depth (Form.token name.form) := by
  rw [operand.eq_def, operand.eq_def _ _ (Form.token name.form)]
  cases fuel <;> rfl

/-- A body needs its `end`. -/
theorem body_inputEnd (fuel depth : Nat) :
    ∃ e, body fuel depth ⟨Form.inputEnd.token, .finish 0⟩ =
      .failed e ⟨Form.inputEnd.token, .finish 0⟩ := by
  cases fuel with
  | zero => exact ⟨_, by rw [body]; rfl⟩
  | succ fuel => exact ⟨_, by rw [body]; rfl⟩

theorem expression_planned (ih : Strategic fuel) :
    Planned (expression (fuel + 1) depth) := by
  rw [expression]
  exact .bind (ih.term depth) fun left => ih.tail depth left

theorem tail_planned (ih : Strategic fuel) (left : Node) :
    Planned (tail (fuel + 1) depth left) := by
  rw [tail]
  refine Looks.planned ?_
  refine .consume .arithmetic (fun _ => rfl) (fun op => ?_) (Planned.pure _)
  exact .bind (ih.term depth) fun right => ih.tail depth _

theorem term_planned (ih : Strategic fuel) :
    Planned (term (fuel + 1) depth) := by
  rw [term.eq_def]
  dsimp only
  refine Looks.planned ?_
  refine .consume (.kind (by decide)) (fun _ => rfl)
    (fun number => .pure _) ?_
  refine .consume (.kind (by decide))
    (fun name => operand_form name) (fun name => ih.operand depth name) ?_
  refine .consume (.kind (by decide)) (fun _ => rfl)
    (fun opening => ?_) (Planned.unexpected .operand)
  cases depth with
  | zero => exact .tooDeep
  | succ depth =>
      refine .bind (ih.expression depth) fun inner => ?_
      exact .bind closingParen_planned fun _ => .pure _

theorem operand_planned (ih : Strategic fuel) (name : Token) :
    Planned (operand (fuel + 1) depth name) := by
  rw [operand.eq_def]
  dsimp only
  refine Looks.planned ?_
  refine .consume (.kind (by decide)) (fun _ => rfl)
    (fun opening => ?_) (Planned.pure _)
  refine Looks.planned ?_
  refine .ite (.kind (by decide)) (fun form _ => ?_) ?_
  · refine Looks.plannedAt ?_ form
    exact Planned.bind closingParen_planned fun _ => .pure _
  · cases depth with
    | zero => exact Planned.tooDeep
    | succ depth =>
        refine Planned.bind (ih.arguments depth) fun args => ?_
        exact .bind closingParen_planned fun _ => .pure _

theorem arguments_planned (ih : Strategic fuel) :
    Planned (arguments (fuel + 1) depth) := by
  rw [arguments]
  refine .bind (ih.expression depth) fun first => ?_
  refine Looks.planned ?_
  refine .consume (.operator (by decide)) (fun _ => rfl)
    (fun comma => ?_) (Planned.pure _)
  exact .bind (ih.arguments depth) fun others => .pure _

theorem statement_planned (ih : Strategic fuel) :
    Planned (statement (fuel + 1) depth) := by
  rw [statement]
  refine Looks.planned ?_
  refine .consume (.keyword "def") (fun _ => rfl)
    (fun word => ih.function depth) ?_
  refine .consume (.kind (by decide)) (fun name => ?_)
    (fun name => ?_) (ih.expression depth)
  · rw [operand_form name]
    rfl
  refine Looks.planned ?_
  refine .consume (.kind (by decide)) (fun _ => rfl)
    (fun equals => ?_) ?_
  · exact .bind (ih.expression depth) fun value => .pure _
  · exact Planned.bind (ih.operand depth name) fun left => ih.tail depth left

/-- The parameters of a function, if it has any, and what comes behind. -/
theorem parameterList_planned {next : List Json → Parse Node}
    (hnext : ∀ params, Planned (next params)) :
    Looks fun t =>
      if t.kind == .leftParen then do
        let _ ← Parse.advance
        let params ← parameters fuel
        closingParen
        next params
      else next [] := by
  refine .consume (.kind (by decide)) (fun _ => rfl) (fun opening => ?_)
    (hnext [])
  refine .bind (parameters_planned fuel) fun params => ?_
  exact .bind closingParen_planned fun _ => hnext params

theorem function_planned (ih : Strategic fuel) :
    Planned (function (fuel + 1) depth) := by
  rw [function]
  refine Looks.planned ?_
  refine .consume (.kind (by decide)) (fun _ => rfl) (fun name => ?_)
    (.object .functionName)
  refine Looks.planned ?_
  refine parameterList_planned fun params => ?_
  rw [Step.pure_bind]
  cases depth with
  | zero => exact .tooDeep
  | succ depth => exact .bind (ih.body depth) fun statements => .pure _

theorem body_planned (ih : Strategic fuel) :
    Planned (body (fuel + 1) depth) := by
  rw [body]
  refine Looks.planned ?_
  refine .consume (.keyword "end") (fun _ => rfl) (fun word => .pure _) ?_
  refine Looks.refuseEnd .blockEnd ?_
  refine .bind (ih.statement depth) fun first => ?_
  refine Looks.planned ?_
  refine .separator ?_ fun nodes h => ?_
  · exact .bind (ih.body depth) fun others => .pure _
  · obtain ⟨e, he⟩ := body_inputEnd fuel depth
    obtain ⟨others, c, hothers, -⟩ := Step.bind_eq_done_iff.mp
      (h ⟨Form.inputEnd.token, .finish 0⟩ rfl)
    rw [he] at hothers
    cases hothers

end

/-- Every parsing function follows a strategy. -/
theorem planned (fuel : Nat) : Strategic fuel := by
  induction fuel with
  | zero =>
      constructor <;> intros <;>
        simp only [statement, function, body, expression, tail, term, operand,
          arguments] <;>
        exact .tooDeep
  | succ fuel ih =>
      exact {
        statement := fun _ => statement_planned ih
        function := fun _ => function_planned ih
        body := fun _ => body_planned ih
        expression := fun _ => expression_planned ih
        tail := fun _ => tail_planned ih
        term := fun _ => term_planned ih
        operand := fun _ => operand_planned ih
        arguments := fun _ => arguments_planned ih }

/-- Where there is no semicolon none is skipped. -/
theorem skipSeparators_of_ne {t : Token} (h : ¬ t.isOperator ";" = true)
    (s : Stream) : skipSeparators ⟨t, s⟩ = .done () ⟨t, s⟩ := by
  change skipSeparatorsFrom t s = _
  rw [skipSeparatorsFrom.eq_def, if_neg h]

end Parse

end Scriptlet
