import Scriptlet.Proofs.Spelling

/-!
# What may still come

To read a program token by token it is enough to remember what is still to
come: the parts of the statements that have been begun, innermost first. This
is an `Agenda`, and a token either changes it (`Agenda.step`) or cannot come
next. Parts that may be left out stay on the agenda until a token comes that
does not start them.

Two facts about agendas are what this is for. Every agenda can be completed
(`Agenda.run_completion`), so a row of tokens that leaves one is the
beginning of a program. And an agenda knows how many blocks are open
(`Agenda.blocks_run`).

That the parser goes through the agendas of its tokens is shown in
`ParserErrors`.
-/

namespace Scriptlet

/-- A part of a program that is still to come. -/
inductive Awaited where
  | statement
  /-- The name of a function; its parameters and its body come with it. -/
  | name
  /-- The parameter list of a function, if there is one. -/
  | parameterList
  /-- A parameter, or the end of the list. -/
  | parameter
  /-- What follows a parameter: a comma, or the end of the list. -/
  | nextParameter
  /-- The statements of a function and the word `end`. -/
  | body
  /-- The semicolon behind a statement of a body, if there is one. -/
  | separator
  /-- What follows an identifier at the start of a statement: an equals sign
  and a value, or the rest of an expression. -/
  | equals
  | term
  /-- The operators and terms behind a term. -/
  | tail
  /-- The arguments of an identifier, if it is called. -/
  | call
  /-- The first argument, or the end of the arguments. -/
  | argument
  /-- What follows an argument: a comma and another one, or the end. -/
  | nextArgument
  | closing
  deriving Repr, DecidableEq

/-- What is still to come, innermost first. Behind it, statements and
semicolons follow up to the end of the input. -/
abbrev Agenda : Type := List Awaited

namespace Agenda

/-! ## Steps -/

/-- The agenda when a term was awaited in front of `k` and `t` came. -/
def startTerm (t : Token) (k : Agenda) : Option Agenda :=
  if t.kind == .number then some k
  else if t.kind == .identifier then some (.call :: k)
  else if t.kind == .leftParen then some (.term :: .tail :: .closing :: k)
  else none

/-- The agenda when a statement was awaited in front of `k` and `t` came. -/
def startStatement (t : Token) (k : Agenda) : Option Agenda :=
  if t.isKeyword "def" then some (.name :: k)
  else if t.kind == .identifier then some (.equals :: k)
  else startTerm t (.tail :: k)

/-- The agenda when a token came, or nothing if it cannot come next. -/
def step (t : Token) : Agenda → Option Agenda
  | [] =>
    if t.isOperator ";" || t.kind == .endOfInput then some []
    else startStatement t []
  | .statement :: k => startStatement t k
  | .name :: k =>
    if t.kind == .identifier then some (.parameterList :: .body :: k)
    else none
  | .parameterList :: k =>
    if t.kind == .leftParen then some (.parameter :: k) else step t k
  | .parameter :: k =>
    if t.kind == .identifier then some (.nextParameter :: k)
    else if t.kind == .rightParen then some k
    else none
  | .nextParameter :: k =>
    if t.isOperator "," then some (.parameter :: k)
    else if t.kind == .rightParen then some k
    else none
  | .body :: k =>
    if t.isKeyword "end" then some k
    else startStatement t (.separator :: .body :: k)
  | .separator :: k => if t.isOperator ";" then some k else step t k
  | .equals :: k =>
    if t.kind == .assign then some (.term :: .tail :: k)
    else if t.kind == .leftParen then some (.argument :: .tail :: k)
    else if isArithmetic t then some (.term :: .tail :: k)
    else step t k
  | .term :: k => startTerm t k
  | .tail :: k =>
    if isArithmetic t then some (.term :: .tail :: k) else step t k
  | .call :: k =>
    if t.kind == .leftParen then some (.argument :: k) else step t k
  | .argument :: k =>
    if t.kind == .rightParen then some k
    else startTerm t (.tail :: .nextArgument :: k)
  | .nextArgument :: k =>
    if t.isOperator "," then some (.term :: .tail :: .nextArgument :: k)
    else if t.kind == .rightParen then some k
    else none
  | .closing :: k => if t.kind == .rightParen then some k else none

/-- No statement starts with the end of the input. -/
theorem startStatement_endOfInput {t : Token} (h : t.kind = .endOfInput)
    (k : Agenda) : startStatement t k = none := by
  simp [startStatement, startTerm, Token.isKeyword, h]

/-- The input may end between statements. -/
theorem step_nil_endOfInput {t : Token} (h : t.kind = .endOfInput) :
    step t [] = some [] := by
  have htest : (t.isOperator ";" || t.kind == .endOfInput) = true := by
    rw [h, beq_self_eq_true, Bool.or_true]
  exact if_pos htest

/-- The agenda when the tokens of a row came one after the other. -/
def run (k : Agenda) (ts : List Token) : Option Agenda :=
  ts.foldlM (fun k t => step t k) k

@[simp] theorem run_nil (k : Agenda) : run k [] = some k := rfl

@[simp] theorem run_cons (k : Agenda) (t : Token) (ts : List Token) :
    run k (t :: ts) = (step t k).bind fun k' => run k' ts := by
  rw [run, List.foldlM_cons]
  rfl

theorem run_append (k : Agenda) (ts us : List Token) :
    run k (ts ++ us) = (run k ts).bind fun k' => run k' us := by
  rw [run, List.foldlM_append]
  rfl

theorem exists_run_of_append {k k' : Agenda} {ts us : List Token}
    (h : run k (ts ++ us) = some k') :
    ∃ k₁, run k ts = some k₁ ∧ run k₁ us = some k' := by
  rw [run_append] at h
  exact Option.bind_eq_some_iff.mp h

/-- A row that can come, with one more token. -/
theorem run_concat {k k₁ : Agenda} {ts : List Token} (t : Token)
    (h : run k ts = some k₁) : run k (ts ++ [t]) = step t k₁ := by
  rw [run_append, h, Option.bind_some, run_cons]
  exact Option.bind_fun_some _

theorem run_eq_none {k k₁ : Agenda} {ts us : List Token} {t : Token}
    (h : run k ts = some k₁) (hstep : step t k₁ = none) :
    run k (ts ++ t :: us) = none := by
  rw [run_append, h, Option.bind_some, run_cons, hstep]
  rfl

/-- A token does the same wherever it stands. -/
theorem step_moved (t : Token) (position : Int) (k : Agenda) :
    step (t.moved position) k = step t k := by
  induction k with
  | nil => rfl
  | cons part k ih => cases part <;> simp only [step, ih] <;> rfl

theorem run_relocated {ts us : List Token} (h : Relocated ts us)
    (k : Agenda) : run k us = run k ts := by
  induction h generalizing k with
  | nil => rfl
  | cons position _ ih => simp only [run_cons, step_moved, ih]

end Agenda

/-! ## Completion -/

def Awaited.least : Awaited → List Token
  | .statement | .term => [⟨.number, "0", 0⟩]
  | .name => [⟨.identifier, "f", 0⟩, endWord]
  | .parameter | .nextParameter | .argument | .nextArgument | .closing =>
    [closingSign]
  | .body => [endWord]
  | .parameterList | .separator | .equals | .tail | .call => []

theorem Awaited.writableRow_least (part : Awaited) :
    WritableRow part.least := by
  have hzero : Token.Writable ⟨.number, "0", 0⟩ :=
    ⟨TokenKind.noConfusion, by decide, List.all_eq_true.mp rfl⟩
  have hname : Token.Writable ⟨.identifier, "f", 0⟩ :=
    ⟨TokenKind.noConfusion, ⟨'f', [], rfl, rfl, by simp⟩, by decide⟩
  cases part with
  | statement | term => exact .cons hzero .nil
  | name => exact .cons hname (.cons writable_endWord .nil)
  | parameter | nextParameter | argument | nextArgument | closing =>
      exact .cons writable_closingSign .nil
  | body => exact .cons writable_endWord .nil
  | parameterList | separator | equals | tail | call => exact .nil

namespace Agenda

/-- The tokens that do for all that is still to come. -/
def completion (k : Agenda) : List Token := k.flatMap Awaited.least

theorem writableRow_completion (k : Agenda) : WritableRow (completion k) := by
  intro t ht
  obtain ⟨part, _, hpart⟩ := List.mem_flatMap.mp ht
  exact part.writableRow_least t hpart

/-- A token that starts none of the parts that may be left out. -/
def Skips (t : Token) : Prop :=
  t.kind ≠ .operator ∧ t.kind ≠ .assign ∧ t.kind ≠ .leftParen

instance : DecidablePred Skips :=
  fun _ => inferInstanceAs (Decidable (_ ∧ _ ∧ _))

/-- Such a token takes a part that may be left out off the agenda. -/
theorem step_skip {t : Token} (ht : Skips t) {part : Awaited}
    (hpart : part.least = []) (k : Agenda) :
    step t (part :: k) = step t k := by
  obtain ⟨hop, hassign, hopen⟩ := ht
  have harithmetic : ¬ isArithmetic t = true := fun h =>
    hop (Token.kind_of_isArithmetic h)
  cases part with
  | parameterList | call => rw [step, if_neg (fun h => hopen (eq_of_beq h))]
  | separator =>
      rw [step, if_neg (fun h => hop (Token.kind_of_isOperator h))]
  | tail => rw [step, if_neg harithmetic]
  | equals =>
      rw [step, if_neg (fun h => hassign (eq_of_beq h)),
        if_neg (fun h => hopen (eq_of_beq h)), if_neg harithmetic]
  | statement | name | parameter | nextParameter | body | term | argument
  | nextArgument | closing => cases hpart

/-- What does for a part also takes it off the agenda, at the latest with
the token behind it. -/
theorem run_least {t : Token} (ht : Skips t) (part : Awaited) (k : Agenda)
    (ts : List Token) :
    run (part :: k) (part.least ++ t :: ts) = run k (t :: ts) := by
  cases part with
  | statement =>
      -- the number may be followed by operators, which the token rules out
      have hstep : run (.statement :: k) (Awaited.least .statement ++ t :: ts) =
          run (.tail :: k) (t :: ts) := run_cons _ _ _
      rw [hstep, run_cons, run_cons, step_skip ht rfl]
  | name =>
      have hname : run (.name :: k) (Awaited.least .name ++ t :: ts) =
          run (.parameterList :: .body :: k) (endWord :: t :: ts) :=
        run_cons _ _ _
      rw [hname, run_cons, step_skip (by decide) rfl]
      rfl
  | parameterList | separator | equals | tail | call =>
      rw [Awaited.least, List.nil_append, run_cons, run_cons,
        step_skip ht rfl]
  | parameter | nextParameter | body | term | argument | nextArgument
  | closing => exact run_cons _ _ _

/-- What completes an agenda starts no part that may be left out. -/
theorem exists_completion_eq (k : Agenda) (position : Int) :
    ∃ t ts, completion k ++ [Token.atEnd position] = t :: ts ∧ Skips t := by
  induction k with
  | nil =>
      exact ⟨_, _, rfl, TokenKind.noConfusion, TokenKind.noConfusion,
        TokenKind.noConfusion⟩
  | cons part k ih =>
      rw [completion, List.flatMap_cons]
      cases hleast : part.least with
      | nil => exact ih
      | cons t ts =>
          refine ⟨t, ts ++ completion k ++ [Token.atEnd position], rfl, ?_⟩
          cases part <;> cases hleast <;> decide

/-- Every agenda can be completed. -/
theorem run_completion (k : Agenda) (position : Int) :
    run k (completion k ++ [Token.atEnd position]) = some [] := by
  induction k with
  | nil => rfl
  | cons part k ih =>
      obtain ⟨t, ts, hts, ht⟩ := exists_completion_eq k position
      rw [completion, List.flatMap_cons, List.append_assoc]
      rw [completion] at hts ih
      rw [hts] at ih ⊢
      rw [run_least ht, ih]

end Agenda

/-! ## Open blocks -/

/-- By how much a token changes the number of open blocks. -/
def Token.blockChange (t : Token) : Int :=
  if t.isKeyword "def" then 1 else if t.isKeyword "end" then -1 else 0

/-- How many more blocks a row of tokens opens than it closes. -/
def blockBalance (ts : List Token) : Int := (ts.map Token.blockChange).sum

theorem blockBalance_append (ts us : List Token) :
    blockBalance (ts ++ us) = blockBalance ts + blockBalance us := by
  rw [blockBalance, List.map_append, List.sum_append]
  rfl

theorem blockBalance_cons (t : Token) (ts : List Token) :
    blockBalance (t :: ts) = t.blockChange + blockBalance ts := by
  rw [blockBalance, List.map_cons, List.sum_cons]
  rfl

theorem Token.blockChange_of_kind {t : Token} {kind : TokenKind}
    (h : t.kind = kind) (hkind : kind ≠ .keyword) : t.blockChange = 0 := by
  have hword : ∀ word, ¬ t.isKeyword word = true := fun word hword =>
    hkind (h.symm.trans (kind_of_isKeyword hword))
  rw [blockChange, if_neg (hword _), if_neg (hword _)]

theorem Token.blockChange_of_end {t : Token} (h : t.isKeyword "end" = true) :
    t.blockChange = -1 := by
  have hdef : ¬ t.isKeyword "def" = true := by
    intro hdef
    simp only [isKeyword, Bool.and_eq_true, beq_iff_eq] at h hdef
    rw [h.2] at hdef
    exact absurd hdef.2 (by decide)
  rw [blockChange, if_neg hdef, if_pos h]

namespace Agenda

def blocks : Agenda → Int
  | [] => 0
  | .name :: k | .body :: k => blocks k + 1
  | _ :: k => blocks k

theorem blocks_nonneg : ∀ k : Agenda, 0 ≤ blocks k
  | [] => le_rfl
  | part :: k => by
      have hk := blocks_nonneg k
      cases part <;> simp only [blocks] <;> omega

section

variable {t : Token} {k k' new : Agenda}

/-- A token that is no keyword opens and closes no block. -/
theorem blocks_keep {kind : TokenKind} (hk : t.kind = kind)
    (hkind : kind ≠ .keyword) (h : blocks new = blocks k) :
    blocks new = blocks k + t.blockChange := by
  rw [Token.blockChange_of_kind hk hkind, add_zero, h]

/-- One test of a step. -/
theorem blocks_ite {test : Bool} {other : Option Agenda}
    (h : (if test then some new else other) = some k')
    (hnew : test = true → blocks new = blocks k + t.blockChange)
    (hother : other = some k' → blocks k' = blocks k + t.blockChange) :
    blocks k' = blocks k + t.blockChange := by
  split at h
  · rename_i htest
    cases h
    exact hnew htest
  · exact hother h

/-- A test for a kind that is not that of keywords. -/
theorem blocks_ite_kind {kind : TokenKind} {other : Option Agenda}
    (h : (if t.kind == kind then some new else other) = some k')
    (hkind : kind ≠ .keyword) (hnew : blocks new = blocks k)
    (hother : other = some k' → blocks k' = blocks k + t.blockChange) :
    blocks k' = blocks k + t.blockChange :=
  blocks_ite h (fun hk => blocks_keep (eq_of_beq hk) hkind hnew) hother

theorem blocks_startTerm (h : startTerm t k = some k') :
    blocks k' = blocks k + t.blockChange := by
  refine blocks_ite_kind h (by decide) rfl fun h => ?_
  refine blocks_ite_kind h (by decide) rfl fun h => ?_
  exact blocks_ite_kind h (by decide) rfl nofun

theorem blocks_startStatement (h : startStatement t k = some k') :
    blocks k' = blocks k + t.blockChange := by
  refine blocks_ite h (fun hdef => ?_) fun h => ?_
  · rw [Token.blockChange, if_pos hdef]
    rfl
  · exact blocks_ite_kind h (by decide) rfl (blocks_startTerm (k := .tail :: k))

/-- A token opens or closes a block on the agenda as it does in the row. -/
theorem blocks_step (h : step t k = some k') :
    blocks k' = blocks k + t.blockChange := by
  induction k with
  | nil =>
      refine blocks_ite h (fun hend => ?_) blocks_startStatement
      rcases Bool.or_eq_true_iff.mp hend with hsep | hend
      · exact blocks_keep (Token.kind_of_isOperator hsep) (by decide) rfl
      · exact blocks_keep (eq_of_beq hend) (by decide) rfl
  | cons part k ih =>
      cases part with
      | statement => exact blocks_startStatement (k := k) h
      | term => exact blocks_startTerm (k := k) h
      | name | closing => exact blocks_ite_kind h (by decide) rfl nofun
      | parameterList | call => exact blocks_ite_kind h (by decide) rfl ih
      | parameter =>
          refine blocks_ite_kind h (by decide) rfl fun h => ?_
          exact blocks_ite_kind h (by decide) rfl nofun
      | nextParameter | nextArgument =>
          refine blocks_ite h (fun hcomma => ?_) fun h => ?_
          · exact blocks_keep (Token.kind_of_isOperator hcomma) (by decide) rfl
          · exact blocks_ite_kind h (by decide) rfl nofun
      | argument =>
          exact blocks_ite_kind h (by decide) rfl
            (blocks_startTerm (k := .tail :: .nextArgument :: k))
      | body =>
          refine blocks_ite h (fun hend => ?_)
            (blocks_startStatement (k := .separator :: .body :: k))
          rw [Token.blockChange_of_end hend, blocks]
          omega
      | separator =>
          refine blocks_ite h (fun hsep => ?_) ih
          exact blocks_keep (Token.kind_of_isOperator hsep) (by decide) rfl
      | tail =>
          refine blocks_ite h (fun hop => ?_) ih
          exact blocks_keep (Token.kind_of_isArithmetic hop) (by decide) rfl
      | equals =>
          refine blocks_ite_kind h (by decide) rfl fun h => ?_
          refine blocks_ite_kind h (by decide) rfl fun h => ?_
          refine blocks_ite h (fun hop => ?_) ih
          exact blocks_keep (Token.kind_of_isArithmetic hop) (by decide) rfl

/-- What a row of tokens opens and does not close stays on the agenda. -/
theorem blocks_run {ts : List Token} (h : run k ts = some k') :
    blocks k' = blocks k + blockBalance ts := by
  induction ts generalizing k with
  | nil =>
      cases h
      exact (add_zero _).symm
  | cons t ts ih =>
      rw [run_cons] at h
      obtain ⟨k₁, hstep, hrest⟩ := Option.bind_eq_some_iff.mp h
      rw [ih hrest, blocks_step hstep, blockBalance_cons, add_assoc]

end

end Agenda

end Scriptlet
