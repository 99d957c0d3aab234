import Scriptlet.Proofs.Reading

/-!
# What is derivable, the parser returns

In front of tokens that derive a tree, the parsing function for that part
of the grammar returns this tree and stops where the derivation stops,
unless its fuel or its depth does not suffice (`Parse.Reads`). The proofs
follow the derivation. A parser always looks at the token behind what it
read, so each statement asks for such a token.

One case is not a plain reading of the grammar: a statement may be an
expression, but in front of an identifier and an equals sign the parser
commits itself to an assignment. Nothing that can follow a statement starts
with an equals sign, and under that condition the two agree.
-/

namespace Scriptlet.Parse

open Grammar

/-! ## Expressions -/

/-- An identifier that no parenthesis follows. -/
theorem operand_name {name : Token} {rest : List Token}
    (hrest : NextIs (fun t => t.kind ≠ .leftParen) rest) (fuel depth : Nat) :
    Reads (operand fuel depth name) rest
      (.identifier (.text name.lexeme)) rest := by
  cases fuel with
  | zero =>
      rw [operand]
      exact .tooDeep
  | succ fuel =>
      cases rest with
      | nil => exact hrest.elim
      | cons t rest =>
          rw [operand.eq_def]
          apply Reads.bind .current
          rw [if_neg (fun h => hrest (eq_of_beq h))]
          exact .pure

/-- A call without arguments. -/
theorem operand_call_none {name opening closing : Token} {rest : List Token}
    (hopen : opening.kind = .leftParen) (hclose : closing.kind = .rightParen)
    (hrest : rest ≠ []) (fuel depth : Nat) :
    Reads (operand fuel depth name) (opening :: closing :: rest)
      (.call (.identifier (.text name.lexeme)) []) rest := by
  cases fuel with
  | zero =>
      rw [operand]
      exact .tooDeep
  | succ fuel =>
      rw [operand.eq_def]
      apply Reads.bind .current
      rw [if_pos (by rw [hopen]; rfl)]
      apply Reads.bind (.advance hopen (by decide) (List.cons_ne_nil _ _))
      apply Reads.bind .current
      rw [if_pos (by rw [hclose]; rfl)]
      exact .bind (.closingParen hclose hrest) .pure

/-- A call with arguments, given that these are read. -/
theorem operand_call_some {name opening closing : Token}
    {ts rest : List Token} {args : List Node}
    (hopen : opening.kind = .leftParen)
    (hrow : ArgumentRow ts args (closing :: rest))
    (hclose : closing.kind = .rightParen) (hrest : rest ≠ [])
    (hargs : ∀ fuel depth,
      Reads (arguments fuel depth) ts args (closing :: rest))
    (fuel depth : Nat) :
    Reads (operand fuel depth name) (opening :: ts)
      (.call (.identifier (.text name.lexeme)) args) rest := by
  cases fuel with
  | zero =>
      rw [operand]
      exact .tooDeep
  | succ fuel =>
      have hfirst := hrow.first
      rw [operand.eq_def]
      apply Reads.bind .current
      rw [if_pos (by rw [hopen]; rfl)]
      apply Reads.bind (.advance hopen (by decide) hfirst.ne_nil)
      cases ts with
      | nil => exact hfirst.elim
      | cons t ts =>
          apply Reads.bind .current
          -- a closing parenthesis here would leave no room for the arguments
          have hne : ¬ (t.kind == .rightParen) = true := by
            intro ht
            rw [NextIs, StartsTerm, eq_of_beq ht] at hfirst
            rcases hfirst with h | h | h <;> cases h
          rw [if_neg hne]
          cases depth with
          | zero => exact .tooDeep
          | succ depth =>
              exact .bind (hargs fuel depth)
                (.bind (.closingParen hclose hrest) .pure)

mutual

theorem expression_complete {ts rest : List Token} {e : Node} :
    Expression ts e rest → rest ≠ [] → ∀ fuel depth,
      Reads (expression fuel depth) ts e rest
  | .intro _ _, _, 0, _ => by
      rw [expression]
      exact .tooDeep
  | .intro hterm htail, hrest, fuel + 1, depth => by
      rw [expression]
      exact .bind (term_complete hterm htail.ne_nil fuel depth)
        (tail_complete htail hrest fuel depth)

theorem tail_complete {left e : Node} {ts rest : List Token} :
    Tail left ts e rest → rest ≠ [] → ∀ fuel depth,
      Reads (tail fuel depth left) ts e rest
  | _, _, 0, _ => by
      rw [tail]
      exact .tooDeep
  | .stop hstop, _, fuel + 1, depth => by
      cases ts with
      | nil => exact hstop.elim
      | cons t ts =>
          rw [tail]
          apply Reads.bind .current
          rw [if_neg (by rw [show isArithmetic t = false from hstop]; decide)]
          exact .pure
  | .operator hop hterm htail, hrest, fuel + 1, depth => by
      rw [tail]
      apply Reads.bind .current
      rw [if_pos hop]
      apply Reads.bind (.advance (Token.kind_of_isArithmetic hop) (by decide)
        hterm.first.ne_nil)
      exact .bind (term_complete hterm htail.ne_nil fuel depth)
        (tail_complete htail hrest fuel depth)

theorem term_complete {ts rest : List Token} {e : Node} :
    Term ts e rest → rest ≠ [] → ∀ fuel depth,
      Reads (term fuel depth) ts e rest
  | _, _, 0, _ => by
      rw [term]
      exact .tooDeep
  | .number hkind, hrest, fuel + 1, depth => by
      rw [term.eq_def]
      apply Reads.bind .current
      rw [if_pos (by rw [hkind]; rfl)]
      exact .bind (.advance hkind (by decide) hrest) .pure
  | .name hkind hnext, hrest, fuel + 1, depth => by
      rw [term.eq_def]
      apply Reads.bind .current
      rw [if_neg (by rw [hkind]; decide), if_pos (by rw [hkind]; rfl)]
      exact .bind (.advance hkind (by decide) hrest)
        (operand_name hnext fuel depth)
  | .call hkind hopen hargs, hrest, fuel + 1, depth => by
      rw [term.eq_def]
      apply Reads.bind .current
      rw [if_neg (by rw [hkind]; decide), if_pos (by rw [hkind]; rfl)]
      apply Reads.bind (.advance hkind (by decide) (List.cons_ne_nil _ _))
      exact operand_complete hargs hopen hrest fuel depth
  | .parens hopen hexp hclose, hrest, fuel + 1, depth => by
      rw [term.eq_def]
      apply Reads.bind .current
      rw [if_neg (by rw [hopen]; decide), if_neg (by rw [hopen]; decide),
        if_pos (by rw [hopen]; rfl)]
      apply Reads.bind (.advance hopen (by decide) hexp.first.ne_nil)
      cases depth with
      | zero => exact .tooDeep
      | succ depth =>
          exact .bind
            (expression_complete hexp (List.cons_ne_nil _ _) fuel depth)
            (.bind (.closingParen hclose hrest) .pure)

theorem operand_complete {name opening : Token} {ts rest : List Token}
    {args : List Node} :
    Arguments ts args rest → opening.kind = .leftParen → rest ≠ [] →
      ∀ fuel depth, Reads (operand fuel depth name) (opening :: ts)
        (.call (.identifier (.text name.lexeme)) args) rest
  | .none hclose, hopen, hrest, fuel, depth =>
      operand_call_none hopen hclose hrest fuel depth
  | .some hrow hclose, hopen, hrest, fuel, depth =>
      operand_call_some hopen hrow hclose hrest
        (arguments_complete hrow (List.cons_ne_nil _ _)) fuel depth

theorem arguments_complete {ts rest : List Token} {args : List Node} :
    ArgumentRow ts args rest → rest ≠ [] → ∀ fuel depth,
      Reads (arguments fuel depth) ts args rest
  | _, _, 0, _ => by
      rw [arguments]
      exact .tooDeep
  | .last hexp hnext, hrest, fuel + 1, depth => by
      rw [arguments]
      apply Reads.bind (expression_complete hexp hrest fuel depth)
      cases rest with
      | nil => exact hnext.elim
      | cons t rest =>
          apply Reads.bind .current
          rw [if_neg (by rw [show t.isOperator "," = false from hnext]; decide)]
          exact .pure
  | .comma hexp hcomma hrow, hrest, fuel + 1, depth => by
      rw [arguments]
      apply Reads.bind
        (expression_complete hexp (List.cons_ne_nil _ _) fuel depth)
      apply Reads.bind .current
      rw [if_pos hcomma]
      apply Reads.bind (.advance (Token.kind_of_isOperator hcomma) (by decide)
        hrow.first.ne_nil)
      exact .bind (arguments_complete hrow hrest fuel depth) .pure

end

/-! ## Statements -/

theorem parameters_complete {ts rest : List Token} {params : List Json}
    (h : ParameterRow ts params rest) (hrest : rest ≠ []) (fuel : Nat) :
    Reads (parameters fuel) ts params rest := by
  induction h generalizing fuel with
  | @none ts hnext =>
      cases fuel with
      | zero => exact .tooDeep
      | succ fuel =>
          cases ts with
          | nil => exact hnext.elim
          | cons t ts =>
              rw [parameters]
              apply Reads.bind .current
              rw [if_neg (fun h => hnext (eq_of_beq h))]
              exact .pure
  | @last t rest hkind hnext =>
      cases fuel with
      | zero => exact .tooDeep
      | succ fuel =>
          rw [parameters]
          apply Reads.bind .current
          rw [if_pos (by rw [hkind]; rfl)]
          apply Reads.bind (.advance hkind (by decide) hrest)
          cases rest with
          | nil => exact hnext.elim
          | cons next rest =>
              apply Reads.bind .current
              rw [if_neg (by
                rw [show next.isOperator "," = false from hnext]; decide)]
              exact .pure
  | comma hkind hcomma hrow ih =>
      cases fuel with
      | zero => exact .tooDeep
      | succ fuel =>
          rw [parameters]
          apply Reads.bind .current
          rw [if_pos (by rw [hkind]; rfl)]
          apply Reads.bind (.advance hkind (by decide) (List.cons_ne_nil _ _))
          apply Reads.bind .current
          rw [if_pos hcomma]
          apply Reads.bind (.advance (Token.kind_of_isOperator hcomma)
            (by decide) hrow.ne_nil)
          exact .bind (ih hrest fuel) .pure

/-- A term that starts with an identifier, behind that identifier. -/
theorem operand_of_term {name : Token} {ts rest : List Token} {e : Node}
    (h : Term (name :: ts) e rest) (hname : name.kind = .identifier)
    (hrest : rest ≠ []) (fuel depth : Nat) :
    Reads (operand fuel depth name) ts e rest := by
  cases h with
  | number hkind =>
      rw [hname] at hkind
      cases hkind
  | name _ hnext => exact operand_name hnext fuel depth
  | call _ hopen hargs => exact operand_complete hargs hopen hrest fuel depth
  | parens hopen _ _ =>
      rw [hname] at hopen
      cases hopen

/-- Behind the identifier that starts an expression there is an equals
sign only if the expression is this identifier alone. -/
theorem second_ne_assign {name : Token} {ts mid rest : List Token}
    {left e : Node} (hterm : Term (name :: ts) left mid)
    (hname : name.kind = .identifier) (htail : Tail left mid e rest)
    (hrest : NextIs (fun t => t.kind ≠ .assign) rest) :
    NextIs (fun t => t.kind ≠ .assign) ts := by
  cases hterm with
  | number hkind =>
      rw [hname] at hkind
      cases hkind
  | call _ hopen _ =>
      intro h
      rw [hopen] at h
      cases h
  | parens hopen _ _ =>
      rw [hname] at hopen
      cases hopen
  | name _ _ =>
      cases htail with
      | stop _ => exact hrest
      | operator hop _ _ =>
          intro h
          rw [Token.kind_of_isArithmetic hop] at h
          cases h

theorem statement_of_expression {ts rest : List Token} {e : Node}
    (h : Expression ts e rest)
    (hrest : NextIs (fun t => t.kind ≠ .assign) rest) (fuel depth : Nat) :
    Reads (statement fuel depth) ts e rest := by
  cases fuel with
  | zero =>
      rw [statement]
      exact .tooDeep
  | succ fuel =>
      have hexp := expression_complete h hrest.ne_nil fuel depth
      have hfirst := h.first
      cases ts with
      | nil => exact hfirst.elim
      | cons t ts =>
          rw [statement]
          apply Reads.bind .current
          rw [if_neg (fun hdef => by
            rw [NextIs, StartsTerm, Token.kind_of_isKeyword hdef] at hfirst
            rcases hfirst with h | h | h <;> cases h)]
          by_cases hname : t.kind = .identifier
          · rw [if_pos (by rw [hname]; rfl)]
            cases h with
            | intro hterm htail =>
                have hnext := second_ne_assign hterm hname htail hrest
                cases ts with
                | nil => exact hnext.elim
                | cons next ts =>
                    apply Reads.bind (.advance hname (by decide)
                      (List.cons_ne_nil _ _))
                    apply Reads.bind .current
                    rw [if_neg (fun h => hnext (eq_of_beq h))]
                    exact .bind
                      (operand_of_term hterm hname htail.ne_nil fuel depth)
                      (tail_complete htail hrest.ne_nil fuel depth)
          · rw [if_neg (fun h => hname (eq_of_beq h))]
            exact hexp

mutual

theorem statement_complete {ts rest : List Token} {node : Node} :
    Statement ts node rest → NextIs (fun t => t.kind ≠ .assign) rest →
      ∀ fuel depth, Reads (statement fuel depth) ts node rest
  | _, _, 0, _ => by
      rw [statement]
      exact .tooDeep
  | .define hdef hfun, hrest, fuel + 1, depth => by
      rw [statement]
      apply Reads.bind .current
      rw [if_pos hdef]
      apply Reads.bind (.advance (Token.kind_of_isKeyword hdef) (by decide)
        hfun.ne_nil)
      exact function_complete hfun hrest.ne_nil fuel depth
  | .assign hname hassign hexp, hrest, fuel + 1, depth => by
      rw [statement]
      apply Reads.bind .current
      rw [if_neg (fun h => by
          rw [Token.kind_of_isKeyword h] at hname
          cases hname),
        if_pos (by rw [hname]; rfl)]
      apply Reads.bind (.advance hname (by decide) (List.cons_ne_nil _ _))
      apply Reads.bind .current
      rw [if_pos (by rw [hassign]; rfl)]
      apply Reads.bind (.advance hassign (by decide) hexp.first.ne_nil)
      exact .bind (expression_complete hexp hrest.ne_nil fuel depth) .pure
  | .expression hexp, hrest, fuel + 1, depth =>
      statement_of_expression hexp hrest (fuel + 1) depth

theorem function_complete {ts rest : List Token} {node : Node} :
    Definition ts node rest → rest ≠ [] → ∀ fuel depth,
      Reads (function fuel depth) ts node rest
  | _, _, 0, _ => by
      rw [function]
      exact .tooDeep
  | .intro hname (.absent hnext) hbody, hrest, fuel + 1, depth => by
      rw [function]
      apply Reads.bind .current
      rw [if_pos (by rw [hname]; rfl)]
      apply Reads.bind (.advance hname (by decide) hnext.ne_nil)
      obtain ⟨t, mid, rfl⟩ := List.exists_cons_of_ne_nil hnext.ne_nil
      apply Reads.bind .current
      dsimp only
      rw [if_neg (fun h => hnext (eq_of_beq h))]
      apply Reads.bind .pure
      cases depth with
      | zero => exact .tooDeep
      | succ depth =>
          exact .bind (body_complete hbody hrest fuel depth) .pure
  | .intro hname (.present hopen hrow hclose) hbody, hrest, fuel + 1,
      depth => by
      rw [function]
      apply Reads.bind .current
      rw [if_pos (by rw [hname]; rfl)]
      apply Reads.bind (.advance hname (by decide) (List.cons_ne_nil _ _))
      apply Reads.bind .current
      dsimp only
      rw [if_pos (by rw [hopen]; rfl)]
      apply Reads.bind (.advance hopen (by decide) hrow.ne_nil)
      apply Reads.bind (parameters_complete hrow (List.cons_ne_nil _ _) fuel)
      apply Reads.bind (.closingParen hclose hbody.ne_nil)
      apply Reads.bind .pure
      cases depth with
      | zero => exact .tooDeep
      | succ depth =>
          exact .bind (body_complete hbody hrest fuel depth) .pure

theorem body_complete {ts rest : List Token} {statements : List Node} :
    Body ts statements rest → rest ≠ [] → ∀ fuel depth,
      Reads (body fuel depth) ts statements rest
  | _, _, 0, _ => by
      rw [body]
      exact .tooDeep
  | .close hend, hrest, fuel + 1, depth => by
      rw [body]
      apply Reads.bind .current
      rw [if_pos hend]
      exact .bind (.advance (Token.kind_of_isKeyword hend) (by decide) hrest)
        .pure
  | .statement hstatement hsep hbody, hrest, fuel + 1, depth => by
      have hfirst := hstatement.first
      have hreads := statement_complete hstatement
        (Body.next_ne_assign hsep hbody) fuel depth
      obtain ⟨t, more, rfl⟩ := List.exists_cons_of_ne_nil hfirst.ne_nil
      rw [body]
      apply Reads.bind .current
      rw [if_neg (StartsStatement.not_end hfirst),
        if_neg (StartsStatement.not_endOfInput hfirst)]
      apply Reads.bind hreads
      have hothers := body_complete hbody hrest fuel depth
      cases hsep with
      | present hsep =>
          apply Reads.bind .current
          dsimp only
          rw [if_pos hsep]
          apply Reads.bind (.advance (Token.kind_of_isOperator hsep)
            (by decide) hbody.ne_nil)
          exact .bind hothers .pure
      | absent hnext =>
          obtain ⟨next, mid, rfl⟩ := List.exists_cons_of_ne_nil hnext.ne_nil
          apply Reads.bind .current
          dsimp only
          rw [if_neg (by
            rw [show next.isOperator ";" = false from hnext]; decide)]
          exact .bind hothers .pure

end

/-! ## Programs -/

theorem separators_complete {ts rest : List Token} (h : Separators ts rest) :
    Reads skipSeparators ts () rest := by
  induction h with
  | @stop ts hnext =>
      intro c hc
      obtain ⟨more, rfl⟩ := hc.eq_cons
      refine Or.inl ⟨c, hc, ?_⟩
      rw [skipSeparators, skipSeparatorsFrom.eq_def, if_neg (by
        rw [show c.current.isOperator ";" = false from hnext]; decide)]
  | @semicolon t ts rest hsep hmore ih =>
      intro c hc
      cases hc with
      | finish => cases hsep
      | @token _ pending _ hne hs =>
          rw [skipSeparators, skipSeparatorsFrom.eq_def, if_pos hsep]
          cases hs with
          | token hne' hs' => exact ih (.token hne' hs')
          | @finish position =>
              -- the parser stops here without looking at the end again
              have hend := ih (c := ⟨Token.atEnd position, .finish position⟩)
                .finish
              rw [skipSeparators, skipSeparatorsFrom.eq_def] at hend
              exact hend
          | broken => exact absurd rfl hmore.ne_nil

/-- The tokens of a program are read to their end. -/
theorem statements_complete {ts next : List Token} {nodes : List Node}
    (hseps : Separators ts next) (h : Statements next nodes)
    (fuel depth : Nat) :
    ∃ rest, Reads (statements fuel depth) ts nodes rest := by
  induction h generalizing ts fuel with
  | @done t hend =>
      refine ⟨[t], ?_⟩
      cases fuel with
      | zero => exact .tooDeep
      | succ fuel =>
          rw [statements]
          apply Reads.bind (separators_complete hseps)
          apply Reads.get_bind
          intro c hc
          rw [if_pos (by rw [Cursor.atEnd, hc.current_eq, hend]; rfl)]
          exact .pure
  | @statement here mid next first others hstatement hseps' hothers ih =>
      cases fuel with
      | zero => exact ⟨[], .tooDeep⟩
      | succ fuel =>
          obtain ⟨rest, hrest⟩ := ih hseps' fuel
          refine ⟨rest, ?_⟩
          rw [statements]
          apply Reads.bind (separators_complete hseps)
          have hfirst := hstatement.first
          have hreads := statement_complete hstatement
            (Statements.next_ne_assign hseps' hothers) fuel depth
          apply Reads.get_bind
          intro c hc
          obtain ⟨more, rfl⟩ := hc.eq_cons
          have hatEnd : ¬ c.atEnd = true :=
            StartsStatement.not_endOfInput hfirst
          rw [if_neg hatEnd]
          exact .bind hreads (.bind hrest .pure)

end Scriptlet.Parse
