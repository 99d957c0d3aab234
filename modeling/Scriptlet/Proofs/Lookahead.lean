import Scriptlet.Proofs.Layout

/-!
# One token of lookahead

A statement is decided by its own tokens and the one behind them
(`one_token_of_lookahead`). When it has been read, that one token has been
drawn from the text and no further one, so nothing further on can matter,
not even characters that are no tokens.

What decides a run is kept in `Parse.Decided`: from a cursor in front of the
same forms the run comes to the same value, and where the forms break off
before the lookahead, because a character is not recognised, the run fails
because of it. For the parsing functions this is an induction on plans, and
`Steady` takes it to runs with the fuel of their cursor.
-/

namespace Scriptlet

variable {α : Type}

/-! ## Tokens that were drawn -/

/-- Asked for tokens, the stream has given these, and the other one is
left. -/
inductive Stream.Draws : Stream → List Token → Stream → Prop
  | nil {s : Stream} : Draws s [] s
  | cons {s s₁ s' : Stream} {t : Token} {ts : List Token} :
      s.next = .ok (t, s₁) → Draws s₁ ts s' → Draws s (t :: ts) s'

namespace Cursor

variable {c c' : Cursor} {row : List Token}

/-- A cursor has drawn its current token, besides those that were
consumed. -/
theorem Consumes.draws (h : c.Consumes row c') {s : Stream}
    (hs : s.next = .ok (c.current, c.pending)) :
    s.Draws (row ++ [c'.current]) c'.pending := by
  induction h generalizing s with
  | refl => exact .cons hs .nil
  | cons hadvance _ ih =>
      obtain ⟨rfl, hnext⟩ := Parse.of_advance_done hadvance
      exact .cons hs (ih hnext)

theorem next_of_ofStream {s : Stream} (h : ofStream s = .ok c) :
    s.next = .ok (c.current, c.pending) := by
  unfold ofStream at h
  split at h
  · rename_i hnext
    cases h
    exact hnext
  · cases h

theorem Consumes.head? (h : c.Consumes row c') :
    (row ++ [c'.current]).head? = some c.current := by
  cases h with
  | refl => rfl
  | cons hadvance _ =>
      obtain ⟨rfl, -⟩ := Parse.of_advance_done hadvance
      rfl

/-- The consumed tokens and the current one are the first ones of a text. -/
theorem Consumes.isPrefix {source : String} (hc : ofText source = .ok c)
    (h : c.Consumes row c') (hrow : ∀ t ∈ row, t.kind ≠ .endOfInput) :
    row ++ [c'.current] <+: (Stream.ofText source).tokens.1 := by
  obtain ⟨rest, htokens, hrest⟩ := h.sees_rest hrow (sees_ofText hc)
  obtain ⟨more, rfl⟩ := hrest.eq_cons
  rw [htokens]
  exact ⟨more, List.append_assoc _ _ _⟩

/-- In front of two more tokens a cursor can be moved. -/
theorem Sees.advance {t : Token} {ts : List Token} (h : c.Sees (t :: ts))
    (hts : ts ≠ []) : ∃ c₁, Parse.advance c = .done t c₁ ∧ c₁.Sees ts := by
  cases h with
  | finish => exact absurd rfl hts
  | @token _ s _ _ hs =>
      cases hs with
      | @token u s' us hkind hs' => exact ⟨⟨u, s'⟩, rfl, .token hkind hs'⟩
      | @finish position => exact ⟨_, rfl, .finish⟩
      | broken => exact absurd rfl hts

/-- In front of its last token a cursor of a text that breaks off cannot be
moved. -/
theorem Sees.advance_last {t : Token} {e : LexError} (h : c.Sees [t])
    (he : c.pending.tokens.2 = some e) :
    Parse.advance c = .failed (.error (.unrecognized e)) c := by
  cases h with
  | finish => cases he
  | token _ hs =>
      cases hs with
      | broken =>
          cases he
          rfl

end Cursor

/-! ## What decides a run -/

namespace Parse

/-- In front of tokens of these forms and the lookahead, the parser comes to
the value `a`. If the lookahead is missing because a character is not
recognised, it fails because of that character. -/
structure Decided (p : Parse α) (a : α) (forms : List Form) (ahead : Form) :
    Prop where
  again : ∀ {d : Cursor} {us : List Token}, d.Sees us →
    forms ++ [ahead] <+: us.map Token.form → ∃ d', p d = .done a d'
  broken : ∀ {d : Cursor} {us : List Token} {e : LexError}, d.Sees us →
    us.map Token.form = forms → d.pending.tokens.2 = some e →
    ∃ d', p d = .failed (.error (.unrecognized e)) d'

variable {a : α} {forms : List Form} {ahead : Form}

theorem Decided.pure (a : α) (ahead : Form) :
    Decided (Pure.pure a : Parse α) a [] ahead where
  again := fun {d} _ _ _ => ⟨d, rfl⟩
  broken := by
    intro d us e hd hforms _
    obtain ⟨rest, rfl⟩ := hd.eq_cons
    cases hforms

theorem Decided.strategy {σ : Strategy α} {form : Form}
    (h : Decided (σ form).run a forms ahead)
    (hhead : (forms ++ [ahead]).head? = some form) :
    Decided σ.run a forms ahead where
  again := by
    intro d us hd hforms
    obtain ⟨rest, rfl⟩ := hd.eq_cons
    have hform : form = d.current.form := by
      obtain ⟨more, hmore⟩ := hforms
      have hfirst := congrArg List.head? hmore
      rw [List.head?_append, hhead] at hfirst
      exact Option.some.inj hfirst
    subst hform
    exact h.again hd hforms
  broken := by
    intro d us e hd hforms he
    obtain ⟨rest, rfl⟩ := hd.eq_cons
    have hform : form = d.current.form := by
      rw [← hforms] at hhead
      exact (Option.some.inj hhead).symm
    subst hform
    exact h.broken hd hforms he

theorem Decided.consume {σ : Strategy α} (h : Decided σ.run a forms ahead)
    (form : Form) :
    Decided (advance >>= fun _ => σ.run) a (form :: forms) ahead where
  again := by
    intro d us hd hforms
    obtain ⟨rest, rfl⟩ := hd.eq_cons
    obtain ⟨-, hforms⟩ := List.cons_prefix_cons.mp hforms
    have hrest : rest ≠ [] := by
      rintro rfl
      exact absurd (List.prefix_nil.mp hforms) (by simp)
    obtain ⟨d₁, hadvance, hd₁⟩ := hd.advance hrest
    obtain ⟨d', hd'⟩ := h.again hd₁ hforms
    exact ⟨d', Step.bind_eq_done_iff.mpr ⟨_, d₁, hadvance, hd'⟩⟩
  broken := by
    intro d us e hd hforms he
    obtain ⟨rest, rfl⟩ := hd.eq_cons
    obtain ⟨-, hforms⟩ := List.cons.inj hforms
    rw [Step.bind_apply]
    cases rest with
    | nil =>
        rw [hd.advance_last he]
        exact ⟨d, rfl⟩
    | cons t rest =>
        obtain ⟨d₁, hadvance, hd₁⟩ := hd.advance (List.cons_ne_nil t rest)
        have he₁ : d₁.pending.tokens.2 = some e := by
          rw [← he]
          exact (Cursor.Consumes.cons hadvance .refl).error
        rw [hadvance]
        exact h.broken hd₁ hforms he₁

/-- What the parser consumed on its way from `c` to `c'`, and the token at
`c'`, decide that it comes to the value `a`. -/
def DecidedBetween (p : Parse α) (a : α) (c c' : Cursor) : Prop :=
  ∃ row, (∀ t ∈ row, t.kind ≠ .endOfInput) ∧ c.Consumes row c' ∧
    Decided p a (row.map Token.form) c'.current.form

theorem DecidedBetween.strategy {σ : Strategy α} {c c' : Cursor}
    (h : DecidedBetween (σ c.current.form).run a c c') :
    DecidedBetween σ.run a c c' := by
  obtain ⟨row, hproper, hrow, hdecided⟩ := h
  refine ⟨row, hproper, hrow, hdecided.strategy ?_⟩
  have hhead := congrArg (Option.map Token.form) hrow.head?
  rw [← List.head?_map, List.map_append] at hhead
  exact hhead

theorem Plan.decided {form : Form} (plan : Plan α form) {c c' : Cursor}
    (hc : c.current.form = form) (hrun : plan.run c = .done a c') :
    DecidedBetween plan.run a c c' := by
  induction plan generalizing c with
  | give b =>
      cases hrun
      exact ⟨[], fun _ ht => absurd ht List.not_mem_nil, .refl, .pure _ _⟩
  | object objection => cases hrun
  | giveUp => cases hrun
  | @consume form proper σ ih =>
      rw [Plan.run_consume] at hrun ⊢
      obtain ⟨t, c₁, hadvance, hrun⟩ := Step.bind_eq_done_iff.mp hrun
      obtain ⟨rfl, -⟩ := of_advance_done hadvance
      have hnext : DecidedBetween (Strategy.run σ) a c₁ c' :=
        .strategy (ih c₁.current.form rfl hrun)
      obtain ⟨row, hproper, hrow, hdecided⟩ := hnext
      refine ⟨c.current :: row, List.forall_mem_cons.mpr ⟨?_, hproper⟩,
        .cons hadvance hrow, hdecided.consume _⟩
      rw [← hc] at proper
      exact proper

theorem Planned.decided {p : Parse α} (h : Planned p) {c c' : Cursor}
    (hrun : p c = .done a c') : DecidedBetween p a c c' := by
  obtain ⟨σ, -, hσ⟩ := h
  have hp : p = σ.run := funext hσ
  subst hp
  exact .strategy (Plan.decided _ rfl hrun)

/-- Fuel does not matter, as each cursor has enough of it. -/
theorem Steady.decided {parser : Nat → Parse α} (h : Steady parser)
    {c c' : Cursor} (hrun : withFuel parser c = .done a c') :
    DecidedBetween (withFuel parser) a c c' := by
  have hsame : ∀ {d : Cursor} {fuel : Nat}, d.fuel ≤ fuel →
      withFuel parser d = parser fuel d := by
    intro d fuel hle
    have henough := d.remaining_le_fuel
    exact (h.stable (by omega) hle).1
  obtain ⟨row, hproper, hrow, -⟩ := (h.planned c.fuel).decided hrun
  -- with the fuel of both cursors the runs are decided by the same row
  have hboth : ∀ d : Cursor, Decided (parser (c.fuel + d.fuel)) a
      (row.map Token.form) c'.current.form := by
    intro d
    rw [hsame (Nat.le_add_right c.fuel d.fuel)] at hrun
    obtain ⟨row', hproper', hrow', hdecided⟩ := (h.planned _).decided hrun
    rw [hrow.unique hrow' hproper hproper']
    exact hdecided
  refine ⟨row, hproper, hrow, ?_, ?_⟩
  · intro d us hd hforms
    rw [hsame (Nat.le_add_left d.fuel c.fuel)]
    exact (hboth d).again hd hforms
  · intro d us e hd hforms he
    rw [hsame (Nat.le_add_left d.fuel c.fuel)]
    exact (hboth d).broken hd hforms he

end Parse

/-! ## Statements of texts -/

theorem parseStatement_of_cursor {source : String} {c : Cursor}
    (h : Cursor.ofText source = .ok c) (limit : Nat) :
    parseStatement limit source =
      (Parse.withFuel (Parse.statement · limit) c).result := by
  rw [parseStatement, h]
  rfl

theorem exists_run_of_parseStatement {limit : Nat} {source : String}
    {node : Node} (h : parseStatement limit source = .ok node) :
    ∃ c c', Cursor.ofText source = .ok c ∧
      Parse.withFuel (Parse.statement · limit) c = .done node c' := by
  cases hcursor : Cursor.ofText source with
  | error e =>
      rw [parseStatement, hcursor] at h
      cases h
  | ok c =>
      rw [parseStatement_of_cursor hcursor] at h
      cases hrun : Parse.withFuel (Parse.statement · limit) c with
      | done value c' =>
          rw [hrun] at h
          cases h
          exact ⟨c, c', rfl, hrun⟩
      | failed e c' =>
          rw [hrun] at h
          cases h

section

variable {limit : Nat} {node : Node} {forms : List Form} {ahead : Form}

theorem Parse.Decided.parseStatement_again
    (h : Decided (withFuel (statement · limit)) node forms ahead)
    {source : String}
    (hforms : forms ++ [ahead] <+:
      (Stream.ofText source).tokens.1.map Token.form) :
    parseStatement limit source = .ok node := by
  have hne : (Stream.ofText source).tokens.1 ≠ [] := by
    intro hnil
    rw [hnil] at hforms
    exact absurd (List.prefix_nil.mp hforms) (by simp)
  obtain ⟨c, hc⟩ := Cursor.exists_ofText hne
  obtain ⟨c', hrun⟩ := h.again (Cursor.sees_ofText hc) hforms
  rw [parseStatement_of_cursor hc, hrun]
  rfl

theorem Parse.Decided.parseStatement_broken
    (h : Decided (withFuel (statement · limit)) node forms ahead)
    {source : String} {us : List Token} {e : LexError} (hus : us ≠ [])
    (htokens : (Stream.ofText source).tokens = (us, some e))
    (hforms : us.map Token.form = forms) :
    parseStatement limit source = .error (.error (.unrecognized e)) := by
  have hfirst : (Stream.ofText source).tokens.1 = us :=
    congrArg Prod.fst htokens
  rw [← hfirst] at hus hforms
  obtain ⟨c, hc⟩ := Cursor.exists_ofText hus
  have he : c.pending.tokens.2 = some e := by
    rw [← Stream.error_of_next (Cursor.next_of_ofStream hc)]
    exact congrArg Prod.snd htokens
  obtain ⟨c', hrun⟩ := h.broken (Cursor.sees_ofText hc) hforms he
  rw [parseStatement_of_cursor hc, hrun]
  rfl

end

/-- Where an unrecognised character follows on tokens and blanks, the
scanner stops after the tokens. -/
theorem tokens_of_unrecognised_behind {front gap : String} {ch : Char}
    {forms : List Form}
    (hfront : (Stream.ofText front).tokens.1.map Token.form =
      forms ++ [Form.inputEnd])
    (hgap : IsBlank gap) (hch : isRecognised ch = false) (rest : String) :
    ∃ us, us.map Token.form = forms ∧
      (Stream.ofText (front ++ gap ++ String.singleton ch ++ rest)).tokens =
        (us, some ⟨ch, (front ++ gap).length⟩) := by
  have hend : Form.inputEnd ∈
      (Stream.ofText front).tokens.1.map Token.form := by
    rw [hfront]
    exact List.mem_append_right _ List.mem_cons_self
  obtain ⟨t, hmem, ht⟩ := List.mem_map.mp hend
  have htokens := Stream.tokens_eq_of_endOfInput (Stream.yields_ofText front)
    hmem (congrArg Prod.fst ht)
  obtain ⟨ts, hts, -⟩ := (tokenizes_of_tokens htokens).ends
  rw [hts] at htokens
  have hblank : ∀ c ∈ gap.toList.head?, c ∈ blanks :=
    fun c hc => hgap c (List.mem_of_mem_head? hc)
  have hlexes : Lexes (front ++ gap).length 0 (front ++ gap).toList
      (ts ++ [Token.atEnd (front ++ gap).length]) := by
    rw [String.toList_append]
    refine (tokens_eq_iff_lexes.mp htokens).append hblank ?_
    rw [← List.append_nil gap.toList]
    exact .blanks_append hgap .finish
  obtain ⟨before, hbefore, -, hbroken⟩ := Stream.tokens_of_unrecognised hlexes
    hch (front ++ gap ++ String.singleton ch ++ rest).toList.length
    rest.toList
  obtain ⟨rfl, -⟩ := List.append_inj' hbefore rfl
  refine ⟨ts, ?_, ?_⟩
  · rw [hts, List.map_append] at hfront
    exact (List.append_inj' hfront rfl).1
  · have htext : (front ++ gap ++ String.singleton ch ++ rest).toList =
        (front ++ gap).toList ++ ch :: rest.toList := by
      rw [String.toList_append, String.toList_append,
        String.toList_singleton, List.append_assoc]
      rfl
    rw [← htext, Int.zero_add, (front ++ gap).length_toList] at hbroken
    rw [Stream.ofText_eq]
    exact hbroken

/-- **One token of lookahead.** When the first statement of a text has been
read, the parser has consumed one token or more, and besides these it has
drawn one token from the text, the lookahead. Every text that starts with
tokens of the same kinds and spelling, the lookahead included, has the same
first statement, whatever follows. If the tokens of the statement are
followed by an unrecognised character, with or without blanks in front of it,
parsing fails because of that character. -/
theorem one_token_of_lookahead (limit : Nat) (source : String) (node : Node)
    (h : parseStatement limit source = .ok node) :
    ∃ c row ahead unread, Cursor.ofText source = .ok c ∧
      Parse.withFuel (Parse.statement · limit) c =
        .done node ⟨ahead, unread⟩ ∧
      row ≠ [] ∧ (∀ t ∈ row, t.kind ≠ .endOfInput) ∧
      c.Consumes row ⟨ahead, unread⟩ ∧
      (Stream.ofText source).Draws (row ++ [ahead]) unread ∧
      row ++ [ahead] <+: (Stream.ofText source).tokens.1 ∧
      (∀ other, (row ++ [ahead]).map Token.form <+:
          (Stream.ofText other).tokens.1.map Token.form →
        parseStatement limit other = .ok node) ∧
      ∀ front gap ch rest,
        (Stream.ofText front).tokens.1.map Token.form =
          row.map Token.form ++ [Form.inputEnd] →
        IsBlank gap → isRecognised ch = false →
        parseStatement limit (front ++ gap ++ String.singleton ch ++ rest) =
          .error (.error (.unrecognized ⟨ch, (front ++ gap).length⟩)) := by
  obtain ⟨c, c', hc, hrun⟩ := exists_run_of_parseStatement h
  obtain ⟨row, hproper, hrow, hdecided⟩ :=
    (Parse.statement_steady limit).decided hrun
  have hmoves : c' ≠ c := by
    have henough := c.remaining_le_fuel
    exact (Parse.statement_steady limit).moves (by omega) hrun
  have hne : row ≠ [] := by
    rintro rfl
    cases hrow
    exact hmoves rfl
  refine ⟨c, row, c'.current, c'.pending, hc, hrun, hne, hproper,
    hrow, hrow.draws (Cursor.next_of_ofStream hc), hrow.isPrefix hc hproper,
    ?_, ?_⟩
  · intro other hother
    rw [List.map_append] at hother
    exact hdecided.parseStatement_again hother
  · intro front gap ch rest hfront hgap hch
    obtain ⟨us, hus, htokens⟩ :=
      tokens_of_unrecognised_behind hfront hgap hch rest
    refine hdecided.parseStatement_broken ?_ htokens hus
    rintro rfl
    exact hne (List.map_eq_nil_iff.mp hus.symm)

/-- The call is read up to the second number, so that it makes no difference
what the dollar behind that number is. A dollar in place of the number does
make one. -/
theorem dollar_behind_lookahead :
    parseStatement 3 "f(1) 2" =
        .ok (.call (.identifier (.text "f")) [.number (.text "1")]) ∧
      parseStatement 3 "f ( 1 ) 2 $" =
        .ok (.call (.identifier (.text "f")) [.number (.text "1")]) ∧
      parseStatement 3 ("f(1)" ++ "\n" ++ String.singleton '$' ++ " 2") =
        .error (.error (.unrecognized ⟨'$', 5⟩)) := by
  have hstatement : parseStatement 3 "f(1) 2" =
      .ok (.call (.identifier (.text "f")) [.number (.text "1")]) := by cbv
  obtain ⟨c, row, ahead, unread, hc, hrun, -, hproper, hrow, -, -, hagain,
    hbroken⟩ := one_token_of_lookahead 3 "f(1) 2" _ hstatement
  -- the run ends in front of the second number
  have hcursor : Cursor.ofText "f(1) 2" = .ok ⟨⟨.identifier, "f", 0⟩,
      .token ⟨.leftParen, "(", 1⟩ (.token ⟨.number, "1", 2⟩
        (.token ⟨.rightParen, ")", 3⟩ (.token ⟨.number, "2", 5⟩
          (.finish 6))))⟩ := by cbv
  obtain rfl := Except.ok.inj (hc.symm.trans hcursor)
  have hknown : Parse.withFuel (Parse.statement · 3) ⟨⟨.identifier, "f", 0⟩,
      .token ⟨.leftParen, "(", 1⟩ (.token ⟨.number, "1", 2⟩
        (.token ⟨.rightParen, ")", 3⟩ (.token ⟨.number, "2", 5⟩
          (.finish 6))))⟩ =
      .done (.call (.identifier (.text "f")) [.number (.text "1")])
        ⟨⟨.number, "2", 5⟩, .finish 6⟩ := by cbv
  rw [hknown] at hrun
  cases hrun
  have hrow_eq : row = [⟨.identifier, "f", 0⟩, ⟨.leftParen, "(", 1⟩,
      ⟨.number, "1", 2⟩, ⟨.rightParen, ")", 3⟩] :=
    hrow.unique (.cons rfl (.cons rfl (.cons rfl (.cons rfl .refl))))
      hproper (by decide)
  subst hrow_eq
  refine ⟨hstatement, hagain "f ( 1 ) 2 $" ?_,
    hbroken "f(1)" "\n" '$' " 2" ?_ (by simp [IsBlank, blanks]) (by decide)⟩
  · have hforms : (Stream.ofText "f ( 1 ) 2 $").tokens.1.map Token.form =
        [(.identifier, "f"), (.leftParen, "("), (.number, "1"),
          (.rightParen, ")"), (.number, "2")] := by cbv
    rw [hforms]
    exact List.prefix_rfl
  · have hforms : (Stream.ofText "f(1)").tokens.1.map Token.form =
        [(.identifier, "f"), (.leftParen, "("), (.number, "1"),
          (.rightParen, ")"), (.endOfInput, "")] := by cbv
    rw [hforms]
    rfl

end Scriptlet
