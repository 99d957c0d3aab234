import Scriptlet.Proofs.ParserCalls
import Scriptlet.Proofs.ViablePrefixes

/-!
# Layout

How a text is laid out makes no difference to what it means
(`layout_is_free`). Two things come together here.

The parser sees of a token what it is and not where it stands. Run from two
cursors in front of tokens of the same forms, every parsing function
consumes the same number of tokens and comes to the same value, or it fails
in the same way at the same token (`Parse.Blind`). For the functions that
follow a strategy this is one induction on plans, as in `Strategies`.

And whatever blanks stand between the tokens of a text, its tokens have the
same forms, as long as there is at least one blank between any two
(`exists_lexes_spaced`).
-/

namespace Scriptlet

variable {α β : Type}

/-! ## Tokens of the same forms -/

/-- The streams have tokens of the same forms, and the same kind of end. -/
inductive Stream.Alike : Stream → Stream → Prop
  | token {t u : Token} {s s' : Stream} : t.form = u.form → Alike s s' →
      Alike (.token t s) (.token u s')
  | finish {position position' : Int} :
      Alike (.finish position) (.finish position')
  | broken {e e' : LexError} : Alike (.broken e) (.broken e')

/-- The cursors stand in front of tokens of the same forms. -/
structure Cursor.Alike (c d : Cursor) : Prop where
  current : c.current.form = d.current.form
  pending : c.pending.Alike d.pending

theorem Stream.Alike.of_yields {s s' : Stream} {ts us : List Token}
    (hs : s.Yields ts) (hs' : s'.Yields us)
    (h : ts.map Token.form = us.map Token.form) : s.Alike s' := by
  induction hs generalizing s' us with
  | token hkind _ ih =>
      cases hs' with
      | token _ hrest =>
          obtain ⟨hform, hforms⟩ := List.cons.inj h
          exact .token hform (ih hrest hforms)
      | finish =>
          obtain ⟨hform, -⟩ := List.cons.inj h
          exact absurd (congrArg Prod.fst hform) hkind
      | broken => cases h
  | finish =>
      cases hs' with
      | token hkind _ =>
          obtain ⟨hform, -⟩ := List.cons.inj h
          exact absurd (congrArg Prod.fst hform).symm hkind
      | finish => exact .finish
      | broken => cases h
  | broken =>
      cases hs' with
      | broken => exact .broken
      | token _ _ => cases h
      | finish => cases h

theorem Stream.Alike.length_eq {s s' : Stream} (h : s.Alike s') :
    s.length = s'.length := by
  induction h with
  | token _ _ ih => exact congrArg (· + 1) ih
  | finish => rfl
  | broken => rfl

theorem Cursor.Alike.fuel_eq {c d : Cursor} (h : c.Alike d) :
    c.fuel = d.fuel := by
  rw [fuel, fuel, h.pending.length_eq]

theorem Cursor.Alike.atEnd_eq {c d : Cursor} (h : c.Alike d) :
    c.atEnd = d.atEnd := by
  rw [atEnd, atEnd, show c.current.kind = d.current.kind from
    congrArg Prod.fst h.current]

/-! ## Two runs of a parser -/

/-- From `c` to `c'` and from `d` to `d'` tokens of the same forms are
consumed, the end of the input not being one of them, and then tokens of the
same forms follow. -/
def Cursor.Abreast (c d c' d' : Cursor) : Prop :=
  ∃ row row', c.Consumes row c' ∧ d.Consumes row' d' ∧
    row.map Token.form = row'.map Token.form ∧
    (∀ t ∈ row, t.kind ≠ .endOfInput) ∧ c'.Alike d'

namespace Cursor.Abreast

variable {c d c₁ d₁ c' d' : Cursor}

theorem refl (h : c.Alike d) : c.Abreast d c d :=
  ⟨[], [], .refl, .refl, rfl, fun _ ht => absurd ht List.not_mem_nil, h⟩

theorem trans (h : c.Abreast d c₁ d₁) (h' : c₁.Abreast d₁ c' d') :
    c.Abreast d c' d' := by
  obtain ⟨row, row', hc, hd, hforms, hproper, -⟩ := h
  obtain ⟨more, more', hc', hd', hforms', hproper', halike⟩ := h'
  refine ⟨row ++ more, row' ++ more', hc.append hc', hd.append hd', ?_,
    List.forall_mem_append.mpr ⟨hproper, hproper'⟩, halike⟩
  rw [List.map_append, List.map_append, hforms, hforms']

theorem advance {t u : Token} (hform : t.form = u.form)
    (hkind : t.kind ≠ .endOfInput) (hc : Parse.advance c = .done t c₁)
    (hd : Parse.advance d = .done u d₁) (h : c₁.Alike d₁) :
    c.Abreast d c₁ d₁ := by
  refine ⟨[t], [u], .cons hc .refl, .cons hd .refl, ?_,
    List.forall_mem_singleton.mpr hkind, h⟩
  rw [List.map_singleton, List.map_singleton, hform]

theorem alike (h : c.Abreast d c' d') : c'.Alike d' := by
  obtain ⟨_, _, _, _, _, _, halike⟩ := h
  exact halike

end Cursor.Abreast

/-- The failure is about the token at the cursor, or about the unrecognised
character behind it. -/
def ParseFailure.Here (c : Cursor) : ParseFailure → Prop
  | .tooDeep => True
  | .error (.unrecognized e) => c.pending = .broken e
  | .error e => e.found? = some c.current

/-- The failures are the same but for the tokens that they are about. -/
inductive ParseFailure.Alike : ParseFailure → ParseFailure → Prop
  | tooDeep : Alike .tooDeep .tooDeep
  | unrecognized (e e' : LexError) :
      Alike (.error (.unrecognized e)) (.error (.unrecognized e'))
  | object (objection : Objection) (t u : Token) :
      Alike (.error (objection.error t)) (.error (objection.error u))

theorem Objection.here (objection : Objection) (c : Cursor) :
    ParseFailure.Here c (.error (objection.error c.current)) := by
  cases objection <;> rfl

namespace Parse

/-- A run from `c` and a run from `d` keep abreast and come to the same value,
or fail alike. -/
inductive Twins (c d : Cursor) : Outcome ParseFailure Cursor α →
    Outcome ParseFailure Cursor α → Prop
  | done {a : α} {c' d' : Cursor} : c.Abreast d c' d' →
      Twins c d (.done a c') (.done a d')
  | failed {f f' : ParseFailure} {c' d' : Cursor} : c.Abreast d c' d' →
      f.Alike f' → f.Here c' → f'.Here d' →
      Twins c d (.failed f c') (.failed f' d')

/-- The parser does not see where the tokens stand. -/
def Blind (p : Parse α) : Prop := ∀ ⦃c d⦄, c.Alike d → Twins c d (p c) (p d)

theorem Twins.of_abreast {c d c₁ d₁ : Cursor}
    {o o' : Outcome ParseFailure Cursor α} (h : c.Abreast d c₁ d₁)
    (h' : Twins c₁ d₁ o o') : Twins c d o o' := by
  cases h' with
  | done habreast => exact .done (h.trans habreast)
  | failed habreast halike hhere hhere' =>
      exact .failed (h.trans habreast) halike hhere hhere'

theorem Blind.pure (a : α) : Blind (Pure.pure a : Parse α) :=
  fun _ _ h => .done (.refl h)

theorem Twins.bind {c d : Cursor} {p : Parse α} {next : α → Parse β}
    (h : Twins c d (p c) (p d)) (hnext : ∀ a, Blind (next a)) :
    Twins c d ((p >>= next) c) ((p >>= next) d) := by
  rw [Step.bind_apply, Step.bind_apply]
  generalize p c = o at h ⊢
  generalize p d = o' at h ⊢
  cases h with
  | @done a c' d' habreast =>
      exact (hnext a habreast.alike).of_abreast habreast
  | failed habreast halike hhere hhere' =>
      exact .failed habreast halike hhere hhere'

theorem Blind.bind {p : Parse α} {next : α → Parse β} (h : Blind p)
    (hnext : ∀ a, Blind (next a)) : Blind (p >>= next) :=
  fun _ _ halike => (h halike).bind hnext

theorem Plan.twins {form : Form} (plan : Plan α form) {c d : Cursor}
    (hc : c.current.form = form) (h : c.Alike d) :
    Twins c d (plan.run c) (plan.run d) := by
  induction plan generalizing c d with
  | give a => exact Blind.pure a h
  | object objection =>
      exact .failed (.refl h) (.object objection _ _) (objection.here c)
        (objection.here d)
  | giveUp => exact .failed (.refl h) .tooDeep trivial trivial
  | consume proper σ ih =>
      have hkind : c.current.kind ≠ .endOfInput := by
        rw [← hc] at proper
        exact proper
      obtain ⟨t, s⟩ := c
      obtain ⟨u, s'⟩ := d
      obtain ⟨hform, hpending⟩ := h
      dsimp only at hform hkind hpending
      rw [Plan.run_consume]
      cases hpending with
      | @token head head' rest rest' hhead hrest =>
          have hnext : Cursor.Alike ⟨head, rest⟩ ⟨head', rest'⟩ :=
            ⟨hhead, hrest⟩
          refine .of_abreast (.advance hform hkind rfl rfl hnext) ?_
          have htwins := ih head.form rfl hnext
          change Twins _ _ ((σ head.form).run _) ((σ head'.form).run _)
          rw [← hhead]
          exact htwins
      | @finish position position' =>
          have hnext : Cursor.Alike ⟨Token.atEnd position, .finish position⟩
              ⟨Token.atEnd position', .finish position'⟩ := ⟨rfl, .finish⟩
          exact .of_abreast (.advance hform hkind rfl rfl hnext)
            (ih .inputEnd rfl hnext)
      | @broken e e' =>
          exact .failed (.refl ⟨hform, .broken⟩) (.unrecognized e e') rfl rfl

theorem Planned.blind {p : Parse α} (h : Planned p) : Blind p := by
  obtain ⟨σ, -, hrun⟩ := h
  intro c d halike
  have hfollows : ∀ c : Cursor, p c = (σ c.current.form).run c := hrun
  rw [hfollows, hfollows, ← halike.current]
  exact Plan.twins (σ c.current.form) rfl halike

theorem isOperator_eq_of_form {t u : Token} (h : t.form = u.form)
    (symbol : String) : t.isOperator symbol = u.isOperator symbol := by
  obtain ⟨hkind, hlexeme⟩ := Prod.mk.inj h
  rw [Token.isOperator, Token.isOperator, hkind, hlexeme]

theorem skipSeparators_blind : Blind skipSeparators := by
  intro c d h
  obtain ⟨t, s⟩ := c
  obtain ⟨u, s'⟩ := d
  obtain ⟨hform, hpending⟩ := h
  dsimp only at hform hpending
  change Twins _ _ (skipSeparatorsFrom t s) (skipSeparatorsFrom u s')
  induction hpending generalizing t u with
  | @token head head' rest rest' hhead hrest ih =>
      rw [skipSeparatorsFrom, skipSeparatorsFrom,
        ← isOperator_eq_of_form hform]
      split
      · rename_i hsep
        refine .of_abreast (.advance hform ?_ rfl rfl ⟨hhead, hrest⟩)
          (ih head head' hhead)
        rw [Token.kind_of_isOperator hsep]
        decide
      · exact .done (.refl ⟨hform, .token hhead hrest⟩)
  | @finish position position' =>
      rw [skipSeparatorsFrom, skipSeparatorsFrom,
        ← isOperator_eq_of_form hform]
      split
      · rename_i hsep
        refine .done (.advance hform ?_ rfl rfl ⟨rfl, .finish⟩)
        rw [Token.kind_of_isOperator hsep]
        decide
      · exact .done (.refl ⟨hform, .finish⟩)
  | @broken e e' =>
      rw [skipSeparatorsFrom, skipSeparatorsFrom,
        ← isOperator_eq_of_form hform]
      split
      · exact .failed (.refl ⟨hform, .broken⟩) (.unrecognized e e') rfl rfl
      · exact .done (.refl ⟨hform, .broken⟩)

/-- A test for the end of the text. -/
theorem Blind.ite_atEnd {p q : Parse α} (hp : Blind p) (hq : Blind q) :
    Blind (do if (← Step.get).atEnd then p else q) := by
  intro c d h
  change Twins c d ((if c.atEnd then p else q) c) ((if d.atEnd then p else q) d)
  rw [← h.atEnd_eq]
  split
  · exact hp h
  · exact hq h

theorem statements_blind (fuel limit : Nat) :
    Blind (statements fuel limit) := by
  induction fuel with
  | zero => exact Planned.tooDeep.blind
  | succ fuel ih =>
      rw [statements]
      refine skipSeparators_blind.bind fun _ => .ite_atEnd (.pure []) ?_
      refine ((planned fuel).statement limit).blind.bind fun first => ?_
      exact ih.bind fun others => .pure (first :: others)

end Parse

/-! ## Where an error is -/

/-- The error is about the token with this number. An unrecognised character
comes behind all tokens. -/
def ParseError.IsAt (source : String) (k : Nat) (e : ParseError) : Prop :=
  match e.found? with
  | some t => (Stream.ofText source).tokens.1[k]? = some t
  | none => k = (Stream.ofText source).tokens.1.length

/-- The tokens of a text have growing offsets, also in front of an
unrecognised character. -/
theorem Stream.increasing_ofText (source : String) :
    ((ofText source).tokens.1.map Token.position).Pairwise (· < ·) := by
  rcases recognised_or_split source.toList with hall |
    ⟨before, c, rest, hsource, hbefore, hc⟩
  · obtain ⟨ts, hlexes⟩ := exists_lexes source.toList.length 0 hall
    have htokens := tokens_eq_iff_lexes.mpr hlexes
    rw [htokens]
    exact (tokenizes_of_tokens htokens).increasing
  · obtain ⟨front, -, hfront, htokens⟩ := tokens_of_split hsource hbefore hc
    have hincreasing := (tokenizes_of_tokens hfront).increasing
    rw [List.map_append] at hincreasing
    rw [htokens]
    exact (List.pairwise_append.mp hincreasing).1

/-- No error is about two tokens. -/
theorem ParseError.IsAt.unique {source : String} {e : ParseError} {i k : Nat}
    (hi : e.IsAt source i) (hk : e.IsAt source k) : i = k := by
  unfold IsAt at hi hk
  cases hfound : e.found? with
  | none =>
      rw [hfound] at hi hk
      exact hi.trans hk.symm
  | some t =>
      rw [hfound] at hi hk
      have hnodup : (Stream.ofText source).tokens.1.Nodup :=
        List.Nodup.of_map Token.position
          ((Stream.increasing_ofText source).imp fun h => Int.ne_of_lt h)
      have hlt := (List.getElem?_eq_some_iff.mp hi).1
      exact (List.getElem?_inj hlt hnodup).mp (hi.trans hk.symm)

/-- What was consumed comes first in the row that a cursor stands in front
of. -/
theorem Cursor.Consumes.sees_rest {c c' : Cursor} {row ts : List Token}
    (h : c.Consumes row c') (hrow : ∀ t ∈ row, t.kind ≠ .endOfInput)
    (hc : c.Sees ts) : ∃ rest, ts = row ++ rest ∧ c'.Sees rest := by
  induction h generalizing ts with
  | refl => exact ⟨ts, rfl, hc⟩
  | cons hadvance _ ih =>
      obtain ⟨hkind, hothers⟩ := List.forall_mem_cons.mp hrow
      obtain ⟨rfl, hnext⟩ := Parse.of_advance_done hadvance
      cases hc with
      | finish => exact absurd rfl hkind
      | token _ hs =>
          obtain ⟨rest, rfl, hrest⟩ := ih hothers (.of_next hs hnext)
          exact ⟨rest, rfl, hrest⟩

/-- A failure at a cursor is about the token that comes behind the consumed
ones. -/
theorem ParseError.isAt_of_here {source : String} {c c' : Cursor}
    {row : List Token} {e : ParseError} (hc : Cursor.ofText source = .ok c)
    (hrow : c.Consumes row c') (hproper : ∀ t ∈ row, t.kind ≠ .endOfInput)
    (hhere : ParseFailure.Here c' (.error e)) :
    e.IsAt source (if e.found?.isSome then row.length else row.length + 1) := by
  obtain ⟨rest, htokens, hsees⟩ :=
    hrow.sees_rest hproper (Cursor.sees_ofText hc)
  have hfound : ∀ t, t = c'.current →
      (Stream.ofText source).tokens.1[row.length]? = some t := by
    rintro t rfl
    obtain ⟨more, rfl⟩ := hsees.eq_cons
    rw [htokens, List.getElem?_append_right (Nat.le_refl _), Nat.sub_self]
    rfl
  cases e with
  | unrecognized error =>
      obtain ⟨t, s⟩ := c'
      have hbroken : s = .broken error := hhere
      subst hbroken
      cases hsees with
      | token _ hs =>
          cases hs
          have hlength := congrArg List.length htokens
          rw [List.length_append] at hlength
          exact hlength.symm
  | unexpected wanted t => exact hfound t (Option.some.inj hhere)
  | closingParen t => exact hfound t (Option.some.inj hhere)
  | functionName t => exact hfound t (Option.some.inj hhere)

/-- Two texts are parsed alike: to the same statements, or with errors of the
same kind, each about the token with the same number and no other, or both
nest too deeply. -/
inductive ParsedAlike (a b : String) : Except ParseFailure (List Node) →
    Except ParseFailure (List Node) → Prop
  | program (nodes : List Node) : ParsedAlike a b (.ok nodes) (.ok nodes)
  | error {e e' : ParseError} (k : Nat) : e.kind = e'.kind →
      (∀ i, e.IsAt a i ↔ i = k) → (∀ i, e'.IsAt b i ↔ i = k) →
      ParsedAlike a b (.error (.error e)) (.error (.error e'))
  | tooDeep : ParsedAlike a b (.error .tooDeep) (.error .tooDeep)

theorem ParsedAlike.of_isAt {a b : String} {e e' : ParseError} {k : Nat}
    (hkind : e.kind = e'.kind) (h : e.IsAt a k) (h' : e'.IsAt b k) :
    ParsedAlike a b (.error (.error e)) (.error (.error e')) := by
  refine .error k hkind (fun i => ⟨fun hi => hi.unique h, ?_⟩)
    fun i => ⟨fun hi => hi.unique h', ?_⟩
  · rintro rfl
    exact h
  · rintro rfl
    exact h'

theorem Parse.Twins.parsedAlike {a b : String} {c d : Cursor}
    {o o' : Outcome ParseFailure Cursor (List Node)}
    (hc : Cursor.ofText a = .ok c) (hd : Cursor.ofText b = .ok d)
    (h : Twins c d o o') : ParsedAlike a b o.result o'.result := by
  cases h with
  | @done nodes _ _ _ => exact .program nodes
  | failed habreast halike hhere hhere' =>
      obtain ⟨row, row', hrow, hrow', hforms, hproper, -⟩ := habreast
      have hlength : row.length = row'.length := by
        rw [← row.length_map, hforms, row'.length_map]
      have hproper' : ∀ t ∈ row', t.kind ≠ .endOfInput := by
        intro t ht
        have hmem : t.form ∈ row.map Token.form :=
          hforms ▸ List.mem_map_of_mem ht
        obtain ⟨u, hu, hform⟩ := List.mem_map.mp hmem
        have hkind : u.kind = t.kind := congrArg Prod.fst hform
        rw [← hkind]
        exact hproper u hu
      cases halike with
      | tooDeep => exact .tooDeep
      | unrecognized e e' =>
          refine .of_isAt rfl (ParseError.isAt_of_here hc hrow hproper hhere) ?_
          rw [hlength]
          exact ParseError.isAt_of_here hd hrow' hproper' hhere'
      | object objection t u =>
          have hat := ParseError.isAt_of_here hc hrow hproper hhere
          have hat' := ParseError.isAt_of_here hd hrow' hproper' hhere'
          rw [← hlength] at hat'
          cases objection <;> exact .of_isAt rfl hat hat'

/-! ## Texts with the same tokens -/

def SameTokens (a b : String) : Prop :=
  (Stream.ofText a).tokens.1.map Token.form =
    (Stream.ofText b).tokens.1.map Token.form

/-- Texts with the same tokens are parsed alike. -/
theorem SameTokens.parsedAlike {a b : String} (h : SameTokens a b)
    (limit : Nat) :
    ParsedAlike a b (parseProgram limit a) (parseProgram limit b) := by
  have halike : (Stream.ofText a).Alike (Stream.ofText b) :=
    .of_yields (Stream.yields_ofText a) (Stream.yields_ofText b) h
  generalize hs : Stream.ofText a = s at halike
  generalize hs' : Stream.ofText b = s' at halike
  have hcursor : ∀ {c d : Cursor}, Cursor.ofStream s = .ok c →
      Cursor.ofStream s' = .ok d → c.Alike d →
      ParsedAlike a b (parseProgram limit a) (parseProgram limit b) := by
    intro c d hc hd hcd
    rw [← hs] at hc
    rw [← hs'] at hd
    rw [parseProgram_of_cursor hc, parseProgram_of_cursor hd, ← hcd.fuel_eq]
    exact (Parse.statements_blind c.fuel limit hcd).parsedAlike hc hd
  cases halike with
  | token hform hrest => exact hcursor rfl rfl ⟨hform, hrest⟩
  | finish => exact hcursor rfl rfl ⟨rfl, .finish⟩
  | @broken e e' =>
      have herror : ∀ {source : String} {error : LexError},
          Stream.ofText source = .broken error →
          parseProgram limit source =
              .error (.error (.unrecognized error)) ∧
            (ParseError.unrecognized error).IsAt source 0 := by
        intro source error hsource
        refine ⟨parseProgram_of_error ?_ limit, ?_⟩
        · rw [Cursor.ofText, Cursor.ofStream, hsource]
          rfl
        · change 0 = (Stream.ofText source).tokens.1.length
          rw [hsource]
          rfl
      obtain ⟨ha, hat⟩ := herror hs
      obtain ⟨hb, hat'⟩ := herror hs'
      rw [ha, hb]
      exact .of_isAt rfl hat hat'

/-! ## Other blanks -/

def IsBlank (text : String) : Prop := ∀ c ∈ text.toList, c ∈ blanks

/-- Texts one behind the other, with the gaps between them. -/
def spaced (gap : Nat → String) : List String → String
  | [] => ""
  | [text] => text
  | text :: rest => text ++ gap 0 ++ spaced (fun i => gap (i + 1)) rest

theorem spaced_cons_cons (gap : Nat → String) (first second : String)
    (rest : List String) :
    spaced gap (first :: second :: rest) =
      first ++ gap 0 ++ spaced (fun i => gap (i + 1)) (second :: rest) := rfl

/-- A token ends where a blank or the end of the text follows. -/
theorem Token.endsBefore_of_isBlank {t : Token} {text : String}
    {rest : List Char} (h : IsBlank text) (hrest : text = "" → rest = []) :
    t.EndsBefore (text.toList ++ rest).head? := by
  refine endsBefore_of_blank fun c hc => ?_
  cases hcs : text.toList with
  | nil =>
      rw [hcs, hrest (String.toList_eq_nil_iff.mp hcs)] at hc
      cases hc
  | cons d ds =>
      rw [hcs] at hc
      cases hc
      refine h c ?_
      rw [hcs]
      exact List.mem_cons_self

/-- Tokens that are written with blanks between them are found again. -/
theorem exists_lexes_spaced {ts : List Token} (h : WritableRow ts)
    {gap : Nat → String} (hgap : ∀ i, IsBlank (gap i) ∧ gap i ≠ "")
    {behind : String} (hbehind : IsBlank behind) (finish position : Int) :
    ∃ us, Relocated ts us ∧ Lexes finish position
      ((spaced gap (ts.map Token.lexeme)).toList ++ behind.toList)
      (us ++ [Token.atEnd finish]) := by
  have hmargin : ∀ position,
      Lexes finish position behind.toList [Token.atEnd finish] := by
    intro position
    rw [← List.append_nil behind.toList]
    exact .blanks_append hbehind .finish
  induction ts generalizing gap position with
  | nil => exact ⟨[], .nil, hmargin position⟩
  | cons t ts ih =>
      obtain ⟨⟨hkind, hspelled⟩, hts⟩ := List.forall_mem_cons.mp h
      cases ts with
      | nil =>
          refine ⟨[t.moved position], .cons position .nil, ?_⟩
          have hends : (t.moved position).EndsBefore
              (behind.toList ++ []).head? :=
            Token.endsBefore_of_isBlank hbehind fun _ => rfl
          rw [List.append_nil] at hends
          exact .token (t := t.moved position) hkind hspelled hends
            (hmargin _)
      | cons u ts =>
          obtain ⟨hblank, hne⟩ := hgap 0
          obtain ⟨us, hus, hlexes⟩ := ih hts (fun i => hgap (i + 1))
            ((t.moved position).finish + (gap 0).toList.length)
          refine ⟨t.moved position :: us, .cons position hus, ?_⟩
          rw [List.map_cons, List.map_cons, spaced_cons_cons,
            String.toList_append, String.toList_append, List.append_assoc,
            List.append_assoc]
          exact .token (t := t.moved position) hkind hspelled
            (Token.endsBefore_of_isBlank hblank fun h => absurd h hne)
            (.blanks_append hblank hlexes)

/-- What the tokens of a text are spelled like, without the end of the
input. -/
def lexemes (source : String) : List String :=
  (Stream.ofText source).tokens.1.dropLast.map Token.lexeme

/-- The tokens of a text behind other blanks are the tokens of a text with
these blanks. -/
theorem sameTokens_spaced {source : String}
    (h : (Stream.ofText source).tokens.2 = none)
    {gap : Nat → String} (hgap : ∀ i, IsBlank (gap i) ∧ gap i ≠ "")
    {before behind : String} (hbefore : IsBlank before)
    (hbehind : IsBlank behind) :
    let text := before ++ spaced gap (lexemes source) ++ behind
    (Stream.ofText text).tokens.2 = none ∧ SameTokens source text := by
  intro text
  obtain ⟨ts, hts⟩ : ∃ ts, (Stream.ofText source).tokens = (ts, none) :=
    ⟨_, Prod.ext rfl h⟩
  obtain ⟨front, rfl, -⟩ := (tokenizes_of_tokens hts).ends
  have hlexemes : lexemes source = front.map Token.lexeme := by
    rw [lexemes, hts, List.dropLast_concat]
  obtain ⟨us, hus, hlexes⟩ := exists_lexes_spaced (writableRow_front hts)
    hgap hbehind text.toList.length (0 + before.toList.length)
  have htext : text.toList = before.toList ++
      ((spaced gap (front.map Token.lexeme)).toList ++ behind.toList) := by
    rw [← hlexemes, String.toList_append, String.toList_append,
      List.append_assoc]
  have hwhole : Lexes text.toList.length 0 text.toList
      (us ++ [Token.atEnd text.toList.length]) := by
    rw [htext] at hlexes ⊢
    exact .blanks_append hbefore hlexes
  have htokens := tokens_eq_iff_lexes.mpr hwhole
  refine ⟨congrArg Prod.snd htokens, ?_⟩
  rw [SameTokens, hts, htokens, List.map_append, List.map_append,
    hus.map_form]
  rfl

/-- **Layout is free.** Texts whose tokens are of the same kinds and spelling
are parsed alike: to the same statements, or with errors of the same kind
about the token with the same number, or both nest too deeply. And the
tokens of a text that has no unrecognised characters, written with any one or
more spaces, tabs and newlines between each two of them, and any in front
and behind, are a text with the same tokens, so it is parsed alike. -/
theorem layout_is_free (limit : Nat) :
    (∀ a b, SameTokens a b →
      ParsedAlike a b (parseProgram limit a) (parseProgram limit b)) ∧
    ∀ source, (Stream.ofText source).tokens.2 = none →
      ∀ gap : Nat → String, (∀ i, IsBlank (gap i) ∧ gap i ≠ "") →
      ∀ before behind, IsBlank before → IsBlank behind →
      let text := before ++ spaced gap (lexemes source) ++ behind
      (Stream.ofText text).tokens.2 = none ∧ SameTokens source text ∧
        ParsedAlike source text (parseProgram limit source)
          (parseProgram limit text) := by
  refine ⟨fun a b h => h.parsedAlike limit, ?_⟩
  intro source h gap hgap before behind hbefore hbehind text
  obtain ⟨hlexed, hsame⟩ := sameTokens_spaced h hgap hbefore hbehind
  exact ⟨hlexed, hsame, hsame.parsedAlike limit⟩

/-- A call without its closing parenthesis is as wrong on one line as it is on
five, and the whole assignment may be spread over the lines as well. -/
theorem assignment_on_many_lines :
    let broad := " x\n\t=\n\tf\n\t(\n\t1\n\t)\n"
    SameTokens "x=f(1" "x\n=\tf (\n\n1" ∧
      ParsedAlike "x=f(1" "x\n=\tf (\n\n1" (parseProgram 2 "x=f(1")
        (parseProgram 2 "x\n=\tf (\n\n1") ∧
      (Stream.ofText "x=f(1)").tokens.2 = none ∧
      broad = " " ++ spaced (fun _ => "\n\t") (lexemes "x=f(1)") ++ "\n" ∧
      ParsedAlike "x=f(1)" broad (parseProgram 2 "x=f(1)")
        (parseProgram 2 broad) := by
  intro broad
  obtain ⟨hsame, hspaced⟩ := layout_is_free 2
  have hopen : (Stream.ofText "x=f(1").tokens.1.map Token.form =
      (Stream.ofText "x\n=\tf (\n\n1").tokens.1.map Token.form := by cbv
  have hlexed : (Stream.ofText "x=f(1)").tokens.2 = none := by cbv
  have hbroad : broad =
      " " ++ spaced (fun _ => "\n\t") (lexemes "x=f(1)") ++ "\n" := by
    have hlexemes : lexemes "x=f(1)" = ["x", "=", "f", "(", "1", ")"] := by cbv
    rw [hlexemes]
    decide
  obtain ⟨-, -, halike⟩ := hspaced "x=f(1)" hlexed (fun _ => "\n\t")
    (fun _ => ⟨by simp [IsBlank, blanks], by decide⟩) " " "\n"
    (by simp [IsBlank, blanks]) (by simp [IsBlank, blanks])
  refine ⟨hopen, hsame _ _ hopen, hlexed, hbroad, ?_⟩
  rw [hbroad]
  exact halike

end Scriptlet
