import Scriptlet.Proofs.Tokenization

/-!
# Rows of tokens as texts

The grammar looks at the kinds and the spelling of tokens and never at their
places (`Program.relocate`), and every row of well-spelled tokens is the row
of some text, in which each token stands behind a blank
(`tokens_spelling`). So whatever is known about rows of tokens can be said
about texts.

A text that starts with a blank can be put behind any other text without
changing the tokens of either (`Lexes.append`).
-/

namespace Scriptlet

/-! ## Tokens at other places -/

/-- What a token is, without its place. -/
def Token.form (t : Token) : TokenKind × String := (t.kind, t.lexeme)

def Token.moved (t : Token) (position : Int) : Token :=
  { t with position := position }

/-- The second row has the tokens of the first one, at any places. -/
inductive Relocated : List Token → List Token → Prop
  | nil : Relocated [] []
  | cons {t : Token} {ts us : List Token} (position : Int) :
      Relocated ts us → Relocated (t :: ts) (t.moved position :: us)

namespace Relocated

theorem refl : ∀ ts : List Token, Relocated ts ts
  | [] => .nil
  | t :: ts => .cons t.position (refl ts)

theorem append {ts us ts' us' : List Token} (h : Relocated ts us)
    (h' : Relocated ts' us') : Relocated (ts ++ ts') (us ++ us') := by
  induction h with
  | nil => exact h'
  | cons position _ ih => exact .cons position ih

theorem map_form {ts us : List Token} (h : Relocated ts us) :
    us.map Token.form = ts.map Token.form := by
  induction h with
  | nil => rfl
  | cons position _ ih => exact congrArg (_ :: ·) ih

theorem of_map_form {ts us : List Token}
    (h : us.map Token.form = ts.map Token.form) : Relocated ts us := by
  induction ts generalizing us with
  | nil =>
      rw [List.map_eq_nil_iff.mp h]
      exact .nil
  | cons t ts ih =>
      cases us with
      | nil => cases h
      | cons u us =>
          obtain ⟨hform, hrest⟩ := List.cons.inj h
          obtain ⟨hkind, hlexeme⟩ := Prod.mk.inj hform
          have hu : u = t.moved u.position := by
            rw [Token.moved, ← hkind, ← hlexeme]
          rw [hu]
          exact .cons u.position (ih hrest)

end Relocated

namespace Grammar

/-- A class of tokens that does not depend on their places. -/
theorem NextIs.relocate {p : Token → Prop} {ts us : List Token}
    (h : NextIs p ts) (hus : Relocated ts us)
    (hp : ∀ t position, p t → p (t.moved position)) : NextIs p us := by
  cases hus with
  | nil => exact h
  | cons position _ => exact hp _ position h

mutual

theorem Expression.relocate {ts us rest : List Token} {e : Node} :
    Expression ts e rest → Relocated ts us →
      ∃ rest', Relocated rest rest' ∧ Expression us e rest'
  | .intro hterm htail, hus => by
      obtain ⟨mid, hmid, hterm⟩ := hterm.relocate hus
      obtain ⟨rest', hrest, htail⟩ := htail.relocate hmid
      exact ⟨rest', hrest, .intro hterm htail⟩

theorem Tail.relocate {left e : Node} {ts us rest : List Token} :
    Tail left ts e rest → Relocated ts us →
      ∃ rest', Relocated rest rest' ∧ Tail left us e rest'
  | .stop hstop, hus =>
      ⟨us, hus, .stop (hstop.relocate hus fun _ _ h => h)⟩
  | .operator hop hterm htail, .cons position hus => by
      obtain ⟨mid, hmid, hterm⟩ := hterm.relocate hus
      obtain ⟨rest', hrest, htail⟩ := htail.relocate hmid
      exact ⟨rest', hrest, .operator hop hterm htail⟩

theorem Term.relocate {ts us rest : List Token} {e : Node} :
    Term ts e rest → Relocated ts us →
      ∃ rest', Relocated rest rest' ∧ Term us e rest'
  | .number hkind, .cons position hus => ⟨_, hus, .number hkind⟩
  | .name hkind hnext, .cons position hus =>
      ⟨_, hus, .name hkind (hnext.relocate hus fun _ _ h => h)⟩
  | .call hkind hopen hargs, .cons position (.cons position' hus) => by
      obtain ⟨rest', hrest, hargs⟩ := hargs.relocate hus
      exact ⟨rest', hrest, .call hkind hopen hargs⟩
  | .parens hopen hexp hclose, .cons position hus => by
      obtain ⟨_, hrest, hexp⟩ := hexp.relocate hus
      cases hrest with
      | cons position' hrest =>
          exact ⟨_, hrest, .parens hopen hexp hclose⟩

theorem Arguments.relocate {ts us rest : List Token} {args : List Node} :
    Arguments ts args rest → Relocated ts us →
      ∃ rest', Relocated rest rest' ∧ Arguments us args rest'
  | .none hclose, .cons position hus => ⟨_, hus, .none hclose⟩
  | .some hrow hclose, hus => by
      obtain ⟨_, hrest, hrow⟩ := hrow.relocate hus
      cases hrest with
      | cons position hrest => exact ⟨_, hrest, .some hrow hclose⟩

theorem ArgumentRow.relocate {ts us rest : List Token} {args : List Node} :
    ArgumentRow ts args rest → Relocated ts us →
      ∃ rest', Relocated rest rest' ∧ ArgumentRow us args rest'
  | .last hexp hnext, hus => by
      obtain ⟨rest', hrest, hexp⟩ := hexp.relocate hus
      exact ⟨rest', hrest,
        .last hexp (hnext.relocate hrest fun _ _ h => h)⟩
  | .comma hexp hcomma hrow, hus => by
      obtain ⟨_, hmid, hexp⟩ := hexp.relocate hus
      cases hmid with
      | cons position hmid =>
          obtain ⟨rest', hrest, hrow⟩ := hrow.relocate hmid
          exact ⟨rest', hrest, .comma hexp hcomma hrow⟩

end

theorem ParameterRow.relocate {ts us rest : List Token} {params : List Json}
    (h : ParameterRow ts params rest) (hus : Relocated ts us) :
    ∃ rest', Relocated rest rest' ∧ ParameterRow us params rest' := by
  induction h generalizing us with
  | none hnext => exact ⟨us, hus, .none (hnext.relocate hus fun _ _ h => h)⟩
  | last hkind hnext =>
      cases hus with
      | cons position hus =>
          exact ⟨_, hus, .last hkind (hnext.relocate hus fun _ _ h => h)⟩
  | comma hkind hcomma _ ih =>
      cases hus with
      | cons position hus =>
          cases hus with
          | cons position' hus =>
              obtain ⟨rest', hrest, hrow⟩ := ih hus
              exact ⟨rest', hrest, .comma hkind hcomma hrow⟩

theorem ParameterList.relocate {ts us rest : List Token} {params : List Json}
    (h : ParameterList ts params rest) (hus : Relocated ts us) :
    ∃ rest', Relocated rest rest' ∧ ParameterList us params rest' := by
  cases h with
  | absent hnext =>
      exact ⟨us, hus, .absent (hnext.relocate hus fun _ _ h => h)⟩
  | present hopen hrow hclose =>
      cases hus with
      | cons position hus =>
          obtain ⟨_, hrest, hrow⟩ := hrow.relocate hus
          cases hrest with
          | cons position' hrest =>
              exact ⟨_, hrest, .present hopen hrow hclose⟩

theorem OptionalSeparator.relocate {ts us rest : List Token}
    (h : OptionalSeparator ts rest) (hus : Relocated ts us) :
    ∃ rest', Relocated rest rest' ∧ OptionalSeparator us rest' := by
  cases h with
  | absent hnext =>
      exact ⟨us, hus, .absent (hnext.relocate hus fun _ _ h => h)⟩
  | present hsep =>
      cases hus with
      | cons position hus => exact ⟨_, hus, .present hsep⟩

mutual

theorem Statement.relocate {ts us rest : List Token} {node : Node} :
    Statement ts node rest → Relocated ts us →
      ∃ rest', Relocated rest rest' ∧ Statement us node rest'
  | .define hdef hfun, .cons position hus => by
      obtain ⟨rest', hrest, hfun⟩ := hfun.relocate hus
      exact ⟨rest', hrest, .define hdef hfun⟩
  | .assign hkind hassign hexp, .cons position (.cons position' hus) => by
      obtain ⟨rest', hrest, hexp⟩ := hexp.relocate hus
      exact ⟨rest', hrest, .assign hkind hassign hexp⟩
  | .expression hexp, hus => by
      obtain ⟨rest', hrest, hexp⟩ := hexp.relocate hus
      exact ⟨rest', hrest, .expression hexp⟩

theorem Definition.relocate {ts us rest : List Token} {node : Node} :
    Definition ts node rest → Relocated ts us →
      ∃ rest', Relocated rest rest' ∧ Definition us node rest'
  | .intro hkind hparams hbody, .cons position hus => by
      obtain ⟨mid, hmid, hparams⟩ := hparams.relocate hus
      obtain ⟨rest', hrest, hbody⟩ := hbody.relocate hmid
      exact ⟨rest', hrest, .intro hkind hparams hbody⟩

theorem Body.relocate {ts us rest : List Token} {statements : List Node} :
    Body ts statements rest → Relocated ts us →
      ∃ rest', Relocated rest rest' ∧ Body us statements rest'
  | .close hend, .cons position hus => ⟨_, hus, .close hend⟩
  | .statement hstatement hsep hbody, hus => by
      obtain ⟨mid, hmid, hstatement⟩ := hstatement.relocate hus
      obtain ⟨next, hnext, hsep⟩ := hsep.relocate hmid
      obtain ⟨rest', hrest, hbody⟩ := hbody.relocate hnext
      exact ⟨rest', hrest, .statement hstatement hsep hbody⟩

end

theorem Separators.relocate {ts us rest : List Token}
    (h : Separators ts rest) (hus : Relocated ts us) :
    ∃ rest', Relocated rest rest' ∧ Separators us rest' := by
  induction h generalizing us with
  | stop hnext => exact ⟨us, hus, .stop (hnext.relocate hus fun _ _ h => h)⟩
  | semicolon hsep _ ih =>
      cases hus with
      | cons position hus =>
          obtain ⟨rest', hrest, hseps⟩ := ih hus
          exact ⟨rest', hrest, .semicolon hsep hseps⟩

theorem Statements.relocate {ts us : List Token} {nodes : List Node}
    (h : Statements ts nodes) (hus : Relocated ts us) :
    Statements us nodes := by
  induction h generalizing us with
  | done hend =>
      cases hus with
      | cons position hus =>
          cases hus
          exact .done hend
  | statement hstatement hseps _ ih =>
      obtain ⟨mid, hmid, hstatement⟩ := hstatement.relocate hus
      obtain ⟨next, hnext, hseps⟩ := hseps.relocate hmid
      exact .statement hstatement hseps (ih hnext)

/-- What a row of tokens derives does not depend on where they stand. -/
theorem Program.relocate {ts us : List Token} {nodes : List Node}
    (h : Program ts nodes) (hus : Relocated ts us) : Program us nodes := by
  obtain ⟨hseps, hstatements⟩ := h
  obtain ⟨next, hnext, hseps⟩ := hseps.relocate hus
  exact .intro hseps (hstatements.relocate hnext)

end Grammar

/-! ## Texts behind each other -/

/-- A blank ends every token. -/
theorem Token.endsBefore_of_blank {t : Token} {follower : Option Char}
    (h : ∀ c ∈ follower, c ∈ blanks) : t.EndsBefore follower := by
  unfold EndsBefore
  split
  · exact fun c hc => (not_part_of_mem_blanks c (h c hc)).1
  · exact fun c hc => (not_part_of_mem_blanks c (h c hc)).2
  · exact fun c hc => (not_part_of_mem_blanks c (h c hc)).2
  · trivial

theorem Lexes.spelled {finish position : Int} {cs : List Char}
    {ts : List Token} (h : Lexes finish position cs ts) :
    ∀ t ∈ ts, t.Spelled := by
  induction h with
  | finish => exact List.forall_mem_singleton.mpr rfl
  | blank _ _ ih => exact ih
  | token _ hspelled _ _ ih => exact List.forall_mem_cons.mpr ⟨hspelled, ih⟩

/-- The tokens of characters behind which others follow, the first of these
being a blank. -/
theorem Lexes.append {finish finish' position : Int} {cs rest : List Char}
    {front us : List Token}
    (h : Lexes finish position cs (front ++ [Token.atEnd finish]))
    (hblank : ∀ c ∈ rest.head?, c ∈ blanks)
    (hrest : Lexes finish' (position + cs.length) rest us) :
    Lexes finish' position (cs ++ rest) (front ++ us) := by
  generalize hts : front ++ [Token.atEnd finish] = ts at h
  induction h generalizing front with
  | finish =>
      obtain ⟨rfl, -⟩ := List.append_eq_singleton_iff.mp hts |>.resolve_right
        fun h => absurd h.2 (List.cons_ne_nil _ _)
      simpa using hrest
  | @blank position c cs ts hc _ ih =>
      have hlength : position + ((c :: cs).length : Int) =
          position + 1 + (cs.length : Int) := by
        simp only [List.length_cons]
        omega
      rw [hlength] at hrest
      exact .blank hc (ih hrest hts)
  | @token t cs ts hkind hspelled hends _ ih =>
      have hlength : t.position + ((t.lexeme.toList ++ cs).length : Int) =
          t.finish + (cs.length : Int) := by
        rw [Token.finish, List.length_append, String.length_toList]
        omega
      rw [hlength] at hrest
      -- the token keeps its follower, or gets the blank as one
      have hends' : t.EndsBefore (cs ++ rest).head? := by
        cases cs with
        | cons d cs => exact hends
        | nil => exact Token.endsBefore_of_blank hblank
      cases front with
      | nil =>
          cases hts
          exact absurd rfl hkind
      | cons u front =>
          obtain ⟨rfl, hrow⟩ := List.cons.inj hts
          rw [List.append_assoc]
          exact .token hkind hspelled hends' (ih hrest hrow)

/-! ## The text of a row -/

/-- A token that a text can have in front of its end. -/
def Token.Writable (t : Token) : Prop := t.kind ≠ .endOfInput ∧ t.Spelled

def WritableRow (ts : List Token) : Prop := ∀ t ∈ ts, t.Writable

theorem WritableRow.nil : WritableRow [] :=
  fun _ ht => absurd ht List.not_mem_nil

theorem WritableRow.cons {t : Token} {ts : List Token} (ht : t.Writable)
    (hts : WritableRow ts) : WritableRow (t :: ts) :=
  List.forall_mem_cons.mpr ⟨ht, hts⟩

theorem WritableRow.append {ts us : List Token} (hts : WritableRow ts)
    (hus : WritableRow us) : WritableRow (ts ++ us) :=
  List.forall_mem_append.mpr ⟨hts, hus⟩

/-- The tokens of a row, each behind a blank. -/
def spelling (ts : List Token) : List Char :=
  ts.flatMap fun t => ' ' :: t.lexeme.toList

theorem head?_spelling (ts : List Token) :
    ∀ c ∈ (spelling ts).head?, c ∈ blanks := by
  cases ts with
  | nil => exact fun c hc => by cases hc
  | cons t ts =>
      rintro c ⟨rfl⟩
      exact List.mem_cons_self

theorem exists_lexes_spelling {ts : List Token}
    (h : WritableRow ts) (finish position : Int) :
    ∃ us, Relocated ts us ∧
      Lexes finish position (spelling ts) (us ++ [Token.atEnd finish]) := by
  induction ts generalizing position with
  | nil => exact ⟨[], .nil, .finish⟩
  | cons t ts ih =>
      obtain ⟨⟨hkind, hspelled⟩, hts⟩ := List.forall_mem_cons.mp h
      obtain ⟨us, hus, hlexes⟩ := ih hts (t.moved (position + 1)).finish
      refine ⟨t.moved (position + 1) :: us, .cons _ hus, ?_⟩
      have hends : (t.moved (position + 1)).EndsBefore (spelling ts).head? :=
        Token.endsBefore_of_blank (head?_spelling ts)
      exact .blank List.mem_cons_self
        (.token (t := t.moved (position + 1)) hkind hspelled hends hlexes)

/-- A row of tokens is the row of its text. -/
theorem tokens_spelling {ts : List Token} (h : WritableRow ts) :
    ∃ us finish, Relocated ts us ∧
      (Stream.ofText (String.ofList (spelling ts))).tokens =
        (us ++ [Token.atEnd finish], none) := by
  obtain ⟨us, hus, hlexes⟩ :=
    exists_lexes_spelling h (spelling ts).length 0
  refine ⟨us, (spelling ts).length, hus, tokens_eq_iff_lexes.mpr ?_⟩
  rw [String.toList_ofList]
  exact hlexes

/-! ## Words and signs -/

def openingSign : Token := ⟨.leftParen, "(", 0⟩

def closingSign : Token := ⟨.rightParen, ")", 0⟩

def commaSign : Token := ⟨.operator, ",", 0⟩

def semicolonSign : Token := ⟨.operator, ";", 0⟩

def equalsSign : Token := ⟨.assign, "=", 0⟩

def defWord : Token := ⟨.keyword, "def", 0⟩

def endWord : Token := ⟨.keyword, "end", 0⟩

theorem writable_symbol {c : Char} {kind : TokenKind}
    (h : symbolKind? c = some kind) :
    Token.Writable ⟨kind, c.toString, 0⟩ := by
  have hkind := symbolKind?_ne_endOfInput h
  exact ⟨hkind, (Token.spelled_iff hkind).mpr (Or.inr (Or.inr ⟨c, h, rfl⟩))⟩

theorem writable_openingSign : openingSign.Writable :=
  writable_symbol (c := '(') rfl

theorem writable_closingSign : closingSign.Writable :=
  writable_symbol (c := ')') rfl

theorem writable_commaSign : commaSign.Writable :=
  writable_symbol (c := ',') rfl

theorem writable_semicolonSign : semicolonSign.Writable :=
  writable_symbol (c := ';') rfl

theorem writable_equalsSign : equalsSign.Writable :=
  writable_symbol (c := '=') rfl

theorem writable_defWord : defWord.Writable :=
  ⟨TokenKind.noConfusion,
    ⟨'d', ['e', 'f'], rfl, rfl, List.all_eq_true.mp rfl⟩, by decide⟩

theorem writable_endWord : endWord.Writable :=
  ⟨TokenKind.noConfusion,
    ⟨'e', ['n', 'd'], rfl, rfl, List.all_eq_true.mp rfl⟩, by decide⟩

end Scriptlet
