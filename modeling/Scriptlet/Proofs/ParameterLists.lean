import Scriptlet.Proofs.ParserGrammar

/-!
# Parameter lists

Between the parentheses of a parameter list there should be names with
commas between them, or nothing (`Documented`). What is accepted is more: one
comma may stand behind the last name (`trailing_comma_is_accepted`). It is
the only liberty (`parameter_lists_are_names_with_commas`), and arguments do
not have it: wherever a comma stands in front of a closing parenthesis, it is
the last token of a parameter list.

The parameter lists of a row of tokens are found without parsing it: each
word `def` starts one (`headers`). That they belong to the functions of the
tree, one by one, is shown along the derivation of a program (`Declares`).
-/

namespace Scriptlet

open Grammar

/-! ## Rows of names -/

inductive NameRow : List Token → Prop
  | single {t : Token} : t.kind = .identifier → NameRow [t]
  | cons {t comma : Token} {row : List Token} :
      t.kind = .identifier → comma.isOperator "," = true → NameRow row →
      NameRow (t :: comma :: row)

/-- What may stand between the parentheses of a parameter list according to
the grammar. -/
def Documented (row : List Token) : Prop := row = [] ∨ NameRow row

def endsInComma (row : List Token) : Bool :=
  row.getLast?.any (·.isOperator ",")

def namesIn (row : List Token) : List Json :=
  (row.filter (·.kind == .identifier)).map fun t => .text t.lexeme

/-- What stands between the parentheses of a list of these parameters. -/
structure Spells (row : List Token) (params : List Json) : Prop where
  names : params = namesIn row
  documented_iff : Documented row ↔ endsInComma row = false
  /-- A comma at the end has names in front of it. -/
  trailing : endsInComma row = true →
    ∃ front comma, row = front ++ [comma] ∧ comma.isOperator "," = true ∧
      NameRow front
  commas : row.countP (·.isOperator ",") =
    if endsInComma row then params.length else params.length - 1
  part : ∀ t ∈ row, t.kind = .identifier ∨ t.isOperator "," = true

theorem not_comma_of_identifier {t : Token} (h : t.kind = .identifier) :
    t.isOperator "," = false := by
  rw [Token.isOperator, h]
  rfl

theorem not_identifier_of_comma {t : Token} (h : t.isOperator "," = true) :
    (t.kind == .identifier) = false := by
  rw [Token.kind_of_isOperator h]
  rfl

section

variable {t comma : Token} {row : List Token}

theorem namesIn_cons (ht : t.kind = .identifier)
    (hcomma : comma.isOperator "," = true) (row : List Token) :
    namesIn (t :: comma :: row) = .text t.lexeme :: namesIn row := by
  simp [namesIn, ht, not_identifier_of_comma hcomma]

theorem NameRow.namesIn_ne_nil (h : NameRow row) : namesIn row ≠ [] := by
  cases h with
  | single ht => simp [namesIn, ht]
  | cons ht hcomma _ =>
      rw [namesIn_cons ht hcomma]
      exact List.cons_ne_nil _ _

theorem endsInComma_cons (t comma : Token) (h : row ≠ []) :
    endsInComma (t :: comma :: row) = endsInComma row := by
  obtain ⟨u, row, rfl⟩ := List.exists_cons_of_ne_nil h
  rw [endsInComma, List.getLast?_cons_cons, List.getLast?_cons_cons]
  rfl

/-- A name and a comma do not change whether a row is as documented, unless
nothing follows. -/
theorem documented_cons_iff (ht : t.kind = .identifier)
    (hcomma : comma.isOperator "," = true) :
    Documented (t :: comma :: row) ↔ NameRow row := by
  constructor
  · rintro (hnil | hrow)
    · cases hnil
    · cases hrow with
      | cons _ _ hrow => exact hrow
  · exact fun hrow => .inr (.cons ht hcomma hrow)

end

namespace Spells

variable {t comma : Token} {row : List Token} {params : List Json}

theorem nil : Spells [] [] where
  names := rfl
  documented_iff := ⟨fun _ => rfl, fun _ => .inl rfl⟩
  trailing := fun h => by cases h
  commas := rfl
  part := fun _ ht => absurd ht List.not_mem_nil

theorem single (h : t.kind = .identifier) :
    Spells [t] [.text t.lexeme] := by
  have hend : endsInComma [t] = false := not_comma_of_identifier h
  refine ⟨by simp [namesIn, h], ⟨fun _ => hend, fun _ => .inr (.single h)⟩,
    fun htrue => ?_, ?_, List.forall_mem_singleton.mpr (.inl h)⟩
  · rw [hend] at htrue
    cases htrue
  · simp [hend, not_comma_of_identifier h]

/-- A name and a comma behind which there is nothing. -/
theorem last (ht : t.kind = .identifier)
    (hcomma : comma.isOperator "," = true) :
    Spells [t, comma] [.text t.lexeme] := by
  have hend : endsInComma [t, comma] = true := hcomma
  have hcount : [t, comma].countP (·.isOperator ",") = 1 := by
    simp [hcomma, not_comma_of_identifier ht]
  refine ⟨(namesIn_cons ht hcomma []).symm, ?_, fun _ => ?_, ?_, ?_⟩
  · rw [documented_cons_iff ht hcomma, hend]
    constructor
    · intro hrow
      cases hrow
    · intro hfalse
      cases hfalse
  · exact ⟨[t], comma, rfl, hcomma, .single ht⟩
  · rw [hcount, hend]
    rfl
  · exact List.forall_mem_cons.mpr
      ⟨.inl ht, List.forall_mem_singleton.mpr (.inr hcomma)⟩

/-- A name and a comma in front of other names. -/
theorem cons (ht : t.kind = .identifier)
    (hcomma : comma.isOperator "," = true) (hrow : row ≠ [])
    (h : Spells row params) :
    Spells (t :: comma :: row) (.text t.lexeme :: params) := by
  have hend : endsInComma (t :: comma :: row) = endsInComma row :=
    endsInComma_cons t comma hrow
  have hdocumented : Documented row ↔ NameRow row := by
    simp [Documented, hrow]
  refine ⟨?_, ?_, fun htrue => ?_, ?_, ?_⟩
  · rw [namesIn_cons ht hcomma, ← h.names]
  · rw [documented_cons_iff ht hcomma, hend, ← hdocumented, h.documented_iff]
  · obtain ⟨front, last, rfl, hlast, hfront⟩ := h.trailing (hend ▸ htrue)
    exact ⟨t :: comma :: front, last, rfl, hlast, .cons ht hcomma hfront⟩
  · have hcount : (t :: comma :: row).countP (·.isOperator ",") =
        row.countP (·.isOperator ",") + 1 := by
      simp [hcomma, not_comma_of_identifier ht]
    rw [hcount, h.commas, hend, List.length_cons]
    cases hcase : endsInComma row with
    | true => rfl
    | false =>
        have hnames := (hdocumented.mp
          (h.documented_iff.mpr hcase)).namesIn_ne_nil
        rw [← h.names] at hnames
        have hpos := List.length_pos_iff.mpr hnames
        change params.length - 1 + 1 = params.length + 1 - 1
        omega
  · exact List.forall_mem_cons.mpr
      ⟨.inl ht, List.forall_mem_cons.mpr ⟨.inr hcomma, h.part⟩⟩

end Spells

/-- What is read as parameters in front of a closing parenthesis. -/
theorem Grammar.ParameterRow.spells {ts rest : List Token}
    {params : List Json} (h : ParameterRow ts params rest)
    (hrest : NextIs (fun t => t.kind = .rightParen) rest) :
    ∃ row, ts = row ++ rest ∧ Spells row params := by
  induction h with
  | none _ => exact ⟨[], rfl, .nil⟩
  | @last t rest ht _ => exact ⟨[t], rfl, .single ht⟩
  | @comma t comma ts rest others ht hcomma _ ih =>
      obtain ⟨row, rfl, hrow⟩ := ih hrest
      by_cases hnil : row = []
      · subst hnil
        rw [hrow.names]
        exact ⟨[t, comma], rfl, .last ht hcomma⟩
      · exact ⟨t :: comma :: row, rfl, .cons ht hcomma hnil hrow⟩

/-! ## Parameter lists of a text and of its tree -/

/-- What stands between the parentheses behind a function's name, if there
are any. -/
def parameterTokens : List Token → Option (List Token)
  | [] => none
  | opening :: ts =>
    if opening.kind == .leftParen then
      some (ts.takeWhile fun t => t.kind != .rightParen)
    else none

/-- The parameter lists in a row of tokens, one for each word `def`. -/
def headers : List Token → List (Option (List Token))
  | [] => []
  | t :: ts =>
    if t.isKeyword "def" then parameterTokens ts.tail :: headers ts
    else headers ts

/-- How often a comma stands in front of a closing parenthesis. -/
def commasBeforeClosing : List Token → Nat
  | [] => 0
  | t :: ts =>
    if t.isOperator "," && ts.head?.any (·.kind == .rightParen) then
      commasBeforeClosing ts + 1
    else commasBeforeClosing ts

/-- A token that neither starts a function nor is a comma. -/
structure Token.Plain (t : Token) : Prop where
  not_def : t.isKeyword "def" = false
  not_comma : t.isOperator "," = false

namespace Token

variable {t : Token}

theorem plain_of_kind {kind : TokenKind} (h : t.kind = kind)
    (hkind : kind ≠ .keyword ∧ kind ≠ .operator) : t.Plain where
  not_def := by
    rw [isKeyword, h, beq_false_of_ne hkind.1]
    rfl
  not_comma := by
    rw [isOperator, h, beq_false_of_ne hkind.2]
    rfl

theorem not_def_of_isOperator {symbol : String}
    (h : t.isOperator symbol = true) : t.isKeyword "def" = false := by
  rw [isKeyword, kind_of_isOperator h]
  rfl

theorem not_comma_of_isKeyword {word : String}
    (h : t.isKeyword word = true) : t.isOperator "," = false := by
  rw [isOperator, kind_of_isKeyword h]
  rfl

theorem plain_of_isKeyword {word : String} (h : t.isKeyword word = true)
    (hword : word ≠ "def") : t.Plain where
  not_def := by
    have hlexeme := (Bool.and_eq_true_iff.mp h).2
    rw [isKeyword, eq_of_beq hlexeme, beq_false_of_ne hword, Bool.and_false]
  not_comma := not_comma_of_isKeyword h

theorem plain_of_isOperator {symbol : String}
    (h : t.isOperator symbol = true) (hsymbol : symbol ≠ ",") : t.Plain where
  not_def := not_def_of_isOperator h
  not_comma := by
    have hlexeme := (Bool.and_eq_true_iff.mp h).2
    rw [isOperator, eq_of_beq hlexeme, beq_false_of_ne hsymbol,
      Bool.and_false]

theorem plain_of_isArithmetic (h : isArithmetic t = true) : t.Plain := by
  obtain ⟨hkind, hlexeme⟩ := Bool.and_eq_true_iff.mp h
  have hself : t.isOperator t.lexeme = true := by
    rw [isOperator, hkind, beq_self_eq_true]
    rfl
  refine plain_of_isOperator hself fun hcomma => ?_
  rw [hcomma] at hlexeme
  cases hlexeme

theorem Plain.headers_cons (h : t.Plain) (ts : List Token) :
    headers (t :: ts) = headers ts := by
  rw [headers, h.not_def]
  rfl

theorem Plain.commasBeforeClosing_cons (h : t.Plain) (ts : List Token) :
    commasBeforeClosing (t :: ts) = commasBeforeClosing ts := by
  rw [commasBeforeClosing, h.not_comma]
  rfl

end Token

mutual

/-- The parameters of the functions in a tree, outer functions first. -/
def Node.parameterLists : Node → List (List Json)
  | .number _ => []
  | .identifier _ => []
  | .binary _ left right => left.parameterLists ++ right.parameterLists
  | .assign _ value => value.parameterLists
  | .define _ params body => params :: parameterListsAll body
  | .call callee args => callee.parameterLists ++ parameterListsAll args
  | .sequence items => parameterListsAll items

def Node.parameterListsAll : List Node → List (List Json)
  | [] => []
  | node :: rest => node.parameterLists ++ parameterListsAll rest

end

/-- A function without parentheses has no parameters. -/
def Heads (row? : Option (List Token)) (params : List Json) : Prop :=
  match row? with
  | none => params = []
  | some row => Spells row params

/-- The tokens from `ts` up to `rest` declare functions with these
parameters, and have no other commas in front of closing parentheses than
those at the ends of their parameter lists. -/
def Declares (ts : List Token) (lists : List (List Json))
    (rest : List Token) : Prop :=
  ∃ found, headers ts = found ++ headers rest ∧
    List.Forall₂ Heads found lists ∧
    commasBeforeClosing ts =
      found.countP (·.any endsInComma) + commasBeforeClosing rest

namespace Declares

variable {ts mid rest : List Token} {lists lists' : List (List Json)}

theorem refl (ts : List Token) : Declares ts [] ts :=
  ⟨[], rfl, .nil, (Nat.zero_add _).symm⟩

theorem trans (h : Declares ts lists mid) (h' : Declares mid lists' rest) :
    Declares ts (lists ++ lists') rest := by
  obtain ⟨found, hheaders, hfound, hcommas⟩ := h
  obtain ⟨found', hheaders', hfound', hcommas'⟩ := h'
  refine ⟨found ++ found', ?_, List.rel_append hfound hfound', ?_⟩
  · rw [hheaders, hheaders', List.append_assoc]
  · rw [hcommas, hcommas', List.countP_append, Nat.add_assoc]

theorem token {t : Token} (ht : t.Plain) (h : Declares ts lists rest) :
    Declares (t :: ts) lists rest := by
  obtain ⟨found, hheaders, hfound, hcommas⟩ := h
  refine ⟨found, ?_, hfound, ?_⟩
  · rw [ht.headers_cons, hheaders]
  · rw [ht.commasBeforeClosing_cons, hcommas]

theorem kind {t : Token} {k : TokenKind} (ht : t.kind = k)
    (hk : k ≠ .keyword ∧ k ≠ .operator) (h : Declares ts lists rest) :
    Declares (t :: ts) lists rest :=
  h.token (Token.plain_of_kind ht hk)

/-- A comma behind which something follows. -/
theorem comma {t : Token} (ht : t.isOperator "," = true)
    (hnext : NextIs (fun u => u.kind ≠ .rightParen) ts)
    (h : Declares ts lists rest) : Declares (t :: ts) lists rest := by
  obtain ⟨found, hheaders, hfound, hcommas⟩ := h
  have hlast : ts.head?.any (·.kind == .rightParen) = false := by
    cases ts with
    | nil => rfl
    | cons u ts => exact beq_false_of_ne hnext
  refine ⟨found, ?_, hfound, ?_⟩
  · rw [headers, Token.not_def_of_isOperator ht, ← hheaders]
    rfl
  · rw [commasBeforeClosing, hlast, Bool.and_false, ← hcommas]
    rfl

end Declares

/-! ## Along a parameter list -/

section

variable {row rest : List Token} {closing : Token}

/-- The tokens of a parameter list do not close it. -/
theorem kind_ne_rightParen_of_part {t : Token}
    (h : t.kind = .identifier ∨ t.isOperator "," = true) :
    t.kind ≠ .rightParen := by
  rcases h with h | h
  · rw [h]
    decide
  · rw [Token.kind_of_isOperator h]
    decide

theorem headers_append
    (hrow : ∀ t ∈ row, t.kind = .identifier ∨ t.isOperator "," = true)
    (rest : List Token) : headers (row ++ rest) = headers rest := by
  induction row with
  | nil => rfl
  | cons t row ih =>
      obtain ⟨ht, hrow⟩ := List.forall_mem_cons.mp hrow
      have hdef : t.isKeyword "def" = false := by
        rcases ht with h | h
        · exact (Token.plain_of_kind h (by decide)).not_def
        · exact Token.not_def_of_isOperator h
      rw [List.cons_append, headers, hdef]
      exact ih hrow

theorem takeWhile_parameters
    (hrow : ∀ t ∈ row, t.kind = .identifier ∨ t.isOperator "," = true)
    (hclosing : closing.kind = .rightParen) (rest : List Token) :
    (row ++ closing :: rest).takeWhile (fun t => t.kind != .rightParen) =
      row := by
  have hpart : ∀ t ∈ row, (t.kind != .rightParen) = true :=
    fun t ht => bne_iff_ne.mpr (kind_ne_rightParen_of_part (hrow t ht))
  rw [List.takeWhile_append_of_pos hpart, List.takeWhile_cons_of_neg,
    List.append_nil]
  simp [hclosing]

/-- In a parameter list only the last comma can stand in front of the closing
parenthesis. -/
theorem commasBeforeClosing_append
    (hrow : ∀ t ∈ row, t.kind = .identifier ∨ t.isOperator "," = true)
    (hclosing : closing.kind = .rightParen) (rest : List Token) :
    commasBeforeClosing (row ++ closing :: rest) =
      (if endsInComma row then 1 else 0) +
        commasBeforeClosing (closing :: rest) := by
  induction row with
  | nil => exact (Nat.zero_add _).symm
  | cons t row ih =>
      have hrest := ih (List.forall_mem_cons.mp hrow).2
      rw [List.cons_append, commasBeforeClosing]
      cases row with
      | nil =>
          have hnext : (closing :: rest).head?.any (·.kind == .rightParen) =
              true := by
            rw [List.head?_cons, Option.any_some, hclosing]
            rfl
          have hend : endsInComma [t] = t.isOperator "," := rfl
          rw [List.nil_append, hnext, Bool.and_true, hend]
          split
          · exact Nat.add_comm _ _
          · exact (Nat.zero_add _).symm
      | cons u row =>
          have hu := hrow u (List.mem_cons_of_mem _ List.mem_cons_self)
          have hnext : (u :: row ++ closing :: rest).head?.any
              (·.kind == .rightParen) = false :=
            beq_false_of_ne (kind_ne_rightParen_of_part hu)
          rw [hnext, Bool.and_false, hrest, endsInComma, endsInComma,
            List.getLast?_cons_cons]
          rfl

end

/-- The word `def`, a name and a parameter list, if there is one. -/
theorem Declares.definition {word t : Token} {ts mid : List Token}
    {params : List Json} (hword : word.isKeyword "def" = true)
    (ht : t.kind = .identifier) (h : ParameterList ts params mid) :
    Declares (word :: t :: ts) [params] mid := by
  have hname : t.Plain := Token.plain_of_kind ht (by decide)
  have hheaders : headers (word :: t :: ts) =
      parameterTokens ts :: headers ts := by
    rw [headers, if_pos hword, hname.headers_cons]
    rfl
  have hcommas : commasBeforeClosing (word :: t :: ts) =
      commasBeforeClosing ts := by
    rw [commasBeforeClosing, Token.not_comma_of_isKeyword hword,
      hname.commasBeforeClosing_cons]
    rfl
  cases h with
  | absent hnext =>
      refine ⟨[none], ?_, .cons rfl .nil, ?_⟩
      · rw [hheaders]
        cases ts with
        | nil => rfl
        | cons u ts =>
            rw [parameterTokens, if_neg fun hu => hnext (eq_of_beq hu)]
            rfl
      · rw [hcommas]
        exact (Nat.zero_add _).symm
  | @present opening closing ts rest params hopening hrow hclosing =>
      obtain ⟨row, rfl, hspells⟩ := hrow.spells hclosing
      have hopen : opening.Plain := Token.plain_of_kind hopening (by decide)
      have hclose : closing.Plain := Token.plain_of_kind hclosing (by decide)
      refine ⟨[some row], ?_, .cons hspells .nil, ?_⟩
      · have htokens : parameterTokens (opening :: (row ++ closing :: mid)) =
            some row := by
          rw [parameterTokens, if_pos (by rw [hopening]; rfl),
            takeWhile_parameters hspells.part hclosing]
        rw [hheaders, htokens, hopen.headers_cons,
          headers_append hspells.part, hclose.headers_cons]
        rfl
      · rw [hcommas, hopen.commasBeforeClosing_cons,
          commasBeforeClosing_append hspells.part hclosing,
          hclose.commasBeforeClosing_cons, List.countP_cons, List.countP_nil,
          Nat.zero_add]
        rfl

/-! ## Along a derivation -/

namespace Grammar

theorem StartsTerm.kind_ne_rightParen {t : Token} (h : StartsTerm t) :
    t.kind ≠ .rightParen := by
  rcases h with h | h | h <;> rw [h] <;> decide

mutual

theorem Expression.declares {ts rest : List Token} {e : Node} :
    Expression ts e rest → Declares ts e.parameterLists rest
  | .intro hterm htail => by
      obtain ⟨lists, hlists, htail⟩ := htail.declares
      rw [hlists]
      exact hterm.declares.trans htail

/-- The functions of the terms behind the first one come last. -/
theorem Tail.declares {left e : Node} {ts rest : List Token} :
    Tail left ts e rest → ∃ lists,
      e.parameterLists = left.parameterLists ++ lists ∧ Declares ts lists rest
  | .stop _ => ⟨[], (List.append_nil _).symm, .refl _⟩
  | .operator hop hterm htail => by
      obtain ⟨lists, hlists, htail⟩ := htail.declares
      refine ⟨_, ?_, (hterm.declares.trans htail).token
        (Token.plain_of_isArithmetic hop)⟩
      rw [hlists, Node.parameterLists, List.append_assoc]

theorem Term.declares {ts rest : List Token} {e : Node} :
    Term ts e rest → Declares ts e.parameterLists rest
  | .number hkind => by
      rw [Node.parameterLists]
      exact (Declares.refl _).kind hkind (by decide)
  | .name hkind _ => by
      rw [Node.parameterLists]
      exact (Declares.refl _).kind hkind (by decide)
  | .call hkind hopen hargs => by
      rw [Node.parameterLists, Node.parameterLists]
      exact (hargs.declares.kind hopen (by decide)).kind hkind (by decide)
  | .parens hopen hexp hclose => by
      have hinner := hexp.declares.trans
        ((Declares.refl _).kind hclose (by decide))
      rw [List.append_nil] at hinner
      exact hinner.kind hopen (by decide)

theorem Arguments.declares {ts rest : List Token} {args : List Node} :
    Arguments ts args rest → Declares ts (Node.parameterListsAll args) rest
  | .none hclose => by
      rw [Node.parameterListsAll]
      exact (Declares.refl _).kind hclose (by decide)
  | .some hrow hclose => by
      have hinner := hrow.declares.trans
        ((Declares.refl _).kind hclose (by decide))
      rw [List.append_nil] at hinner
      exact hinner

/-- Behind a comma between arguments there is another argument. -/
theorem ArgumentRow.declares {ts rest : List Token} {args : List Node} :
    ArgumentRow ts args rest → Declares ts (Node.parameterListsAll args) rest
  | .last hexp _ => by
      rw [Node.parameterListsAll, Node.parameterListsAll, List.append_nil]
      exact hexp.declares
  | .comma hexp hcomma hrow => by
      have hnext := hrow.first.imp fun t ht => StartsTerm.kind_ne_rightParen ht
      rw [Node.parameterListsAll]
      exact hexp.declares.trans (hrow.declares.comma hcomma hnext)

end

theorem OptionalSeparator.declares {ts rest : List Token}
    (h : OptionalSeparator ts rest) : Declares ts [] rest := by
  cases h with
  | absent _ => exact .refl _
  | present hsep =>
      exact (Declares.refl _).token (Token.plain_of_isOperator hsep (by decide))

mutual

theorem Statement.declares {ts rest : List Token} {node : Node} :
    Statement ts node rest → Declares ts node.parameterLists rest
  | .define hword hdefinition => hdefinition.declares hword
  | .assign hkind hassign hexp => by
      rw [Node.parameterLists]
      exact (hexp.declares.kind hassign (by decide)).kind hkind (by decide)
  | .expression hexp => hexp.declares

theorem Definition.declares {word : Token} {ts rest : List Token}
    {node : Node} :
    Definition ts node rest → word.isKeyword "def" = true →
      Declares (word :: ts) node.parameterLists rest
  | .intro hkind hparams hbody, hword => by
      rw [Node.parameterLists]
      exact (Declares.definition hword hkind hparams).trans hbody.declares

theorem Body.declares {ts rest : List Token} {statements : List Node} :
    Body ts statements rest →
      Declares ts (Node.parameterListsAll statements) rest
  | .close hend => by
      rw [Node.parameterListsAll]
      exact (Declares.refl _).token (Token.plain_of_isKeyword hend (by decide))
  | .statement hstatement hsep hbody => by
      rw [Node.parameterListsAll]
      exact hstatement.declares.trans (hsep.declares.trans hbody.declares)

end

theorem Separators.declares {ts rest : List Token}
    (h : Separators ts rest) : Declares ts [] rest := by
  induction h with
  | stop _ => exact .refl _
  | semicolon hsep _ ih =>
      exact ih.token (Token.plain_of_isOperator hsep (by decide))

theorem Statements.declares {ts : List Token} {nodes : List Node}
    (h : Statements ts nodes) :
    Declares ts (Node.parameterListsAll nodes) [] := by
  induction h with
  | done hend =>
      rw [Node.parameterListsAll]
      exact (Declares.refl _).kind hend (by decide)
  | statement hstatement hseps _ ih =>
      rw [Node.parameterListsAll]
      exact hstatement.declares.trans (hseps.declares.trans ih)

theorem Program.declares {ts : List Token} {nodes : List Node}
    (h : Program ts nodes) :
    Declares ts (Node.parameterListsAll nodes) [] := by
  obtain ⟨hseps, hstatements⟩ := h
  exact hseps.declares.trans hstatements.declares

end Grammar

/-! ## Programs -/

/-- **Parameter lists are names with commas, and may end in a comma.** In a
program each word `def` belongs to a function of the tree, in this order. If
the function has no parameter list, it has no parameters. If it has one, its
parameters are the names between the parentheses; the row there is as
documented exactly if it does not end in a comma, and then it has a comma
less than it has names; otherwise it is such a row of names with one more
comma. A comma stands in front of a closing parenthesis as often as
parameter lists end in one, so arguments never end in a comma. -/
theorem parameter_lists_are_names_with_commas (limit : Nat) (source : String)
    (nodes : List Node) (h : parseProgram limit source = .ok nodes) :
    let tokens := (Stream.ofText source).tokens.1
    List.Forall₂ Heads (headers tokens) (Node.parameterListsAll nodes) ∧
      commasBeforeClosing tokens =
        (headers tokens).countP (·.any endsInComma) := by
  intro tokens
  obtain ⟨found, hheaders, hfound, hcommas⟩ :=
    (program_of_parseProgram h).declares
  have heq : headers tokens = found := hheaders.trans (List.append_nil found)
  rw [heq]
  exact ⟨hfound, hcommas⟩

/-- The list of the inner function ends in a comma, and neither the list of
the outer one nor the arguments do. -/
theorem inner_list_ends_in_comma :
    let source := "def f() def g(a,) end g(1,2) end"
    let tokens := (Stream.ofText source).tokens.1
    let inner : Node := .define (.text "g") [.text "a"] []
    let call : Node := .call (.identifier (.text "g"))
      [.number (.text "1"), .number (.text "2")]
    parseProgram 3 source = .ok [.define (.text "f") [] [inner, call]] ∧
      List.Forall₂ Heads (headers tokens) [[], [.text "a"]] ∧
      commasBeforeClosing tokens =
        (headers tokens).countP (·.any endsInComma) := by
  intro source tokens inner call
  have hparse : parseProgram 3 source =
      .ok [.define (.text "f") [] [inner, call]] := by cbv
  exact ⟨hparse, parameter_lists_are_names_with_commas 3 source _ hparse⟩

/-- A parameter list that is not as documented, with a comma too many. -/
theorem trailing_comma_is_accepted :
    let row : List Token := [⟨.identifier, "a", 6⟩, ⟨.operator, ",", 7⟩]
    parseProgram 1 "def f(a,) end" =
        .ok [.define (.text "f") [.text "a"] []] ∧
      headers (Stream.ofText "def f(a,) end").tokens.1 = [some row] ∧
      ¬ Documented row ∧
      row.countP (·.isOperator ",") ≠ [Json.text "a"].length - 1 := by
  intro row
  refine ⟨by cbv, by cbv, fun hrow => ?_, by decide⟩
  have hrest : NameRow [] := (documented_cons_iff rfl rfl).mp hrow
  cases hrest

end Scriptlet
