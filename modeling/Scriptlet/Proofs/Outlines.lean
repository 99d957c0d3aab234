import Scriptlet.Command.Run
import Scriptlet.Proofs.JsonRoundTrip
import Scriptlet.Proofs.ShellLines
import Scriptlet.Proofs.WellFormed

/-!
# Reading outlines back

The outline of a parsed program determines the program
(`outlines_lose_nothing`), although nothing in it says how many operands,
parameters or arguments there are: structure is shown by indentation alone.

An outline is first taken as a row of indented texts (`OutlineRow`). What
stands behind the rows of a node in the outline of a program is not indented
further than the node itself, so where a node ends can be told from the
indentation (`Outside`, `Node.Readable`). The texts of names and numerals have
no line feeds in them, and no text begins with a blank, so the rows can be told
from the printed lines (`IsLegible`).
-/

namespace Scriptlet

theorem Json.display_text (s : String) : (Json.text s).display = s := rfl

/-! ## Rows of an outline -/

/-- A line of an outline: how far it is indented, and its text. -/
structure OutlineRow where
  level : Nat
  text : String

def OutlineRow.line (row : OutlineRow) : String :=
  Node.outlineLine row.level row.text

mutual

def Node.outlineRows (level : Nat) : Node → List OutlineRow
  | .number text => [⟨level, "Number: " ++ text.display⟩]
  | .identifier name => [⟨level, "Identifier: " ++ name.display⟩]
  | .binary operator left right =>
    ⟨level, "BinaryExpression: " ++ operator.display⟩ ::
      (left.outlineRows (level + 1) ++ right.outlineRows (level + 1))
  | .assign name value =>
    ⟨level, "Assign: " ++ name.display⟩ :: value.outlineRows (level + 1)
  | .define name params body =>
    ⟨level, "Function: " ++ name.display⟩ :: ⟨level + 1, "Parameters:"⟩ ::
      (params.map (fun p => ⟨level + 2, "Identifier: " ++ p.display⟩) ++
        ⟨level + 1, "Body:"⟩ :: Node.outlineRowsAll (level + 2) body)
  | .call callee args =>
    ⟨level, "Call:"⟩ :: (callee.outlineRows (level + 1) ++
      ⟨level + 1, "Arguments:"⟩ :: Node.outlineRowsAll (level + 2) args)
  | .sequence _ => []

def Node.outlineRowsAll (level : Nat) : List Node → List OutlineRow
  | [] => []
  | node :: rest => node.outlineRows level ++ Node.outlineRowsAll level rest

end

namespace Node

/-- The letter that the outline of a form begins with. -/
def initial : Node → Char
  | .number _ => 'N'
  | .identifier _ => 'I'
  | .binary .. => 'B'
  | .assign .. => 'A'
  | .define .. => 'F'
  | .call .. => 'C'
  | .sequence _ => ' '

theorem outlineRows_eq_cons {node : Node} (h : IsStatement node)
    (level : Nat) : ∃ text rows, node.outlineRows level = ⟨level, text⟩ :: rows ∧
      text.toList.head? = some node.initial := by
  cases h with
  | expression he => cases he <;> exact ⟨_, _, rfl, by simp [initial]⟩
  | assign _ _ => exact ⟨_, _, rfl, by simp [initial]⟩
  | define _ _ _ => exact ⟨_, _, rfl, by simp [initial]⟩

/-- Parameters are shown as names are. -/
theorem outlineRowsAll_identifiers (level : Nat) (names : List Json) :
    outlineRowsAll level (names.map .identifier) =
      names.map fun name => ⟨level, "Identifier: " ++ name.display⟩ := by
  induction names with
  | nil => rfl
  | cons name rest ih =>
      rw [List.map_cons, outlineRowsAll, ih]
      rfl

end Node

/-! ## Where a node ends -/

/-- Nothing comes, or something that is indented less. -/
def Outside (level : Nat) (rows : List OutlineRow) : Prop :=
  ∀ row ∈ rows.head?, row.level < level

theorem outside_nil (level : Nat) : Outside level [] :=
  fun _ h => nomatch h

theorem outside_cons {level : Nat} {row : OutlineRow} {rows : List OutlineRow}
    (h : row.level < level) : Outside level (row :: rows) := by
  rintro _ ⟨⟩
  exact h

theorem Outside.mono {level level' : Nat} {rows : List OutlineRow}
    (h : Outside level rows) (hle : level ≤ level') : Outside level' rows :=
  fun row hrow => Nat.lt_of_lt_of_le (h row hrow) hle

theorem outside_outlineRows {node : Node} (h : IsStatement node)
    (level : Nat) (rest : List OutlineRow) :
    Outside (level + 1) (node.outlineRows level ++ rest) := by
  obtain ⟨text, rows, heq, -⟩ := Node.outlineRows_eq_cons h level
  rw [heq]
  exact outside_cons (Nat.lt_succ_self level)

/-- A row of nodes begins at its level, and ends where something is indented
less. -/
theorem outside_outlineRowsAll {nodes : List Node}
    (h : ∀ node ∈ nodes, IsStatement node) {level : Nat}
    {rest : List OutlineRow} (hrest : Outside level rest) :
    Outside (level + 1) (Node.outlineRowsAll level nodes ++ rest) := by
  cases nodes with
  | nil => exact hrest.mono (Nat.le_succ level)
  | cons node nodes =>
      rw [Node.outlineRowsAll, List.append_assoc]
      exact outside_outlineRows (h node List.mem_cons_self) level _

/-- At the level of a row of nodes there is more to come until all of them have
been shown. -/
theorem not_outside_outlineRowsAll_cons {node : Node} (h : IsStatement node)
    (level : Nat) (nodes : List Node) (rest : List OutlineRow) :
    ¬ Outside level (Node.outlineRowsAll level (node :: nodes) ++ rest) := by
  obtain ⟨text, rows, heq, -⟩ := Node.outlineRows_eq_cons h level
  rw [Node.outlineRowsAll, heq]
  exact fun houtside => absurd (houtside _ rfl) (Nat.lt_irrefl level)

/-- The node can be told from its rows, whatever comes behind them that is not
indented further. -/
def Node.Readable (node : Node) : Prop :=
  ∀ (level : Nat) (other : Node) (rest rest' : List OutlineRow),
    IsStatement other → Outside (level + 1) rest → Outside (level + 1) rest' →
    node.outlineRows level ++ rest = other.outlineRows level ++ rest' →
    node = other ∧ rest = rest'

/-- A row of nodes can be told from its rows. -/
theorem outlineRowsAll_inj {nodes others : List Node}
    (hnodes : ∀ node ∈ nodes, IsStatement node)
    (hread : ∀ node ∈ nodes, node.Readable)
    (hothers : ∀ other ∈ others, IsStatement other) {level : Nat}
    {rest rest' : List OutlineRow} (hrest : Outside level rest)
    (hrest' : Outside level rest')
    (h : Node.outlineRowsAll level nodes ++ rest =
      Node.outlineRowsAll level others ++ rest') :
    nodes = others ∧ rest = rest' := by
  induction nodes generalizing others with
  | nil =>
      cases others with
      | nil => exact ⟨rfl, h⟩
      | cons other others =>
          -- What comes behind would have to begin with a node.
          rw [show rest = _ from h] at hrest
          exact absurd hrest (not_outside_outlineRowsAll_cons
            (hothers other List.mem_cons_self) level others rest')
  | cons node nodes ih =>
      obtain ⟨hnode, hnodes⟩ := List.forall_mem_cons.mp hnodes
      obtain ⟨hreadNode, hreadNodes⟩ := List.forall_mem_cons.mp hread
      cases others with
      | nil =>
          rw [show rest' = _ from h.symm] at hrest'
          exact absurd hrest' (not_outside_outlineRowsAll_cons hnode level
            nodes rest)
      | cons other others =>
          obtain ⟨hother, hrow⟩ := List.forall_mem_cons.mp hothers
          rw [Node.outlineRowsAll, Node.outlineRowsAll, List.append_assoc,
            List.append_assoc] at h
          obtain ⟨rfl, htail⟩ := hreadNode level other _ _ hother
            (outside_outlineRowsAll hnodes hrest)
            (outside_outlineRowsAll hrow hrest') h
          obtain ⟨heq, hend⟩ := ih hnodes hreadNodes hrow htail
          exact ⟨congrArg _ heq, hend⟩

/-! ## Nodes are readable -/

/-- Trees with the same rows have the same form. -/
theorem initial_eq {node other : Node} (hnode : IsStatement node)
    (hother : IsStatement other) {level : Nat} {rest rest' : List OutlineRow}
    (h : node.outlineRows level ++ rest = other.outlineRows level ++ rest') :
    node.initial = other.initial := by
  obtain ⟨text, rows, heq, hinitial⟩ := Node.outlineRows_eq_cons hnode level
  obtain ⟨text', rows', heq', hinitial'⟩ :=
    Node.outlineRows_eq_cons hother level
  rw [heq, heq'] at h
  have htext : text = text' := congrArg OutlineRow.text (List.cons.inj h).1
  rw [htext, hinitial'] at hinitial
  exact (Option.some.inj hinitial).symm

theorem readable_number {text : String} (htext : IsNumeral text) :
    (Node.number (.text text)).Readable := by
  intro level other rest rest' hother _ _ h
  have hinitial := initial_eq (.expression (.number htext)) hother h
  cases hother with
  | expression he =>
      cases he with
      | number _ => simpa [Node.outlineRows, Json.display_text] using h
      | _ => exact absurd hinitial (by simp [Node.initial])
  | _ => exact absurd hinitial (by simp [Node.initial])

theorem readable_identifier {name : String} (hname : IsName name) :
    (Node.identifier (.text name)).Readable := by
  intro level other rest rest' hother _ _ h
  have hinitial := initial_eq (.expression (.identifier hname)) hother h
  cases hother with
  | expression he =>
      cases he with
      | identifier _ => simpa [Node.outlineRows, Json.display_text] using h
      | _ => exact absurd hinitial (by simp [Node.initial])
  | _ => exact absurd hinitial (by simp [Node.initial])

theorem readable_binary {operator : String} {left right : Node}
    (hop : operator ∈ arithmeticOperators) (hleft : IsExpression left)
    (hright : IsExpression right) (readLeft : left.Readable)
    (readRight : right.Readable) :
    (Node.binary (.text operator) left right).Readable := by
  intro level other rest rest' hother hrest hrest' h
  have hinitial := initial_eq (.expression (.binary hop hleft hright)) hother h
  cases hother with
  | expression he =>
      cases he with
      | binary _ hleft' hright' =>
          simp only [Node.outlineRows, Json.display_text, List.cons_append,
            List.append_assoc, List.cons.injEq, OutlineRow.mk.injEq,
            String.append_right_inj, true_and] at h
          obtain ⟨rfl, hrows⟩ := h
          obtain ⟨rfl, hrows'⟩ := readLeft _ _ _ _ (.expression hleft')
            (outside_outlineRows (.expression hright) _ _)
            (outside_outlineRows (.expression hright') _ _) hrows
          obtain ⟨rfl, hend⟩ := readRight _ _ _ _ (.expression hright')
            (hrest.mono (Nat.le_succ _)) (hrest'.mono (Nat.le_succ _)) hrows'
          exact ⟨rfl, hend⟩
      | _ => exact absurd hinitial (by simp [Node.initial])
  | _ => exact absurd hinitial (by simp [Node.initial])

/-- The arguments are indented further than everything else in a call. -/
theorem readable_call {name : String} {args : List Node}
    (hname : IsName name) (hargs : ∀ arg ∈ args, IsExpression arg)
    (readArgs : ∀ arg ∈ args, arg.Readable) :
    (Node.call (.identifier (.text name)) args).Readable := by
  intro level other rest rest' hother hrest hrest' h
  have hinitial := initial_eq (.expression (.call hname hargs)) hother h
  cases hother with
  | expression he =>
      cases he with
      | call _ hargs' =>
          simp only [Node.outlineRows, Json.display_text, List.cons_append,
            List.nil_append, List.cons.injEq, OutlineRow.mk.injEq,
            String.append_right_inj, true_and] at h
          obtain ⟨rfl, hrows⟩ := h
          obtain ⟨rfl, hend⟩ := outlineRowsAll_inj
            (fun arg harg => .expression (hargs arg harg)) readArgs
            (fun arg harg => .expression (hargs' arg harg))
            (hrest.mono (Nat.le_succ _)) (hrest'.mono (Nat.le_succ _)) hrows
          exact ⟨rfl, hend⟩
      | _ => exact absurd hinitial (by simp [Node.initial])
  | _ => exact absurd hinitial (by simp [Node.initial])

theorem readable_assign {name : String} {value : Node} (hname : IsName name)
    (hvalue : IsExpression value) (readValue : value.Readable) :
    (Node.assign (.text name) value).Readable := by
  intro level other rest rest' hother hrest hrest' h
  have hinitial := initial_eq (.assign hname hvalue) hother h
  cases hother with
  | assign _ hvalue' =>
      simp only [Node.outlineRows, Json.display_text, List.cons_append,
        List.cons.injEq, OutlineRow.mk.injEq, String.append_right_inj,
        true_and] at h
      obtain ⟨rfl, hrows⟩ := h
      obtain ⟨rfl, hend⟩ := readValue _ _ _ _ (.expression hvalue')
        (hrest.mono (Nat.le_succ _)) (hrest'.mono (Nat.le_succ _)) hrows
      exact ⟨rfl, hend⟩
  | expression he =>
      cases he <;> exact absurd hinitial (by simp [Node.initial])
  | define _ _ _ => exact absurd hinitial (by simp [Node.initial])

theorem forall_mem_identifiers {names : List String} {p : Node → Prop}
    (h : ∀ name ∈ names, p (.identifier (.text name))) :
    ∀ node ∈ (names.map Json.text).map Node.identifier, p node := by
  simpa using h

/-- The parameters end at the heading of the body, and the body ends with the
definition. -/
theorem readable_define {name : String} {params : List String}
    {body : List Node} (hname : IsName name)
    (hparams : ∀ param ∈ params, IsName param)
    (hbody : ∀ statement ∈ body, IsStatement statement)
    (readBody : ∀ statement ∈ body, statement.Readable) :
    (Node.define (.text name) (params.map .text) body).Readable := by
  intro level other rest rest' hother hrest hrest' h
  have hinitial := initial_eq (.define hname hparams hbody) hother h
  cases hother with
  | @define name' params' body' hname' hparams' hbody' =>
      simp only [Node.outlineRows, Json.display_text, List.cons_append,
        List.append_assoc, List.cons.injEq, OutlineRow.mk.injEq,
        String.append_right_inj, true_and] at h
      rw [← Node.outlineRowsAll_identifiers, ← Node.outlineRowsAll_identifiers]
        at h
      obtain ⟨rfl, hrows⟩ := h
      obtain ⟨hsame, hrows'⟩ := outlineRowsAll_inj
        (forall_mem_identifiers fun param hparam =>
          .expression (.identifier (hparams param hparam)))
        (forall_mem_identifiers fun param hparam =>
          readable_identifier (hparams param hparam))
        (forall_mem_identifiers fun param hparam =>
          .expression (.identifier (hparams' param hparam)))
        (outside_cons (Nat.lt_succ_self (level + 1)))
        (outside_cons (Nat.lt_succ_self (level + 1))) hrows
      obtain ⟨rfl, hend⟩ := outlineRowsAll_inj hbody readBody hbody'
        (hrest.mono (Nat.le_succ _)) (hrest'.mono (Nat.le_succ _))
        (List.cons.inj hrows').2
      have hparams : params.map Json.text = params'.map Json.text :=
        List.map_injective_iff.mpr (fun _ _ => Node.identifier.inj) hsame
      exact ⟨by rw [hparams], hend⟩
  | expression he =>
      cases he <;> exact absurd hinitial (by simp [Node.initial])
  | assign _ _ => exact absurd hinitial (by simp [Node.initial])

theorem readable_of_isExpression {e : Node} (h : IsExpression e) : e.Readable := by
  induction h with
  | number htext => exact readable_number htext
  | identifier hname => exact readable_identifier hname
  | binary hop hleft hright ihleft ihright =>
      exact readable_binary hop hleft hright ihleft ihright
  | call hname hargs ih => exact readable_call hname hargs ih

theorem readable_of_isStatement {node : Node} (h : IsStatement node) :
    node.Readable := by
  induction h with
  | expression he => exact readable_of_isExpression he
  | assign hname hvalue =>
      exact readable_assign hname hvalue (readable_of_isExpression hvalue)
  | define hname hparams hbody ih =>
      exact readable_define hname hparams hbody ih

/-! ## Rows and lines -/

/-- The text does not begin with a blank, and is one line. -/
def IsLegible (text : String) : Prop :=
  text.toList.head?.any (· != ' ') = true ∧ '\n' ∉ text.toList

instance (text : String) : Decidable (IsLegible text) :=
  inferInstanceAs (Decidable (_ ∧ _))

theorem IsLegible.eq_cons {text : String} (h : IsLegible text) :
    ∃ c cs, text.toList = c :: cs ∧ c ≠ ' ' := by
  obtain ⟨hfirst, -⟩ := h
  cases heq : text.toList with
  | nil =>
      rw [heq] at hfirst
      cases hfirst
  | cons c cs =>
      rw [heq] at hfirst
      exact ⟨c, cs, rfl, by simpa using hfirst⟩

/-- What comes behind a label is on the same line. -/
theorem IsLegible.append {label text : String} (h : IsLegible label)
    (htext : '\n' ∉ text.toList) : IsLegible (label ++ text) := by
  obtain ⟨c, cs, heq, hc⟩ := h.eq_cons
  have hsingle := h.2
  rw [heq] at hsingle
  constructor
  · simp [heq, hc]
  · simpa [heq, htext] using hsingle

theorem OutlineRow.toList_line (row : OutlineRow) :
    row.line.toList = List.replicate (2 * row.level) ' ' ++ row.text.toList := by
  rw [line, Node.outlineLine, String.toList_append, Json.toList_pushn]
  rfl

theorem replicate_append_inj {m n : Nat} {c d : Char} {cs ds : List Char}
    (hc : c ≠ ' ') (hd : d ≠ ' ')
    (h : List.replicate m ' ' ++ c :: cs = List.replicate n ' ' ++ d :: ds) :
    m = n ∧ c :: cs = d :: ds := by
  induction m generalizing n with
  | zero =>
      cases n with
      | zero => exact ⟨rfl, h⟩
      | succ n => exact absurd (List.cons.inj h).1 hc
  | succ m ih =>
      cases n with
      | zero => exact absurd (List.cons.inj h).1.symm hd
      | succ n =>
          obtain ⟨rfl, heq⟩ := ih (List.cons.inj h).2
          exact ⟨rfl, heq⟩

/-- A row can be told from its line. -/
theorem OutlineRow.line_inj {row other : OutlineRow}
    (hrow : IsLegible row.text) (hother : IsLegible other.text)
    (h : row.line = other.line) : row = other := by
  obtain ⟨c, cs, htext, hc⟩ := hrow.eq_cons
  obtain ⟨d, ds, htext', hd⟩ := hother.eq_cons
  have hlines := congrArg String.toList h
  rw [toList_line, toList_line, htext, htext'] at hlines
  obtain ⟨hlevel, heq⟩ := replicate_append_inj hc hd hlines
  rw [← htext, ← htext'] at heq
  obtain ⟨level, text⟩ := row
  obtain ⟨level', text'⟩ := other
  rw [OutlineRow.mk.injEq]
  exact ⟨by simpa using hlevel, String.toList_inj.mp heq⟩

theorem OutlineRow.not_mem_line {row : OutlineRow}
    (h : IsLegible row.text) : '\n' ∉ row.line.toList := by
  rw [toList_line]
  simp [h.2]

theorem not_newline_of_isWordPart {c : Char} (h : isWordPart c = true) :
    c ≠ '\n' := by
  rintro rfl
  exact absurd h (by decide)

theorem IsName.not_mem_newline {name : String} (h : IsName name) :
    '\n' ∉ name.toList := by
  obtain ⟨⟨c, cs, heq, hc, hcs⟩, -⟩ := h
  rw [heq]
  intro hmem
  rcases List.mem_cons.mp hmem with rfl | hmem
  · exact absurd hc (by decide)
  · exact not_newline_of_isWordPart (hcs _ hmem) rfl

theorem IsNumeral.not_mem_newline {text : String} (h : IsNumeral text) :
    '\n' ∉ text.toList :=
  fun hmem => absurd (h.2 _ hmem) (by decide)

theorem legible_identifier {name : String} (h : IsName name) :
    IsLegible ("Identifier: " ++ name) :=
  .append (by decide) h.not_mem_newline

theorem legible_outlineRowsAll {nodes : List Node} {level : Nat}
    (h : ∀ node ∈ nodes, ∀ row ∈ node.outlineRows level, IsLegible row.text) :
    ∀ row ∈ Node.outlineRowsAll level nodes, IsLegible row.text := by
  induction nodes with
  | nil => exact fun _ hrow => (List.not_mem_nil hrow).elim
  | cons node rest ih =>
      obtain ⟨hnode, hrest⟩ := List.forall_mem_cons.mp h
      exact List.forall_mem_append.mpr ⟨hnode, ih hrest⟩

theorem IsExpression.legible {e : Node} (h : IsExpression e) (level : Nat) :
    ∀ row ∈ e.outlineRows level, IsLegible row.text := by
  induction h generalizing level with
  | number htext =>
      rw [Node.outlineRows, List.forall_mem_singleton]
      exact .append (by decide) htext.not_mem_newline
  | identifier hname =>
      rw [Node.outlineRows, List.forall_mem_singleton]
      exact legible_identifier hname
  | @binary operator left right hop _ _ ihleft ihright =>
      have hoperator : ∀ op ∈ arithmeticOperators, '\n' ∉ op.toList := by decide
      rw [Node.outlineRows, List.forall_mem_cons, List.forall_mem_append]
      exact ⟨.append (by decide) (hoperator operator hop),
        ihleft (level + 1), ihright (level + 1)⟩
  | call hname _ ih =>
      rw [Node.outlineRows, List.forall_mem_cons, List.forall_mem_append,
        List.forall_mem_cons, Node.outlineRows, List.forall_mem_singleton]
      exact ⟨(by decide : IsLegible "Call:"), legible_identifier hname,
        (by decide : IsLegible "Arguments:"),
        legible_outlineRowsAll fun arg harg => ih arg harg (level + 2)⟩

theorem IsStatement.legible {node : Node} (h : IsStatement node)
    (level : Nat) : ∀ row ∈ node.outlineRows level, IsLegible row.text := by
  induction h generalizing level with
  | expression he => exact he.legible level
  | assign hname hvalue =>
      rw [Node.outlineRows, List.forall_mem_cons]
      exact ⟨.append (by decide) hname.not_mem_newline,
        hvalue.legible (level + 1)⟩
  | @define name params body hname hparams _ ih =>
      rw [Node.outlineRows, List.forall_mem_cons, List.forall_mem_cons,
        List.forall_mem_append, List.forall_mem_cons]
      refine ⟨.append (by decide) hname.not_mem_newline,
        (by decide : IsLegible "Parameters:"), ?_,
        (by decide : IsLegible "Body:"),
        legible_outlineRowsAll fun node hnode => ih node hnode _⟩
      intro row hrow
      obtain ⟨param, hparam, rfl⟩ := List.mem_map.mp hrow
      obtain ⟨word, hword, rfl⟩ := List.mem_map.mp hparam
      exact legible_identifier (hparams word hword)

/-! ## Lines of text -/

theorem append_newline_inj {a b r s : List Char} (ha : '\n' ∉ a)
    (hb : '\n' ∉ b) (h : a ++ '\n' :: r = b ++ '\n' :: s) : a = b ∧ r = s := by
  induction a generalizing b with
  | nil =>
      cases b with
      | nil => exact ⟨rfl, (List.cons.inj h).2⟩
      | cons d b =>
          rw [(List.cons.inj h).1] at hb
          exact absurd List.mem_cons_self hb
  | cons c a ih =>
      cases b with
      | nil =>
          rw [(List.cons.inj h).1] at ha
          exact absurd List.mem_cons_self ha
      | cons d b =>
          obtain ⟨rfl, htail⟩ := List.cons.inj h
          obtain ⟨rfl, hrest⟩ := ih (fun hmem => ha (List.mem_cons_of_mem _ hmem))
            (fun hmem => hb (List.mem_cons_of_mem _ hmem)) htail
          exact ⟨rfl, hrest⟩

theorem toList_lineText_cons (line : String) (lines : List String) :
    (lineText (line :: lines)).toList =
      line.toList ++ '\n' :: (lineText lines).toList := by
  simp [lineText, String.join_cons]

/-- Lines can be told from their text. -/
theorem lineText_inj {lines others : List String}
    (hlines : ∀ line ∈ lines, '\n' ∉ line.toList)
    (hothers : ∀ line ∈ others, '\n' ∉ line.toList)
    (h : lineText lines = lineText others) : lines = others := by
  induction lines generalizing others with
  | nil =>
      cases others with
      | nil => rfl
      | cons other others =>
          have htext := congrArg String.toList h
          rw [toList_lineText_cons, lineText_nil] at htext
          simp at htext
  | cons line lines ih =>
      obtain ⟨hline, hlines⟩ := List.forall_mem_cons.mp hlines
      have htext := congrArg String.toList h
      cases others with
      | nil =>
          rw [toList_lineText_cons, lineText_nil] at htext
          simp at htext
      | cons other others =>
          obtain ⟨hother, hothers⟩ := List.forall_mem_cons.mp hothers
          rw [toList_lineText_cons, toList_lineText_cons] at htext
          obtain ⟨hfirst, hrest⟩ := append_newline_inj hline hother htext
          rw [String.toList_inj.mp hfirst,
            ih hlines hothers (String.toList_inj.mp hrest)]

/-! ## Printed outlines -/

/-- A label is indented one level further. -/
theorem outlineLabel_eq (level : Nat) (text : String) :
    Node.outlineLabel level text = OutlineRow.line ⟨level + 1, text⟩ := by
  rw [← String.toList_inj, OutlineRow.toList_line, Node.outlineLabel,
    Node.outlineLine, String.toList_append, String.toList_append,
    Json.toList_pushn, Nat.mul_succ, List.replicate_add]
  rfl

theorem outlineAll_eq {nodes : List Node} {level : Nat}
    (h : ∀ node ∈ nodes, Node.outlineLines level node =
      .ok ((node.outlineRows level).map OutlineRow.line)) :
    Node.outlineAll level nodes =
      .ok ((Node.outlineRowsAll level nodes).map OutlineRow.line) := by
  induction nodes with
  | nil => rfl
  | cons node rest ih =>
      obtain ⟨hnode, hrest⟩ := List.forall_mem_cons.mp h
      rw [Node.outlineAll, hnode, ih hrest, Node.outlineRowsAll,
        List.map_append]
      rfl

theorem IsExpression.outlineLines_eq {e : Node} (h : IsExpression e)
    (level : Nat) : Node.outlineLines level e =
      .ok ((e.outlineRows level).map OutlineRow.line) := by
  induction h generalizing level with
  | number _ => rfl
  | identifier _ => rfl
  | binary _ _ _ ihleft ihright =>
      have hleft := ihleft (level + 1)
      have hright := ihright (level + 1)
      push_cast at hleft hright
      rw [Node.outlineLines, hleft, hright, Node.outlineRows, List.map_cons,
        List.map_append]
      rfl
  | call _ _ ih =>
      have hargs := outlineAll_eq fun arg harg => ih arg harg (level + 2)
      push_cast at hargs
      rw [Node.outlineLines, hargs, outlineLabel_eq, Node.outlineRows,
        List.map_cons, List.map_append, List.map_cons]
      rfl

theorem IsStatement.outlineLines_eq {node : Node} (h : IsStatement node)
    (level : Nat) : Node.outlineLines level node =
      .ok ((node.outlineRows level).map OutlineRow.line) := by
  induction h generalizing level with
  | expression he => exact he.outlineLines_eq level
  | assign _ hvalue =>
      have heq := hvalue.outlineLines_eq (level + 1)
      push_cast at heq
      rw [Node.outlineLines, heq, Node.outlineRows, List.map_cons]
      rfl
  | define _ _ _ ih =>
      have hbody := outlineAll_eq fun node hnode => ih node hnode (level + 2)
      push_cast at hbody
      rw [Node.outlineLines, hbody, outlineLabel_eq, outlineLabel_eq,
        Node.outlineRows, List.map_cons, List.map_cons, List.map_append,
        List.map_cons]
      simp only [List.map_map]
      rfl

/-- Lines that are joined and ended are lines that are all ended. -/
theorem lineText_intercalate {lines : List String} (h : lines ≠ []) :
    lineText ["\n".intercalate lines] = lineText lines := by
  induction lines with
  | nil => exact absurd rfl h
  | cons line rest ih =>
      cases rest with
      | nil => rw [String.intercalate_singleton]
      | cons next rest =>
          have hrest := congrArg String.toList (ih (List.cons_ne_nil next rest))
          rw [toList_lineText_cons] at hrest
          rw [← String.toList_inj, toList_lineText_cons,
            String.intercalate_cons_cons, toList_lineText_cons line, ← hrest]
          simp

theorem IsStatement.outline_eq {node : Node} (h : IsStatement node) :
    node.outline 0 =
      .ok ("\n".intercalate ((node.outlineRows 0).map OutlineRow.line)) := by
  have hlines : Node.outlineLines 0 node = _ := h.outlineLines_eq 0
  rw [Node.outline, hlines]
  rfl

/-- The outlines of the statements of a program, each of them ended by a line
feed. -/
def programOutline (statements : List Node) : Except Refusal String := do
  let outlines ← statements.mapM (Node.outline 0)
  return lineText outlines

/-- The printed lines are those of the rows. -/
theorem lineText_outlines {statements : List Node}
    (h : ∀ statement ∈ statements, IsStatement statement) :
    lineText (statements.map fun statement =>
      "\n".intercalate ((statement.outlineRows 0).map OutlineRow.line)) =
    lineText ((Node.outlineRowsAll 0 statements).map OutlineRow.line) := by
  induction statements with
  | nil => rfl
  | cons statement rest ih =>
      obtain ⟨hstatement, hrest⟩ := List.forall_mem_cons.mp h
      have hne : (statement.outlineRows 0).map OutlineRow.line ≠ [] := by
        obtain ⟨text, rows, heq, -⟩ := Node.outlineRows_eq_cons hstatement 0
        rw [heq]
        exact List.cons_ne_nil _ _
      rw [List.map_cons, ← List.singleton_append, lineText_append,
        lineText_intercalate hne, ih hrest, ← lineText_append,
        Node.outlineRowsAll, List.map_append]

theorem mapM_outline {statements : List Node}
    (h : ∀ statement ∈ statements, IsStatement statement) :
    statements.mapM (Node.outline 0) =
      .ok (statements.map fun statement =>
        "\n".intercalate ((statement.outlineRows 0).map OutlineRow.line)) := by
  induction statements with
  | nil => rfl
  | cons statement rest ih =>
      obtain ⟨hstatement, hrest⟩ := List.forall_mem_cons.mp h
      rw [List.mapM_cons, hstatement.outline_eq, ih hrest]
      rfl

theorem programOutline_eq {statements : List Node}
    (h : ∀ statement ∈ statements, IsStatement statement) :
    programOutline statements = .ok
      (lineText ((Node.outlineRowsAll 0 statements).map OutlineRow.line)) := by
  rw [programOutline, mapM_outline h, ← lineText_outlines h]
  rfl

/-- The command prints the outline of a program, unless the program nests too
deeply for it. -/
theorem printOutlines_eq (workspace : Command.Workspace) (output : String)
    {statements : List Node}
    (h : ∀ statement ∈ statements, IsStatement statement)
    (hdepth : ∀ statement ∈ statements, statement.depth ≤ nestingLimit) :
    Command.printOutlines workspace output statements =
      .finished workspace (output ++
        lineText ((Node.outlineRowsAll 0 statements).map OutlineRow.line)) := by
  rw [← lineText_outlines h]
  induction statements generalizing output with
  | nil => rw [Command.printOutlines, List.map_nil, lineText_nil, String.append_empty]
  | cons statement rest ih =>
      obtain ⟨hstatement, hrest⟩ := List.forall_mem_cons.mp h
      obtain ⟨hfirst, hdepth⟩ := List.forall_mem_cons.mp hdepth
      rw [Command.printOutlines, Node.outlineWithin, if_pos hfirst,
        hstatement.outline_eq]
      refine (ih _ hrest hdepth).trans ?_
      rw [List.map_cons, ← List.singleton_append, lineText_append]
      simp [lineText, String.append_assoc]

/-- A program can be told from the rows of its outline. -/
theorem eq_of_outlineRowsAll {p q : List Node}
    (hp : ∀ statement ∈ p, IsStatement statement)
    (hq : ∀ statement ∈ q, IsStatement statement)
    (h : Node.outlineRowsAll 0 p = Node.outlineRowsAll 0 q) : p = q := by
  refine (outlineRowsAll_inj hp
    (fun node hnode => readable_of_isStatement (hp node hnode)) hq
    (outside_nil 0) (outside_nil 0) ?_).1
  rw [h]

/-- Rows can be told from their lines. -/
theorem map_line_inj {rows others : List OutlineRow}
    (hrows : ∀ row ∈ rows, IsLegible row.text)
    (hothers : ∀ row ∈ others, IsLegible row.text)
    (h : rows.map OutlineRow.line = others.map OutlineRow.line) :
    rows = others := by
  induction rows generalizing others with
  | nil => exact (List.map_eq_nil_iff.mp h.symm).symm
  | cons row rows ih =>
      cases others with
      | nil => cases h
      | cons other others =>
          obtain ⟨hrow, hrows⟩ := List.forall_mem_cons.mp hrows
          obtain ⟨hother, hothers⟩ := List.forall_mem_cons.mp hothers
          obtain ⟨hfirst, hrest⟩ := List.cons.inj h
          rw [OutlineRow.line_inj hrow hother hfirst, ih hrows hothers hrest]

/-- **Outlines lose nothing.** The outline of a parsed program is what the
command prints for it, as long as it does not nest too deeply, and programs
with the same outline are the same. -/
theorem outlines_lose_nothing {limit limit' : Nat} {source source' : String}
    {p q : List Node} (hp : parseProgram limit source = .ok p)
    (hq : parseProgram limit' source' = .ok q) :
    (∃ text, programOutline p = .ok text ∧
      ((∀ statement ∈ p, statement.depth ≤ nestingLimit) →
        ∀ workspace, Command.printOutlines workspace "" p =
          .finished workspace text)) ∧
    (programOutline p = programOutline q → p = q) := by
  have hstatements := isStatement_of_parseProgram hp
  have hstatements' := isStatement_of_parseProgram hq
  have hlegible := legible_outlineRowsAll fun statement hstatement =>
    (hstatements statement hstatement).legible 0
  have hlegible' := legible_outlineRowsAll fun statement hstatement =>
    (hstatements' statement hstatement).legible 0
  rw [programOutline_eq hstatements, programOutline_eq hstatements']
  refine ⟨⟨_, rfl, fun hdepth workspace => ?_⟩, fun heq => ?_⟩
  · rw [printOutlines_eq workspace "" hstatements hdepth, String.empty_append]
  · refine eq_of_outlineRowsAll hstatements hstatements' ?_
    refine map_line_inj hlegible hlegible' ?_
    refine lineText_inj ?_ ?_ (Except.ok.inj heq)
    · exact List.forall_mem_map.mpr fun row hrow =>
        OutlineRow.not_mem_line (hlegible row hrow)
    · exact List.forall_mem_map.mpr fun row hrow =>
        OutlineRow.not_mem_line (hlegible' row hrow)

/-- Whether an argument belongs to the inner or to the outer call is seen from
its indentation. -/
theorem argument_of_inner_call_is_told :
    let inner := [Node.call (.identifier (.text "f"))
      [.call (.identifier (.text "g"))
        [.identifier (.text "x"), .identifier (.text "y")]]]
    let outer := [Node.call (.identifier (.text "f"))
      [.call (.identifier (.text "g")) [.identifier (.text "x")],
        .identifier (.text "y")]]
    (parseProgram 20 "f(g(x, y))" = .ok inner ∧
      parseProgram 20 "f(g(x), y)" = .ok outer) ∧
    programOutline inner ≠ programOutline outer := by
  intro inner outer
  have hinner : parseProgram 20 "f(g(x, y))" = .ok inner := by cbv
  have houter : parseProgram 20 "f(g(x), y)" = .ok outer := by cbv
  refine ⟨⟨hinner, houter⟩, fun heq => ?_⟩
  have hsame : inner = outer := (outlines_lose_nothing hinner houter).2 heq
  simp [inner, outer] at hsame

end Scriptlet
