import Mathlib
import Scriptlet.Proofs.JsonRoundTrip
import Scriptlet.Proofs.WellFormed
import Scriptlet.Text.Lines
import Scriptlet.Text.Utf8
import Scriptlet.Tree.Codec

/-!
# Saved trees are loaded again

A tree is encoded as JSON, the JSON is written, and the text is stored as
bytes. Each of the three steps can be undone: a tree is decoded from its
encoding (`Node.ofJson_toJson`), the JSON of a parsed tree is made of texts,
lists and objects and is therefore read back (`Json.read_write`), and the
text has only characters that are stored as one byte each and are no line
ends that reading would change (`decode_saved`).
-/

namespace Scriptlet

/-! ## Encoding -/

theorem Json.required_of_field? {fields : List (String × Json)}
    {key : String} {v : Json} (h : field? fields key = some v) :
    required fields key = .ok ⟨v, sizeOf_lt_of_field? h⟩ := by
  unfold required
  split
  · rename_i found hfound
    obtain rfl : found = v := Option.some.inj (hfound.symm.trans h)
    rfl
  · rename_i hnone
    rw [hnone] at h
    cases h

theorem Json.optional_of_field? {fields : List (String × Json)}
    {key : String} {v : Json} (h : field? fields key = some v) :
    optional fields key = some ⟨v, sizeOf_lt_of_field? h⟩ := by
  unfold optional
  split
  · rename_i found hfound
    obtain rfl : found = v := Option.some.inj (hfound.symm.trans h)
    rfl
  · rename_i hnone
    rw [hnone] at h
    cases h

namespace Node

/-! Each form is decoded part by part. -/

theorem ofJson_number (text : Json) :
    ofJson (.object [("type", .text "NumberLiteral"), ("text", text)]) =
      .ok (.number text) := by
  rw [ofJson]
  simp only [Json.field?, List.lookup, beq_self_eq_true]
  rw [Json.required_of_field? (v := text) rfl]
  rfl

theorem ofJson_identifier (name : Json) :
    ofJson (.object [("type", .text "Identifier"), ("name", name)]) =
      .ok (.identifier name) := by
  rw [ofJson]
  simp only [Json.field?, List.lookup, beq_self_eq_true]
  rw [Json.required_of_field? (v := name) rfl]
  rfl

theorem ofJson_binary (operator left right : Json) :
    ofJson (.object [("type", .text "BinaryExpression"),
      ("operator", operator), ("left", left), ("right", right)]) = do
      let l ← ofJson left
      let r ← ofJson right
      return .binary operator l r := by
  rw [ofJson]
  simp only [Json.field?, List.lookup, beq_self_eq_true]
  rw [Json.required_of_field? (v := operator) rfl,
    Json.required_of_field? (v := left) rfl,
    Json.required_of_field? (v := right) rfl]
  rfl

theorem ofJson_assign (name value : Json) :
    ofJson (.object [("type", .text "Assignment"), ("name", name),
      ("value", value)]) = do
      let v ← ofJson value
      return .assign name v := by
  rw [ofJson]
  simp only [Json.field?, List.lookup, beq_self_eq_true]
  rw [Json.required_of_field? (v := name) rfl,
    Json.required_of_field? (v := value) rfl]
  rfl

theorem ofJson_define (name : Json) (params body : List Json) :
    ofJson (.object [("type", .text "FunctionDefinition"), ("name", name),
      ("params", .list params), ("body", .list body)]) = do
      let statements ← ofJsonAll body
      return .define name params statements := by
  rw [ofJson]
  simp only [Json.field?, List.lookup, beq_self_eq_true]
  rw [Json.optional_of_field? (v := .list params) rfl,
    Json.optional_of_field? (v := .list body) rfl,
    Json.required_of_field? (v := name) rfl]
  simp only [Json.elements, ofElements]
  rfl

theorem ofJson_call (callee : Json) (args : List Json) :
    ofJson (.object [("type", .text "CallExpression"), ("callee", callee),
      ("args", .list args)]) = do
      let arguments ← ofJsonAll args
      let c ← ofJson callee
      return .call c arguments := by
  rw [ofJson]
  simp only [Json.field?, List.lookup, beq_self_eq_true]
  rw [Json.optional_of_field? (v := .list args) rfl,
    Json.required_of_field? (v := callee) rfl]
  simp only [ofElements]
  rfl

mutual

/-- A tree is decoded from its encoding. -/
theorem ofJson_toJson : ∀ node : Node, ofJson node.toJson = .ok node
  | .number text => ofJson_number text
  | .identifier name => ofJson_identifier name
  | .binary operator left right => by
      rw [toJson, ofJson_binary, ofJson_toJson left, ofJson_toJson right]
      rfl
  | .assign name value => by
      rw [toJson, ofJson_assign, ofJson_toJson value]
      rfl
  | .define name params body => by
      rw [toJson, ofJson_define, ofJsonAll_toJsonAll body]
      rfl
  | .call callee args => by
      rw [toJson, ofJson_call, ofJsonAll_toJsonAll args, ofJson_toJson callee]
      rfl
  | .sequence items => by
      rw [toJson, ofJson, ofJsonAll_toJsonAll items]
      rfl

theorem ofJsonAll_toJsonAll : ∀ nodes : List Node,
    ofJsonAll (toJsonAll nodes) = .ok nodes
  | [] => by rw [toJsonAll, ofJsonAll]
  | node :: rest => by
      rw [toJsonAll, ofJsonAll, ofJson_toJson node, ofJsonAll_toJsonAll rest]
      rfl

end

end Node

/-! ## Trees of programs -/

/-- A text whose characters are stored as one byte each. -/
def IsAscii (s : String) : Prop := ∀ c ∈ s.toList, c.toNat < 0x80

theorem toNat_lt_of_isDigit {c : Char} (h : c.isDigit = true) :
    c.toNat < 0x80 := by
  simp only [Char.isDigit, Bool.and_eq_true, decide_eq_true_eq, ge_iff_le,
    UInt32.le_iff_toNat_le] at h
  exact lt_of_le_of_lt h.2 (by decide)

theorem toNat_lt_of_isWordStart {c : Char} (h : isWordStart c = true) :
    c.toNat < 0x80 := by
  simp only [isWordStart, Char.isAlpha, Char.isUpper, Char.isLower,
    Bool.or_eq_true, Bool.and_eq_true, decide_eq_true_eq, beq_iff_eq,
    ge_iff_le, UInt32.le_iff_toNat_le] at h
  rcases h with (h | h) | rfl
  · exact lt_of_le_of_lt h.2 (by decide)
  · exact lt_of_le_of_lt h.2 (by decide)
  · decide

theorem isAscii_of_isNumeral {text : String} (h : IsNumeral text) :
    IsAscii text := fun c hc => toNat_lt_of_isDigit (h.2 c hc)

theorem isAscii_of_isName {name : String} (h : IsName name) :
    IsAscii name := by
  obtain ⟨⟨c, cs, hname, hstart, hparts⟩, -⟩ := h
  intro d hd
  rw [hname] at hd
  rcases List.mem_cons.mp hd with rfl | hd
  · exact toNat_lt_of_isWordStart hstart
  · rcases Bool.or_eq_true_iff.mp (hparts d hd) with h | h
    · exact toNat_lt_of_isWordStart h
    · exact toNat_lt_of_isDigit h

namespace Node

theorem toJsonAll_eq_map (nodes : List Node) :
    toJsonAll nodes = nodes.map toJson := by
  induction nodes with
  | nil => rw [toJsonAll, List.map_nil]
  | cons node rest ih => rw [toJsonAll, ih, List.map_cons]

end Node

theorem Node.isTextual_toJsonAll {nodes : List Node}
    (h : ∀ node ∈ nodes, node.toJson.IsTextual IsAscii) :
    (Json.list (toJsonAll nodes)).IsTextual IsAscii := by
  refine .list fun item hitem => ?_
  rw [toJsonAll_eq_map] at hitem
  obtain ⟨node, hnode, rfl⟩ := List.mem_map.mp hitem
  exact h node hnode

theorem isTextual_identifier {name : String} (h : IsName name) :
    (Node.identifier (.text name)).toJson.IsTextual IsAscii := by
  rw [Node.toJson]
  refine .object (by simp) (by simp [IsAscii]) ?_
  simp only [List.forall_mem_cons]
  exact ⟨.text (by simp [IsAscii]), .text (isAscii_of_isName h), by simp⟩

theorem IsExpression.isTextual {e : Node} (h : IsExpression e) :
    e.toJson.IsTextual IsAscii := by
  induction h with
  | number htext =>
      rw [Node.toJson]
      refine .object (by simp) (by simp [IsAscii]) ?_
      simp only [List.forall_mem_cons]
      exact ⟨.text (by simp [IsAscii]), .text (isAscii_of_isNumeral htext),
        by simp⟩
  | identifier hname => exact isTextual_identifier hname
  | binary hoperator _ _ ihleft ihright =>
      have hascii : ∀ text ∈ arithmeticOperators, IsAscii text := by
        simp [arithmeticOperators, IsAscii]
      rw [Node.toJson]
      refine .object (by simp) (by simp [IsAscii]) ?_
      simp only [List.forall_mem_cons]
      exact ⟨.text (by simp [IsAscii]), .text (hascii _ hoperator), ihleft,
        ihright, by simp⟩
  | call hname _ ihargs =>
      rw [Node.toJson]
      refine .object (by simp) (by simp [IsAscii]) ?_
      simp only [List.forall_mem_cons]
      exact ⟨.text (by simp [IsAscii]), isTextual_identifier hname,
        Node.isTextual_toJsonAll ihargs, by simp⟩

theorem IsStatement.isTextual {s : Node} (h : IsStatement s) :
    s.toJson.IsTextual IsAscii := by
  induction h with
  | expression he => exact he.isTextual
  | assign hname hvalue =>
      rw [Node.toJson]
      refine .object (by simp) (by simp [IsAscii]) ?_
      simp only [List.forall_mem_cons]
      exact ⟨.text (by simp [IsAscii]), .text (isAscii_of_isName hname),
        hvalue.isTextual, by simp⟩
  | define hname hparams _ ihbody =>
      have hlist : (Json.list (_ : List Json)).IsTextual IsAscii :=
        .list fun item hitem => by
          obtain ⟨param, hparam, rfl⟩ := List.mem_map.mp hitem
          exact .text (isAscii_of_isName (hparams param hparam))
      rw [Node.toJson]
      refine .object (by simp) (by simp [IsAscii]) ?_
      simp only [List.forall_mem_cons]
      exact ⟨.text (by simp [IsAscii]), .text (isAscii_of_isName hname), hlist,
        Node.isTextual_toJsonAll ihbody, by simp⟩

/-- The encoding of a parsed program can be written and read back. -/
theorem isTextual_of_parseProgram {limit : Nat} {source : String}
    {statements : List Node} (h : parseProgram limit source = .ok statements) :
    (Node.sequence statements).toJson.IsTextual IsAscii := by
  rw [Node.toJson]
  exact Node.isTextual_toJsonAll fun s hs =>
    (isStatement_of_parseProgram h s hs).isTextual

/-- **A parsed program is decoded from what is written of it,** by a reader
that goes as deep as its encoding nests. -/
theorem read_saved {limit : Nat} {source : String} {statements : List Node}
    (h : parseProgram limit source = .ok statements) (layout : Json.Layout)
    (depth : Nat) :
    Json.read depth ((Node.sequence statements).toJson.write layout).toList =
      if (Node.sequence statements).toJson.nesting ≤ depth then
        .ok (Node.sequence statements).toJson
      else .error .tooDeep :=
  Json.read_write (isTextual_of_parseProgram h) layout depth

/-! ## Bytes -/

/-- A character that is stored as one byte and read as it is. -/
def IsStored (c : Char) : Prop := c.toNat < 0x80 ∧ c ≠ '\r'

instance (c : Char) : Decidable (IsStored c) :=
  inferInstanceAs (Decidable (_ ∧ _))

namespace Json

theorem isStored_hex {n : Nat} (h : n < 0x20) :
    ∀ d ∈ Text.hex 4 n, IsStored d := by
  have hall : ∀ n < 0x20, (Text.hex 4 n).all
      (fun d => decide (IsStored d)) = true := by decide
  exact fun d hd => of_decide_eq_true (List.all_eq_true.mp (hall n h) d hd)

theorem isStored_of_shortEscape? {letter c : Char}
    (h : shortEscape? letter = some c) : IsStored letter := by
  unfold shortEscape? at h
  split at h
  all_goals first | decide | cases h

theorem isStored_escapeChar {c : Char} (h : c.toNat < 0x80) :
    ∀ d ∈ escapeChar c, IsStored d := by
  have hbackslash : IsStored '\\' := by decide
  rcases escapeChar_cases c with ⟨letter, hletter, hc⟩ | ⟨hcontrol, hc⟩ |
    ⟨-, -, hcontrol, hc⟩ <;> rw [hc]
  · simp only [List.forall_mem_cons]
    exact ⟨hbackslash, isStored_of_shortEscape? hletter, by simp⟩
  · simp only [List.forall_mem_cons]
    exact ⟨hbackslash, by decide, isStored_hex hcontrol⟩
  · rw [List.forall_mem_singleton]
    refine ⟨h, ?_⟩
    rintro rfl
    exact hcontrol (by decide)

theorem isStored_writeText {s : String} (h : IsAscii s) :
    ∀ c ∈ (writeText s).toList, IsStored c := by
  have hquote : IsStored '\x22' := by decide
  rw [toList_writeText]
  refine List.forall_mem_cons.mpr ⟨hquote, List.forall_mem_append.mpr ⟨?_, ?_⟩⟩
  · intro d hd
    obtain ⟨c, hc, hd⟩ := List.mem_flatMap.mp hd
    exact isStored_escapeChar (h c hc) d hd
  · rw [List.forall_mem_singleton]
    exact hquote

theorem isStored_start (layout : Layout) (level : Nat) :
    ∀ c ∈ (layout.start level).toList, IsStored c := by
  intro c hc
  rcases eq_of_mem_start hc with rfl | rfl <;> decide

theorem isStored_between (layout : Layout) (level : Nat) :
    ∀ c ∈ (layout.between level).toList, IsStored c := by
  obtain ⟨gap, hbetween, hgap⟩ := toList_between layout level
  rw [hbetween]
  refine List.forall_mem_cons.mpr ⟨by decide, fun c hc => ?_⟩
  rcases hgap c hc with rfl | rfl <;> decide

theorem isStored_intercalate {separator : String}
    (hseparator : ∀ c ∈ separator.toList, IsStored c) {items : List String}
    (hitems : ∀ item ∈ items, ∀ c ∈ item.toList, IsStored c) :
    ∀ c ∈ (separator.intercalate items).toList, IsStored c := by
  induction items with
  | nil => simp
  | cons item rest ih =>
      obtain ⟨hitem, hrest⟩ := List.forall_mem_cons.mp hitems
      cases rest with
      | nil =>
          rw [String.intercalate_singleton]
          exact hitem
      | cons next rest =>
          rw [String.intercalate_cons_cons, String.toList_append,
            String.toList_append]
          exact List.forall_mem_append.mpr
            ⟨List.forall_mem_append.mpr ⟨hitem, hseparator⟩, ih hrest⟩

theorem isStored_bracket (layout : Layout) (level : Nat)
    {left right : String} {items : List String}
    (hleft : ∀ c ∈ left.toList, IsStored c)
    (hright : ∀ c ∈ right.toList, IsStored c)
    (hitems : ∀ item ∈ items, ∀ c ∈ item.toList, IsStored c) :
    ∀ c ∈ (bracket layout level left right items).toList, IsStored c := by
  by_cases h : items = []
  · rw [h, toList_bracket_nil]
    exact List.forall_mem_append.mpr ⟨hleft, hright⟩
  · rw [toList_bracket _ _ _ _ h]
    simp only [List.forall_mem_append]
    exact ⟨hleft, isStored_start layout _,
      isStored_intercalate (isStored_between layout _) hitems,
      isStored_start layout _, hright⟩

theorem mem_writeItems {layout : Layout} {level : Nat} {items : List Json}
    {text : String} (h : text ∈ writeItems layout level items) :
    ∃ item ∈ items, text = writeAt layout level item := by
  induction items with
  | nil => exact absurd h (by simp [writeItems])
  | cons item rest ih =>
      rw [writeItems] at h
      rcases List.mem_cons.mp h with rfl | h
      · exact ⟨item, List.mem_cons_self, rfl⟩
      · obtain ⟨found, hmem, htext⟩ := ih h
        exact ⟨found, List.mem_cons_of_mem _ hmem, htext⟩

theorem mem_writeFields {layout : Layout} {level : Nat}
    {fields : List (String × Json)} {text : String}
    (h : text ∈ writeFields layout level fields) :
    ∃ field ∈ fields,
      text = writeText field.1 ++ ": " ++ writeAt layout level field.2 := by
  induction fields with
  | nil => exact absurd h (by simp [writeFields])
  | cons field rest ih =>
      obtain ⟨key, value⟩ := field
      rw [writeFields] at h
      rcases List.mem_cons.mp h with rfl | h
      · exact ⟨(key, value), List.mem_cons_self, rfl⟩
      · obtain ⟨found, hmem, htext⟩ := ih h
        exact ⟨found, List.mem_cons_of_mem _ hmem, htext⟩

theorem IsTextual.isStored {j : Json} (h : j.IsTextual IsAscii)
    (layout : Layout) (level : Nat) :
    ∀ c ∈ (writeAt layout level j).toList, IsStored c := by
  induction h generalizing level with
  | text hs => exact isStored_writeText hs
  | list _ ih =>
      rw [writeAt]
      refine isStored_bracket layout level (by simp [IsStored])
        (by simp [IsStored]) fun text htext => ?_
      obtain ⟨item, hitem, rfl⟩ := mem_writeItems htext
      exact ih item hitem (level + 1)
  | object _ hkeys _ ih =>
      rw [writeAt]
      refine isStored_bracket layout level (by simp [IsStored])
        (by simp [IsStored]) fun text htext => ?_
      obtain ⟨field, hfield, rfl⟩ := mem_writeFields htext
      rw [toList_field]
      simp only [List.forall_mem_append, List.forall_mem_cons]
      exact ⟨isStored_writeText (hkeys field hfield), by decide,
        ⟨by decide, by simp⟩, ih field hfield (level + 1)⟩

end Json

theorem toList_loop (bytes : ByteArray) (i : Nat) (front : List UInt8) :
    ByteArray.toList.loop bytes i front =
      front.reverse ++ bytes.data.toList.drop i := by
  rw [ByteArray.toList.loop.eq_def]
  split
  · rename_i h
    have hi : i < bytes.data.toList.length := by simpa using h
    rw [toList_loop bytes (i + 1), List.drop_eq_getElem_cons hi]
    have hget : bytes.get! i = bytes.data.toList[i] := by
      obtain ⟨data⟩ := bytes
      have hi' : i < data.size := h
      simp [ByteArray.get!, hi']
    rw [hget]
    simp
  · rename_i h
    rw [List.drop_eq_nil_of_le]
    · simp
    · simpa using h
termination_by bytes.size - i

theorem toNat_toUInt8 {c : Char} (h : c.toNat < 0x80) :
    c.toUInt8.toNat = c.toNat := by
  have hmod : c.toUInt8.toNat = c.toNat % 256 := UInt32.toNat_toUInt8 c.val
  omega

theorem bytes_of_ascii {cs : List Char} (h : ∀ c ∈ cs, c.toNat < 0x80) :
    (String.ofList cs).toByteArray.toList = cs.map Char.toUInt8 := by
  have hflat : cs.flatMap String.utf8EncodeChar = cs.map Char.toUInt8 := by
    induction cs with
    | nil => rfl
    | cons c cs ih =>
        obtain ⟨hc, hcs⟩ := List.forall_mem_cons.mp h
        have hsize : c.utf8Size = 1 :=
          Char.utf8Size_eq_one_iff.mpr (UInt32.le_iff_toNat_le.mpr (Nat.le_of_lt_succ hc))
        rw [List.flatMap_cons, ih hcs, String.utf8EncodeChar_eq_singleton hsize]
        rfl
  rw [ByteArray.toList, toList_loop, String.toByteArray_ofList, List.utf8Encode, hflat,
    List.toList_data_toByteArray]
  rfl

open Text.Utf8 in
theorem decodeFrom_ascii (start : Nat) {cs : List Char} (h : ∀ c ∈ cs, c.toNat < 0x80) :
    decodeFrom start (cs.map Char.toUInt8) = .ok cs := by
  induction cs generalizing start with
  | nil => rw [List.map_nil, decodeFrom]
  | cons c cs ih =>
      obtain ⟨hc, hcs⟩ := List.forall_mem_cons.mp h
      have hn := toNat_toUInt8 hc
      have hb : c.toUInt8 < 0x80 := by
        rw [UInt8.lt_iff_toNat_lt, hn]
        exact hc
      rw [List.map_cons, decodeFrom, follow?, if_pos hb]
      dsimp only
      rw [countContinuation, if_pos rfl]
      simp [ih _ hcs, assemble, hn]

theorem unifyNewlines_of_ne {cs : List Char} (h : ∀ c ∈ cs, c ≠ '\r') :
    Text.unifyNewlines cs = cs := by
  induction cs with
  | nil => rfl
  | cons c cs ih =>
      obtain ⟨hc, hcs⟩ := List.forall_mem_cons.mp h
      rw [Text.unifyNewlines, ih hcs]
      · exact fun _ hreturn _ => hc hreturn
      · exact hc

/-- A text of stored characters is read from the bytes of the file that it
was written to. -/
theorem decode_saved {text : String} (h : ∀ c ∈ text.toList, IsStored c) :
    Text.Utf8.decode text.toByteArray.toList = .ok text.toList ∧
      Text.unifyNewlines text.toList = text.toList := by
  have hascii : ∀ c ∈ text.toList, c.toNat < 0x80 := fun c hc => (h c hc).1
  refine ⟨?_, unifyNewlines_of_ne fun c hc => (h c hc).2⟩
  have hbytes := bytes_of_ascii hascii
  rw [String.ofList_toList] at hbytes
  rw [hbytes]
  exact decodeFrom_ascii 0 hascii

end Scriptlet
