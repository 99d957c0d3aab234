import Scriptlet.Proofs.SavedTrees

/-!
# Trees and the JSON that stands for them

Every tree is loaded again from what it is saved as. Loading accepts much
more than that: objects with fields that nobody looks at, functions without
parameters or body, texts and objects in the place of lists. So loading and
saving is a normal form of JSON trees, which is reached after one round and
which a value has already if each object in node position has the fields of
its form and no others, with lists where lists belong (`codec_normalizes`).

Objects are compared without regard to the order of their fields
(`Json.Same`). What a node can be loaded from is said once, form by form
(`Json.Loads`), and so is what is wrong with a value that is refused
(`Json.Flaw`); the rest follows the structure of the loaded tree, and of the
refused value.
-/

namespace Scriptlet

/-! ## Equality of values -/

/-- Equal, whatever the order of the fields is in which objects have them. -/
inductive Json.Same : Json → Json → Prop
  | refl (json : Json) : Same json json
  | list {xs ys : List Json} : List.Forall₂ Same xs ys →
      Same (.list xs) (.list ys)
  | object {fs gs : List (String × Json)} :
      (∀ key, Option.Rel Same (field? fs key) (field? gs key)) →
      Same (.object fs) (.object gs)

namespace Json

theorem Same.list_inv {xs : List Json} {json : Json}
    (h : Same (.list xs) json) :
    ∃ ys, json = .list ys ∧ List.Forall₂ Same xs ys := by
  cases h with
  | refl _ => exact ⟨xs, rfl, List.forall₂_same.mpr fun x _ => .refl x⟩
  | list hitems => exact ⟨_, rfl, hitems⟩

theorem optionRel_refl {α : Type} {r : α → α → Prop} (hr : ∀ a, r a a) :
    ∀ a? : Option α, Option.Rel r a? a?
  | none => .none
  | some a => .some (hr a)

theorem same_object_iff {fs gs : List (String × Json)} :
    Same (.object fs) (.object gs) ↔
      ∀ key, Option.Rel Same (field? fs key) (field? gs key) := by
  constructor
  · intro h
    cases h with
    | refl _ => exact fun key => optionRel_refl .refl _
    | object hfields => exact hfields
  · exact .object

theorem isSome_field?_iff {fields : List (String × Json)} {key : String} :
    (field? fields key).isSome = true ↔ key ∈ fields.map (·.1) := by
  rw [field?, List.lookup_isSome_iff, List.mem_map]
  constructor
  · rintro ⟨b, hb, hkey⟩
    exact ⟨b, hb, (beq_iff_eq.mp hkey).symm⟩
  · rintro ⟨b, hb, rfl⟩
    exact ⟨b, hb, beq_self_eq_true _⟩

theorem field?_of_mem {fields : List (String × Json)} {key : String}
    {value : Json} (hnodup : (fields.map (·.1)).Nodup)
    (h : (key, value) ∈ fields) : field? fields key = some value := by
  induction fields with
  | nil => cases h
  | cons b rest ih =>
      obtain ⟨k, v⟩ := b
      rw [List.map_cons, List.nodup_cons] at hnodup
      rw [field?, List.lookup_cons]
      rcases List.mem_cons.mp h with heq | hrest
      · cases heq
        rw [beq_self_eq_true]
      · have hne : key ≠ k := by
          rintro rfl
          exact hnodup.1 (List.mem_map.mpr ⟨(key, value), hrest, rfl⟩)
        rw [beq_false_of_ne hne]
        exact ih hnodup.2 hrest

/-- An object is the same as one whose fields are known if it has the same
keys, and the same value under each. -/
theorem same_object_iff_of_nodup {known fields : List (String × Json)}
    (hnodup : (known.map (·.1)).Nodup) :
    Same (.object known) (.object fields) ↔
      (∀ key, (field? fields key).isSome = true ↔ key ∈ known.map (·.1)) ∧
      ∀ b ∈ known, ∃ value, field? fields b.1 = some value ∧
        Same b.2 value := by
  rw [same_object_iff]
  constructor
  · intro h
    constructor
    · intro key
      rw [← isSome_field?_iff]
      have hkey := h key
      generalize field? known key = a? at hkey
      generalize field? fields key = b? at hkey
      cases hkey <;> exact Iff.rfl
    · rintro ⟨key, value⟩ hb
      have hkey := h key
      rw [field?_of_mem hnodup hb] at hkey
      generalize field? fields key = b? at hkey
      cases hkey with
      | some hsame => exact ⟨_, rfl, hsame⟩
  · rintro ⟨hkeys, hvalues⟩ key
    cases hknown : field? known key with
    | none =>
        have hnone : ¬ (field? fields key).isSome = true := by
          rw [hkeys, ← isSome_field?_iff, hknown]
          exact Bool.false_ne_true
        rw [Bool.not_eq_true, Option.isSome_eq_false_iff,
          Option.isNone_iff_eq_none] at hnone
        rw [hnone]
        exact .none
    | some value =>
        obtain ⟨front, behind, rfl, -⟩ := List.lookup_eq_some_iff.mp hknown
        obtain ⟨value', hvalue', hsame⟩ := hvalues (key, value) (by simp)
        rw [hvalue']
        exact .some hsame

/-! ## Exact trees -/

end Json

/-- The fields of the objects of a form, apart from the one that has the name
of the form: those that hold any value, any list, a node, a list of nodes. -/
structure FormFields where
  values : List String
  lists : List String
  nodes : List String
  rows : List String

def FormFields.keys (l : FormFields) : List String :=
  "type" :: (l.values ++ l.lists ++ l.nodes ++ l.rows)

def formFields? : String → Option FormFields
  | "NumberLiteral" => some ⟨["text"], [], [], []⟩
  | "Identifier" => some ⟨["name"], [], [], []⟩
  | "BinaryExpression" => some ⟨["operator"], [], ["left", "right"], []⟩
  | "Assignment" => some ⟨["name"], [], ["value"], []⟩
  | "FunctionDefinition" => some ⟨["name"], ["params"], [], ["body"]⟩
  | "CallExpression" => some ⟨[], [], ["callee"], ["args"]⟩
  | _ => none

namespace Json

/-- The object is of a form with these fields. -/
def OfForm (fields : List (String × Json)) (l : FormFields) : Prop :=
  ∃ form, field? fields "type" = some (.text form) ∧ formFields? form = some l

/-- The object has the fields of its form and no others, with lists where
lists belong. -/
structure Fits (fields : List (String × Json)) (l : FormFields) : Prop where
  keys : ∀ key, (field? fields key).isSome = true ↔ key ∈ l.keys
  lists : ∀ key ∈ l.lists ++ l.rows, ∃ items,
    field? fields key = some (.list items)

/-- The values in node position: the value itself, the items of a list in
node position, and what an object in node position has where objects of its
form have nodes. -/
inductive HasNode : Json → Json → Prop
  | here (json : Json) : HasNode json json
  | item {items : List Json} {item json : Json} : item ∈ items →
      HasNode item json → HasNode (.list items) json
  | part {fields : List (String × Json)} {l : FormFields} {key : String}
      {part json : Json} : OfForm fields l → key ∈ l.nodes →
      field? fields key = some part → HasNode part json →
      HasNode (.object fields) json
  | row {fields : List (String × Json)} {l : FormFields} {key : String}
      {items : List Json} {item json : Json} : OfForm fields l →
      key ∈ l.rows → field? fields key = some (.list items) → item ∈ items →
      HasNode item json → HasNode (.object fields) json

/-- Every object in node position has exactly the fields of its form, and
lists where lists belong. -/
def Exact (json : Json) : Prop :=
  ∀ fields, json.HasNode (.object fields) → ∃ l, OfForm fields l ∧
    Fits fields l

theorem OfForm.unique {fields : List (String × Json)} {l l' : FormFields}
    (h : OfForm fields l) (h' : OfForm fields l') : l = l' := by
  obtain ⟨form, hform, hl⟩ := h
  obtain ⟨form', hform', hl'⟩ := h'
  cases hform.symm.trans hform'
  exact Option.some.inj (hl.symm.trans hl')

theorem exact_list_iff {items : List Json} :
    Exact (.list items) ↔ ∀ item ∈ items, Exact item := by
  constructor
  · exact fun h item hitem fields hnode => h fields (.item hitem hnode)
  · intro h fields hnode
    cases hnode with
    | item hitem hnode => exact h _ hitem fields hnode

/-- An object is exact if it fits its form and its nodes are exact. -/
theorem exact_object_iff {fields : List (String × Json)} {l : FormFields}
    (hl : OfForm fields l) :
    Exact (.object fields) ↔
      Fits fields l ∧
      (∀ key ∈ l.nodes, ∀ part, field? fields key = some part → Exact part) ∧
      ∀ key ∈ l.rows, ∀ items, field? fields key = some (.list items) →
        ∀ item ∈ items, Exact item := by
  constructor
  · intro h
    refine ⟨?_, ?_, ?_⟩
    · obtain ⟨l', hl', hfits⟩ := h fields (.here _)
      rw [hl.unique hl']
      exact hfits
    · exact fun key hkey part hpart gs hnode =>
        h gs (.part hl hkey hpart hnode)
    · exact fun key hkey items hitems item hitem gs hnode =>
        h gs (.row hl hkey hitems hitem hnode)
  · rintro ⟨hfits, hnodes, hrows⟩ gs hnode
    cases hnode with
    | here _ => exact ⟨l, hl, hfits⟩
    | part hl' hkey hpart hnode =>
        cases hl.unique hl'
        exact hnodes _ hkey _ hpart gs hnode
    | row hl' hkey hitems hitem hnode =>
        cases hl.unique hl'
        exact hrows _ hkey _ hitems _ hitem gs hnode

end Json

/-! ## What nodes are loaded from -/

/-- What a node is loaded from. The fields in the place of a list are only
said to give the parts of the node if they are there. -/
inductive Json.Loads : Json → Node → Prop
  | sequence {items : List Json} {nodes : List Node} :
      Node.ofJsonAll items = .ok nodes → Loads (.list items) (.sequence nodes)
  | number {fields : List (String × Json)} {text : Json} :
      field? fields "type" = some (.text "NumberLiteral") →
      field? fields "text" = some text → Loads (.object fields) (.number text)
  | identifier {fields : List (String × Json)} {name : Json} :
      field? fields "type" = some (.text "Identifier") →
      field? fields "name" = some name →
      Loads (.object fields) (.identifier name)
  | binary {fields : List (String × Json)} {operator l r : Json}
      {left right : Node} :
      field? fields "type" = some (.text "BinaryExpression") →
      field? fields "operator" = some operator →
      field? fields "left" = some l → Node.ofJson l = .ok left →
      field? fields "right" = some r → Node.ofJson r = .ok right →
      Loads (.object fields) (.binary operator left right)
  | assign {fields : List (String × Json)} {name v : Json} {value : Node} :
      field? fields "type" = some (.text "Assignment") →
      field? fields "name" = some name → field? fields "value" = some v →
      Node.ofJson v = .ok value → Loads (.object fields) (.assign name value)
  | define {fields : List (String × Json)} {name : Json}
      {params : List Json} {body : List Node} :
      field? fields "type" = some (.text "FunctionDefinition") →
      (∀ json, field? fields "params" = some json →
        json.elements = .ok params) →
      (∀ json, field? fields "body" = some json →
        Node.ofElements json = .ok body) →
      field? fields "name" = some name →
      Loads (.object fields) (.define name params body)
  | call {fields : List (String × Json)} {c : Json} {callee : Node}
      {args : List Node} :
      field? fields "type" = some (.text "CallExpression") →
      (∀ json, field? fields "args" = some json →
        Node.ofElements json = .ok args) →
      field? fields "callee" = some c → Node.ofJson c = .ok callee →
      Loads (.object fields) (.call callee args)

namespace Json

theorem field?_of_required {fields : List (String × Json)} {key : String}
    {found : { value : Json // sizeOf value < sizeOf fields }}
    (h : required fields key = .ok found) :
    field? fields key = some found.1 := by
  unfold required at h
  split at h
  · cases h
    assumption
  · cases h

theorem field?_of_optional {fields : List (String × Json)} {key : String}
    {found : { value : Json // sizeOf value < sizeOf fields }}
    (h : optional fields key = some found) :
    field? fields key = some found.1 := by
  unfold optional at h
  split at h
  · cases h
    assumption
  · cases h

section

variable {fields : List (String × Json)} {key : String} {p : Json → Prop}

theorem forall_of_optional_eq_some
    {found : { value : Json // sizeOf value < sizeOf fields }}
    (h : optional fields key = some found) (hp : p found.1) :
    ∀ json, field? fields key = some json → p json := by
  intro json hjson
  cases (field?_of_optional h).symm.trans hjson
  exact hp

theorem forall_of_optional_eq_none (h : optional fields key = none) :
    ∀ json, field? fields key = some json → p json := by
  intro json hjson
  rw [optional_of_field? hjson] at h
  cases h

end

theorem loads_of_ofJson {json : Json} {node : Node}
    (h : Node.ofJson json = .ok node) : json.Loads node := by
  unfold Node.ofJson at h
  split at h
  · obtain ⟨nodes, hnodes, h⟩ := eq_ok_of_bind h
    cases h
    exact .sequence hnodes
  · rename_i fields
    split at h
    · rename_i hform
      obtain ⟨text, htext, h⟩ := eq_ok_of_bind h
      cases h
      exact .number hform (field?_of_required htext)
    · rename_i hform
      obtain ⟨name, hname, h⟩ := eq_ok_of_bind h
      cases h
      exact .identifier hform (field?_of_required hname)
    · rename_i hform
      obtain ⟨operator, hop, h⟩ := eq_ok_of_bind h
      obtain ⟨l, hl, h⟩ := eq_ok_of_bind h
      obtain ⟨left, hleft, h⟩ := eq_ok_of_bind h
      obtain ⟨r, hr, h⟩ := eq_ok_of_bind h
      obtain ⟨right, hright, h⟩ := eq_ok_of_bind h
      cases h
      exact .binary hform (field?_of_required hop) (field?_of_required hl)
        hleft (field?_of_required hr) hright
    · rename_i hform
      obtain ⟨name, hname, h⟩ := eq_ok_of_bind h
      obtain ⟨v, hv, h⟩ := eq_ok_of_bind h
      obtain ⟨value, hvalue, h⟩ := eq_ok_of_bind h
      cases h
      exact .assign hform (field?_of_required hname) (field?_of_required hv)
        hvalue
    · rename_i hform
      dsimp only at h
      -- Each of the two lists is there, or it is not looked at.
      split at h <;> rename_i hparams <;>
        obtain ⟨params, helements, h⟩ := eq_ok_of_bind h
      · have hparams' : ∀ json, field? fields "params" = some json →
            json.elements = .ok params :=
          forall_of_optional_eq_some hparams helements
        split at h <;> rename_i hbody <;>
          obtain ⟨body, hstatements, h⟩ := eq_ok_of_bind h <;>
          obtain ⟨name, hname, h⟩ := eq_ok_of_bind h <;>
          cases h
        · exact .define hform hparams'
            (forall_of_optional_eq_some hbody hstatements)
            (field?_of_required hname)
        · exact .define hform hparams' (forall_of_optional_eq_none hbody)
            (field?_of_required hname)
      · split at h <;> rename_i hbody <;>
          obtain ⟨body, hstatements, h⟩ := eq_ok_of_bind h <;>
          obtain ⟨name, hname, h⟩ := eq_ok_of_bind h <;>
          cases h
        · exact .define hform (forall_of_optional_eq_none hparams)
            (forall_of_optional_eq_some hbody hstatements)
            (field?_of_required hname)
        · exact .define hform (forall_of_optional_eq_none hparams)
            (forall_of_optional_eq_none hbody) (field?_of_required hname)
    · rename_i hform
      dsimp only at h
      split at h <;> rename_i hargs <;>
        obtain ⟨args, helements, h⟩ := eq_ok_of_bind h <;>
        obtain ⟨c, hc, h⟩ := eq_ok_of_bind h <;>
        obtain ⟨callee, hcallee, h⟩ := eq_ok_of_bind h <;>
        cases h
      · exact .call hform (forall_of_optional_eq_some hargs helements)
          (field?_of_required hc) hcallee
      · exact .call hform (forall_of_optional_eq_none hargs)
          (field?_of_required hc) hcallee
    · cases h
  · cases h

/-! ## Saving what was loaded -/

section

variable {fields known : List (String × Json)} {key : String}

theorem same_self_iff {json : Json} : Same json json ↔ True :=
  iff_true_intro (.refl json)

theorem same_part_iff {value part : Json}
    (h : field? fields key = some part) :
    (∃ json, field? fields key = some json ∧ Same value json) ↔
      Same value part := by
  constructor
  · rintro ⟨json, hjson, hsame⟩
    cases h.symm.trans hjson
    exact hsame
  · exact fun hsame => ⟨part, h, hsame⟩

/-- The parameters of a function are saved as a list, so the field is the
same if it holds a list. -/
theorem same_params_iff {params : List Json}
    (hload : ∀ json, field? fields key = some json →
      json.elements = .ok params) :
    (∃ json, field? fields key = some json ∧ Same (.list params) json) ↔
      ∃ items, field? fields key = some (.list items) := by
  constructor
  · rintro ⟨json, hjson, hsame⟩
    obtain ⟨items, rfl, -⟩ := hsame.list_inv
    exact ⟨items, hjson⟩
  · rintro ⟨items, hitems⟩
    cases hload _ hitems
    exact ⟨_, hitems, .refl _⟩

/-- A row of nodes is saved as a list, so the field is the same if it holds a
list of exact trees. -/
theorem same_row_iff {nodes : List Node}
    (hload : ∀ json, field? fields key = some json →
      Node.ofElements json = .ok nodes)
    (hnodes : ∀ items, Node.ofJsonAll items = .ok nodes →
      (List.Forall₂ Same (Node.toJsonAll nodes) items ↔
        ∀ item ∈ items, Exact item)) :
    (∃ json, field? fields key = some json ∧
        Same (.list (Node.toJsonAll nodes)) json) ↔
      (∃ items, field? fields key = some (.list items)) ∧
        ∀ items, field? fields key = some (.list items) →
          ∀ item ∈ items, Exact item := by
  have hitems : ∀ items, field? fields key = some (.list items) →
      (List.Forall₂ Same (Node.toJsonAll nodes) items ↔
        ∀ item ∈ items, Exact item) := by
    intro items h
    have hall := hload _ h
    rw [Node.ofElements] at hall
    exact hnodes items hall
  constructor
  · rintro ⟨json, hjson, hsame⟩
    obtain ⟨items, rfl, hrow⟩ := hsame.list_inv
    refine ⟨⟨items, hjson⟩, fun items' h' => ?_⟩
    cases hjson.symm.trans h'
    exact (hitems items hjson).mp hrow
  · rintro ⟨⟨items, h⟩, hexact⟩
    exact ⟨_, h, .list ((hitems items h).mpr (hexact items h))⟩

/-- An object is the same as the one that was saved for it if it is exact,
provided that this can be said field by field. -/
theorem same_saved_iff {l : FormFields} (hl : OfForm fields l)
    (hkeys : known.map (·.1) = l.keys) (hnodup : l.keys.Nodup)
    (hvalues :
      (∀ b ∈ known, ∃ json, field? fields b.1 = some json ∧ Same b.2 json) ↔
        (∀ key ∈ l.lists ++ l.rows, ∃ items,
          field? fields key = some (.list items)) ∧
        (∀ key ∈ l.nodes, ∀ part, field? fields key = some part →
          Exact part) ∧
        ∀ key ∈ l.rows, ∀ items, field? fields key = some (.list items) →
          ∀ item ∈ items, Exact item) :
    Same (.object known) (.object fields) ↔ Exact (.object fields) := by
  rw [exact_object_iff hl, same_object_iff_of_nodup (hkeys ▸ hnodup), hkeys,
    hvalues]
  constructor
  · rintro ⟨hkeys, hlists, hnodes, hrows⟩
    exact ⟨⟨hkeys, hlists⟩, hnodes, hrows⟩
  · rintro ⟨⟨hkeys, hlists⟩, hnodes, hrows⟩
    exact ⟨hkeys, hlists, hnodes, hrows⟩

end

end Json

open Json

theorem Node.ofJsonAll_eq_nil {items : List Json}
    (h : ofJsonAll items = .ok []) : items = [] := by
  cases items with
  | nil => rfl
  | cons item rest =>
      rw [ofJsonAll] at h
      obtain ⟨node, -, h⟩ := eq_ok_of_bind h
      obtain ⟨nodes, -, h⟩ := eq_ok_of_bind h
      cases h

theorem Node.ofJsonAll_eq_cons {items : List Json} {node : Node}
    {nodes : List Node} (h : ofJsonAll items = .ok (node :: nodes)) :
    ∃ item rest, items = item :: rest ∧ ofJson item = .ok node ∧
      ofJsonAll rest = .ok nodes := by
  cases items with
  | nil =>
      rw [ofJsonAll] at h
      cases h
  | cons item rest =>
      rw [ofJsonAll] at h
      obtain ⟨node', hnode, h⟩ := eq_ok_of_bind h
      obtain ⟨nodes', hnodes, h⟩ := eq_ok_of_bind h
      cases h
      exact ⟨item, rest, rfl, hnode, hnodes⟩

mutual

/-- What a tree was loaded from is what it is saved as if it is exact. -/
theorem Node.same_toJson_iff : ∀ (node : Node) {json : Json},
    ofJson json = .ok node → (Same node.toJson json ↔ Exact json)
  | .number written, json, h => by
      cases loads_of_ofJson h with
      | number hform htext =>
          rw [toJson]
          refine same_saved_iff ⟨_, hform, rfl⟩ rfl (by decide) ?_
          simp [same_part_iff hform, same_part_iff htext, same_self_iff]
  | .identifier name, json, h => by
      cases loads_of_ofJson h with
      | identifier hform hname =>
          rw [toJson]
          refine same_saved_iff ⟨_, hform, rfl⟩ rfl (by decide) ?_
          simp [same_part_iff hform, same_part_iff hname, same_self_iff]
  | .binary operator left right, json, h => by
      cases loads_of_ofJson h with
      | binary hform hop hl hleft hr hright =>
          rw [toJson]
          refine same_saved_iff ⟨_, hform, rfl⟩ rfl (by decide) ?_
          simp [same_part_iff hform, same_part_iff hop, same_self_iff,
            same_toJson_iff left hleft, same_toJson_iff right hright, hl, hr]
  | .assign name value, json, h => by
      cases loads_of_ofJson h with
      | assign hform hname hv hvalue =>
          rw [toJson]
          refine same_saved_iff ⟨_, hform, rfl⟩ rfl (by decide) ?_
          simp [same_part_iff hform, same_part_iff hname, same_self_iff,
            same_toJson_iff value hvalue, hv]
  | .define name params body, json, h => by
      cases loads_of_ofJson h with
      | define hform hparams hbody hname =>
          rw [toJson]
          refine same_saved_iff ⟨_, hform, rfl⟩ rfl (by decide) ?_
          have hrow := same_row_iff hbody fun items =>
            same_toJsonAll_iff body
          simp [same_part_iff hform, same_part_iff hname, same_self_iff,
            same_params_iff hparams, hrow, and_assoc]
  | .call callee args, json, h => by
      cases loads_of_ofJson h with
      | call hform hargs hc hcallee =>
          rw [toJson]
          refine same_saved_iff ⟨_, hform, rfl⟩ rfl (by decide) ?_
          have hrow := same_row_iff hargs fun items =>
            same_toJsonAll_iff args
          simp [same_part_iff hform, same_self_iff,
            same_toJson_iff callee hcallee, hrow, hc, and_left_comm]
  | .sequence items, json, h => by
      cases loads_of_ofJson h with
      | sequence hitems =>
          rw [toJson, exact_list_iff, ← same_toJsonAll_iff items hitems]
          constructor
          · intro hsame
            obtain ⟨ys, heq, hrow⟩ := hsame.list_inv
            cases heq
            exact hrow
          · exact .list

theorem Node.same_toJsonAll_iff : ∀ (nodes : List Node) {items : List Json},
    ofJsonAll items = .ok nodes →
      (List.Forall₂ Same (toJsonAll nodes) items ↔
        ∀ item ∈ items, Exact item)
  | [], items, h => by
      rw [ofJsonAll_eq_nil h, toJsonAll]
      simp
  | node :: rest, items, h => by
      obtain ⟨item, more, rfl, hitem, hmore⟩ := ofJsonAll_eq_cons h
      rw [toJsonAll, List.forall₂_cons, List.forall_mem_cons,
        same_toJson_iff node hitem, same_toJsonAll_iff rest hmore]

end

/-! ## What cannot be loaded -/

/-- What is wrong with a value in node position. -/
inductive Json.Flaw : Json → DecodeError → Prop
  | notAnObject {json : Json} : (∀ items, json ≠ .list items) →
      (∀ fields, json ≠ .object fields) →
      Flaw json (.notAnObject json.typeName)
  | unknownForm {fields : List (String × Json)} :
      (∀ l, ¬ OfForm fields l) →
      Flaw (.object fields)
        (.unknownForm ((field? fields "type").getD .null))
  | missing {fields : List (String × Json)} {l : FormFields}
      {key : String} : OfForm fields l → key ∈ l.values ++ l.nodes →
      field? fields key = none → Flaw (.object fields) (.missing key)
  | notIterable {fields : List (String × Json)} {l : FormFields}
      {key : String} {json : Json} {e : DecodeError} : OfForm fields l →
      key ∈ l.lists ++ l.rows → field? fields key = some json →
      json.elements = .error e → Flaw (.object fields) e
  | notARow {fields : List (String × Json)} {l : FormFields}
      {key : String} {json element : Json} {rest : List Json} :
      OfForm fields l → key ∈ l.rows → field? fields key = some json →
      (∀ items, json ≠ .list items) →
      json.elements = .ok (element :: rest) →
      Flaw (.object fields) (.notAnObject element.typeName)

/-- Somewhere in node position is a value with this flaw. -/
def Json.Blames (json : Json) (e : DecodeError) : Prop :=
  ∃ place, json.HasNode place ∧ place.Flaw e

namespace Json

variable {fields : List (String × Json)} {l : FormFields} {key : String}
  {e : DecodeError}

theorem Flaw.blames {json : Json} (h : json.Flaw e) : json.Blames e :=
  ⟨json, .here json, h⟩

theorem Blames.part {part : Json} (hl : OfForm fields l)
    (hkey : key ∈ l.nodes) (hpart : field? fields key = some part)
    (h : part.Blames e) : Blames (.object fields) e := by
  obtain ⟨place, hplace, hflaw⟩ := h
  exact ⟨place, .part hl hkey hpart hplace, hflaw⟩

theorem blames_of_required (hl : OfForm fields l)
    (hkey : key ∈ l.values ++ l.nodes) (h : required fields key = .error e) :
    Blames (.object fields) e := by
  unfold required at h
  split at h
  · cases h
  · rename_i hnone
    cases h
    exact (Flaw.missing hl hkey hnone).blames

theorem blames_of_ofJson_other {json : Json}
    (hlist : ∀ items, json ≠ .list items)
    (hobject : ∀ fields, json ≠ .object fields)
    (h : Node.ofJson json = .error e) : json.Blames e := by
  unfold Node.ofJson at h
  split at h
  · exact absurd rfl (hlist _)
  · exact absurd rfl (hobject _)
  · cases h
    exact (Flaw.notAnObject hlist hobject).blames

/-- A row that cannot be loaded cannot be gone through, or one of its items
is to blame. -/
theorem blames_of_ofElements {json : Json} (hl : OfForm fields l)
    (hkey : key ∈ l.rows) (hjson : field? fields key = some json)
    (hitems : ∀ items, sizeOf items < sizeOf fields →
      Node.ofJsonAll items = .error e → ∃ item ∈ items, item.Blames e)
    (h : Node.ofElements json = .error e) : Blames (.object fields) e := by
  rw [Node.ofElements.eq_def] at h
  split at h
  · have hsize := sizeOf_lt_of_field? hjson
    rw [list.sizeOf_spec] at hsize
    obtain ⟨item, hitem, place, hplace, hflaw⟩ := hitems _ (by omega) h
    exact ⟨place, .row hl hkey hjson hitem hplace, hflaw⟩
  · rename_i hlist
    rcases eq_error_of_bind h with helements | ⟨elements, helements, h⟩
    · exact (Flaw.notIterable hl (List.mem_append_right _ hkey) hjson
        helements).blames
    · split at h
      · cases h
      · cases h
        exact (Flaw.notARow hl hkey hjson hlist helements).blames

end Json

mutual

/-- What is not loaded is refused for a flaw that it has. -/
theorem Node.blames_of_ofJson : ∀ (json : Json) {e : DecodeError},
    ofJson json = .error e → json.Blames e
  | .list items, e, h => by
      rw [ofJson] at h
      rcases eq_error_of_bind h with hitems | ⟨nodes, -, h⟩
      · obtain ⟨item, hitem, place, hplace, hflaw⟩ :=
          blames_of_ofJsonAll items hitems
        exact ⟨place, .item hitem hplace, hflaw⟩
      · cases h
  | .object fields, e, h => by
      rw [ofJson] at h
      split at h
      · rename_i hform
        rcases eq_error_of_bind h with htext | ⟨text, -, h⟩
        · exact blames_of_required ⟨_, hform, rfl⟩ (by simp) htext
        · cases h
      · rename_i hform
        rcases eq_error_of_bind h with hname | ⟨name, -, h⟩
        · exact blames_of_required ⟨_, hform, rfl⟩ (by simp) hname
        · cases h
      · rename_i hform
        rcases eq_error_of_bind h with hop | ⟨operator, -, h⟩
        · exact blames_of_required ⟨_, hform, rfl⟩ (by simp) hop
        rcases eq_error_of_bind h with hl | ⟨⟨left, _⟩, hl, h⟩
        · exact blames_of_required ⟨_, hform, rfl⟩ (by simp) hl
        rcases eq_error_of_bind h with hleft | ⟨l, -, h⟩
        · exact .part ⟨_, hform, rfl⟩ (by simp) (field?_of_required hl)
            (blames_of_ofJson left hleft)
        rcases eq_error_of_bind h with hr | ⟨⟨right, _⟩, hr, h⟩
        · exact blames_of_required ⟨_, hform, rfl⟩ (by simp) hr
        rcases eq_error_of_bind h with hright | ⟨r, -, h⟩
        · exact .part ⟨_, hform, rfl⟩ (by simp) (field?_of_required hr)
            (blames_of_ofJson right hright)
        · cases h
      · rename_i hform
        rcases eq_error_of_bind h with hname | ⟨name, -, h⟩
        · exact blames_of_required ⟨_, hform, rfl⟩ (by simp) hname
        rcases eq_error_of_bind h with hv | ⟨⟨value, _⟩, hv, h⟩
        · exact blames_of_required ⟨_, hform, rfl⟩ (by simp) hv
        rcases eq_error_of_bind h with hvalue | ⟨v, -, h⟩
        · exact .part ⟨_, hform, rfl⟩ (by simp) (field?_of_required hv)
            (blames_of_ofJson value hvalue)
        · cases h
      · rename_i hform
        dsimp only at h
        split at h <;> rename_i hparams <;>
          rcases eq_error_of_bind h with helements | ⟨params, -, h⟩
        · exact (Flaw.notIterable ⟨_, hform, rfl⟩ (by simp)
            (field?_of_optional hparams) helements).blames
        on_goal 2 => cases helements
        all_goals
          split at h <;> rename_i hbody <;>
            rcases eq_error_of_bind h with hrow | ⟨body, -, h⟩
          · exact blames_of_ofElements ⟨_, hform, rfl⟩ (by simp)
              (field?_of_optional hbody)
              (fun items hsize => blames_of_ofJsonAll items) hrow
          on_goal 2 => cases hrow
          all_goals
            rcases eq_error_of_bind h with hname | ⟨name, -, h⟩
            · exact blames_of_required ⟨_, hform, rfl⟩ (by simp) hname
            · cases h
      · rename_i hform
        dsimp only at h
        split at h <;> rename_i hargs <;>
          rcases eq_error_of_bind h with hrow | ⟨args, -, h⟩
        · exact blames_of_ofElements ⟨_, hform, rfl⟩ (by simp)
            (field?_of_optional hargs)
            (fun items hsize => blames_of_ofJsonAll items) hrow
        on_goal 2 => cases hrow
        all_goals
          rcases eq_error_of_bind h with hc | ⟨⟨callee, _⟩, hc, h⟩
          · exact blames_of_required ⟨_, hform, rfl⟩ (by simp) hc
          rcases eq_error_of_bind h with hcallee | ⟨c, -, h⟩
          · exact .part ⟨_, hform, rfl⟩ (by simp) (field?_of_required hc)
              (blames_of_ofJson callee hcallee)
          · cases h
      · cases h
        refine (Flaw.unknownForm fun l hl => ?_).blames
        obtain ⟨form, hform, hl⟩ := hl
        unfold formFields? at hl
        split at hl <;> contradiction
  | .null, _, h | .boolean _, _, h | .integer _, _, h | .real _, _, h
  | .text _, _, h => blames_of_ofJson_other (by simp) (by simp) h
termination_by json => sizeOf json

theorem Node.blames_of_ofJsonAll : ∀ (items : List Json) {e : DecodeError},
    ofJsonAll items = .error e → ∃ item ∈ items, item.Blames e
  | [], e, h => by
      rw [ofJsonAll] at h
      cases h
  | item :: rest, e, h => by
      rw [ofJsonAll] at h
      rcases eq_error_of_bind h with hitem | ⟨node, -, h⟩
      · exact ⟨item, List.mem_cons_self, blames_of_ofJson item hitem⟩
      rcases eq_error_of_bind h with hrest | ⟨nodes, -, h⟩
      · obtain ⟨found, hfound, hblames⟩ := blames_of_ofJsonAll rest hrest
        exact ⟨found, List.mem_cons_of_mem _ hfound, hblames⟩
      · cases h
termination_by items => sizeOf items

end

/-! ## Normal forms -/

def Json.resaved (json : Json) : Except DecodeError Json := do
  let node ← Node.ofJson json
  return node.toJson

theorem Json.resaved_of_ofJson {json : Json} {node : Node}
    (h : Node.ofJson json = .ok node) : json.resaved = .ok node.toJson := by
  rw [resaved, h]
  rfl

theorem DecodeError.kind_mem (e : DecodeError) :
    e.kind ∈ ["TypeError", "ValueError", "KeyError"] := by
  cases e <;> simp [kind]

/-- Trees are loaded again from what they are saved as. Any JSON value is
loaded, or refused for a flaw of a value in node position; if it is loaded,
it can be saved, what it is saved as is its normal form, and it had that form
before exactly if every object in node position has the fields of its form
and no others, with lists where lists belong. -/
theorem codec_normalizes :
    (∀ node : Node, Node.ofJson node.toJson = .ok node) ∧
    ∀ json : Json,
      ((∃ node, Node.ofJson json = .ok node) ∨
        ∃ e, Node.ofJson json = .error e ∧ json.Blames e ∧
          e.kind ∈ ["TypeError", "ValueError", "KeyError"]) ∧
      ∀ node, Node.ofJson json = .ok node →
        (∀ limit, node.depth ≤ limit →
          node.toJson? limit = some node.toJson) ∧
        json.resaved = .ok node.toJson ∧
        node.toJson.resaved = .ok node.toJson ∧
        (node.toJson.Same json ↔ json.Exact) := by
  refine ⟨Node.ofJson_toJson, fun json => ⟨?_, ?_⟩⟩
  · cases h : Node.ofJson json with
    | ok node => exact Or.inl ⟨node, rfl⟩
    | error e =>
        exact Or.inr ⟨e, rfl, Node.blames_of_ofJson json h, e.kind_mem⟩
  · intro node h
    refine ⟨?_, ?_, ?_, ?_⟩
    · intro limit hdepth
      rw [Node.toJson?, if_pos hdepth]
    · exact Json.resaved_of_ofJson h
    · exact Json.resaved_of_ofJson (Node.ofJson_toJson node)
    · exact Node.same_toJson_iff node h

end Scriptlet
