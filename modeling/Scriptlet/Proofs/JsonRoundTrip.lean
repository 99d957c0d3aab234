import Mathlib
import Scriptlet.Json.Reader
import Scriptlet.Json.Writer

/-!
# Reading what was written

A JSON value that is made of texts, lists and objects is written so that the
reader gives it back, unless it nests deeper than the reader goes
(`Json.read_write`). The reader is followed from place to place: at a place
where a value is written it answers with the value and the place behind it.
Places are compared by what is left to read; their offsets only matter for
complaints, and there are none.
-/

namespace Scriptlet.Json

/-! ## Texts -/

theorem hexValue?_hex : ∀ n < 0x20, hexValue? (Text.hex 4 n) = some n := by
  decide

theorem length_hex : ∀ n < 0x20, (Text.hex 4 n).length = 4 := by
  decide

/-- An escape of one letter. -/
theorem readString_short (start offset : Nat) {letter c : Char}
    (h : shortEscape? letter = some c) (rest : List Char) :
    readString start offset ('\\' :: letter :: rest) =
      (readString start (offset + 2) rest).map (consChar c) := by
  have hu : letter ≠ 'u' := by
    rintro rfl
    cases h
  rw [readString]
  · rw [h]
  · exact hu

/-- The escape of a control character by its code. -/
theorem readString_code (start offset : Nat) {c : Char}
    (h : c.toNat < 0x20) {rest : List Char} (hrest : rest ≠ []) :
    readString start offset ('\\' :: 'u' :: Text.hex 4 c.toNat ++ rest) =
      (readString start (offset + 6) rest).map (consChar c) := by
  have hlength := length_hex c.toNat h
  have htake : (Text.hex 4 c.toNat ++ rest).take 4 = Text.hex 4 c.toNat :=
    List.take_left' hlength
  have hdrop : (Text.hex 4 c.toNat ++ rest).drop 4 = rest :=
    List.drop_left' hlength
  have hempty : ¬rest.isEmpty = true := by
    rwa [List.isEmpty_iff]
  show readString start offset
    ('\\' :: 'u' :: (Text.hex 4 c.toNat ++ rest)) = _
  rw [readString, htake, hdrop, hexValue?_hex c.toNat h, if_neg hempty]
  dsimp only
  rw [if_neg (by omega), if_neg (by omega), Char.ofNat_toNat]

/-- A character that stands for itself. -/
theorem readString_plain (start offset : Nat) {c : Char}
    (hquote : c ≠ '\x22') (hbackslash : c ≠ '\\') (h : ¬c.toNat < 0x20)
    (rest : List Char) :
    readString start offset (c :: rest) =
      (readString start (offset + 1) rest).map (consChar c) := by
  rw [readString]
  · rw [if_neg h]
  · exact hquote
  · rintro rfl
    exact absurd rfl hbackslash
  · rintro _ rfl
    exact absurd rfl hbackslash
  · rintro _ _ rfl
    exact absurd rfl hbackslash

/-- A character is written as a letter, as its code, or as it is. -/
theorem escapeChar_cases (c : Char) :
    (∃ letter, shortEscape? letter = some c ∧
      escapeChar c = ['\\', letter]) ∨
    (c.toNat < 0x20 ∧ escapeChar c = '\\' :: 'u' :: Text.hex 4 c.toNat) ∨
    (c ≠ '\x22' ∧ c ≠ '\\' ∧ ¬c.toNat < 0x20 ∧ escapeChar c = [c]) := by
  unfold escapeChar
  split_ifs with hself hn hr ht hf hb hcontrol
  · refine Or.inl ⟨c, ?_, rfl⟩
    rcases Bool.or_eq_true_iff.mp hself with h | h <;> rw [eq_of_beq h] <;> rfl
  · exact Or.inl ⟨'n', by rw [eq_of_beq hn]; rfl, rfl⟩
  · exact Or.inl ⟨'r', by rw [eq_of_beq hr]; rfl, rfl⟩
  · exact Or.inl ⟨'t', by rw [eq_of_beq ht]; rfl, rfl⟩
  · exact Or.inl ⟨'f', by rw [eq_of_beq hf]; rfl, rfl⟩
  · exact Or.inl ⟨'b', by rw [eq_of_beq hb]; rfl, rfl⟩
  · exact Or.inr (Or.inl ⟨hcontrol, rfl⟩)
  · simp only [Bool.or_eq_true, beq_iff_eq, not_or] at hself
    exact Or.inr (Or.inr ⟨hself.1, hself.2, hcontrol, rfl⟩)

/-- A character is read back from how it is written. -/
theorem readString_escapeChar (start offset : Nat) (c : Char)
    {rest : List Char} (hrest : rest ≠ []) :
    ∃ offset', readString start offset (escapeChar c ++ rest) =
      (readString start offset' rest).map (consChar c) := by
  rcases escapeChar_cases c with ⟨letter, hletter, hc⟩ | ⟨hcontrol, hc⟩ |
    ⟨hquote, hbackslash, hcontrol, hc⟩ <;> rw [hc]
  · exact ⟨_, readString_short start offset hletter rest⟩
  · exact ⟨_, readString_code start offset hcontrol hrest⟩
  · exact ⟨_, readString_plain start offset hquote hbackslash hcontrol rest⟩

theorem readString_escaped (start offset : Nat) (cs tail : List Char) :
    ∃ offset', readString start offset
      (cs.flatMap escapeChar ++ '\x22' :: tail) = .ok (cs, ⟨tail, offset'⟩) := by
  induction cs generalizing offset with
  | nil => exact ⟨_, by rw [List.flatMap_nil, List.nil_append, readString]⟩
  | cons c cs ih =>
      have hne : cs.flatMap escapeChar ++ '\x22' :: tail ≠ [] := by simp
      obtain ⟨offset₁, hc⟩ := readString_escapeChar start offset c hne
      obtain ⟨offset₂, hcs⟩ := ih offset₁
      refine ⟨offset₂, ?_⟩
      rw [List.flatMap_cons, List.append_assoc, hc, hcs]
      rfl

/-! ## Values -/

/-- A value that is made of lists, of objects with no key twice, and of texts
of a certain kind. -/
inductive IsTextual (kind : String → Prop) : Json → Prop
  | text {s : String} : kind s → IsTextual kind (.text s)
  | list {items : List Json} : (∀ item ∈ items, IsTextual kind item) →
      IsTextual kind (.list items)
  | object {fields : List (String × Json)} : (fields.map Prod.fst).Nodup →
      (∀ field ∈ fields, kind field.1) →
      (∀ field ∈ fields, IsTextual kind field.2) →
      IsTextual kind (.object fields)

mutual

def nesting : Json → Nat
  | .list items => nestingItems items + 1
  | .object fields => nestingFields fields + 1
  | _ => 0

def nestingItems : List Json → Nat
  | [] => 0
  | item :: rest => max item.nesting (nestingItems rest)

def nestingFields : List (String × Json) → Nat
  | [] => 0
  | (_, value) :: rest => max value.nesting (nestingFields rest)

end

/-! ## Layout -/

theorem toList_pushn (n : Nat) :
    ("".pushn ' ' n).toList = List.replicate n ' ' := by
  rw [String.pushn_eq_repeat_push]
  induction n with
  | zero => rfl
  | succ n ih =>
      rw [Nat.repeat, String.toList_push, ih, ← List.replicate_succ']

/-- Only line feeds and spaces are used for the layout. -/
theorem eq_of_mem_start {layout : Layout} {level : Nat} {c : Char}
    (h : c ∈ (layout.start level).toList) : c = '\n' ∨ c = ' ' := by
  cases layout with
  | line => exact absurd h (by simp [Layout.start])
  | indented =>
      rw [Layout.start, String.toList_append, toList_pushn] at h
      rcases List.mem_append.mp h with h | h
      · exact Or.inl (by simpa using h)
      · exact Or.inr (List.eq_of_mem_replicate h)

theorem isBlank_start (layout : Layout) (level : Nat) :
    ∀ c ∈ (layout.start level).toList, Spot.isBlank c = true := by
  intro c hc
  rcases eq_of_mem_start hc with rfl | rfl <;> rfl

/-- Items are separated by a comma and layout. -/
theorem toList_between (layout : Layout) (level : Nat) :
    ∃ gap, (layout.between level).toList = ',' :: gap ∧
      ∀ c ∈ gap, c = '\n' ∨ c = ' ' := by
  cases layout with
  | line => exact ⟨[' '], by simp [Layout.between], by simp⟩
  | indented =>
      refine ⟨(Layout.indented.start level).toList, ?_,
        fun c hc => eq_of_mem_start hc⟩
      rw [Layout.between, String.toList_append]
      rfl

theorem isBlank_between {layout : Layout} {level : Nat} {gap : List Char}
    (h : (layout.between level).toList = ',' :: gap) :
    ∀ c ∈ gap, Spot.isBlank c = true := by
  obtain ⟨gap', hgap, hall⟩ := toList_between layout level
  obtain rfl : gap = gap' := (List.cons.inj (h.symm.trans hgap)).2
  intro c hc
  rcases hall c hc with rfl | rfl <;> rfl

theorem rest_skip {s : Spot} {blanks rest : List Char}
    (hs : s.rest = blanks ++ rest)
    (hblanks : ∀ c ∈ blanks, Spot.isBlank c = true)
    (hrest : ∀ c ∈ rest.head?, Spot.isBlank c = false) :
    s.skip.rest = rest := by
  have hrun : s.rest.takeWhile Spot.isBlank = blanks := by
    rw [hs, List.takeWhile_append_of_pos hblanks]
    cases rest with
    | nil => simp
    | cons c rest => simp [hrest c rfl]
  show s.rest.drop (s.rest.takeWhile Spot.isBlank).length = rest
  rw [hrun, hs, List.drop_left]

theorem Spot.drop_one {s : Spot} {c : Char} {rest : List Char}
    (h : s.rest = c :: rest) : s.drop 1 = ⟨rest, s.offset + 1⟩ := by
  rw [Spot.drop, h]
  rfl

/-- What is left behind a bracket is shorter. -/
theorem Spot.length_inner_le (s : Spot) :
    (s.drop 1).skip.rest.length ≤ s.rest.length - 1 := by
  simp only [Spot.skip, Spot.drop, List.length_drop]
  omega

theorem rest_skip_of_mark {s : Spot} {mark : Char} {rest : List Char}
    (hs : s.rest = mark :: rest) (hmark : Spot.isBlank mark = false) :
    s.skip.rest = mark :: rest :=
  rest_skip (hs.trans (List.nil_append _).symm)
    (fun _ hc => absurd hc List.not_mem_nil) (by simp [hmark])

/-- Behind a mark and blanks. -/
theorem rest_behind_mark {s : Spot} {mark : Char} {blanks rest : List Char}
    (hs : s.rest = mark :: (blanks ++ rest))
    (hmark : Spot.isBlank mark = false)
    (hblanks : ∀ c ∈ blanks, Spot.isBlank c = true)
    (hrest : ∀ c ∈ rest.head?, Spot.isBlank c = false) :
    (s.skip.drop 1).skip.rest = rest := by
  refine rest_skip ?_ hblanks hrest
  rw [Spot.drop, rest_skip_of_mark hs hmark]
  rfl

theorem toList_bracket (layout : Layout) (level : Nat) (left right : String)
    {items : List String} (h : items ≠ []) :
    (bracket layout level left right items).toList =
      left.toList ++ ((layout.start (level + 1)).toList ++
        (((layout.between (level + 1)).intercalate items).toList ++
          ((layout.start level).toList ++ right.toList))) := by
  unfold bracket
  rw [if_neg (by rwa [List.isEmpty_iff])]
  simp only [String.toList_append, List.append_assoc]

/-! ## Reading back -/

/-- The reader answers with a value and stops in front of `tail` if it goes
deep enough, and gives up otherwise. -/
def Gives (deepEnough : Prop) (answer : Except ReadError (Json × Spot))
    (j : Json) (tail : List Char) : Prop :=
  (deepEnough → ∃ offset, answer = .ok (j, ⟨tail, offset⟩)) ∧
    (¬deepEnough → answer = .error .tooDeep)

/-- At a place where the value is written the reader answers with it. -/
def ReadsBack (layout : Layout) (j : Json) : Prop :=
  ∀ (fuel depth level : Nat) (s : Spot) (tail : List Char),
    s.rest = (writeAt layout level j).toList ++ tail →
    2 * s.rest.length ≤ fuel →
    Gives (j.nesting ≤ depth) (readValue fuel depth s) j tail

theorem toList_writeText (s : String) : (writeText s).toList =
    '\x22' :: (s.toList.flatMap escapeChar ++ ['\x22']) := by
  simp [writeText]

theorem toList_bracket_nil (layout : Layout) (level : Nat)
    (left right : String) : (bracket layout level left right []).toList =
      left.toList ++ right.toList := String.toList_append

theorem bracket_eq_append (layout : Layout) (level : Nat)
    (left right : String) (items : List String) :
    ∃ cs, (bracket layout level left right items).toList =
      left.toList ++ cs := by
  by_cases h : items = []
  · exact ⟨right.toList, by rw [h, toList_bracket_nil]⟩
  · exact ⟨_, toList_bracket layout level left right h⟩

/-- A written value begins with a quote or a bracket. -/
theorem IsTextual.head {kind : String → Prop} {j : Json}
    (h : j.IsTextual kind) (layout : Layout)
    (level : Nat) : ∃ c cs, (writeAt layout level j).toList = c :: cs ∧
      c ∈ ['\x22', '[', '\x7b'] := by
  cases h with
  | text _ => exact ⟨'\x22', _, toList_writeText _, by decide⟩
  | @list items _ =>
      obtain ⟨cs, hcs⟩ := bracket_eq_append layout level "[" "]"
        (writeItems layout (level + 1) items)
      exact ⟨'[', cs, hcs, by decide⟩
  | @object fields _ _ _ =>
      obtain ⟨cs, hcs⟩ := bracket_eq_append layout level "\x7b" "\x7d"
        (writeFields layout (level + 1) fields)
      exact ⟨'\x7b', cs, hcs, by decide⟩

/-- The first item of several, in front of the others. -/
theorem toList_items_cons (layout : Layout) (level : Nat) (item next : Json)
    (rest : List Json) :
    ((layout.between level).intercalate
        (writeItems layout level (item :: next :: rest))).toList =
      (writeAt layout level item).toList ++
        ((layout.between level).toList ++ ((layout.between level).intercalate
          (writeItems layout level (next :: rest))).toList) := by
  rw [writeItems, writeItems, String.intercalate_cons_cons, ← writeItems]
  simp only [String.toList_append, List.append_assoc]

theorem toList_items_singleton (layout : Layout) (level : Nat) (item : Json) :
    ((layout.between level).intercalate
        (writeItems layout level [item])).toList =
      (writeAt layout level item).toList := by
  rw [writeItems, writeItems, String.intercalate_singleton]

/-- Rows of items do not begin with a blank. -/
theorem head?_items {kind : String → Prop} {item : Json}
    (h : item.IsTextual kind) (layout : Layout) (level : Nat)
    (rest : List Json) (behind : List Char) :
    ∀ c ∈ (((layout.between level).intercalate
      (writeItems layout level (item :: rest))).toList ++ behind).head?,
      Spot.isBlank c = false ∧ c ≠ ']' := by
  obtain ⟨c, cs, hitem, hc⟩ := h.head layout level
  have hhead : ∃ more, ((layout.between level).intercalate
      (writeItems layout level (item :: rest))).toList = c :: more := by
    cases rest with
    | nil => exact ⟨cs, by rw [toList_items_singleton, hitem]⟩
    | cons next rest => exact ⟨_, by rw [toList_items_cons, hitem]; rfl⟩
  obtain ⟨more, hmore⟩ := hhead
  rw [hmore]
  rintro d ⟨rfl⟩
  simp only [List.mem_cons, List.not_mem_nil, or_false] at hc
  rcases hc with rfl | rfl | rfl <;> decide

section

variable {kind : String → Prop} {layout : Layout} {fuel depth level : Nat}
  {s behind : Spot}
  {item : Json} {done rest : List Json} {blanks tail : List Char}

theorem readItems_last (hvalue : readValue fuel depth s = .ok (item, behind))
    (hbehind : behind.skip.rest = ']' :: tail) :
    ∃ offset, readItems (fuel + 1) depth s done =
      .ok (.list (done.reverse ++ [item]), ⟨tail, offset⟩) := by
  refine ⟨behind.skip.offset + 1, ?_⟩
  rw [readItems, hvalue]
  dsimp only
  rw [hbehind]
  simp [Spot.drop, hbehind]

theorem readItems_more (hvalue : readValue fuel depth s = .ok (item, behind))
    (hbehind : behind.skip.rest = ',' :: tail) :
    readItems (fuel + 1) depth s done =
      readItems fuel depth (behind.skip.drop 1).skip (item :: done) := by
  rw [readItems, hvalue]
  dsimp only
  rw [hbehind]
  rfl

theorem readItems_tooDeep (h : readValue fuel depth s = .error .tooDeep) :
    readItems (fuel + 1) depth s done = .error .tooDeep := by
  rw [readItems, h]

theorem readItems_written (htextual : ∀ j ∈ item :: rest, j.IsTextual kind)
    (hitems : ∀ j ∈ item :: rest, ReadsBack layout j)
    (hs : s.rest = ((layout.between level).intercalate
      (writeItems layout level (item :: rest))).toList ++
        (blanks ++ ']' :: tail))
    (hblanks : ∀ c ∈ blanks, Spot.isBlank c = true)
    (hfuel : 2 * s.rest.length + 1 ≤ fuel) :
    Gives (nestingItems (item :: rest) ≤ depth) (readItems fuel depth s done)
      (.list (done.reverse ++ item :: rest)) tail := by
  induction rest generalizing item fuel s done with
  | nil =>
      obtain ⟨fuel, rfl⟩ : ∃ n, fuel = n + 1 := ⟨fuel - 1, by omega⟩
      rw [toList_items_singleton] at hs
      obtain ⟨hok, hdeep⟩ := hitems item List.mem_cons_self fuel depth level s _
        hs (by omega)
      rw [nestingItems, nestingItems, Nat.max_zero]
      refine ⟨fun hfits => ?_, fun hfits => readItems_tooDeep (hdeep hfits)⟩
      obtain ⟨offset, hvalue⟩ := hok hfits
      have hskip := rest_skip (s := ⟨blanks ++ ']' :: tail, offset⟩) rfl
        hblanks (by simp [Spot.isBlank])
      exact readItems_last hvalue hskip
  | cons next rest ih =>
      obtain ⟨fuel, rfl⟩ : ∃ n, fuel = n + 1 := ⟨fuel - 1, by omega⟩
      obtain ⟨gap, hbetween, -⟩ := toList_between layout level
      have hgap := isBlank_between hbetween
      rw [toList_items_cons, hbetween, List.append_assoc, List.append_assoc,
        List.cons_append] at hs
      obtain ⟨hitem, hitems⟩ := List.forall_mem_cons.mp hitems
      obtain ⟨-, htextual⟩ := List.forall_mem_cons.mp htextual
      obtain ⟨hok, hdeep⟩ := hitem fuel depth level s _ hs (by omega)
      have hhead := head?_items (htextual next List.mem_cons_self) layout level
        rest (blanks ++ ']' :: tail)
      generalize hmore : ((layout.between level).intercalate
        (writeItems layout level (next :: rest))).toList ++
          (blanks ++ ']' :: tail) = more at *
      have hlength : more.length + 1 ≤ s.rest.length := by
        rw [hs]
        simp only [List.length_append, List.length_cons]
        omega
      by_cases hfits : item.nesting ≤ depth
      · obtain ⟨offset, hvalue⟩ := hok hfits
        have hbehind := rest_skip_of_mark
          (s := ⟨',' :: (gap ++ more), offset⟩) rfl rfl
        have hrest := rest_behind_mark (s := ⟨',' :: (gap ++ more), offset⟩)
          rfl rfl hgap fun c hc => (hhead c hc).1
        rw [readItems_more hvalue hbehind]
        have hlist : done.reverse ++ item :: next :: rest =
            (item :: done).reverse ++ next :: rest := by
          rw [List.reverse_cons, List.append_assoc]
          rfl
        rw [hlist, nestingItems, max_le_iff, and_iff_right hfits]
        exact ih htextual hitems (hrest.trans hmore.symm)
          (by rw [hrest]; omega)
      · rw [nestingItems]
        exact ⟨fun h => absurd (le_trans (le_max_left _ _) h) hfits,
          fun _ => readItems_tooDeep (hdeep hfits)⟩

end

/-! ## Fields -/

/-- The fields of an object from the value of one on, whose key has been
read. -/
def readFieldsFromValue (key : String) (fuel depth : Nat) (s : Spot)
    (done : List (String × Json)) : Except ReadError (Json × Spot) :=
  match readValue fuel depth s with
  | .error e => .error e
  | .ok (value, behind) =>
    let done := setField done key value
    let behind := behind.skip
    match behind.rest with
    | '\x7d' :: _ => .ok (.object done, behind.drop 1)
    | ',' :: _ => readFields fuel depth (behind.drop 1).skip done
    | _ => .error (.malformed .comma behind.offset)

theorem toList_field (layout : Layout) (level : Nat) (key : String)
    (value : Json) :
    (writeText key ++ ": " ++ writeAt layout level value).toList =
      (writeText key).toList ++
        ':' :: ([' '] ++ (writeAt layout level value).toList) := by
  rw [String.toList_append, String.toList_append, List.append_assoc]
  rfl

/-- The first field of several, in front of the others. -/
theorem toList_fields_cons (layout : Layout) (level : Nat) (key : String)
    (value : Json) (next : String × Json) (rest : List (String × Json)) :
    ((layout.between level).intercalate
        (writeFields layout level ((key, value) :: next :: rest))).toList =
      (writeText key ++ ": " ++ writeAt layout level value).toList ++
        ((layout.between level).toList ++ ((layout.between level).intercalate
          (writeFields layout level (next :: rest))).toList) := by
  obtain ⟨key', value'⟩ := next
  rw [writeFields, writeFields, String.intercalate_cons_cons, ← writeFields]
  simp only [String.toList_append, List.append_assoc]

theorem toList_fields_singleton (layout : Layout) (level : Nat) (key : String)
    (value : Json) :
    ((layout.between level).intercalate
        (writeFields layout level [(key, value)])).toList =
      (writeText key ++ ": " ++ writeAt layout level value).toList := by
  rw [writeFields, writeFields, String.intercalate_singleton]

/-- Rows of fields begin with a quote. -/
theorem head?_fields (layout : Layout) (level : Nat) (field : String × Json)
    (rest : List (String × Json)) (behind : List Char) :
    ∀ c ∈ (((layout.between level).intercalate
      (writeFields layout level (field :: rest))).toList ++ behind).head?,
      Spot.isBlank c = false ∧ c ≠ '\x7d' := by
  obtain ⟨key, value⟩ := field
  have hhead : ∃ more, ((layout.between level).intercalate
      (writeFields layout level ((key, value) :: rest))).toList =
        '\x22' :: more := by
    cases rest with
    | nil =>
        exact ⟨_, by rw [toList_fields_singleton, toList_field,
          toList_writeText]; rfl⟩
    | cons next rest =>
        exact ⟨_, by rw [toList_fields_cons, toList_field,
          toList_writeText]; rfl⟩
  obtain ⟨more, hmore⟩ := hhead
  rw [hmore]
  rintro c ⟨rfl⟩
  decide

section

variable {kind : String → Prop} {layout : Layout} {fuel depth level : Nat}
  {s behind : Spot}
  {key : String} {value : Json} {done rest : List (String × Json)}
  {blanks tail : List Char}

/-- A key is read back, and the place of the value is found. -/
theorem readFields_key (hs : s.rest = (writeText key).toList ++
      ':' :: ([' '] ++ tail))
    (htail : ∀ c ∈ tail.head?, Spot.isBlank c = false) :
    ∃ s' : Spot, s'.rest = tail ∧ readFields (fuel + 1) depth s done =
      readFieldsFromValue key fuel depth s' done := by
  rw [toList_writeText, List.cons_append, List.append_assoc,
    List.singleton_append] at hs
  obtain ⟨offset, hkey⟩ := readString_escaped s.offset (s.offset + 1)
    key.toList (':' :: ([' '] ++ tail))
  have hbehind := rest_skip_of_mark
    (s := ⟨':' :: ([' '] ++ tail), offset⟩) rfl rfl
  have htail := rest_behind_mark (s := ⟨':' :: ([' '] ++ tail), offset⟩) rfl rfl
    (by simp [Spot.isBlank]) htail
  refine ⟨_, htail, ?_⟩
  rw [readFields, hs]
  simp only [hkey, hbehind, String.ofList_toList]
  rfl

theorem readFieldsFromValue_last
    (hvalue : readValue fuel depth s = .ok (value, behind))
    (hbehind : behind.skip.rest = '\x7d' :: tail) :
    ∃ offset, readFieldsFromValue key fuel depth s done =
      .ok (.object (setField done key value), ⟨tail, offset⟩) := by
  refine ⟨behind.skip.offset + 1, ?_⟩
  rw [readFieldsFromValue, hvalue]
  dsimp only
  rw [hbehind]
  simp [Spot.drop, hbehind]

theorem readFieldsFromValue_more
    (hvalue : readValue fuel depth s = .ok (value, behind))
    (hbehind : behind.skip.rest = ',' :: tail) :
    readFieldsFromValue key fuel depth s done =
      readFields fuel depth (behind.skip.drop 1).skip
        (setField done key value) := by
  rw [readFieldsFromValue, hvalue]
  dsimp only
  rw [hbehind]
  rfl

theorem readFieldsFromValue_tooDeep
    (h : readValue fuel depth s = .error .tooDeep) :
    readFieldsFromValue key fuel depth s done = .error .tooDeep := by
  rw [readFieldsFromValue, h]

/-- A new key comes last. -/
theorem setField_of_nodup
    (h : ((done ++ (key, value) :: rest).map Prod.fst).Nodup) :
    setField done key value = done ++ [(key, value)] := by
  induction done with
  | nil => rfl
  | cons entry done ih =>
      obtain ⟨k, v⟩ := entry
      rw [List.cons_append, List.map_cons, List.nodup_cons] at h
      have hk : k ≠ key := by
        rintro rfl
        exact h.1 (by simp)
      rw [setField, if_neg (by simpa using hk), ih h.2]
      rfl

/-- A field is read up to what comes behind its value. -/
theorem readFields_field (htextual : value.IsTextual kind)
    (hvalue : ReadsBack layout value)
    (hs : s.rest = (writeText key ++ ": " ++
      writeAt layout level value).toList ++ tail)
    (hfuel : 2 * s.rest.length ≤ fuel) :
    ∃ s' : Spot, readFields (fuel + 1) depth s done =
        readFieldsFromValue key fuel depth s' done ∧
      Gives (value.nesting ≤ depth) (readValue fuel depth s') value tail := by
  rw [toList_field, List.append_assoc, List.cons_append,
    List.append_assoc] at hs
  obtain ⟨c, cs, hhead, hc⟩ := htextual.head layout level
  have hblank : ∀ d ∈ ((writeAt layout level value).toList ++ tail).head?,
      Spot.isBlank d = false := by
    rw [hhead]
    rintro d ⟨rfl⟩
    simp only [List.mem_cons, List.not_mem_nil, or_false] at hc
    rcases hc with rfl | rfl | rfl <;> rfl
  obtain ⟨s', hs', hfields⟩ := readFields_key hs hblank
  refine ⟨s', hfields, hvalue fuel depth level s' tail hs' ?_⟩
  have hlength : s'.rest.length ≤ s.rest.length := by
    rw [hs, hs']
    simp only [List.length_append, List.length_cons]
    omega
  omega

theorem readFields_written {field : String × Json}
    (hkeys : ((done ++ field :: rest).map Prod.fst).Nodup)
    (htextual : ∀ f ∈ field :: rest, f.2.IsTextual kind)
    (hfields : ∀ f ∈ field :: rest, ReadsBack layout f.2)
    (hs : s.rest = ((layout.between level).intercalate
      (writeFields layout level (field :: rest))).toList ++
        (blanks ++ '\x7d' :: tail))
    (hblanks : ∀ c ∈ blanks, Spot.isBlank c = true)
    (hfuel : 2 * s.rest.length + 1 ≤ fuel) :
    Gives (nestingFields (field :: rest) ≤ depth)
      (readFields fuel depth s done) (.object (done ++ field :: rest))
      tail := by
  induction rest generalizing field fuel s done with
  | nil =>
      obtain ⟨key, value⟩ := field
      obtain ⟨fuel, rfl⟩ : ∃ n, fuel = n + 1 := ⟨fuel - 1, by omega⟩
      rw [toList_fields_singleton] at hs
      have hfuel : 2 * s.rest.length ≤ fuel := by omega
      obtain ⟨s', hread, hok, hdeep⟩ :=
        readFields_field (htextual _ List.mem_cons_self)
          (hfields _ List.mem_cons_self) hs hfuel
      rw [hread, nestingFields, nestingFields, Nat.max_zero]
      refine ⟨fun hfits => ?_,
        fun hfits => readFieldsFromValue_tooDeep (hdeep hfits)⟩
      obtain ⟨offset, hvalue⟩ := hok hfits
      have hskip := rest_skip (s := ⟨blanks ++ '\x7d' :: tail, offset⟩) rfl
        hblanks (by simp [Spot.isBlank])
      rw [← setField_of_nodup hkeys]
      exact readFieldsFromValue_last hvalue hskip
  | cons next rest ih =>
      obtain ⟨key, value⟩ := field
      obtain ⟨fuel, rfl⟩ : ∃ n, fuel = n + 1 := ⟨fuel - 1, by omega⟩
      obtain ⟨gap, hbetween, -⟩ := toList_between layout level
      have hgap := isBlank_between hbetween
      rw [toList_fields_cons, hbetween, List.append_assoc, List.append_assoc,
        List.cons_append] at hs
      obtain ⟨hvalue, hfields⟩ := List.forall_mem_cons.mp hfields
      obtain ⟨htext, htextual⟩ := List.forall_mem_cons.mp htextual
      have hhead := head?_fields layout level next rest
        (blanks ++ '\x7d' :: tail)
      generalize hmore : ((layout.between level).intercalate
        (writeFields layout level (next :: rest))).toList ++
          (blanks ++ '\x7d' :: tail) = more at *
      have hlength : more.length + 1 ≤ s.rest.length := by
        rw [hs]
        simp only [List.length_append, List.length_cons]
        omega
      have hfuel' : 2 * s.rest.length ≤ fuel := by omega
      obtain ⟨s', hread, hok, hdeep⟩ := readFields_field htext hvalue hs hfuel'
      rw [hread, nestingFields]
      by_cases hfits : value.nesting ≤ depth
      · obtain ⟨offset, hvalue⟩ := hok hfits
        have hbehind := rest_skip_of_mark
          (s := ⟨',' :: (gap ++ more), offset⟩) rfl rfl
        have hrest := rest_behind_mark (s := ⟨',' :: (gap ++ more), offset⟩)
          rfl rfl hgap fun c hc => (hhead c hc).1
        have hdone : done ++ (key, value) :: next :: rest =
            setField done key value ++ next :: rest := by
          rw [setField_of_nodup hkeys, List.append_assoc]
          rfl
        rw [readFieldsFromValue_more hvalue hbehind, hdone, max_le_iff,
          and_iff_right hfits]
        exact ih (hdone ▸ hkeys) htextual hfields (hrest.trans hmore.symm)
          (by rw [hrest]; omega)
      · exact ⟨fun h => absurd (le_trans (le_max_left _ _) h) hfits,
          fun _ => readFieldsFromValue_tooDeep (hdeep hfits)⟩

end

/-! ## Whole values -/

section

variable {fuel depth : Nat} {s : Spot} {rest : List Char}

/-- Without depth no bracket can be opened. -/
theorem readValue_bracket_zero {c : Char} (hc : c ∈ ['[', '\x7b'])
    (hs : s.rest = c :: rest) :
    readValue (fuel + 1) 0 s = .error .tooDeep := by
  simp only [List.mem_cons, List.not_mem_nil, or_false] at hc
  rcases hc with rfl | rfl <;> rw [readValue, hs] <;> rfl

theorem readValue_list (hs : s.rest = '[' :: rest)
    (hinner : ∀ c ∈ (s.drop 1).skip.rest.head?, c ≠ ']') :
    readValue (fuel + 1) (depth + 1) s =
      readItems fuel depth (s.drop 1).skip [] := by
  rw [readValue]
  simp only [hs]
  split
  · rename_i hclose
    exact absurd rfl (hinner ']' (by rw [hclose]; rfl))
  · rfl

theorem readValue_list_nil (hs : s.rest = '[' :: ']' :: rest) :
    ∃ offset, readValue (fuel + 1) (depth + 1) s =
      .ok (.list [], ⟨rest, offset⟩) := by
  have hinner : (s.drop 1).skip.rest = ']' :: rest :=
    rest_skip_of_mark (by rw [Spot.drop, hs]; rfl) rfl
  refine ⟨(s.drop 1).skip.offset + 1, ?_⟩
  rw [readValue]
  simp only [hs]
  rw [hinner, Spot.drop_one hinner]
  rfl

theorem readValue_object (hs : s.rest = '\x7b' :: rest)
    (hinner : ∀ c ∈ (s.drop 1).skip.rest.head?, c ≠ '\x7d') :
    readValue (fuel + 1) (depth + 1) s =
      readFields fuel depth (s.drop 1).skip [] := by
  rw [readValue]
  simp only [hs]
  split
  · rename_i hclose
    exact absurd rfl (hinner '\x7d' (by rw [hclose]; rfl))
  · rfl

theorem readValue_object_nil (hs : s.rest = '\x7b' :: '\x7d' :: rest) :
    ∃ offset, readValue (fuel + 1) (depth + 1) s =
      .ok (.object [], ⟨rest, offset⟩) := by
  have hinner : (s.drop 1).skip.rest = '\x7d' :: rest :=
    rest_skip_of_mark (by rw [Spot.drop, hs]; rfl) rfl
  refine ⟨(s.drop 1).skip.offset + 1, ?_⟩
  rw [readValue]
  simp only [hs]
  rw [hinner, Spot.drop_one hinner]
  rfl

end

theorem readsBack_text (layout : Layout) (text : String) :
    ReadsBack layout (.text text) := by
  intro fuel depth level s tail hs hfuel
  rw [writeAt, toList_writeText, List.cons_append, List.append_assoc,
    List.singleton_append] at hs
  have hpos : 0 < s.rest.length := by rw [hs]; simp
  obtain ⟨fuel, rfl⟩ : ∃ n, fuel = n + 1 := ⟨fuel - 1, by omega⟩
  obtain ⟨offset, hread⟩ := readString_escaped s.offset (s.offset + 1)
    text.toList tail
  refine ⟨fun _ => ⟨offset, ?_⟩, fun h => absurd (Nat.zero_le _) h⟩
  cases depth <;> rw [readValue, hs] <;>
    simp only [hread, Except.map, String.ofList_toList]

theorem readsBack_list {kind : String → Prop} {layout : Layout} {items : List Json}
    (htextual : ∀ item ∈ items, item.IsTextual kind)
    (hitems : ∀ item ∈ items, ReadsBack layout item) :
    ReadsBack layout (.list items) := by
  intro fuel depth level s tail hs hfuel
  rw [writeAt] at hs
  obtain ⟨cs, hopen⟩ := bracket_eq_append layout level "[" "]"
    (writeItems layout (level + 1) items)
  have hfirst : s.rest = '[' :: (cs ++ tail) := by rw [hs, hopen]; rfl
  have hpos : 0 < s.rest.length := by rw [hfirst]; simp
  obtain ⟨fuel, rfl⟩ : ∃ n, fuel = n + 1 := ⟨fuel - 1, by omega⟩
  rw [nesting]
  cases depth with
  | zero =>
      exact ⟨fun h => absurd h (Nat.not_succ_le_zero _),
        fun _ => readValue_bracket_zero List.mem_cons_self hfirst⟩
  | succ depth =>
      rw [Nat.add_le_add_iff_right]
      cases items with
      | nil =>
          rw [writeItems, toList_bracket_nil] at hs
          exact ⟨fun _ => readValue_list_nil (hs.trans rfl),
            fun h => absurd (Nat.zero_le _) h⟩
      | cons item rest =>
          rw [toList_bracket _ _ _ _ (by rw [writeItems]; simp)] at hs
          simp only [List.append_assoc] at hs
          have hhead := head?_items (htextual item List.mem_cons_self) layout
            (level + 1) rest ((layout.start level).toList ++ ']' :: tail)
          have hinner : (s.drop 1).skip.rest =
              ((layout.between (level + 1)).intercalate
                (writeItems layout (level + 1) (item :: rest))).toList ++
                ((layout.start level).toList ++ ']' :: tail) := by
            refine rest_skip ?_ (isBlank_start layout (level + 1))
              fun c hc => (hhead c hc).1
            rw [Spot.drop, hs]
            rfl
          rw [readValue_list hfirst fun c hc => (hhead c (hinner ▸ hc)).2]
          refine readItems_written htextual hitems hinner
            (isBlank_start layout level) ?_
          have hlength := s.length_inner_le
          omega

theorem readsBack_object {kind : String → Prop} {layout : Layout}
    {fields : List (String × Json)}
    (hkeys : (fields.map Prod.fst).Nodup)
    (htextual : ∀ field ∈ fields, field.2.IsTextual kind)
    (hfields : ∀ field ∈ fields, ReadsBack layout field.2) :
    ReadsBack layout (.object fields) := by
  intro fuel depth level s tail hs hfuel
  rw [writeAt] at hs
  obtain ⟨cs, hopen⟩ := bracket_eq_append layout level "\x7b" "\x7d"
    (writeFields layout (level + 1) fields)
  have hfirst : s.rest = '\x7b' :: (cs ++ tail) := by rw [hs, hopen]; rfl
  have hpos : 0 < s.rest.length := by rw [hfirst]; simp
  obtain ⟨fuel, rfl⟩ : ∃ n, fuel = n + 1 := ⟨fuel - 1, by omega⟩
  rw [nesting]
  cases depth with
  | zero =>
      exact ⟨fun h => absurd h (Nat.not_succ_le_zero _), fun _ =>
        readValue_bracket_zero (List.mem_cons_of_mem _ List.mem_cons_self)
          hfirst⟩
  | succ depth =>
      rw [Nat.add_le_add_iff_right]
      cases fields with
      | nil =>
          rw [writeFields, toList_bracket_nil] at hs
          exact ⟨fun _ => readValue_object_nil (hs.trans rfl),
            fun h => absurd (Nat.zero_le _) h⟩
      | cons field rest =>
          rw [toList_bracket _ _ _ _ (by simp [writeFields])] at hs
          simp only [List.append_assoc] at hs
          have hhead := head?_fields layout (level + 1) field rest
            ((layout.start level).toList ++ '\x7d' :: tail)
          have hinner : (s.drop 1).skip.rest =
              ((layout.between (level + 1)).intercalate
                (writeFields layout (level + 1) (field :: rest))).toList ++
                ((layout.start level).toList ++ '\x7d' :: tail) := by
            refine rest_skip ?_ (isBlank_start layout (level + 1))
              fun c hc => (hhead c hc).1
            rw [Spot.drop, hs]
            rfl
          rw [readValue_object hfirst fun c hc => (hhead c (hinner ▸ hc)).2]
          refine readFields_written hkeys htextual hfields hinner
            (isBlank_start layout level) ?_
          have hlength := s.length_inner_le
          omega

theorem IsTextual.readsBack {kind : String → Prop} {j : Json}
    (h : j.IsTextual kind) (layout : Layout) : ReadsBack layout j := by
  induction h with
  | text _ => exact readsBack_text layout _
  | list hitems ih => exact readsBack_list hitems ih
  | object hkeys _ hfields ih => exact readsBack_object hkeys hfields ih

/-- **Reading what was written.** A value of texts, lists and objects is read
back from its written form if the reader goes as deep as it nests. -/
theorem read_write {kind : String → Prop} {j : Json} (h : j.IsTextual kind)
    (layout : Layout) (limit : Nat) :
    read limit (j.write layout).toList =
      if j.nesting ≤ limit then .ok j else .error .tooDeep := by
  obtain ⟨c, cs, hhead, hc⟩ := h.head layout 0
  have hmark : Spot.isBlank c = false ∧ c ≠ '\uFEFF' := by
    simp only [List.mem_cons, List.not_mem_nil, or_false] at hc
    rcases hc with rfl | rfl | rfl <;> decide
  have hbom : ¬((j.write layout).toList.head? == some '\uFEFF') = true := by
    rw [write, hhead]
    simpa using hmark.2
  have hstart : (Spot.mk (j.write layout).toList 0).skip.rest =
      (writeAt layout 0 j).toList ++ [] := by
    rw [List.append_nil, hhead]
    exact rest_skip_of_mark hhead hmark.1
  obtain ⟨hok, hdeep⟩ := h.readsBack layout
    (2 * (j.write layout).toList.length + 2) limit 0 _ [] hstart
    (by rw [hstart, List.append_nil, write]; omega)
  rw [read, if_neg hbom]
  split_ifs with hfits
  · obtain ⟨offset, hvalue⟩ := hok hfits
    rw [hvalue]
    rfl
  · rw [hdeep hfits]

end Scriptlet.Json
