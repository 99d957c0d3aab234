import Mathlib
import Scriptlet.Command.Workspace

/-!
# Files that are written

Writing to a file changes what is found at its place and nothing else. Only
what lies in a directory can be written to, so the directories stay as they
are, and with them the place that each path denotes.
-/

namespace Scriptlet.Command.Workspace

variable {w : Workspace} {p q : Place} {path path' : Path} {text : String}

/-! ## Directories -/

theorem isDirectory_iff : w.isDirectory p = true ↔
    p <+: w.home ∨ (∃ d ∈ w.directories, p <+: d) ∨
      ∃ file ∈ w.files, file.1 ≠ p ∧ p <+: file.1 := by
  simp [isDirectory, List.any_eq_true, or_assoc]

/-- What contains a directory is one. -/
theorem isDirectory_of_isPrefix (hpq : p <+: q)
    (h : w.isDirectory q = true) : w.isDirectory p = true := by
  rw [isDirectory_iff] at h ⊢
  rcases h with h | ⟨d, hd, h⟩ | ⟨file, hfile, hne, h⟩
  · exact Or.inl (hpq.trans h)
  · exact Or.inr (Or.inl ⟨d, hd, hpq.trans h⟩)
  · refine Or.inr (Or.inr ⟨file, hfile, ?_, hpq.trans h⟩)
    rintro rfl
    exact hne (h.eq_of_length_le hpq.length_le).symm

theorem isPrefix_dropLast (h : p <+: q) (hne : q ≠ p) : p <+: q.dropLast := by
  obtain ⟨rest, rfl⟩ := h
  have hrest : rest ≠ [] := by
    rintro rfl
    exact hne (List.append_nil p)
  rw [List.dropLast_append_of_ne_nil hrest]
  exact List.prefix_append _ _

/-- The places of files after one is set. -/
theorem exists_mem_put (good : Place → Prop) (bytes : List UInt8) :
    ∀ files : List (Place × List UInt8),
      (∃ file ∈ put files q bytes, good file.1) ↔
        good q ∨ ∃ file ∈ files, good file.1
  | [] => by simp [put]
  | (place, old) :: rest => by
      rw [put]
      split
      · rename_i heq
        obtain rfl : place = q := eq_of_beq heq
        simp
      · simp only [List.exists_mem_cons_iff, exists_mem_put good bytes rest]
        exact or_left_comm

theorem lookup_put_self (bytes : List UInt8) :
    ∀ files : List (Place × List UInt8),
      (put files q bytes).lookup q = some bytes
  | [] => by simp [put]
  | (place, old) :: rest => by
      rw [put]
      split
      · rename_i heq
        obtain rfl : place = q := eq_of_beq heq
        simp
      · rename_i hne
        have hqp : (q == place) = false :=
          beq_false_of_ne fun heq => hne (beq_iff_eq.mpr heq.symm)
        rw [List.lookup_cons, hqp]
        exact lookup_put_self bytes rest

theorem lookup_put_of_ne (h : p ≠ q) (bytes : List UInt8) :
    ∀ files : List (Place × List UInt8),
      (put files q bytes).lookup p = files.lookup p
  | [] => by rw [put, List.lookup_cons, beq_false_of_ne h]
  | (place, old) :: rest => by
      rw [put]
      split
      · rename_i heq
        obtain rfl : place = q := eq_of_beq heq
        simp only [List.lookup_cons, beq_false_of_ne h]
      · simp only [List.lookup_cons, lookup_put_of_ne h bytes rest]

/-- A file in a directory does not make new directories. -/
theorem isDirectory_put (bytes : List UInt8)
    (h : w.isDirectory q.dropLast = true) (p : Place) :
    isDirectory { w with files := put w.files q bytes } p =
      w.isDirectory p := by
  rw [Bool.eq_iff_iff, isDirectory_iff, isDirectory_iff,
    exists_mem_put (fun place => place ≠ p ∧ p <+: place)]
  constructor
  · rintro (hhome | hdirectory | ⟨hne, hp⟩ | hfile)
    · exact Or.inl hhome
    · exact Or.inr (Or.inl hdirectory)
    · exact isDirectory_iff.mp (isDirectory_of_isPrefix (isPrefix_dropLast hp hne) h)
    · exact Or.inr (Or.inr hfile)
  · rintro (hhome | hdirectory | hfile)
    · exact Or.inl hhome
    · exact Or.inr (Or.inl hdirectory)
    · exact Or.inr (Or.inr (Or.inr hfile))

/-! ## Places -/

/-- What a path leads to lies in a directory. -/
theorem isDirectory_of_follow {parts : List String}
    (hp : w.isDirectory p.dropLast = true) (h : w.follow p parts = some q) :
    w.isDirectory q.dropLast = true := by
  induction parts generalizing p with
  | nil =>
      obtain rfl : p = q := Option.some.inj h
      exact hp
  | cons part rest ih =>
      rw [follow] at h
      split at h
      · rename_i hdirectory
        refine ih ?_ h
        split
        · have hup : p.dropLast.dropLast <+: p :=
            List.IsPrefix.trans ( List.dropLast_prefix _) ( List.dropLast_prefix _)
          exact isDirectory_of_isPrefix hup hdirectory
        · rw [List.dropLast_concat]
          exact hdirectory
      · cases h

theorem isDirectory_of_locate (h : w.locate path = some p) :
    w.isDirectory p.dropLast = true := by
  refine isDirectory_of_follow ?_ h
  refine isDirectory_iff.mpr (Or.inl ?_)
  split
  · exact List.nil_prefix
  · exact List.dropLast_prefix _

theorem follow_congr {w' : Workspace}
    (h : ∀ p, w'.isDirectory p = w.isDirectory p) (parts : List String) :
    ∀ p, w'.follow p parts = w.follow p parts := by
  induction parts with
  | nil => exact fun _ => rfl
  | cons part rest ih =>
      intro p
      rw [follow, follow, h p, ih]

theorem home_write : (w.write path text).home = w.home := by
  unfold write
  split <;> rfl

theorem isDirectory_write (p : Place) :
    (w.write path text).isDirectory p = w.isDirectory p := by
  unfold write
  split
  · rename_i place hplace
    exact isDirectory_put _ (isDirectory_of_locate hplace) p
  · rfl

/-- Writing to a file leaves every path leading where it led. -/
@[simp] theorem locate_write (path' : Path) :
    (w.write path text).locate path' = w.locate path' := by
  rw [locate, locate, home_write, follow_congr isDirectory_write]

/-! ## What is found -/

/-- A written text is found at every path that leads to its file. -/
theorem find_write_self (h : w.locate path = some p)
    (h' : w.locate path' = some p) :
    (w.write path text).find path' = .file text.toByteArray.toList := by
  rw [find, locate_write, h']
  simp only [entryAt, write, h, lookup_put_self]

/-- Writing to one file keeps what is found elsewhere. -/
theorem find_write_of_ne (h : w.locate path' ≠ w.locate path) :
    (w.write path text).find path' = w.find path' := by
  rw [find, find, locate_write]
  cases hplace' : w.locate path' with
  | none => rfl
  | some p =>
      have hlookup : (w.write path text).files.lookup p = w.files.lookup p := by
        unfold write
        split
        · rename_i q hplace
          have hpq : p ≠ q := by
            rintro rfl
            exact h (hplace'.trans hplace.symm)
          exact lookup_put_of_ne hpq _ _
        · rfl
      simp only [entryAt, hlookup, isDirectory_write]

/-! ## Last names -/

theorem follow_append (front rest : List String) (p : Place) :
    w.follow p (front ++ rest) = (w.follow p front).bind (w.follow · rest) := by
  induction front generalizing p with
  | nil => rfl
  | cons part front ih =>
      rw [List.cons_append, follow, follow, ih]
      split <;> rfl

theorem follow_singleton_eq_some {name : String} :
    w.follow p [name] = some q ↔ w.isDirectory p = true ∧
      q = if name = ".." then p.dropLast else p ++ [name] := by
  rw [follow, follow]
  split
  · rename_i hdirectory
    rw [Option.some.injEq, eq_comm]
    exact (and_iff_right hdirectory).symm
  · rename_i hdirectory
    exact ⟨fun h => absurd h (by simp), fun h => absurd h.1 hdirectory⟩

/-- A path that ends in a name leads to a place with that name. -/
theorem getLast?_of_follow {front : List String} {name : String}
    (hname : name ≠ "..") (h : w.follow p (front ++ [name]) = some q) :
    q.getLast? = some name := by
  rw [follow_append, Option.bind_eq_some_iff] at h
  obtain ⟨r, -, hr⟩ := h
  obtain ⟨-, rfl⟩ := follow_singleton_eq_some.mp hr
  rw [if_neg hname]
  exact List.getLast?_concat

/-- Next to what a path leads to, a path leads to every name. -/
theorem exists_locate_withEnding (ending : String)
    (h : w.locate path = some p) :
    ∃ q, w.locate (path.withEnding ending) = some q := by
  unfold Path.withEnding
  split
  · rename_i name hname
    obtain ⟨front, hparts⟩ := List.getLast?_eq_some_iff.mp hname
    rw [locate, hparts, follow_append, Option.bind_eq_some_iff] at h
    obtain ⟨r, hfront, hr⟩ := h
    obtain ⟨hdirectory, -⟩ := follow_singleton_eq_some.mp hr
    refine ⟨if name ++ ending = ".." then r.dropLast
      else r ++ [name ++ ending], ?_⟩
    rw [locate, follow_append, Option.bind_eq_some_iff, hparts,
      List.dropLast_concat]
    exact ⟨r, hfront, follow_singleton_eq_some.mpr ⟨hdirectory, rfl⟩⟩
  · exact ⟨p, h⟩

end Scriptlet.Command.Workspace
