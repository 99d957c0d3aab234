import Scriptlet.Decimal.Notation
import Scriptlet.Decimal.Numeral
import Scriptlet.Proofs.ShortestDecimals

/-!
# What numerals denote

A decimal numeral is a row of digits, behind which a fraction and an exponent may
stand (`Numeral.Writes`), and in front of which a minus may stand
(`Numeral.Denotes`). What it denotes is a sign and a rational, the sign being kept
apart because zero has one as well.

The reader takes every such numeral apart in the right way
(`Numeral.read?_of_denotes`), so no text denotes two numbers
(`Numeral.Denotes.unique`). Both notations of a decimal are numerals for its value
(`Decimal.spells_positional`, `Decimal.spells_general`). The positional one has,
for decimals that do not end in a zero, a point only if the value is not whole and
no digit too many on either side (`Decimal.isPlainForm_positional`).
-/

namespace Scriptlet

namespace Numeral

open Text

/-! ## Rows of digits -/

def IsRow (cs : List Char) : Prop := cs ≠ [] ∧ ∀ c ∈ cs, c.isDigit = true

theorem digitsToNat_eq_ofDigitChars (cs : List Char) :
    digitsToNat cs = Nat.ofDigitChars 10 cs 0 :=
  Nat.ofDigitChars_eq_foldl.symm

theorem digitsToNat_append (cs ds : List Char) :
    digitsToNat (cs ++ ds) =
      digitsToNat cs * 10 ^ ds.length + digitsToNat ds := by
  simp only [digitsToNat_eq_ofDigitChars, Nat.ofDigitChars_append]
  rw [Nat.ofDigitChars_eq_ofDigitChars_zero, Nat.mul_comm]

@[simp] theorem digitsToNat_toDigits (n : Nat) :
    digitsToNat (Nat.toDigits 10 n) = n := by
  rw [digitsToNat_eq_ofDigitChars, Nat.ofDigitChars_ten_toDigits]

@[simp] theorem digitsToNat_zeros (n : Nat) :
    digitsToNat (List.replicate n '0') = 0 := by
  rw [digitsToNat_eq_ofDigitChars, Nat.ofDigitChars_replicate_zero, Nat.mul_zero]

theorem isRow_toDigits (n : Nat) : IsRow (Nat.toDigits 10 n) :=
  ⟨Nat.toDigits_ne_nil, fun _ hc =>
    Nat.isDigit_of_mem_toDigits (by decide) (by decide) hc⟩

theorem isDigit_of_mem_zeros {n : Nat} {c : Char}
    (h : c ∈ List.replicate n '0') : c.isDigit = true := by
  rw [List.eq_of_mem_replicate h]
  decide

theorem IsRow.append {cs ds : List Char} (hcs : IsRow cs)
    (hds : ∀ c ∈ ds, c.isDigit = true) : IsRow (cs ++ ds) :=
  ⟨List.append_ne_nil_of_left_ne_nil hcs.1 _,
    List.forall_mem_append.2 ⟨hcs.2, hds⟩⟩

theorem IsRow.prepend {cs ds : List Char} (hds : IsRow ds)
    (hcs : ∀ c ∈ cs, c.isDigit = true) : IsRow (cs ++ ds) :=
  ⟨List.append_ne_nil_of_right_ne_nil _ hds.1,
    List.forall_mem_append.2 ⟨hcs, hds.2⟩⟩

/-! ## Numerals -/

/-- The fraction of a numeral and its digits. -/
inductive IsFraction : List Char → List Char → Prop
  | none : IsFraction [] []
  | digits {cs : List Char} : IsRow cs → IsFraction ('.' :: cs) cs

/-- The exponent of a numeral and what it denotes. -/
inductive IsExponent : List Char → ℤ → Prop
  | none : IsExponent [] 0
  | positive {cs : List Char} : IsRow cs →
      IsExponent ('e' :: '+' :: cs) (digitsToNat cs)
  | negative {cs : List Char} : IsRow cs →
      IsExponent ('e' :: '-' :: cs) (-digitsToNat cs)

/-- The text is a numeral without a sign, with these digits and this exponent of
the last one. -/
def Writes (text : List Char) (d : Decimal) : Prop :=
  ∃ whole fraction digits exponent e, IsRow whole ∧
    IsFraction fraction digits ∧ IsExponent exponent e ∧
    text = whole ++ (fraction ++ exponent) ∧
    d = ⟨digitsToNat (whole ++ digits), e - digits.length⟩

/-- The text is a numeral without a sign, for this rational. -/
def Spells (text : List Char) (q : ℚ) : Prop :=
  ∃ d : Decimal, Writes text d ∧ q = d.value

/-- The text is a numeral, for the rational with this sign and size. -/
def Denotes (text : List Char) (negative : Bool) (q : ℚ) : Prop :=
  ∃ cs, text = (if negative then '-' :: cs else cs) ∧ Spells cs q

/-! ## Reading numerals -/

theorem takeWhile_isDigit_append {cs rest : List Char}
    (hcs : ∀ c ∈ cs, c.isDigit = true)
    (hrest : ∀ c ∈ rest.head?, c.isDigit = false) :
    (cs ++ rest).takeWhile Char.isDigit = cs ∧
      (cs ++ rest).dropWhile Char.isDigit = rest := by
  rw [List.takeWhile_append_of_pos hcs, List.dropWhile_append_of_pos hcs]
  cases rest with
  | nil => simp
  | cons c rest =>
    have hc := hrest c rfl
    simp [hc]

theorem IsExponent.head_not_isDigit {exponent : List Char} {e : ℤ}
    (h : IsExponent exponent e) :
    ∀ c ∈ exponent.head?, c.isDigit = false := by
  cases h <;> simp

theorem readExponent?_of_isExponent {exponent : List Char} {e : ℤ}
    (h : IsExponent exponent e) : readExponent? exponent = some e := by
  cases h with
  | none => rfl
  | positive hrow =>
    have hall := List.all_eq_true.2 hrow.2
    simp [readExponent?, splitSign, hrow.1, hall]
  | negative hrow =>
    have hall := List.all_eq_true.2 hrow.2
    simp [readExponent?, splitSign, hrow.1, hall]

theorem Writes.readUnsigned?_eq {text : List Char} {d : Decimal}
    (h : Writes text d) : readUnsigned? text = some (d.digits, d.exponent) := by
  obtain ⟨whole, fraction, digits, exponent, e, hwhole, hfraction, hexponent,
    rfl, rfl⟩ := h
  have hread := readExponent?_of_isExponent hexponent
  have hhead := hexponent.head_not_isDigit
  unfold readUnsigned?
  cases hfraction with
  | none =>
    obtain ⟨htake, hdrop⟩ := takeWhile_isDigit_append hwhole.2 hhead
    rw [List.nil_append, htake, hdrop]
    cases hexponent <;> simp [hwhole.1, hread]
  | digits hdigits =>
    have hpoint : ∀ c ∈ ('.' :: digits ++ exponent).head?, c.isDigit = false := by
      simp
    obtain ⟨htake, hdrop⟩ := takeWhile_isDigit_append hwhole.2 hpoint
    obtain ⟨htake', hdrop'⟩ := takeWhile_isDigit_append hdigits.2 hhead
    rw [htake, hdrop]
    simp [hwhole.1, htake', hdrop', hread]

/-- The characters of numerals. -/
def IsMark (c : Char) : Prop := c.isDigit = true ∨ c ∈ ['+', '-', '.', 'e']

theorem IsFraction.isMark {fraction digits : List Char}
    (h : IsFraction fraction digits) : ∀ c ∈ fraction, IsMark c := by
  cases h with
  | none => simp
  | digits hrow =>
    exact List.forall_mem_cons.2 ⟨.inr (by simp), fun c hc => .inl (hrow.2 c hc)⟩

theorem IsExponent.isMark {exponent : List Char} {e : ℤ}
    (h : IsExponent exponent e) : ∀ c ∈ exponent, IsMark c := by
  cases h with
  | none => simp
  | positive hrow | negative hrow =>
    exact List.forall_mem_cons.2 ⟨.inr (by simp), List.forall_mem_cons.2
      ⟨.inr (by simp), fun c hc => .inl (hrow.2 c hc)⟩⟩

theorem Writes.isMark {text : List Char} {d : Decimal} (h : Writes text d) :
    ∀ c ∈ text, IsMark c := by
  obtain ⟨whole, fraction, digits, exponent, e, hwhole, hfraction, hexponent,
    rfl, -⟩ := h
  exact List.forall_mem_append.2 ⟨fun c hc => .inl (hwhole.2 c hc),
    List.forall_mem_append.2 ⟨hfraction.isMark, hexponent.isMark⟩⟩

theorem Writes.exists_cons {text : List Char} {d : Decimal} (h : Writes text d) :
    ∃ c cs, text = c :: cs ∧ c.isDigit = true := by
  obtain ⟨whole, fraction, digits, exponent, e, ⟨hne, hdigits⟩, -, -, rfl, -⟩ := h
  obtain ⟨c, cs, rfl⟩ := List.exists_cons_of_ne_nil hne
  exact ⟨c, _, rfl, hdigits c List.mem_cons_self⟩

/-- The sign is told by the first character. -/
theorem Writes.splitSign_eq {text : List Char} {d : Decimal} (h : Writes text d)
    (negative : Bool) :
    splitSign (if negative then '-' :: text else text) = (negative, text) := by
  cases negative with
  | true => rfl
  | false =>
    obtain ⟨c, cs, rfl, hc⟩ := h.exists_cons
    rw [if_neg Bool.false_ne_true]
    unfold splitSign
    split
    next heq =>
      obtain ⟨rfl, -⟩ := List.cons.inj heq
      exact absurd hc (by decide)
    next heq =>
      obtain ⟨rfl, -⟩ := List.cons.inj heq
      exact absurd hc (by decide)
    next => rfl

/-- A text denotes one number at most. -/
theorem Denotes.unique {text : List Char} {negative negative' : Bool} {q q' : ℚ}
    (h : Denotes text negative q) (h' : Denotes text negative' q') :
    negative' = negative ∧ q' = q := by
  obtain ⟨cs, rfl, ⟨n, e⟩, hwrites, rfl⟩ := h
  obtain ⟨cs', heq, ⟨n', e'⟩, hwrites', rfl⟩ := h'
  have hsign := hwrites'.splitSign_eq negative'
  rw [← heq, hwrites.splitSign_eq negative] at hsign
  obtain ⟨rfl, rfl⟩ := Prod.mk.inj hsign
  have hread := hwrites.readUnsigned?_eq.symm.trans hwrites'.readUnsigned?_eq
  obtain ⟨rfl, rfl⟩ := Prod.mk.inj (Option.some.inj hread)
  exact ⟨rfl, rfl⟩

theorem Denotes.denotes_iff {text : List Char} {negative : Bool} {q : ℚ}
    (h : Denotes text negative q) (negative' : Bool) (q' : ℚ) :
    Denotes text negative' q' ↔ negative' = negative ∧ q' = q := by
  constructor
  · exact h.unique
  · rintro ⟨rfl, rfl⟩
    exact h

theorem IsMark.toNat_bounds {c : Char} (h : IsMark c) :
    0x2B ≤ c.toNat ∧ c.toNat < 0x80 ∧ c.toNat ≠ 0x5F := by
  rcases h with h | h
  · simp only [Char.isDigit, Bool.and_eq_true, decide_eq_true_eq,
      UInt32.le_iff_toNat_le, ge_iff_le] at h
    have hlow : 48 ≤ c.toNat := h.1
    have hhigh : c.toNat ≤ 57 := h.2
    omega
  · simp only [List.mem_cons, List.not_mem_nil, or_false] at h
    rcases h with rfl | rfl | rfl | rfl <;> decide

theorem dropUnderscores?_of_isMark {cs : List Char} (before : Char)
    (h : ∀ c ∈ cs, IsMark c) : dropUnderscores? before cs = some cs := by
  induction cs generalizing before with
  | nil => rfl
  | cons c rest ih =>
    obtain ⟨hc, hrest⟩ := List.forall_mem_cons.1 h
    have hne : c ≠ '_' := by
      rintro rfl
      exact hc.toNat_bounds.2.2 rfl
    rw [dropUnderscores?.eq_4 before c rest (fun _ _ heq _ => hne heq)
      (fun heq _ => hne heq), ih c hrest]
    rfl

/-- No character of a numeral is replaced or dropped before it is read. -/
theorem prepare_of_isMark {cs : List Char} (h : ∀ c ∈ cs, IsMark c) :
    dropUnderscores? ' ' ((trim isWhiteSpace cs).map asciiForm) = some cs := by
  have hwhite : ∀ ds : List Char, (∀ c ∈ ds, IsMark c) →
      ds.dropWhile isWhiteSpace = ds := by
    intro ds hds
    refine List.dropWhile_eq_self_iff.2 fun hlen => ?_
    obtain ⟨hlow, hhigh, -⟩ := (hds _ (List.getElem_mem hlen)).toNat_bounds
    simp only [isWhiteSpace, Bool.not_eq_true, Bool.or_eq_false_iff,
      Bool.and_eq_false_iff, decide_eq_false_iff_not, beq_eq_false_iff_ne, ne_eq]
    omega
  have htrim : trim isWhiteSpace cs = cs := by
    rw [trim, hwhite cs h, trimEnd,
      hwhite cs.reverse fun c hc => h c (List.mem_reverse.1 hc),
      List.reverse_reverse]
  have hascii : cs.map asciiForm = cs := by
    refine (List.map_congr_left fun c hc => ?_).trans (List.map_id cs)
    exact if_pos (h c hc).toNat_bounds.2.1
  rw [htrim, hascii, dropUnderscores?_of_isMark ' ' h]

/-- The reader rounds the number that a numeral denotes. -/
theorem read?_of_denotes {text : String} {negative : Bool} {q : ℚ}
    (h : Denotes text.toList negative q) :
    ∃ (n : Nat) (e : ℤ), q = n * 10 ^ e ∧ read? text =
      some (Binary64.signed negative (Binary64.nearestDecimal n e)) := by
  obtain ⟨cs, heq, d, hwrites, hq⟩ := h
  refine ⟨d.digits, d.exponent, hq, ?_⟩
  have hmark : ∀ c ∈ text.toList, IsMark c := by
    rw [heq]
    cases negative with
    | true => exact List.forall_mem_cons.2 ⟨.inr (by simp), hwrites.isMark⟩
    | false => exact hwrites.isMark
  unfold read?
  simp only [prepare_of_isMark hmark]
  rw [heq, hwrites.splitSign_eq]
  simp only [hwrites.readUnsigned?_eq]

end Numeral

namespace Decimal

open Numeral Text

/-! ## Writing decimals -/

theorem digitsToNat_row (d : Decimal) : digitsToNat d.row = d.digits :=
  digitsToNat_toDigits d.digits

theorem isRow_row (d : Decimal) : IsRow d.row := isRow_toDigits d.digits

theorem value_of_nonneg {d : Decimal} (h : 0 ≤ d.exponent) :
    d.value = (d.digits * 10 ^ d.exponent.toNat : Nat) := by
  rw [value, zpow_eq_div, Int.toNat_of_nonpos (by omega : -d.exponent ≤ 0)]
  push_cast
  ring

theorem isRow_row_zeros (d : Decimal) (n : Nat) :
    IsRow (d.row ++ List.replicate n '0') :=
  (isRow_row d).append fun _ => isDigit_of_mem_zeros

theorem digitsToNat_row_zeros (d : Decimal) (n : Nat) :
    digitsToNat (d.row ++ List.replicate n '0') = d.digits * 10 ^ n := by
  rw [digitsToNat_append, digitsToNat_zeros, digitsToNat_row,
    List.length_replicate, Nat.add_zero]

/-- The three shapes of a positional text: the row with zeros behind it, the row
with a point inside, and the row behind a point and zeros. -/
theorem positional_cases (d : Decimal) :
    (0 ≤ d.exponent ∧
      d.positional = d.row ++ List.replicate d.exponent.toNat '0') ∨
    (∃ front back, front ≠ [] ∧ back ≠ [] ∧ d.row = front ++ back ∧
      d.exponent = -(back.length : ℤ) ∧ d.positional = front ++ '.' :: back) ∨
    ∃ n : Nat, d.exponent = -(n + d.row.length : ℤ) ∧
      d.positional = '0' :: '.' :: (List.replicate n '0' ++ d.row) := by
  unfold positional
  split
  next hwhole => exact .inl ⟨hwhole, rfl⟩
  next hexponent =>
    right
    split
    next hpoint =>
      have hlt : d.point.toNat < d.row.length := by unfold point at *; omega
      refine .inl ⟨d.row.take d.point.toNat, d.row.drop d.point.toNat, ?_, ?_,
        (List.take_append_drop _ _).symm, ?_, rfl⟩
      · exact List.ne_nil_of_length_pos (by rw [List.length_take]; omega)
      · exact List.ne_nil_of_length_pos (by rw [List.length_drop]; omega)
      · rw [List.length_drop]
        unfold point at *
        omega
    next hpoint =>
      refine .inr ⟨(-d.point).toNat, ?_, rfl⟩
      unfold point at *
      omega

/-- A whole number is written out up to its units. -/
theorem writes_positional_of_nonneg {d : Decimal} (h : 0 ≤ d.exponent) :
    Writes d.positional ⟨d.digits * 10 ^ d.exponent.toNat, 0⟩ := by
  refine ⟨_, [], [], [], 0, isRow_row_zeros d d.exponent.toNat, .none, .none,
    by simp [positional, h], ?_⟩
  rw [List.append_nil, digitsToNat_row_zeros]
  simp

/-- A number with places behind the point keeps its digits. -/
theorem writes_positional_of_neg {d : Decimal} (h : d.exponent < 0) :
    Writes d.positional d := by
  have hrow := isRow_row d
  have hnat := digitsToNat_row d
  rcases positional_cases d with ⟨hwhole, -⟩ |
    ⟨front, back, hfront, hback, hsplit, hexponent, htext⟩ | ⟨n, hexponent, htext⟩
  · exact absurd hwhole (Int.not_le.2 h)
  · rw [hsplit] at hrow hnat
    obtain ⟨hleft, hright⟩ := List.forall_mem_append.1 hrow.2
    refine ⟨front, _, back, [], 0, ⟨hfront, hleft⟩, .digits ⟨hback, hright⟩, .none,
      by simp [htext], ?_⟩
    rw [hnat, zero_sub, ← hexponent]
  · refine ⟨['0'], _, List.replicate n '0' ++ d.row, [], 0, ⟨by simp, by simp⟩,
      .digits (hrow.prepend fun _ => isDigit_of_mem_zeros), .none,
      by simp [htext], ?_⟩
    have hzeros : digitsToNat (['0'] ++ (List.replicate n '0' ++ d.row)) =
        d.digits := by
      rw [← List.append_assoc, digitsToNat_append, hnat,
        show ['0'] ++ List.replicate n '0' = List.replicate (n + 1) '0' from rfl,
        digitsToNat_zeros, Nat.zero_mul, Nat.zero_add]
    rw [hzeros, List.length_append, List.length_replicate, zero_sub,
      Nat.cast_add, ← hexponent]

theorem spells_positional (d : Decimal) : Spells d.positional d.value := by
  rcases lt_or_ge d.exponent 0 with hneg | hwhole
  · exact ⟨d, writes_positional_of_neg hneg, rfl⟩
  · refine ⟨_, writes_positional_of_nonneg hwhole, ?_⟩
    rw [value_of_nonneg hwhole, value]
    simp

theorem isExponent_exponentPart (e : ℤ) : IsExponent (exponentPart e) e := by
  obtain ⟨cs, hcs⟩ : ∃ cs, cs = List.replicate
      (2 - (Nat.toDigits 10 e.natAbs).length) '0' ++ Nat.toDigits 10 e.natAbs :=
    ⟨_, rfl⟩
  have hrow : IsRow cs :=
    hcs ▸ (isRow_toDigits e.natAbs).prepend fun _ => isDigit_of_mem_zeros
  have hnat : digitsToNat cs = e.natAbs := by
    rw [hcs, digitsToNat_append, digitsToNat_zeros, digitsToNat_toDigits,
      Nat.zero_mul, Nat.zero_add]
  unfold exponentPart
  dsimp only
  rw [← hcs]
  split
  next hneg =>
    have h := IsExponent.negative hrow
    rwa [hnat, show -(e.natAbs : ℤ) = e by omega] at h
  next hneg =>
    have h := IsExponent.positive hrow
    rwa [hnat, show (e.natAbs : ℤ) = e by omega] at h

theorem writes_scientific (d : Decimal) : Writes d.scientific d := by
  have hrow := isRow_row d
  have hnat := digitsToNat_row d
  have hexponent := isExponent_exponentPart (d.point - 1)
  unfold scientific
  unfold point at hexponent ⊢
  generalize d.row = row at hrow hnat hexponent ⊢
  split
  next first second rest =>
    refine ⟨[first], _, second :: rest, _, _, ⟨by simp, ?_⟩,
      .digits ⟨by simp, ?_⟩, hexponent, by simp, ?_⟩
    · intro c hc
      exact hrow.2 c (List.mem_cons.2 (.inl (List.mem_singleton.1 hc)))
    · exact fun c hc => hrow.2 c (List.mem_cons_of_mem _ hc)
    · rw [List.singleton_append, hnat, List.length_cons, List.length_cons,
        show (rest.length + 1 + 1 : Nat) + d.exponent - 1 -
          (rest.length + 1 : Nat) = d.exponent by omega]
  next hshort =>
    -- The row is not empty, so it is a single digit.
    obtain ⟨c, cs, rfl⟩ := List.exists_cons_of_ne_nil hrow.1
    cases cs with
    | cons second rest => exact absurd rfl (hshort c second rest)
    | nil =>
      refine ⟨[c], [], [], _, _, hrow, .none, hexponent, by simp, ?_⟩
      rw [List.append_nil, hnat, List.length_singleton, List.length_nil,
        show (1 : Nat) + d.exponent - 1 - (0 : Nat) = d.exponent by omega]

/-- The zero behind the point is one more digit. -/
theorem writes_positional_point {d : Decimal} (h : 0 ≤ d.exponent) :
    Writes (d.positional ++ ['.', '0'])
      ⟨d.digits * 10 ^ (d.exponent.toNat + 1), -1⟩ := by
  refine ⟨_, _, ['0'], [], 0, isRow_row_zeros d d.exponent.toNat,
    .digits ⟨by simp, by simp⟩, .none, by simp [positional, h], ?_⟩
  rw [digitsToNat_append, digitsToNat_row_zeros,
    show digitsToNat ['0'] = 0 from rfl, Nat.add_zero, List.length_singleton,
    pow_one, pow_succ, Nat.mul_assoc]
  rfl

/-- The three forms of the general notation. -/
theorem general_cases (d : Decimal) :
    d.general = d.scientific ∨
    (0 ≤ d.exponent ∧ d.general = d.positional ++ ['.', '0']) ∨
    (d.exponent < 0 ∧ d.general = d.positional) := by
  unfold general
  split
  next => exact .inl rfl
  next =>
    split
    next hwhole => exact .inr (.inl ⟨hwhole, rfl⟩)
    next hneg => exact .inr (.inr ⟨Int.not_le.1 hneg, rfl⟩)

theorem spells_general (d : Decimal) : Spells d.general d.value := by
  rcases general_cases d with htext | ⟨hwhole, htext⟩ | ⟨hneg, htext⟩ <;>
    rw [htext]
  · exact ⟨d, writes_scientific d, rfl⟩
  · refine ⟨_, writes_positional_point hwhole, ?_⟩
    rw [value_of_nonneg hwhole, value, pow_succ, zpow_neg_one]
    push_cast
    ring
  · exact spells_positional d

/-! ## The plain form -/

theorem toDigits_head_ne_zero {n : Nat} (hn : n ≠ 0) :
    (Nat.toDigits 10 n).head? ≠ some '0' := by
  induction n using Nat.strongRecOn with
  | _ n ih =>
    rcases Nat.lt_or_ge n 10 with hlt | hge
    · rw [Nat.toDigits_of_lt_base hlt, List.head?_cons, ne_eq, Option.some.injEq,
        Nat.digitChar_eq_zero]
      exact hn
    · rw [Nat.toDigits_of_base_le (by decide) hge,
        List.head?_append_of_ne_nil _ Nat.toDigits_ne_nil]
      exact ih (n / 10) (by omega) (by omega)

theorem getLast?_row (d : Decimal) :
    d.row.getLast? = some (d.digits % 10).digitChar := by
  unfold row
  rcases Nat.lt_or_ge d.digits 10 with hlt | hge
  · rw [Nat.toDigits_of_lt_base hlt, Nat.mod_eq_of_lt hlt]
    rfl
  · rw [Nat.toDigits_of_base_le (by decide) hge, List.getLast?_concat]

/-- A decimal with a negative exponent that does not end in a zero is not
whole. -/
theorem not_whole_of_neg {d : Decimal} (hlast : d.digits % 10 ≠ 0)
    (hneg : d.exponent < 0) : ¬ ∃ n : ℤ, d.value = n := by
  rintro ⟨n, hn⟩
  obtain ⟨k, hk⟩ : ∃ k : Nat, -d.exponent = (k + 1 : Nat) :=
    ⟨(-d.exponent).toNat - 1, by omega⟩
  have hexponent : d.exponent = -((k + 1 : Nat) : ℤ) := by omega
  rw [value, hexponent, zpow_neg, zpow_natCast, ← div_eq_mul_inv,
    div_eq_iff (by positivity), pow_succ] at hn
  have hint : (d.digits : ℤ) = n * 10 ^ k * 10 := by
    have : ((d.digits : ℤ) : ℚ) = ((n * 10 ^ k * 10 : ℤ) : ℚ) := by
      push_cast
      linarith
    exact_mod_cast this
  omega

/-- The text is `whole` and, if there is a fraction, a point and the fraction; a
minus stands in front of negative numbers. There is a point only if the number is
not whole, and neither part has a zero too many. -/
structure IsPlainForm (text : List Char) (negative : Bool) (q : ℚ)
    (whole fraction : List Char) : Prop where
  text_eq : text = (if negative then ['-'] else []) ++ whole ++
    (if fraction = [] then [] else '.' :: fraction)
  whole_isRow : IsRow whole
  fraction_isDigit : ∀ c ∈ fraction, c.isDigit = true
  point_iff : '.' ∈ text ↔ ¬ ∃ n : ℤ, q = n
  last_ne_zero : fraction.getLast? ≠ some '0'
  first_eq_zero : whole.head? = some '0' →
    whole = ['0'] ∧ (fraction ≠ [] ∨ q = 0)

theorem isPlainForm_of {cs whole fraction : List Char} {q : ℚ} (negative : Bool)
    (hcs : cs = whole ++ (if fraction = [] then [] else '.' :: fraction))
    (hwhole : IsRow whole) (hfraction : ∀ c ∈ fraction, c.isDigit = true)
    (hpoint : fraction ≠ [] ↔ ¬ ∃ n : ℤ, q = n)
    (hlast : fraction.getLast? ≠ some '0')
    (hfirst : whole.head? = some '0' → whole = ['0'] ∧ (fraction ≠ [] ∨ q = 0)) :
    IsPlainForm (if negative then '-' :: cs else cs) negative q whole fraction := by
  subst hcs
  refine ⟨by cases negative <;> simp, hwhole, hfraction, ?_, hlast, hfirst⟩
  rw [← hpoint]
  have hnot : '.' ∉ whole := fun h => absurd (hwhole.2 _ h) (by decide)
  cases negative <;> by_cases hempty : fraction = [] <;> simp [hnot, hempty]

theorem IsCanonical.eq_zero_of_head {d : Decimal} (h : d.IsCanonical)
    (hhead : d.row.head? = some '0') : d = ⟨0, 0⟩ := by
  refine h.resolve_right fun hlast => ?_
  refine toDigits_head_ne_zero (fun hzero => hlast ?_) hhead
  rw [hzero]

/-- With a negative exponent there is a fraction, and no zero ends it. -/
theorem IsCanonical.fraction_of_neg {d : Decimal} (h : d.IsCanonical)
    (hneg : d.exponent < 0) : d ≠ ⟨0, 0⟩ ∧ (¬ ∃ n : ℤ, d.value = n) ∧
      d.row.getLast? ≠ some '0' := by
  have hne : d ≠ ⟨0, 0⟩ := by
    rintro rfl
    exact absurd hneg (Int.lt_irrefl 0)
  have hlast := h.resolve_left hne
  refine ⟨hne, not_whole_of_neg hlast hneg, ?_⟩
  rw [getLast?_row, ne_eq, Option.some.injEq, Nat.digitChar_eq_zero]
  exact hlast

/-- A decimal that does not end in a zero has no zero too many when it is
written. -/
theorem isPlainForm_positional {d : Decimal} (h : d.IsCanonical)
    (negative : Bool) : ∃ whole fraction, IsPlainForm
      (if negative then '-' :: d.positional else d.positional) negative d.value
      whole fraction := by
  have hrow := isRow_row d
  have hzero := h.eq_zero_of_head
  rcases positional_cases d with ⟨hwhole, htext⟩ |
    ⟨front, back, hfront, hback, hsplit, hexponent, htext⟩ | ⟨n, hexponent, htext⟩
  · refine ⟨_, [], isPlainForm_of negative
      (by rw [htext, if_pos rfl, List.append_nil])
      (isRow_row_zeros d _) (by simp) ?_ (by simp) fun hhead => ?_⟩
    · have hvalue : ∃ n : ℤ, d.value = n :=
        ⟨_, by exact_mod_cast value_of_nonneg hwhole⟩
      simp [hvalue]
    · rw [List.head?_append_of_ne_nil _ hrow.1] at hhead
      obtain rfl := hzero hhead
      exact ⟨rfl, .inr (by simp [value])⟩
  · have hlength := List.length_pos_of_ne_nil hback
    obtain ⟨hne, hfraction, hlast⟩ := h.fraction_of_neg (by omega)
    rw [hsplit] at hrow hzero hlast
    obtain ⟨hleft, hright⟩ := List.forall_mem_append.1 hrow.2
    rw [List.getLast?_append_of_ne_nil _ hback] at hlast
    rw [List.head?_append_of_ne_nil _ hfront] at hzero
    exact ⟨front, back, isPlainForm_of negative (by rw [htext, if_neg hback])
      ⟨hfront, hleft⟩ hright (by simp [hback, hfraction]) hlast
      fun hhead => absurd (hzero hhead) hne⟩
  · have hlength := List.length_pos_of_ne_nil hrow.1
    obtain ⟨-, hfraction, hlast⟩ := h.fraction_of_neg (by omega)
    have hback : List.replicate n '0' ++ d.row ≠ [] :=
      List.append_ne_nil_of_right_ne_nil _ hrow.1
    refine ⟨['0'], _, isPlainForm_of negative
      (by rw [htext, if_neg hback, List.singleton_append]) ⟨by simp, by simp⟩
      (hrow.prepend fun _ => isDigit_of_mem_zeros).2 (by simp [hback, hfraction]) ?_
      fun _ => ⟨rfl, .inl hback⟩⟩
    rw [List.getLast?_append_of_ne_nil _ hrow.1]
    exact hlast

end Decimal

end Scriptlet
