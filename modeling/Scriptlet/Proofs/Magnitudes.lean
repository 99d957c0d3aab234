import Mathlib
import Scriptlet.Decimal.Rounding

/-!
# Doubles on the line of rationals

Without its sign bit, the bit pattern of a double is a natural number, and
larger patterns stand for larger values (`Binary64.magnitude`,
`Binary64.strictMono_magnitude`). Taking the patterns in this order makes
neighbours easy to name: the double above `b` is `b + 1`, and it is a power of
two away (`Binary64.magnitude_succ`).

Which double a rational is rounded to is said without an algorithm: none is
nearer, and of two at the same distance it is the one with the even mantissa
(`Binary64.IsNearest`). There is only one such double
(`Binary64.IsNearest.unique`), and to find out whether a double is it, only the
midpoints to its neighbours have to be looked at
(`Binary64.isNearest_of_midpoints`).
-/

namespace Scriptlet

/-! ## Powers with whole exponents -/

/-- A power with a negative exponent divides by a power with a natural one, so
comparing with powers of either kind is comparing natural numbers. -/
theorem zpow_eq_div (base : ℚ) (e : ℤ) :
    base ^ e = base ^ e.toNat / base ^ (-e).toNat := by
  rcases Int.le_total 0 e with h | h
  · rw [Int.toNat_of_nonpos (by omega : -e ≤ 0), pow_zero, div_one,
      ← zpow_natCast, Int.toNat_of_nonneg h]
  · rw [Int.toNat_of_nonpos h, pow_zero, ← zpow_natCast,
      Int.toNat_of_nonneg (by omega : 0 ≤ -e), zpow_neg, one_div, inv_inv]

/-- How a power of two is told from a power of ten without writing them
out. -/
theorem two_pow_le_ten_pow (k : Nat) : 2 ^ (93 * k) ≤ 10 ^ (28 * k) := by
  rw [pow_mul, pow_mul]
  exact Nat.pow_le_pow_left (by norm_num) k

/-- The number of digits tells between which powers of ten a number lies. -/
theorem zpow_length_toDigits {n : Nat} (hn : 0 < n) :
    (10 : ℚ) ^ ((Nat.toDigits 10 n).length - 1 : ℤ) ≤ n ∧
      (n : ℚ) < 10 ^ ((Nat.toDigits 10 n).length : ℤ) := by
  obtain ⟨k, hk⟩ : ∃ k, (Nat.toDigits 10 n).length = k + 1 :=
    Nat.exists_eq_add_one.2 Nat.length_toDigits_pos
  have hlt : n < 10 ^ (k + 1) :=
    (Nat.length_toDigits_le_iff (by decide) k.succ_pos).1 hk.le
  have hle : 10 ^ k ≤ n := by
    by_contra hnot
    rcases Nat.eq_zero_or_pos k with rfl | hpos
    · omega
    · have := (Nat.length_toDigits_le_iff (by decide) hpos).2 (Nat.not_le.1 hnot)
      omega
  rw [hk]
  push_cast
  rw [add_sub_cancel_right]
  exact ⟨by exact_mod_cast hle, by exact_mod_cast hlt⟩

namespace Binary64

/-! ## Values of bit patterns -/

/-- The value of a bit pattern without a sign: 52 bits of fraction, and the
exponent in front of them. From the pattern of infinity on, the values are
those that would come if the exponents went on. -/
def magnitude (bits : Nat) : ℚ :=
  if bits / 2 ^ 52 = 0 then (bits % 2 ^ 52 : Nat) * 2 ^ (-1074 : ℤ)
  else (2 ^ 52 + bits % 2 ^ 52 : Nat) * 2 ^ ((bits / 2 ^ 52 : Nat) - 1075 : ℤ)

/-- A mantissa and an exponent, counted from the least one, that belong
together: the mantissa has 53 bits unless the exponent is the least one. -/
structure IsPair (exponent mantissa : Nat) : Prop where
  normal : exponent = 0 ∨ 2 ^ 52 ≤ mantissa
  lt : mantissa < 2 ^ 53

/-- The pattern of a mantissa and an exponent. A mantissa that has become too
large by one carries into the exponent, so the value is right in that case as
well. -/
theorem magnitude_mul_add {exponent mantissa : Nat}
    (hnormal : exponent = 0 ∨ 2 ^ 52 ≤ mantissa) (hle : mantissa ≤ 2 ^ 53) :
    magnitude (exponent * 2 ^ 52 + mantissa) =
      mantissa * 2 ^ (exponent - 1074 : ℤ) := by
  unfold magnitude
  rcases Nat.lt_or_ge mantissa (2 ^ 52) with hsmall | hlarge
  · obtain rfl : exponent = 0 := by omega
    rw [if_pos (by omega), Nat.zero_mul, Nat.zero_add, Nat.mod_eq_of_lt hsmall]
    norm_num
  · rw [if_neg (by omega)]
    rcases Nat.lt_or_eq_of_le hle with hlt | rfl
    · have hfield : (exponent * 2 ^ 52 + mantissa) / 2 ^ 52 = exponent + 1 := by
        omega
      have hfraction : 2 ^ 52 + (exponent * 2 ^ 52 + mantissa) % 2 ^ 52 =
          mantissa := by omega
      rw [hfield, hfraction]
      congr 2
      push_cast
      ring
    · have hfield : (exponent * 2 ^ 52 + 2 ^ 53) / 2 ^ 52 = exponent + 2 := by
        omega
      have hfraction : 2 ^ 52 + (exponent * 2 ^ 52 + 2 ^ 53) % 2 ^ 52 =
          2 ^ 52 := by omega
      have hexponent : ((exponent + 2 : Nat) - 1075 : ℤ) =
          1 + (exponent - 1074 : ℤ) := by
        push_cast
        ring
      rw [hfield, hfraction, hexponent, zpow_add₀ two_ne_zero]
      push_cast
      ring

theorem exists_isPair (bits : Nat) : ∃ exponent mantissa,
    IsPair exponent mantissa ∧ bits = exponent * 2 ^ 52 + mantissa :=
  ⟨bits / 2 ^ 52 - 1, bits - (bits / 2 ^ 52 - 1) * 2 ^ 52,
    ⟨by omega, by omega⟩, by omega⟩

def spacing (bits : Nat) : ℚ := 2 ^ ((bits / 2 ^ 52 - 1 : Nat) - 1074 : ℤ)

theorem spacing_pos (bits : Nat) : 0 < spacing bits := zpow_pos two_pos _

theorem IsPair.magnitude_eq {exponent mantissa : Nat}
    (h : IsPair exponent mantissa) :
    magnitude (exponent * 2 ^ 52 + mantissa) =
      mantissa * 2 ^ (exponent - 1074 : ℤ) :=
  magnitude_mul_add h.normal (Nat.le_of_lt h.lt)

theorem IsPair.spacing_eq {exponent mantissa : Nat}
    (h : IsPair exponent mantissa) :
    spacing (exponent * 2 ^ 52 + mantissa) = 2 ^ (exponent - 1074 : ℤ) := by
  obtain ⟨hnormal, hlt⟩ := h
  have hfield : (exponent * 2 ^ 52 + mantissa) / 2 ^ 52 - 1 = exponent := by
    omega
  rw [spacing, hfield]

theorem magnitude_succ (bits : Nat) :
    magnitude (bits + 1) = magnitude bits + spacing bits := by
  obtain ⟨exponent, mantissa, hpair, rfl⟩ := exists_isPair bits
  obtain ⟨hnormal, hlt⟩ := hpair
  rw [IsPair.magnitude_eq ⟨hnormal, hlt⟩, IsPair.spacing_eq ⟨hnormal, hlt⟩,
    Nat.add_assoc, magnitude_mul_add (by omega) hlt]
  push_cast
  ring

theorem strictMono_magnitude : StrictMono magnitude := by
  refine strictMono_nat_of_lt_succ fun bits => ?_
  rw [magnitude_succ]
  exact lt_add_of_pos_right _ (spacing_pos bits)

theorem magnitude_zero : magnitude 0 = 0 := by
  norm_num [magnitude]

/-! ## The nearest double -/

/-- No double is nearer to the rational, and of two doubles at the same
distance this one has an even mantissa. The pattern of infinity takes part with
the value that it would have. -/
structure IsNearest (q : ℚ) (bits : Nat) : Prop where
  le_infinity : bits ≤ infinityBits
  nearest : ∀ other ≤ infinityBits,
    |q - magnitude bits| ≤ |q - magnitude other|
  even : ∀ other ≤ infinityBits, other ≠ bits →
    |q - magnitude bits| = |q - magnitude other| → bits % 2 = 0

/-- A rational is rounded to one double only. -/
theorem IsNearest.unique {q : ℚ} {a b : Nat} (ha : IsNearest q a)
    (hb : IsNearest q b) : a = b := by
  -- By symmetry `a` is the smaller one, if they differ.
  wlog hlt : a < b generalizing a b with hsymm
  · rcases Nat.lt_trichotomy a b with h | h | h
    · exact absurd h hlt
    · exact h
    · exact (hsymm hb ha h).symm
  exfalso
  have hdist : |q - magnitude a| = |q - magnitude b| :=
    le_antisymm (ha.nearest b hb.le_infinity) (hb.nearest a ha.le_infinity)
  have heven := ha.even b hb.le_infinity (Nat.ne_of_gt hlt) hdist
  have heven' := hb.even a ha.le_infinity (Nat.ne_of_lt hlt) hdist.symm
  -- The double behind `a` is between the two and therefore nearer.
  have hleft : magnitude a < magnitude (a + 1) :=
    strictMono_magnitude (Nat.lt_succ_self a)
  have hright : magnitude (a + 1) < magnitude b :=
    strictMono_magnitude (by omega)
  have hnear := ha.nearest (a + 1) (by have := hb.le_infinity; omega)
  rcases abs_cases (q - magnitude a) with ⟨h₁, _⟩ | ⟨h₁, _⟩ <;>
    rcases abs_cases (q - magnitude b) with ⟨h₂, _⟩ | ⟨h₂, _⟩ <;>
    rcases abs_cases (q - magnitude (a + 1)) with ⟨h₃, _⟩ | ⟨h₃, _⟩ <;>
    rw [h₁, h₂] at hdist <;> rw [h₁, h₃] at hnear <;> linarith

/-- The rational is not below the midpoint to the double below, and on it only
if the double has an even mantissa. -/
def AboveMidpoint (q : ℚ) (bits : Nat) : Prop :=
  ∀ below, below + 1 = bits →
    magnitude below + magnitude bits ≤ 2 * q ∧
      (magnitude below + magnitude bits = 2 * q → bits % 2 = 0)

/-- The rational is not above the midpoint to the double above, and on it only
if the double has an even mantissa. -/
def BelowMidpoint (q : ℚ) (bits : Nat) : Prop :=
  2 * q ≤ magnitude bits + magnitude (bits + 1) ∧
    (2 * q = magnitude bits + magnitude (bits + 1) → bits % 2 = 0)

theorem AboveMidpoint.nearer {q : ℚ} {bits other : Nat}
    (h : AboveMidpoint q bits) (hlt : other < bits) :
    |q - magnitude bits| ≤ |q - magnitude other| ∧
      (|q - magnitude bits| = |q - magnitude other| → bits % 2 = 0) := by
  obtain ⟨below, rfl⟩ : ∃ below, bits = below + 1 :=
    Nat.exists_eq_add_one_of_ne_zero (by omega)
  obtain ⟨hmid, heven⟩ := h below rfl
  have hother : magnitude other ≤ magnitude below :=
    strictMono_magnitude.monotone (by omega)
  have hstep : magnitude below < magnitude (below + 1) :=
    strictMono_magnitude (Nat.lt_succ_self below)
  rw [abs_of_nonneg (show 0 ≤ q - magnitude other by linarith)]
  rcases abs_cases (q - magnitude (below + 1)) with ⟨habs, _⟩ | ⟨habs, _⟩ <;>
    rw [habs]
  · refine ⟨by linarith, fun heq => ?_⟩
    linarith
  · refine ⟨by linarith, fun heq => heven ?_⟩
    linarith

theorem BelowMidpoint.nearer {q : ℚ} {bits other : Nat}
    (h : BelowMidpoint q bits) (hlt : bits < other) :
    |q - magnitude bits| ≤ |q - magnitude other| ∧
      (|q - magnitude bits| = |q - magnitude other| → bits % 2 = 0) := by
  obtain ⟨hmid, heven⟩ := h
  have hother : magnitude (bits + 1) ≤ magnitude other :=
    strictMono_magnitude.monotone hlt
  have hstep : magnitude bits < magnitude (bits + 1) :=
    strictMono_magnitude (Nat.lt_succ_self bits)
  rw [abs_of_nonpos (show q - magnitude other ≤ 0 by linarith)]
  rcases abs_cases (q - magnitude bits) with ⟨habs, _⟩ | ⟨habs, _⟩ <;>
    rw [habs]
  · refine ⟨by linarith, fun heq => heven ?_⟩
    linarith
  · refine ⟨by linarith, fun heq => ?_⟩
    linarith

/-- A double is nearest to what lies between the midpoints to its
neighbours. -/
theorem isNearest_of_midpoints {q : ℚ} {bits : Nat}
    (hle : bits ≤ infinityBits) (habove : AboveMidpoint q bits)
    (hbelow : bits < infinityBits → BelowMidpoint q bits) :
    IsNearest q bits := by
  have hnearer : ∀ other ≤ infinityBits, other ≠ bits →
      |q - magnitude bits| ≤ |q - magnitude other| ∧
        (|q - magnitude bits| = |q - magnitude other| → bits % 2 = 0) := by
    intro other hother hne
    rcases Nat.lt_or_gt_of_ne hne with hlt | hgt
    · exact habove.nearer hlt
    · exact (hbelow (Nat.lt_of_lt_of_le hgt hother)).nearer hgt
  refine ⟨hle, fun other hother => ?_, fun other hother hne =>
    (hnearer other hother hne).2⟩
  by_cases hne : other = bits
  · rw [hne]
  · exact (hnearer other hother hne).1

theorem IsNearest.aboveMidpoint {q : ℚ} {bits : Nat} (h : IsNearest q bits) :
    AboveMidpoint q bits := by
  rintro below rfl
  have hle : below ≤ infinityBits := by have := h.le_infinity; omega
  have hstep : magnitude below < magnitude (below + 1) :=
    strictMono_magnitude (Nat.lt_succ_self below)
  have hnear := h.nearest below hle
  have heven := h.even below hle (Nat.ne_of_lt (Nat.lt_succ_self below))
  rcases abs_cases (q - magnitude (below + 1)) with ⟨h₁, _⟩ | ⟨h₁, _⟩ <;>
    rcases abs_cases (q - magnitude below) with ⟨h₂, _⟩ | ⟨h₂, _⟩ <;>
    rw [h₁, h₂] at hnear heven <;>
    exact ⟨by linarith, fun heq => heven (by linarith)⟩

theorem IsNearest.belowMidpoint {q : ℚ} {bits : Nat} (h : IsNearest q bits)
    (hlt : bits < infinityBits) : BelowMidpoint q bits := by
  have hstep : magnitude bits < magnitude (bits + 1) :=
    strictMono_magnitude (Nat.lt_succ_self bits)
  have hnear := h.nearest (bits + 1) hlt
  have heven := h.even (bits + 1) hlt (Nat.ne_of_gt (Nat.lt_succ_self bits))
  rcases abs_cases (q - magnitude bits) with ⟨h₁, _⟩ | ⟨h₁, _⟩ <;>
    rcases abs_cases (q - magnitude (bits + 1)) with ⟨h₂, _⟩ | ⟨h₂, _⟩ <;>
    rw [h₁, h₂] at hnear heven <;>
    exact ⟨by linarith, fun heq => heven (by linarith)⟩

/-- A finite double is nearest to exactly what lies between its midpoints. -/
theorem isNearest_iff {q : ℚ} {bits : Nat} (hlt : bits < infinityBits) :
    IsNearest q bits ↔ AboveMidpoint q bits ∧ BelowMidpoint q bits :=
  ⟨fun h => ⟨h.aboveMidpoint, h.belowMidpoint hlt⟩, fun h =>
    isNearest_of_midpoints (Nat.le_of_lt hlt) h.1 fun _ => h.2⟩

end Binary64

end Scriptlet
