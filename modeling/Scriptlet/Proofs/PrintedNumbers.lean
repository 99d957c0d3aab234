import Scriptlet.Evaluator
import Scriptlet.Proofs.PlainNumbers
import Scriptlet.Proofs.Rounding

/-!
# Printed numbers

A finite double is printed as a numeral that only this double is nearest to, with
the sign of zero kept (`Binary64.printed_numbers_read_back`). So the literal with
that text has the double as its value, and different doubles have different
texts.

The plain text, which is edited from the general one, denotes the same number,
without an exponent and without a digit too many
(`Binary64.plain_text_is_positional`).
-/

namespace Scriptlet.Binary64

open Numeral Decimal

/-! ## Bit patterns with a sign -/

/-- The number with this sign and size is rounded to this double. The sign goes
into the sign bit also when the size is rounded to zero. -/
structure Rounds (negative : Bool) (q : ℚ) (bits : UInt64) : Prop where
  sign : bits.toNat / 2 ^ 63 = if negative then 1 else 0
  nearest : IsNearest q (bits.toNat % 2 ^ 63)

/-- A number is rounded to one double only. -/
theorem Rounds.unique {negative : Bool} {q : ℚ} {bits other : UInt64}
    (h : Rounds negative q bits) (h' : Rounds negative q other) :
    other = bits := by
  have hsign := h'.sign.trans h.sign.symm
  have hsize := h'.nearest.unique h.nearest
  refine UInt64.toNat_inj.1 ?_
  rw [← Nat.div_add_mod other.toNat (2 ^ 63), hsign, hsize,
    Nat.div_add_mod bits.toNat (2 ^ 63)]

theorem Rounds.rounds_iff {negative : Bool} {q : ℚ} {bits : UInt64}
    (h : Rounds negative q bits) (other : UInt64) :
    Rounds negative q other ↔ other = bits := by
  constructor
  · exact h.unique
  · rintro rfl
    exact h

/-- What the reader puts together is the double that is rounded to. -/
theorem Rounds.signed_eq {negative : Bool} {q : ℚ} {bits : UInt64} {size : Nat}
    (h : Rounds negative q bits) (hsize : IsNearest q size) :
    signed negative size = Float.ofBits bits := by
  have hbits : size + (if negative then Nat.pow 2 63 else 0) = bits.toNat := by
    have hsign := h.sign
    rw [hsize.unique h.nearest, Nat.pow_eq]
    cases negative <;> simp only [if_true, if_false, Bool.false_eq_true] at hsign ⊢ <;>
      omega
  rw [signed, hbits, UInt64.ofNat_toNat]

/-- Every finite pattern is the pattern of a double. -/
theorem toBits_ofBits {bits : UInt64} (h : IsFinite bits) :
    (Float.ofBits bits).toBits = bits := by
  -- Making a double changes only the patterns of what is no number.
  have hexponent : (@Float.Model.UnpackedFloat.unpackExponent .binary64
      bits.toBitVec).toNat = bits.toNat / 2 ^ 52 % 2 ^ 11 := by
    simp [Float.Model.UnpackedFloat.unpackExponent, Nat.shiftRight_eq_div_pow]
  have hnumber : @Float.Model.UnpackedFloat.isNaNBits .binary64 bits.toBitVec =
      false := by
    rw [Float.Model.UnpackedFloat.isNaNBits, decide_eq_false_iff_not]
    rintro ⟨hall, -⟩
    rw [hall] at hexponent
    exact h hexponent.symm
  have hpack := @Float.Model.UnpackedFloat.pack_unpack .binary64 bits.toBitVec
  rw [hnumber] at hpack
  exact congrArg UInt64.ofBitVec (hpack (by decide))

/-! ## The decimal of a double -/

/-- Both notations write one decimal: it is rounded to the double, and it does not
end in a zero. -/
theorem exists_decimal {bits : UInt64} (h : IsFinite bits) :
    ∃ (negative : Bool) (d : Decimal), Rounds negative d.value bits ∧
      d.IsCanonical ∧ ∀ write : Decimal → List Char,
        ((ofFloat (Float.ofBits bits)).showWith write).toList =
          if negative then '-' :: write d else write d := by
  obtain ⟨exponent, mantissa, hpair, hsize, hlt, hfields⟩ := ofBits_of_isFinite h
  refine ⟨bits.toNat / 2 ^ 63 == 1, shortest mantissa (exponent - 1074),
    ⟨?_, ?_⟩, ?_, fun write => ?_⟩
  · have hbound := bits.toNat_lt
    split
    next hone => exact beq_iff_eq.1 hone
    next hone =>
      rw [beq_iff_eq] at hone
      omega
  · rw [hsize]
    rcases Nat.eq_zero_or_pos mantissa with rfl | hpos
    · -- Zero is not searched for, and has the least exponent.
      have hzero : exponent = 0 := by have := hpair.normal; omega
      rw [hzero, show (shortest 0 _).value = 0 by simp [shortest, value]]
      exact isNearest_of_small (zpow_pos (by norm_num) _).le
    · exact (isShortest_shortest hpair hpos hlt).nearest
  · exact isCanonical_shortest hpair hlt
  · rw [ofFloat, toBits_ofBits h, hfields, showWith, String.toList_ofList]

theorem exists_denotes {bits : UInt64} (h : IsFinite bits) :
    ∃ negative q, Denotes (plain (Float.ofBits bits)).toList negative q ∧
      Denotes (general (Float.ofBits bits)).toList negative q ∧
      Rounds negative q bits ∧ ∃ whole fraction,
        IsPlainForm (plain (Float.ofBits bits)).toList negative q whole fraction := by
  obtain ⟨negative, d, hrounds, hlast, hshow⟩ := exists_decimal h
  rw [plain_eq_showWith]
  refine ⟨negative, d.value, ⟨_, hshow _, spells_positional d⟩,
    ⟨_, hshow _, spells_general d⟩, hrounds, ?_⟩
  have hform := isPlainForm_positional hlast negative
  rwa [← hshow] at hform

/-- A numeral is read as the double that its number is rounded to. -/
theorem read?_of_rounds {text : String} {negative : Bool} {q : ℚ} {bits : UInt64}
    (h : Denotes text.toList negative q) (hrounds : Rounds negative q bits) :
    read? text = some (Float.ofBits bits) := by
  obtain ⟨n, e, rfl, hread⟩ := read?_of_denotes h
  rw [hread, hrounds.signed_eq (isNearest_nearestDecimal n e)]

theorem evaluate_number_of_read? (setting : Setting) (limit : Nat) {text : String}
    {x : Float} (h : read? text = some x) (site : Site) (scope : ScopeId)
    (m : Machine) :
    evaluate setting (limit + 1) (.number (.text text)) site scope m =
      .done (.number x) m := by
  have hliteral : evalLiteral (.text text) = .ok (.number x) := by
    rw [evalLiteral, h]
  rw [evaluate, hliteral]
  rfl

/-! ## Main statements -/

/-- The text of a finite double denotes one number, and this number is rounded to
the double and to no other. So a literal with the text is evaluated to the double,
and another finite double has another text. -/
theorem printed_numbers_read_back (bits : UInt64) (h : IsFinite bits) :
    (Float.ofBits bits).toBits = bits ∧
    (∃ negative q,
      (∀ negative' q', Denotes (plain (Float.ofBits bits)).toList negative' q' ↔
        negative' = negative ∧ q' = q) ∧
      ∀ other, Rounds negative q other ↔ other = bits) ∧
    (∃ text, (Value.number (Float.ofBits bits)).display? = some text ∧
      ∀ setting limit site scope m,
        evaluate setting (limit + 1) (.number (.text text)) site scope m =
          .done (.number (Float.ofBits bits)) m) ∧
    ∀ other, IsFinite other →
      plain (Float.ofBits other) = plain (Float.ofBits bits) → other = bits := by
  obtain ⟨negative, q, hdenotes, -, hrounds, -⟩ := exists_denotes h
  refine ⟨toBits_ofBits h,
    ⟨negative, q, hdenotes.denotes_iff, hrounds.rounds_iff⟩,
    ⟨_, rfl, fun setting limit site scope m => ?_⟩, fun other hother heq => ?_⟩
  · exact evaluate_number_of_read? setting limit (read?_of_rounds hdenotes hrounds)
      site scope m
  · obtain ⟨negative', q', hdenotes', -, hrounds', -⟩ := exists_denotes hother
    rw [heq] at hdenotes'
    obtain ⟨rfl, rfl⟩ := hdenotes.unique hdenotes'
    exact hrounds.unique hrounds'

/-- The two zeros are told apart by their texts. -/
theorem zeros_print_differently :
    IsFinite 0x8000000000000000 ∧ IsFinite 0 ∧
      plain (Float.ofBits 0) ≠ plain (Float.ofBits 0x8000000000000000) := by
  refine ⟨by decide, by decide, fun heq => ?_⟩
  have h := (printed_numbers_read_back 0x8000000000000000 (by decide)).2.2.2 0
    (by decide) heq
  exact absurd h (by decide)

/-- The plain text of a finite double denotes what the general one denotes. It has
no exponent, a point only if the number is not whole, no zero at the end of a
fraction, and no zero in front but the one that stands alone. -/
theorem plain_text_is_positional (x : Float) (h : IsFinite x.toBits) :
    ∃ negative q,
      (∀ negative' q', Denotes (general x).toList negative' q' ↔
        negative' = negative ∧ q' = q) ∧
      (∀ negative' q', Denotes (plain x).toList negative' q' ↔
        negative' = negative ∧ q' = q) ∧
      ∃ whole fraction,
        IsPlainForm (plain x).toList negative q whole fraction := by
  have hdenotes := exists_denotes h
  rw [Float.ofBits_toBits] at hdenotes
  obtain ⟨negative, q, hplain, hgeneral, -, hform⟩ := hdenotes
  exact ⟨negative, q, hgeneral.denotes_iff, hplain.denotes_iff, hform⟩

/-- The least double, whose general text has an exponent. -/
theorem least_double_is_positional :
    IsFinite (Float.ofBits 1).toBits ∧ ∃ negative q whole fraction,
      Denotes (general (Float.ofBits 1)).toList negative q ∧
        IsPlainForm (plain (Float.ofBits 1)).toList negative q whole fraction := by
  have hfinite : IsFinite (Float.ofBits 1).toBits := by
    rw [toBits_ofBits (by decide)]
    decide
  obtain ⟨negative, q, hgeneral, -, whole, fraction, hform⟩ :=
    plain_text_is_positional (Float.ofBits 1) hfinite
  exact ⟨hfinite, negative, q, whole, fraction, (hgeneral _ _).2 ⟨rfl, rfl⟩, hform⟩

end Scriptlet.Binary64
