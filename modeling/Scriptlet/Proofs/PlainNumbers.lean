import Scriptlet.Proofs.DecimalTexts

/-!
# The plain notation

The plain text of a double is made by edits of its general text: an exponent is
carried out, and a fraction of zeros is dropped, but only behind a point. What
comes out is the shortest decimal in positional notation
(`Binary64.plain_eq_showWith`).

Which edits are made depends on whether the double is whole, while what they do
depends on the decimal. The two agree, although the decimal is only near the
double: a double is whole exactly if its shortest decimal has no places behind the
point (`Binary64.whole_iff`). A whole double is itself a decimal without such
places, so none that has them is the shortest. And where doubles have a fraction,
whole numbers are doubles, so that one which is rounded to a double is equal to it.
-/

namespace Scriptlet

open Text Numeral

/-! ## Carrying out an exponent -/

namespace Decimal

/-- A numeral is written again with its own digits, in positional notation. -/
theorem expand_of_writes {cs : List Char} {d : Decimal} (h : Writes cs d)
    (negative : Bool) :
    expand (if negative then '-' :: cs else cs) =
      if negative then '-' :: d.positional else d.positional := by
  unfold expand
  rw [h.splitSign_eq negative]
  simp only [h.readUnsigned?_eq]

theorem toDigits_mul_pow {n : Nat} (hn : 0 < n) (k : Nat) :
    Nat.toDigits 10 (n * 10 ^ k) =
      Nat.toDigits 10 n ++ List.replicate k '0' := by
  induction k with
  | zero => simp
  | succ k ih =>
      have hpos : 0 < n * 10 ^ k := by positivity
      have hstep := Nat.toDigits_append_toDigits (by decide : 1 < 10) hpos
        (by decide : 0 < 10)
      rw [Nat.add_zero, ← Nat.mul_assoc, Nat.mul_comm 10 n, Nat.mul_assoc,
        ← Nat.pow_succ', ih] at hstep
      rw [← hstep, List.append_assoc, List.replicate_succ']
      rfl

/-- With one zero more, a whole number is written with that zero behind a
point. -/
theorem positional_of_point {d : Decimal} (h : d.IsCanonical)
    (hwhole : 0 ≤ d.exponent) :
    positional ⟨d.digits * 10 ^ (d.exponent.toNat + 1), -1⟩ =
      d.positional ++ ['.', '0'] := by
  rcases Nat.eq_zero_or_pos d.digits with hzero | hpos
  · obtain rfl : d = ⟨0, 0⟩ := h.resolve_right fun hlast => hlast (by rw [hzero])
    rfl
  · have hrow : row ⟨d.digits * 10 ^ (d.exponent.toNat + 1), -1⟩ =
        d.positional ++ ['0'] := by
      rw [row, toDigits_mul_pow hpos, positional, if_pos hwhole,
        List.replicate_succ', List.append_assoc]
      rfl
    have hlength : 0 < d.positional.length := by
      rw [positional, if_pos hwhole, List.length_append]
      have := List.length_pos_of_ne_nil (isRow_row d).1
      omega
    have hpoint : point ⟨d.digits * 10 ^ (d.exponent.toNat + 1), -1⟩ =
        d.positional.length := by
      rw [point, hrow, List.length_append, List.length_singleton]
      push_cast
      ring
    rw [positional, if_neg (by simp), hpoint, if_pos (by omega), hrow,
      Int.toNat_natCast, List.take_left, List.drop_left]

/-! ## Dropping a fraction of zeros -/

theorem dropFractionZeros_of_notMem {cs : List Char} (h : '.' ∉ cs) :
    dropFractionZeros cs = cs :=
  if_neg h

/-- The zero behind a point goes and then the point, and no zero before it. -/
theorem dropFractionZeros_point {cs : List Char} (h : cs.getLast? ≠ some '.') :
    dropFractionZeros (cs ++ ['.', '0']) = cs := by
  have hlast : cs.reverse.dropWhile (· == '.') = cs.reverse := by
    refine List.dropWhile_eq_self_iff.2 fun hlength heq => h ?_
    rw [← List.head?_reverse, List.head?_eq_getElem?, List.getElem?_eq_getElem hlength,
      beq_iff_eq.1 heq]
  unfold dropFractionZeros
  rw [if_pos (by simp)]
  simp [trimEnd, hlast]

example : dropFractionZeros ['1', '0', '.', '0'] = ['1', '0'] := by decide

example : dropFractionZeros ['1', '0'] = ['1', '0'] := by decide

/-! ## What the edits come to -/

/-- The characters of positional texts. -/
theorem eq_point_of_mem_positional {d : Decimal} {c : Char}
    (h : c ∈ d.positional) : c.isDigit = true ∨ c = '.' := by
  have hdigit := (isRow_row d).2
  have hzeros := fun n => @isDigit_of_mem_zeros n c
  rcases positional_cases d with ⟨-, htext⟩ | ⟨front, back, -, -, hsplit, -, htext⟩ |
    ⟨n, -, htext⟩ <;> rw [htext] at h
  · rcases List.mem_append.1 h with hc | hc
    · exact .inl (hdigit c hc)
    · exact .inl (hzeros _ hc)
  · rw [hsplit] at hdigit
    simp only [List.mem_append, List.mem_cons] at h hdigit
    rcases h with hc | rfl | hc
    · exact .inl (hdigit c (.inl hc))
    · exact .inr rfl
    · exact .inl (hdigit c (.inr hc))
  · simp only [List.mem_cons, List.mem_append] at h
    rcases h with rfl | rfl | hc | hc
    · exact .inl rfl
    · exact .inr rfl
    · exact .inl (hzeros _ hc)
    · exact .inl (hdigit c hc)

theorem isRow_positional {d : Decimal} (h : 0 ≤ d.exponent) :
    IsRow d.positional := by
  rw [positional, if_pos h]
  exact isRow_row_zeros d _

theorem mem_scientific (d : Decimal) : 'e' ∈ d.scientific :=
  List.mem_append_right _ List.mem_cons_self

section

variable {d : Decimal}

/-- A whole number loses its exponent or its point, and has no zero too few. -/
theorem dropFractionZeros_expand_general (h : d.IsCanonical)
    (hwhole : 0 ≤ d.exponent) (negative : Bool) :
    dropFractionZeros
        (expand (if negative then '-' :: d.general else d.general)) =
      if negative then '-' :: d.positional else d.positional := by
  obtain ⟨hne, hdigits⟩ := isRow_positional hwhole
  have hnot : '.' ∉ d.positional := fun hmem => absurd (hdigits _ hmem) (by decide)
  rcases general_cases d with htext | ⟨-, htext⟩ | ⟨hneg, -⟩
  · rw [htext, expand_of_writes (writes_scientific d)]
    refine dropFractionZeros_of_notMem ?_
    cases negative <;> simp [hnot]
  · have hlast : ∀ front, (front ++ d.positional).getLast? ≠ some '.' := by
      intro front hlast
      rw [List.getLast?_append_of_ne_nil _ hne] at hlast
      exact hnot (List.mem_of_getLast? hlast)
    rw [htext, expand_of_writes (writes_positional_point hwhole),
      positional_of_point h hwhole]
    cases negative with
    | true => exact dropFractionZeros_point (hlast ['-'])
    | false => exact dropFractionZeros_point (hlast [])
  · omega

/-- A number with places behind the point loses its exponent, if it has one. -/
theorem expand_general (hneg : d.exponent < 0) (negative : Bool) :
    let numeral := if negative then '-' :: d.general else d.general
    (if 'e' ∈ numeral then expand numeral else numeral) =
      if negative then '-' :: d.positional else d.positional := by
  intro numeral
  rcases general_cases d with htext | ⟨hwhole, -⟩ | ⟨-, htext⟩
  · have hmem : 'e' ∈ numeral := by
      have := mem_scientific d
      cases negative <;> simp [numeral, htext, this]
    rw [if_pos hmem]
    simp only [numeral, htext]
    exact expand_of_writes (writes_scientific d) negative
  · omega
  · have hnot : 'e' ∉ d.positional := by
      intro hmem
      rcases eq_point_of_mem_positional hmem with hc | hc
      · exact absurd hc (by decide)
      · exact absurd hc (by decide)
    have hnumeral : 'e' ∉ numeral := by
      cases negative <;> simp [numeral, htext, hnot]
    rw [if_neg hnumeral]
    simp only [numeral, htext]

end

end Decimal

namespace Binary64

/-! ## Whole doubles -/

section

variable {exponent mantissa : Nat}

theorem isSome_toInt?_iff (negative : Bool) (mantissa : Nat) (e : ℤ) :
    (toInt? (.finite negative mantissa e)).isSome = true ↔
      ∃ n : ℤ, (mantissa : ℚ) * 2 ^ e = n := by
  have hpos : (0 : ℚ) < 2 ^ (-e).toNat := by positivity
  simp only [toInt?, Nat.pow_eq]
  rw [zpow_eq_div, ← mul_div_assoc]
  split
  next hmod =>
    obtain ⟨k, hk⟩ := Nat.dvd_of_mod_eq_zero hmod
    refine iff_of_true rfl ⟨k, ?_⟩
    rw [div_eq_iff hpos.ne']
    have : ((mantissa * 2 ^ e.toNat : Nat) : ℚ) = (2 ^ (-e).toNat * k : Nat) := by
      rw [hk]
    push_cast at this ⊢
    linarith
  next hmod =>
    refine iff_of_false Bool.false_ne_true ?_
    rintro ⟨n, hn⟩
    rw [div_eq_iff hpos.ne'] at hn
    have hint : ((mantissa * 2 ^ e.toNat : Nat) : ℤ) =
        n * (2 ^ (-e).toNat : Nat) := by
      exact_mod_cast hn
    refine hmod (Nat.mod_eq_zero_of_dvd ?_)
    exact Int.natCast_dvd_natCast.1 ⟨n, by rw [hint, mul_comm]⟩

/-- A double is nearest to its own value. -/
theorem isNearest_magnitude {bits : Nat} (h : bits ≤ infinityBits) :
    IsNearest (magnitude bits) bits := by
  refine ⟨h, fun other _ => ?_, fun other _ hne heq => ?_⟩
  · rw [sub_self, abs_zero]
    exact abs_nonneg _
  · rw [sub_self, abs_zero, eq_comm, abs_eq_zero, sub_eq_zero] at heq
    exact absurd (strictMono_magnitude.injective heq).symm hne

theorem spacing_mono {a b : Nat} (h : a ≤ b) : spacing a ≤ spacing b := by
  refine zpow_le_zpow_right₀ one_le_two ?_
  have := Nat.div_le_div_right (c := 2 ^ 52) h
  omega

/-- A double is whole if it is the nearest one to a whole number. Both are
multiples of the spacing of doubles there, and less than one apart. -/
theorem magnitude_eq_of_isNearest (h : IsPair exponent mantissa)
    (hpos : 0 < mantissa) (hlt : exponent * 2 ^ 52 + mantissa < infinityBits)
    (hneg : (exponent - 1074 : ℤ) ≤ 0) {n : Nat}
    (hnear : IsNearest n (exponent * 2 ^ 52 + mantissa)) :
    (mantissa : ℚ) * 2 ^ (exponent - 1074 : ℤ) = n := by
  obtain ⟨j, hj⟩ : ∃ j : Nat, (n : ℚ) = j * 2 ^ (exponent - 1074 : ℤ) := by
    refine ⟨n * 2 ^ (-(exponent - 1074 : ℤ)).toNat, ?_⟩
    rw [zpow_eq_div, Int.toNat_of_nonpos hneg, pow_zero]
    push_cast
    field_simp
  obtain ⟨below, hbelow⟩ : ∃ below, below + 1 = exponent * 2 ^ 52 + mantissa :=
    ⟨exponent * 2 ^ 52 + mantissa - 1, by omega⟩
  obtain ⟨habove, -⟩ := hnear.aboveMidpoint below hbelow
  obtain ⟨hupper, -⟩ := hnear.belowMidpoint hlt
  have hstep := magnitude_succ below
  have hspacing := spacing_mono (Nat.le_succ below)
  rw [magnitude_succ] at hupper
  rw [Nat.succ_eq_add_one, hbelow] at hspacing
  rw [hbelow] at hstep
  rw [h.spacing_eq] at hspacing hupper
  rw [h.magnitude_eq] at hstep habove hupper
  have hunit : (0 : ℚ) < 2 ^ (exponent - 1074 : ℤ) := zpow_pos two_pos _
  rw [hj] at habove hupper ⊢
  generalize (2 : ℚ) ^ (exponent - 1074 : ℤ) = unit at *
  have hle : (2 * j : ℚ) ≤ 2 * mantissa + 1 := by
    refine le_of_mul_le_mul_right ?_ hunit
    linarith
  have hge : (2 * mantissa : ℚ) ≤ 2 * j + 1 := by
    refine le_of_mul_le_mul_right ?_ hunit
    linarith
  have heq : mantissa = j := by
    have hle' : 2 * j ≤ 2 * mantissa + 1 := by exact_mod_cast hle
    have hge' : 2 * mantissa ≤ 2 * j + 1 := by exact_mod_cast hge
    omega
  rw [heq]

/-- A double is whole exactly if its shortest decimal has no places behind the
point. -/
theorem whole_iff (h : IsPair exponent mantissa)
    (hlt : exponent * 2 ^ 52 + mantissa < infinityBits) (negative : Bool) :
    (toInt? (.finite negative mantissa (exponent - 1074))).isSome = true ↔
      0 ≤ (Decimal.shortest mantissa (exponent - 1074)).exponent := by
  rw [isSome_toInt?_iff]
  rcases Nat.eq_zero_or_pos mantissa with rfl | hpos
  · exact iff_of_true ⟨0, by simp⟩ (by simp [Decimal.shortest])
  have hshortest := Decimal.isShortest_shortest h hpos hlt
  generalize Decimal.shortest mantissa (exponent - 1074) = d at hshortest
  constructor
  · rintro ⟨n, hn⟩
    by_contra hneg
    have hvalue : (0 : ℚ) < mantissa * 2 ^ (exponent - 1074 : ℤ) := by positivity
    rw [hn] at hvalue
    have hn_pos : 0 < n := by exact_mod_cast hvalue
    obtain ⟨k, rfl⟩ := Int.eq_ofNat_of_zero_le hn_pos.le
    refine hshortest.coarser k 0 (by omega) (Int.not_le.1 hneg) ?_
    rw [zpow_zero, mul_one, ← Int.cast_natCast, ← hn, ← h.magnitude_eq]
    exact isNearest_magnitude hlt.le
  · intro hwhole
    rcases le_total (exponent - 1074 : ℤ) 0 with hneg | hnonneg
    · have hnear := hshortest.nearest
      rw [Decimal.value_of_nonneg hwhole] at hnear
      exact ⟨_, by exact_mod_cast magnitude_eq_of_isNearest h hpos hlt hneg hnear⟩
    · refine ⟨mantissa * 2 ^ (exponent - 1074 : ℤ).toNat, ?_⟩
      rw [zpow_eq_div, Int.toNat_of_nonpos (by omega : -(exponent - 1074 : ℤ) ≤ 0)]
      push_cast
      ring

end

/-! ## The plain text of a double -/

/-- The exponent field is not the one of infinities and of what is no number. -/
def IsFinite (bits : UInt64) : Prop := bits.toNat / 2 ^ 52 % 2 ^ 11 ≠ 2047

instance (bits : UInt64) : Decidable (IsFinite bits) :=
  inferInstanceAs (Decidable (_ ≠ _))

/-- The fields of a finite double, as a mantissa and an exponent. -/
theorem ofBits_of_isFinite {bits : UInt64} (h : IsFinite bits) :
    ∃ exponent mantissa : Nat, IsPair exponent mantissa ∧
      bits.toNat % 2 ^ 63 = exponent * 2 ^ 52 + mantissa ∧
      exponent * 2 ^ 52 + mantissa < infinityBits ∧
      ofBits bits = .finite (bits.toNat / 2 ^ 63 == 1) mantissa (exponent - 1074) := by
  have hlt := bits.toNat_lt
  unfold IsFinite at h
  have hinfinity : infinityBits = 2047 * 2 ^ 52 := rfl
  unfold ofBits
  simp only [Nat.pow_eq]
  rw [if_neg h]
  split
  next hfield =>
    refine ⟨0, bits.toNat % 2 ^ 52, ⟨.inl rfl, by omega⟩, by omega, by omega, rfl⟩
  next hfield =>
    refine ⟨bits.toNat / 2 ^ 52 % 2 ^ 11 - 1, 2 ^ 52 + bits.toNat % 2 ^ 52,
      ⟨.inr (by omega), by omega⟩, by omega, by omega, ?_⟩
    congr 1
    omega

theorem isFinite_of_ofBits {bits : UInt64} {negative : Bool} {mantissa : Nat}
    {e : ℤ} (h : ofBits bits = .finite negative mantissa e) : IsFinite bits := by
  intro hfield
  unfold ofBits at h
  simp only [Nat.pow_eq] at h
  rw [if_pos hfield] at h
  split at h <;> cases h

theorem isCanonical_shortest {exponent mantissa : Nat}
    (h : IsPair exponent mantissa)
    (hlt : exponent * 2 ^ 52 + mantissa < infinityBits) :
    (Decimal.shortest mantissa (exponent - 1074)).IsCanonical := by
  rcases Nat.eq_zero_or_pos mantissa with rfl | hpos
  · exact .inl rfl
  · exact (Decimal.isShortest_shortest h hpos hlt).isCanonical

/-- The edits of the general text give the shortest decimal in positional
notation. -/
theorem plain_eq_showWith (x : Float) :
    plain x = (ofFloat x).showWith Decimal.positional := by
  unfold plain
  cases hx : ofFloat x with
  | nan => rfl
  | infinite negative => rfl
  | finite negative mantissa e =>
      obtain ⟨exponent, mantissa', hpair, -, hlt, hfields⟩ :=
        ofBits_of_isFinite (isFinite_of_ofBits hx)
      obtain ⟨-, rfl, rfl⟩ := Binary64.finite.inj (hx.symm.trans hfields)
      have hcanonical := isCanonical_shortest hpair hlt
      have hwhole := whole_iff hpair hlt negative
      have hgeneral : (general x).toList =
          if negative then
            '-' :: (Decimal.shortest mantissa (exponent - 1074)).general
          else (Decimal.shortest mantissa (exponent - 1074)).general := by
        rw [general, hx, showWith, String.toList_ofList]
      dsimp only [showWith]
      rw [hgeneral]
      split
      next hsome =>
        split
        next hzero =>
          obtain ⟨rfl, rfl⟩ := hzero
          rw [if_pos rfl, Decimal.shortest, if_pos rfl]
          rfl
        next =>
          rw [Decimal.dropFractionZeros_expand_general hcanonical (hwhole.1 hsome)]
      next hnone =>
        have hneg := Int.not_le.1 fun hle => hnone (hwhole.2 hle)
        rw [← Decimal.expand_general hneg negative, ← apply_ite String.ofList]

end Binary64

end Scriptlet
