import Scriptlet.Proofs.Magnitudes

/-!
# Rounding is to the nearest double

A quotient of natural numbers is brought onto the grid of the doubles around it
and rounded there to a whole number (`Binary64.RoundsHalfEven`). The mantissa
that comes out lies between the right midpoints also at the three places where
the grid changes: under a power of two, where the doubles are twice as dense; at
a mantissa of `2 ^ 53`, which carries into the exponent; and at the subnormal
doubles, which have no leading bit. So `Binary64.nearest` finds the nearest
double, and so does `Binary64.nearestDecimal` for every decimal, those included
that are settled by their size alone.
-/

namespace Scriptlet.Binary64

/-! ## Rounding to a whole number -/

/-- The whole number is at most a half away, and exactly a half only if it is
even. -/
structure RoundsHalfEven (x : ℚ) (m : Nat) : Prop where
  le : 2 * x ≤ 2 * m + 1
  ge : 2 * m - 1 ≤ 2 * x
  even : 2 * x = 2 * m + 1 ∨ 2 * x = 2 * m - 1 → m % 2 = 0

theorem roundsHalfEven_roundHalfEven (n : Nat) {d : Nat} (hd : 0 < d) :
    RoundsHalfEven (n / d) (roundHalfEven n d) := by
  have hd' : (0 : ℚ) < d := by exact_mod_cast hd
  -- The quotient is its whole part `n / d` and a part `t` below one.
  obtain ⟨t, ht⟩ : ∃ t : ℚ, t = (n % d : Nat) / d := ⟨_, rfl⟩
  have hsplit : (n : ℚ) / d = (n / d : Nat) + t := by
    rw [ht, div_eq_iff hd'.ne', add_mul, div_mul_cancel₀ _ hd'.ne']
    exact_mod_cast (Nat.div_add_mod' n d).symm
  have hnonneg : 0 ≤ t := by rw [ht]; positivity
  have hlt : t < 1 := by
    rw [ht, div_lt_one hd']
    exact_mod_cast Nat.mod_lt n hd
  have hhalf : 2 * (n % d) < d ↔ 2 * t < 1 := by
    rw [ht, ← mul_div_assoc, div_lt_one hd']
    exact_mod_cast Iff.rfl
  have htie : 2 * (n % d) = d ↔ 2 * t = 1 := by
    rw [ht, ← mul_div_assoc, div_eq_one_iff_eq hd'.ne']
    exact_mod_cast Iff.rfl
  unfold roundHalfEven
  simp only [hhalf, htie, hsplit]
  split
  next h =>
    have hle : 2 * t ≤ 1 := h.elim le_of_lt fun h => h.1.le
    refine ⟨by linarith, by linarith, ?_⟩
    rintro (heq | heq)
    · exact h.elim (fun h => by linarith) And.right
    · linarith
  next h =>
    rw [not_or, not_and, not_lt] at h
    obtain ⟨hge, hodd⟩ := h
    refine ⟨by push_cast; linarith, by push_cast; linarith, ?_⟩
    push_cast
    rintro (heq | heq)
    · linarith
    · have := hodd (by linarith)
      omega

/-! ## The grid of a quotient -/

/-- How a quotient is compared with a power of two in natural numbers. -/
theorem zpow_le_quotient_iff (n : Nat) {d : Nat} (hd : 0 < d) (e : ℤ) :
    (if 0 ≤ e then d * Nat.pow 2 e.toNat ≤ n
      else d ≤ n * Nat.pow 2 (-e).toNat) ↔ (2 : ℚ) ^ e ≤ n / d := by
  have hd' : (0 : ℚ) < d := by exact_mod_cast hd
  rw [le_div_iff₀ hd', zpow_eq_div]
  split
  next h =>
    rw [Int.toNat_of_nonpos (by omega : -e ≤ 0), pow_zero, div_one,
      mul_comm, Nat.pow_eq]
    exact_mod_cast Iff.rfl
  next h =>
    rw [Int.toNat_of_nonpos (by omega : e ≤ 0), pow_zero, div_mul_eq_mul_div,
      one_mul, div_le_iff₀ (by positivity), Nat.pow_eq]
    exact_mod_cast Iff.rfl

/-- A number lies between the powers of two that its logarithm gives. -/
theorem zpow_log2_le {n : Nat} (hn : 0 < n) :
    (2 : ℚ) ^ (n.log2 : ℤ) ≤ n ∧ (n : ℚ) < 2 ^ (n.log2 + 1 : ℤ) := by
  refine ⟨by exact_mod_cast Nat.log2_self_le hn.ne', ?_⟩
  exact_mod_cast Nat.lt_log2_self

theorem zpow_log2Quotient_le {n d : Nat} (hn : 0 < n) (hd : 0 < d) :
    (2 : ℚ) ^ log2Quotient n d ≤ n / d ∧
      (n : ℚ) / d < 2 ^ (log2Quotient n d + 1) := by
  obtain ⟨hnlow, hnhigh⟩ := zpow_log2_le hn
  obtain ⟨hdlow, hdhigh⟩ := zpow_log2_le hd
  have hn' : (0 : ℚ) < n := by exact_mod_cast hn
  have hd' : (0 : ℚ) < d := by exact_mod_cast hd
  have hbelow : (n : ℚ) / d < 2 ^ ((n.log2 - d.log2 : ℤ) + 1) := by
    calc (n : ℚ) / d < 2 ^ (n.log2 + 1 : ℤ) / d := by gcongr
      _ ≤ 2 ^ (n.log2 + 1 : ℤ) / 2 ^ (d.log2 : ℤ) := by gcongr
      _ = 2 ^ ((n.log2 - d.log2 : ℤ) + 1) := by
          rw [← zpow_sub₀ two_ne_zero]
          congr 1
          ring
  have habove : (2 : ℚ) ^ ((n.log2 - d.log2 : ℤ) - 1) ≤ n / d := by
    calc (2 : ℚ) ^ ((n.log2 - d.log2 : ℤ) - 1)
        = 2 ^ (n.log2 : ℤ) / 2 ^ (d.log2 + 1 : ℤ) := by
          rw [← zpow_sub₀ two_ne_zero]
          congr 1
          ring
      _ ≤ n / 2 ^ (d.log2 + 1 : ℤ) := by gcongr
      _ ≤ n / d := by gcongr
  unfold log2Quotient
  simp only [zpow_le_quotient_iff n hd]
  split
  next h => exact ⟨h, hbelow⟩
  next h =>
    rw [sub_add_cancel]
    exact ⟨habove, not_le.1 h⟩

/-- The quotient, counted in steps of its grid, has at most 53 bits, and no
fewer unless the grid is the finest one. -/
theorem quotient_div_gridExponent {n d : Nat} (hn : 0 < n) (hd : 0 < d) :
    (n : ℚ) / d / 2 ^ gridExponent n d < 2 ^ 53 ∧
      (gridExponent n d = minExponent ∨
        (2 : ℚ) ^ 52 ≤ n / d / 2 ^ gridExponent n d) := by
  obtain ⟨hlow, hhigh⟩ := zpow_log2Quotient_le hn hd
  have hpos : (0 : ℚ) < 2 ^ gridExponent n d := zpow_pos two_pos _
  constructor
  · rw [div_lt_iff₀ hpos, ← zpow_natCast, ← zpow_add₀ two_ne_zero]
    refine lt_of_lt_of_le hhigh (zpow_le_zpow_right₀ one_le_two ?_)
    unfold gridExponent
    push_cast
    omega
  · rcases Int.le_total (log2Quotient n d - 52) minExponent with h | h
    · exact .inl (max_eq_left h)
    · right
      rw [le_div_iff₀ hpos, ← zpow_natCast, ← zpow_add₀ two_ne_zero,
        gridExponent, max_eq_right h]
      refine le_of_eq_of_le ?_ hlow
      congr 1
      push_cast
      ring

/-! ## From the grid to the midpoints -/

section

variable {q x : ℚ} {exponent mantissa : Nat}

theorem mantissa_le (hlt : x < 2 ^ 53) (h : RoundsHalfEven x mantissa) :
    mantissa ≤ 2 ^ 53 := by
  have hge := h.ge
  have : (mantissa : ℚ) < (2 ^ 53 + 1 : Nat) := by
    push_cast
    linarith
  exact Nat.le_of_lt_succ (by exact_mod_cast this)

theorem le_mantissa (hle : 2 ^ 52 ≤ x) (h : RoundsHalfEven x mantissa) :
    2 ^ 52 ≤ mantissa := by
  have hle' := h.le
  have : ((2 ^ 52 : Nat) : ℚ) < (mantissa + 1 : Nat) := by
    push_cast
    linarith
  exact Nat.le_of_lt_succ (by exact_mod_cast this)

/-- A step up from a mantissa is at least a step of its grid, also where the
mantissa carries. -/
theorem zpow_le_spacing (hnormal : exponent = 0 ∨ 2 ^ 52 ≤ mantissa) :
    (2 : ℚ) ^ (exponent - 1074 : ℤ) ≤
      spacing (exponent * 2 ^ 52 + mantissa) := by
  refine zpow_le_zpow_right₀ one_le_two ?_
  have : exponent ≤ (exponent * 2 ^ 52 + mantissa) / 2 ^ 52 - 1 := by omega
  omega

theorem belowMidpoint_of_roundsHalfEven
    (hq : q = x * 2 ^ (exponent - 1074 : ℤ)) (h : RoundsHalfEven x mantissa)
    (hnormal : exponent = 0 ∨ 2 ^ 52 ≤ mantissa) (hle : mantissa ≤ 2 ^ 53) :
    BelowMidpoint q (exponent * 2 ^ 52 + mantissa) := by
  have hstep := zpow_le_spacing hnormal
  have hpos : (0 : ℚ) < 2 ^ (exponent - 1074 : ℤ) := zpow_pos two_pos _
  have hmid : 2 * q ≤ (2 * mantissa + 1) * 2 ^ (exponent - 1074 : ℤ) := by
    rw [hq, ← mul_assoc]
    exact mul_le_mul_of_nonneg_right h.le hpos.le
  rw [BelowMidpoint, magnitude_succ, magnitude_mul_add hnormal hle]
  refine ⟨by linarith, fun heq => ?_⟩
  have hx : 2 * x = 2 * mantissa + 1 := by
    refine mul_right_cancel₀ hpos.ne' (le_antisymm ?_ ?_)
    · rw [mul_assoc, ← hq]
      exact hmid
    · rw [mul_assoc, ← hq]
      linarith
  have := h.even (.inl hx)
  omega

theorem aboveMidpoint_of_roundsHalfEven
    (hq : q = x * 2 ^ (exponent - 1074 : ℤ)) (h : RoundsHalfEven x mantissa)
    (hnormal : exponent = 0 ∨ 2 ^ 52 ≤ x) (hle : mantissa ≤ 2 ^ 53) :
    AboveMidpoint q (exponent * 2 ^ 52 + mantissa) := by
  have hnormal' : exponent = 0 ∨ 2 ^ 52 ≤ mantissa :=
    hnormal.imp_right fun hx => le_mantissa hx h
  have hpos : (0 : ℚ) < 2 ^ (exponent - 1074 : ℤ) := zpow_pos two_pos _
  intro below hbelow
  rw [magnitude_mul_add hnormal' hle]
  by_cases hsame : exponent = 0 ∨ 2 ^ 52 < mantissa
  · -- The double below is on the same grid.
    obtain ⟨m, rfl⟩ : ∃ m, mantissa = m + 1 :=
      Nat.exists_eq_add_one_of_ne_zero (by omega)
    obtain rfl : below = exponent * 2 ^ 52 + m := by omega
    have hmid : (2 * (m + 1 : Nat) - 1) * (2 : ℚ) ^ (exponent - 1074 : ℤ) ≤
        2 * q := by
      rw [hq, ← mul_assoc]
      exact mul_le_mul_of_nonneg_right h.ge hpos.le
    rw [magnitude_mul_add (by omega) (by omega)]
    push_cast at hmid ⊢
    refine ⟨by linarith, fun heq => ?_⟩
    have hx : 2 * x = 2 * (m + 1 : Nat) - 1 := by
      refine mul_right_cancel₀ hpos.ne' ?_
      rw [mul_assoc, ← hq]
      push_cast
      linarith
    have := h.even (.inr hx)
    omega
  · -- A power of two: its grid does not reach further down, so neither does `x`.
    obtain ⟨hne, hnot⟩ := not_or.1 hsame
    have hx : (mantissa : ℚ) ≤ x := by
      have : mantissa ≤ 2 ^ 52 := Nat.not_lt.1 hnot
      calc (mantissa : ℚ) ≤ (2 ^ 52 : Nat) := by exact_mod_cast this
        _ = 2 ^ 52 := by norm_num
        _ ≤ x := hnormal.resolve_left hne
    have hmid : mantissa * (2 : ℚ) ^ (exponent - 1074 : ℤ) ≤ q := by
      rw [hq]
      exact mul_le_mul_of_nonneg_right hx hpos.le
    have hlt : magnitude below < mantissa * 2 ^ (exponent - 1074 : ℤ) := by
      rw [← magnitude_mul_add hnormal' hle]
      exact strictMono_magnitude (by omega)
    exact ⟨by linarith, fun heq => by linarith⟩

end

/-! ## The ends of the line -/

theorem isNearest_zero {q : ℚ} (h : 2 * q < magnitude 1) : IsNearest q 0 := by
  refine isNearest_of_midpoints (Nat.zero_le _) (fun below hbelow => ?_)
    fun _ => ?_
  · omega
  · rw [BelowMidpoint, magnitude_zero, zero_add, zero_add]
    exact ⟨h.le, fun heq => absurd heq h.ne⟩

/-- What is past the midpoint below a double is past those below smaller
doubles. -/
theorem AboveMidpoint.mono {q : ℚ} {a b : Nat} (h : AboveMidpoint q b)
    (hle : a ≤ b) : AboveMidpoint q a := by
  rcases Nat.eq_or_lt_of_le hle with rfl | hlt
  · exact h
  · obtain ⟨c, rfl⟩ : ∃ c, b = c + 1 :=
      Nat.exists_eq_add_one_of_ne_zero (by omega)
    obtain ⟨hmid, -⟩ := h c rfl
    intro below hbelow
    have hbelow' : magnitude below < magnitude c :=
      strictMono_magnitude (by omega)
    have ha : magnitude a < magnitude (c + 1) := strictMono_magnitude hlt
    exact ⟨by linarith, fun heq => by linarith⟩

/-- Past the last midpoint, infinity is nearest. -/
theorem isNearest_infinity {q : ℚ} {bits : Nat} (h : AboveMidpoint q bits)
    (hle : infinityBits ≤ bits) : IsNearest q infinityBits :=
  isNearest_of_midpoints (Nat.le_refl _) (h.mono hle)
    fun hlt => absurd hlt (Nat.lt_irrefl _)

/-! ## Quotients and decimals -/

/-- What `nearest` rounds, whichever side the power of two stands on. -/
theorem roundsHalfEven_grid (n : Nat) {d : Nat} (hd : 0 < d) (e : ℤ) :
    RoundsHalfEven (n / d / 2 ^ e)
      (if 0 ≤ e then roundHalfEven n (d * Nat.pow 2 e.toNat)
        else roundHalfEven (n * Nat.pow 2 (-e).toNat) d) := by
  rw [zpow_eq_div]
  split
  next h =>
    rw [Int.toNat_of_nonpos (by omega : -e ≤ 0), pow_zero, div_one, div_div]
    have hpos : 0 < d * Nat.pow 2 e.toNat := Nat.mul_pos hd (Nat.two_pow_pos _)
    exact_mod_cast roundsHalfEven_roundHalfEven n hpos
  next h =>
    rw [Int.toNat_of_nonpos (by omega : e ≤ 0), pow_zero, div_div_eq_mul_div,
      div_one, div_mul_eq_mul_div]
    exact_mod_cast roundsHalfEven_roundHalfEven (n * Nat.pow 2 (-e).toNat) hd

/-- The double that `nearest` finds is the nearest one. -/
theorem isNearest_nearest (n : Nat) {d : Nat} (hd : 0 < d) :
    IsNearest (n / d) (nearest n d) := by
  unfold nearest
  split
  next hn =>
    rw [hn, Nat.cast_zero, zero_div]
    refine isNearest_zero ?_
    rw [mul_zero, ← magnitude_zero]
    exact strictMono_magnitude Nat.one_pos
  next hn =>
    obtain ⟨hlt, hnormal⟩ := quotient_div_gridExponent (Nat.pos_of_ne_zero hn) hd
    have hround := roundsHalfEven_grid n hd (gridExponent n d)
    have hgrid : minExponent ≤ gridExponent n d := le_max_left _ _
    dsimp only
    generalize gridExponent n d = e at hlt hnormal hround hgrid ⊢
    generalize (if 0 ≤ e then roundHalfEven n (d * Nat.pow 2 e.toNat)
      else roundHalfEven (n * Nat.pow 2 (-e).toNat) d) = m at hround ⊢
    -- The grid is `2 ^ (exponent - 1074)` for the exponent field of the result.
    obtain ⟨exponent, rfl⟩ : ∃ exponent : Nat, e = exponent - 1074 :=
      ⟨(e - minExponent).toNat, by unfold minExponent at *; omega⟩
    have hfield : ((exponent - 1074 : ℤ) - minExponent).toNat = exponent := by
      unfold minExponent
      omega
    have hnormal' : exponent = 0 ∨
        (2 : ℚ) ^ 52 ≤ n / d / 2 ^ (exponent - 1074 : ℤ) := by
      refine hnormal.imp_left fun h => ?_
      unfold minExponent at h
      omega
    have hq : (n : ℚ) / d =
        n / d / 2 ^ (exponent - 1074 : ℤ) * 2 ^ (exponent - 1074 : ℤ) :=
      (div_mul_cancel₀ _ (zpow_pos two_pos _).ne').symm
    have hle := mantissa_le hlt hround
    have habove := aboveMidpoint_of_roundsHalfEven hq hround hnormal' hle
    have hbelow := belowMidpoint_of_roundsHalfEven hq hround
      (hnormal'.imp_right fun h => le_mantissa h hround) hle
    rw [hfield, Nat.pow_eq]
    rcases Nat.le_total (exponent * 2 ^ 52 + m) infinityBits with h | h
    · rw [Nat.min_eq_left h]
      exact isNearest_of_midpoints h habove fun _ => hbelow
    · rw [Nat.min_eq_right h]
      exact isNearest_infinity habove h

theorem magnitude_infinityBits_le : magnitude infinityBits ≤ 10 ^ (310 : ℤ) := by
  have hvalue : magnitude infinityBits = 2 ^ (93 * 11) * 2 := by
    have h := magnitude_mul_add
      (.inr (by norm_num) : 2045 = 0 ∨ 2 ^ 52 ≤ 2 ^ 53) le_rfl
    have hmantissa : ((2 ^ 53 : Nat) : ℚ) = 2 ^ (53 : ℤ) := by norm_num
    rw [show infinityBits = 2045 * 2 ^ 52 + 2 ^ 53 by decide, h, hmantissa,
      ← zpow_add₀ two_ne_zero, ← pow_succ, ← zpow_natCast]
    rfl
  calc magnitude infinityBits = 2 ^ (93 * 11) * 2 := hvalue
    _ ≤ 10 ^ (28 * 11) * 10 := by
        gcongr
        · exact_mod_cast two_pow_le_ten_pow 11
        · norm_num
    _ = 10 ^ (309 : ℤ) := by rw [← pow_succ, ← zpow_natCast]; rfl
    _ ≤ 10 ^ (310 : ℤ) := zpow_le_zpow_right₀ (by norm_num) (by norm_num)

theorem lt_magnitude_one : 2 * (10 : ℚ) ^ (-331 : ℤ) < magnitude 1 := by
  have hvalue : magnitude 1 = 1 / 2 ^ (93 * 11 + 51) := by
    norm_num [magnitude]
  rw [hvalue, lt_div_iff₀ (by positivity), zpow_neg, mul_assoc, inv_mul_eq_div,
    mul_div_assoc', div_lt_one (by positivity)]
  calc 2 * (2 : ℚ) ^ (93 * 11 + 51) = 2 ^ (93 * 11) * 2 ^ 52 := by
        rw [← pow_succ', ← pow_add]
    _ ≤ 10 ^ (28 * 11) * 2 ^ 52 := by
        gcongr
        exact_mod_cast two_pow_le_ten_pow 11
    _ < 10 ^ (28 * 11) * 10 ^ 23 := by
        gcongr
        norm_num
    _ = 10 ^ (331 : ℤ) := by rw [← pow_add, ← zpow_natCast]; rfl

theorem isNearest_of_large {q : ℚ} (h : 10 ^ (310 : ℤ) ≤ q) :
    IsNearest q infinityBits := by
  have hge := magnitude_infinityBits_le.trans h
  have habove : AboveMidpoint q infinityBits := by
    intro below hbelow
    have hlt : magnitude below < magnitude infinityBits :=
      strictMono_magnitude (by omega)
    exact ⟨by linarith, fun heq => by linarith⟩
  exact isNearest_infinity habove (Nat.le_refl _)

theorem isNearest_of_small {q : ℚ} (h : q ≤ 10 ^ (-331 : ℤ)) : IsNearest q 0 :=
  isNearest_zero (by linarith [lt_magnitude_one])

/-- The reader's rounding of decimals is to the nearest double. -/
theorem isNearest_nearestDecimal (digits : Nat) (exponent : ℤ) :
    IsNearest (digits * 10 ^ exponent) (nearestDecimal digits exponent) := by
  have hten : (0 : ℚ) < 10 := by norm_num
  unfold nearestDecimal
  split
  next h =>
    rw [h, Nat.cast_zero, zero_mul]
    exact isNearest_of_small (zpow_pos hten _).le
  next h =>
    obtain ⟨hlow, hhigh⟩ := zpow_length_toDigits (Nat.pos_of_ne_zero h)
    have hpos : (0 : ℚ) < 10 ^ exponent := zpow_pos hten _
    dsimp only
    generalize (Nat.toDigits 10 digits).length = length at hlow hhigh ⊢
    split
    next hlarge =>
      refine isNearest_of_large ?_
      calc (10 : ℚ) ^ (310 : ℤ) ≤ 10 ^ (length - 1 + exponent : ℤ) :=
            zpow_le_zpow_right₀ (by norm_num) (by unfold maxDigits at hlarge; omega)
        _ = 10 ^ (length - 1 : ℤ) * 10 ^ exponent := zpow_add₀ hten.ne' _ _
        _ ≤ digits * 10 ^ exponent := by gcongr
    next =>
      split
      next hsmall =>
        refine isNearest_of_small ?_
        calc digits * (10 : ℚ) ^ exponent ≤ 10 ^ (length : ℤ) * 10 ^ exponent := by
              gcongr
          _ = 10 ^ (length + exponent : ℤ) := (zpow_add₀ hten.ne' _ _).symm
          _ ≤ 10 ^ (-331 : ℤ) :=
            zpow_le_zpow_right₀ (by norm_num) (by unfold maxZeros at hsmall; omega)
      next =>
        rw [zpow_eq_div]
        split
        next hexp =>
          have := isNearest_nearest (digits * Nat.pow 10 exponent.toNat) Nat.one_pos
          rw [Int.toNat_of_nonpos (by omega : -exponent ≤ 0), pow_zero, div_one]
          rw [Nat.cast_one, div_one] at this
          exact_mod_cast this
        next hexp =>
          have := isNearest_nearest digits
            (Nat.pow_pos (by norm_num) : 0 < 10 ^ (-exponent).toNat)
          rw [Int.toNat_of_nonpos (by omega : exponent ≤ 0), pow_zero,
            mul_one_div]
          exact_mod_cast this

end Scriptlet.Binary64
