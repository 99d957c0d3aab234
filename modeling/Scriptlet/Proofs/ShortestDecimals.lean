import Scriptlet.Decimal.Shortest
import Scriptlet.Proofs.Magnitudes

/-!
# The shortest decimal reads back

The window of a double, scaled to natural numbers to be computed with, is the
interval between the midpoints to its neighbours (`holds_iff`), so what
lies in it is read as that double. On the grid of a power of ten it is enough to
look at the two multiples next to the double (`Window.pick?_eq_none`), and since
every grid is part of the finer ones, the search from the first digit downwards
stops at the coarsest grid that meets the window. After 17 digits the grid is
finer than the doubles and the search cannot have failed
(`exists_holds_of_fine`).

So the decimal that `shortest` finds is read as the double, and no decimal with a
coarser last place is (`isShortest_shortest`). Therefore it does not end in a
zero (`IsShortest.isCanonical`).
-/

namespace Scriptlet.Decimal

open Binary64

def value (d : Decimal) : ℚ := d.digits * 10 ^ d.exponent

namespace Window

variable (w : Window)

/-! ## Windows as intervals -/

def low : ℚ := (w.centre - w.below) * 2 ^ w.exponent

def middle : ℚ := w.centre * 2 ^ w.exponent

def high : ℚ := (w.centre + w.above) * 2 ^ w.exponent

/-- Between the two ends, which belong to the window only if it is closed. -/
def Holds (x : ℚ) : Prop :=
  if w.closed then w.low ≤ x ∧ x ≤ w.high else w.low < x ∧ x < w.high

/-- The double lies inside its window. -/
structure IsProper : Prop where
  below_pos : 0 < w.below
  below_le : w.below ≤ w.centre
  above_pos : 0 < w.above

variable {w}

theorem IsProper.low_lt (h : w.IsProper) : w.low < w.middle := by
  have hbelow : (0 : ℚ) < w.below := by exact_mod_cast h.below_pos
  have hpos : (0 : ℚ) < 2 ^ w.exponent := zpow_pos two_pos _
  exact mul_lt_mul_of_pos_right (by linarith) hpos

theorem IsProper.lt_high (h : w.IsProper) : w.middle < w.high := by
  have habove : (0 : ℚ) < w.above := by exact_mod_cast h.above_pos
  have hpos : (0 : ℚ) < 2 ^ w.exponent := zpow_pos two_pos _
  exact mul_lt_mul_of_pos_right (by linarith) hpos

theorem holds_of_lt {x : ℚ} (hlow : w.low < x) (hhigh : x < w.high) :
    w.Holds x := by
  unfold Holds
  split
  · exact ⟨hlow.le, hhigh.le⟩
  · exact ⟨hlow, hhigh⟩

theorem Holds.le_high {x : ℚ} (h : w.Holds x) : x ≤ w.high := by
  unfold Holds at h
  split at h
  · exact h.2
  · exact h.2.le

/-- With a number below the double, the window holds what lies between. -/
theorem Holds.of_le {x y : ℚ} (hw : w.IsProper) (h : w.Holds x) (hxy : x ≤ y)
    (hy : y ≤ w.middle) : w.Holds y := by
  have hhigh := hw.lt_high
  unfold Holds at h ⊢
  split_ifs at h ⊢
  · exact ⟨h.1.trans hxy, (hy.trans_lt hhigh).le⟩
  · exact ⟨h.1.trans_le hxy, hy.trans_lt hhigh⟩

/-- With a number above the double, the window holds what lies between. -/
theorem Holds.of_ge {x y : ℚ} (hw : w.IsProper) (h : w.Holds x) (hyx : y ≤ x)
    (hy : w.middle ≤ y) : w.Holds y := by
  have hlow := hw.low_lt
  unfold Holds at h ⊢
  split_ifs at h ⊢
  · exact ⟨(hlow.trans_le hy).le, hyx.trans h.2⟩
  · exact ⟨hlow.trans_le hy, hyx.trans_lt h.2⟩

/-! ## The computation in natural numbers -/

/-- Both scales are their powers times one factor. -/
theorem exists_scales_eq (w : Window) (place : ℤ) : ∃ s : ℚ, 0 < s ∧
    ((w.scales place).1 : ℚ) = 2 ^ w.exponent * s ∧
      ((w.scales place).2 : ℚ) = 10 ^ place * s := by
  refine ⟨10 ^ (-place).toNat * 2 ^ (-w.exponent).toNat, by positivity, ?_, ?_⟩
  · rw [zpow_eq_div]
    simp only [scales, Nat.pow_eq, Nat.cast_mul, Nat.cast_pow, Nat.cast_ofNat]
    field_simp
  · rw [zpow_eq_div]
    simp only [scales, Nat.pow_eq, Nat.cast_mul, Nat.cast_pow, Nat.cast_ofNat]
    field_simp

theorem contains_iff (hw : w.IsProper) (place : ℤ) (k : Nat) :
    w.contains place k = true ↔ w.Holds (k * 10 ^ place) := by
  obtain ⟨s, hs, hquarter, hunit⟩ := exists_scales_eq w place
  unfold contains Holds low high
  generalize w.scales place = scales at hquarter hunit ⊢
  obtain ⟨quarter, unit⟩ := scales
  dsimp only at hquarter hunit ⊢
  have hlow : ((w.centre - w.below : Nat) * quarter : Nat) =
      ((w.centre - w.below : ℚ) * 2 ^ w.exponent) * s := by
    rw [Nat.cast_mul, Nat.cast_sub hw.below_le, hquarter, mul_assoc]
  have hhigh : (((w.centre + w.above) * quarter : Nat) : ℚ) =
      ((w.centre + w.above : ℚ) * 2 ^ w.exponent) * s := by
    rw [Nat.cast_mul, Nat.cast_add, hquarter, mul_assoc]
  have hpoint : ((k * unit : Nat) : ℚ) = (k * 10 ^ place) * s := by
    rw [Nat.cast_mul, hunit, mul_assoc]
  split <;>
    rw [Bool.and_eq_true, decide_eq_true_eq, decide_eq_true_eq]
  · rw [← Nat.cast_le (α := ℚ), ← Nat.cast_le (α := ℚ), hlow, hhigh, hpoint,
      mul_le_mul_iff_of_pos_right hs, mul_le_mul_iff_of_pos_right hs]
  · rw [← Nat.cast_lt (α := ℚ), ← Nat.cast_lt (α := ℚ), hlow, hhigh, hpoint,
      mul_lt_mul_iff_of_pos_right hs, mul_lt_mul_iff_of_pos_right hs]

/-- The multiple of a power of ten that is next to the double, from below. -/
def floor (w : Window) (place : ℤ) : Nat :=
  w.centre * (w.scales place).1 / (w.scales place).2

theorem floor_le (w : Window) (place : ℤ) :
    w.floor place * (10 : ℚ) ^ place ≤ w.middle ∧
      w.middle < (w.floor place + 1 : Nat) * 10 ^ place := by
  obtain ⟨s, hs, hquarter, hunit⟩ := exists_scales_eq w place
  unfold floor middle
  generalize w.scales place = scales at hquarter hunit ⊢
  obtain ⟨quarter, unit⟩ := scales
  dsimp only at hquarter hunit ⊢
  have hpos : 0 < unit := by
    have : (0 : ℚ) < unit := by rw [hunit]; positivity
    exact_mod_cast this
  have hle := Nat.div_mul_le_self (w.centre * quarter) unit
  have hlt : w.centre * quarter < (w.centre * quarter / unit + 1) * unit := by
    rw [Nat.mul_comm _ unit]
    exact Nat.lt_mul_div_succ _ hpos
  generalize w.centre * quarter / unit = k at hle hlt ⊢
  constructor
  · rw [← mul_le_mul_iff_of_pos_right hs, mul_assoc, mul_assoc, ← hquarter,
      ← hunit]
    exact_mod_cast hle
  · rw [← mul_lt_mul_iff_of_pos_right hs, mul_assoc, mul_assoc, ← hquarter,
      ← hunit]
    exact_mod_cast hlt

/-! ## Picking and searching -/

theorem holds_of_pick? (hw : w.IsProper) {place : ℤ} {k : Nat}
    (h : w.pick? place = some k) : 0 < k ∧ w.Holds (k * 10 ^ place) := by
  rw [← contains_iff hw]
  unfold pick? at h
  rcases hscales : w.scales place with ⟨quarter, unit⟩
  rw [hscales] at h
  dsimp only at h
  split at h
  next hboth =>
    rw [Bool.and_eq_true, Bool.and_eq_true, decide_eq_true_eq] at hboth
    obtain ⟨⟨hpos, hlow⟩, hhigh⟩ := hboth
    split at h
    · exact Option.some.inj h ▸ ⟨hpos, hlow⟩
    · exact Option.some.inj h ▸ ⟨Nat.succ_pos _, hhigh⟩
  next =>
    split at h
    next hlow =>
      rw [Bool.and_eq_true, decide_eq_true_eq] at hlow
      exact Option.some.inj h ▸ hlow
    next =>
      split at h
      next hhigh => exact Option.some.inj h ▸ ⟨Nat.succ_pos _, hhigh⟩
      next => exact absurd h (by simp)

/-- A grid without a pick has no point in the window: with any point, the
window holds one of the two next to the double. -/
theorem pick?_eq_none (hw : w.IsProper) {place : ℤ}
    (h : w.pick? place = none) {k : Nat} (hk : 0 < k) :
    ¬ w.Holds (k * 10 ^ place) := by
  have hnone : ¬ (0 < w.floor place ∧ w.Holds (w.floor place * 10 ^ place)) ∧
      ¬ w.Holds ((w.floor place + 1 : Nat) * 10 ^ place) := by
    rw [← contains_iff hw, ← contains_iff hw]
    unfold pick? at h
    unfold floor
    rcases hscales : w.scales place with ⟨quarter, unit⟩
    rw [hscales] at h
    dsimp only at h ⊢
    split at h
    next => split at h <;> cases h
    next =>
      split at h
      next => cases h
      next hlow =>
        split at h
        next => cases h
        next hhigh =>
          rw [Bool.and_eq_true, decide_eq_true_eq] at hlow
          exact ⟨hlow, hhigh⟩
  obtain ⟨hlow, hhigh⟩ := floor_le w place
  have hpos : (0 : ℚ) < 10 ^ place := zpow_pos (by norm_num) _
  intro hholds
  rcases Nat.lt_or_ge (w.floor place) k with hlt | hge
  · refine hnone.2 (hholds.of_ge hw ?_ hhigh.le)
    exact mul_le_mul_of_nonneg_right (by exact_mod_cast hlt) hpos.le
  · refine hnone.1 ⟨Nat.lt_of_lt_of_le hk hge, hholds.of_le hw ?_ hlow⟩
    exact mul_le_mul_of_nonneg_right (by exact_mod_cast hge) hpos.le

/-- The search stops at the first grid with a pick, if it gets that far. -/
theorem search_stops (w : Window) {tries i : Nat} {place : ℤ} (hi : i < tries)
    (hpick : w.pick? (place - i) ≠ none) :
    w.pick? (w.search tries place).exponent =
        some (w.search tries place).digits ∧
      ((w.search tries place).exponent = place ∨
        w.pick? ((w.search tries place).exponent + 1) = none) := by
  induction tries generalizing i place with
  | zero => omega
  | succ tries ih =>
    unfold search
    split
    next k hk => exact ⟨hk, .inl rfl⟩
    next hnone =>
      -- The first grid is not the one, so the rest of the search gets there.
      obtain ⟨j, rfl⟩ : ∃ j, i = j + 1 := by
        refine Nat.exists_eq_add_one_of_ne_zero ?_
        rintro rfl
        exact hpick (by simpa using hnone)
      have hplace : place - (j + 1 : Nat) = place - 1 - j := by
        push_cast
        ring
      rw [hplace] at hpick
      obtain ⟨hfound, hbefore⟩ := ih (Nat.lt_of_succ_lt_succ hi) hpick
      refine ⟨hfound, .inr ?_⟩
      rcases hbefore with hfirst | hbefore
      · rw [hfirst, sub_add_cancel]
        exact hnone
      · exact hbefore

end Window

/-! ## The window of a double -/

section

variable {exponent mantissa : Nat}

theorem isProper_of (hpos : 0 < mantissa) (e : ℤ) :
    (Window.of mantissa e).IsProper := by
  unfold Window.of
  refine ⟨?_, ?_, Nat.two_pos⟩ <;> dsimp only <;> split <;> omega

theorem quarter_eq (e : ℤ) : (2 : ℚ) ^ e = 4 * 2 ^ (e - 2) := by
  rw [zpow_sub₀ two_ne_zero]
  norm_num
  ring

theorem middle_of (e : ℤ) :
    (Window.of mantissa e).middle = mantissa * 2 ^ e := by
  rw [quarter_eq]
  simp only [Window.middle, Window.of]
  push_cast
  ring

theorem low_of (e : ℤ) : (Window.of mantissa e).low =
    mantissa * 2 ^ e - (Window.of mantissa e).below * 2 ^ (e - 2) := by
  rw [quarter_eq]
  simp only [Window.low, Window.of]
  push_cast
  ring

theorem high_of (e : ℤ) :
    (Window.of mantissa e).high = mantissa * 2 ^ e + 2 * 2 ^ (e - 2) := by
  rw [quarter_eq]
  simp only [Window.high, Window.of]
  push_cast
  ring

theorem two_mul_high (h : IsPair exponent mantissa) :
    2 * (Window.of mantissa (exponent - 1074)).high =
      magnitude (exponent * 2 ^ 52 + mantissa) +
        magnitude (exponent * 2 ^ 52 + mantissa + 1) := by
  rw [magnitude_succ, h.magnitude_eq, h.spacing_eq, high_of, quarter_eq]
  ring

/-- The step up from the double below. -/
theorem spacing_below (h : IsPair exponent mantissa) {below : Nat}
    (hbelow : below + 1 = exponent * 2 ^ 52 + mantissa) :
    spacing below = (Window.of mantissa (exponent - 1074)).below *
      2 ^ (exponent - 1075 : ℤ) := by
  obtain ⟨hnormal, hlt⟩ := h
  simp only [Window.of, Nat.pow_eq]
  split
  next hpower =>
    -- A power of two: the double below belongs to the exponent below.
    obtain ⟨rfl, hexponent⟩ := hpower
    obtain ⟨e, rfl⟩ : ∃ e, exponent = e + 1 := by
      refine Nat.exists_eq_add_one_of_ne_zero ?_
      rintro rfl
      exact absurd hexponent (by decide)
    obtain rfl : below = e * 2 ^ 52 + (2 ^ 53 - 1) := by omega
    rw [IsPair.spacing_eq ⟨.inr (by norm_num), by norm_num⟩, Nat.cast_one,
      one_mul]
    congr 1
    push_cast
    ring
  next hpower =>
    have hsame : exponent = 0 ∨ 2 ^ 52 < mantissa := by
      rcases hnormal with rfl | hge
      · exact .inl rfl
      · rcases Nat.eq_or_lt_of_le hge with rfl | hgt
        · refine .inl (Nat.eq_zero_of_not_pos fun hexponent => hpower ⟨rfl, ?_⟩)
          unfold minExponent
          omega
        · exact .inr hgt
    obtain ⟨m, rfl⟩ : ∃ m, mantissa = m + 1 :=
      Nat.exists_eq_add_one_of_ne_zero (by omega)
    obtain rfl : below = exponent * 2 ^ 52 + m := by omega
    rw [IsPair.spacing_eq ⟨by omega, by omega⟩, Nat.cast_ofNat,
      ← zpow_one_add₀ two_ne_zero]
    congr 1
    ring

theorem two_mul_low (h : IsPair exponent mantissa) {below : Nat}
    (hbelow : below + 1 = exponent * 2 ^ 52 + mantissa) :
    2 * (Window.of mantissa (exponent - 1074)).low =
      magnitude below + magnitude (exponent * 2 ^ 52 + mantissa) := by
  have hstep : magnitude below =
      magnitude (exponent * 2 ^ 52 + mantissa) - spacing below := by
    rw [← hbelow, magnitude_succ, add_sub_cancel_right]
  have hhalf : (2 : ℚ) ^ (exponent - 1075 : ℤ) =
      2 * 2 ^ (exponent - 1074 - 2 : ℤ) := by
    rw [← zpow_one_add₀ two_ne_zero]
    congr 1
    ring
  rw [hstep, h.magnitude_eq, spacing_below h hbelow, low_of, hhalf]
  ring

/-- What a window holds is read as its double. -/
theorem holds_iff (h : IsPair exponent mantissa) (hpos : 0 < mantissa)
    (hlt : exponent * 2 ^ 52 + mantissa < infinityBits) (x : ℚ) :
    (Window.of mantissa (exponent - 1074)).Holds x ↔
      IsNearest x (exponent * 2 ^ 52 + mantissa) := by
  obtain ⟨below, hbelow⟩ :
      ∃ below, below + 1 = exponent * 2 ^ 52 + mantissa :=
    ⟨exponent * 2 ^ 52 + mantissa - 1, by omega⟩
  have hlow := two_mul_low h hbelow
  have hhigh := two_mul_high h
  have heven : (exponent * 2 ^ 52 + mantissa) % 2 = 0 ↔ mantissa % 2 = 0 := by
    omega
  have habove : AboveMidpoint x (exponent * 2 ^ 52 + mantissa) ↔
      magnitude below + magnitude (exponent * 2 ^ 52 + mantissa) ≤ 2 * x ∧
        (magnitude below + magnitude (exponent * 2 ^ 52 + mantissa) = 2 * x →
          (exponent * 2 ^ 52 + mantissa) % 2 = 0) := by
    refine ⟨fun h => h below hbelow, fun h other hother => ?_⟩
    obtain rfl : other = below := by omega
    exact h
  rw [isNearest_iff hlt, habove, BelowMidpoint, ← hlow, ← hhigh, heven]
  have hclosed : (Window.of mantissa (exponent - 1074)).closed =
      decide (mantissa % 2 = 0) := rfl
  rw [Window.Holds, hclosed]
  generalize (Window.of mantissa (exponent - 1074)).low = low
  generalize (Window.of mantissa (exponent - 1074)).high = high
  by_cases hm : mantissa % 2 = 0
  · simp [hm]
  · simp only [hm, decide_false, Bool.false_eq_true, if_false, imp_false]
    constructor
    · rintro ⟨hleft, hright⟩
      exact ⟨⟨by linarith, fun heq => by linarith⟩, by linarith,
        fun heq => by linarith⟩
    · rintro ⟨⟨hle, hne⟩, hle', hne'⟩
      exact ⟨by linarith [lt_of_le_of_ne hle hne],
        by linarith [lt_of_le_of_ne hle' hne']⟩

end

/-! ## The first digit and the last one -/

/-- The digits of the whole part tell between which powers of ten a quotient
lies, also when the point has been moved first. -/
theorem zpow_length_div {n d : Nat} (hd : 0 < d) (places : Nat)
    (hpos : 0 < n * Nat.pow 10 places / d) :
    (10 : ℚ) ^ ((Nat.toDigits 10 (n * Nat.pow 10 places / d)).length -
        places - 1 : ℤ) ≤ n / d ∧
      (n : ℚ) / d <
        10 ^ ((Nat.toDigits 10 (n * Nat.pow 10 places / d)).length -
          places : ℤ) := by
  rw [Nat.pow_eq] at hpos ⊢
  have hten : (10 : ℚ) ≠ 0 := by norm_num
  have hd' : (0 : ℚ) < d := by exact_mod_cast hd
  have hmove : ((n * 10 ^ places : Nat) : ℚ) / d = n / d * 10 ^ (places : ℤ) := by
    push_cast
    rw [zpow_natCast]
    ring
  obtain ⟨hlow, hhigh⟩ := zpow_length_toDigits hpos
  generalize (Nat.toDigits 10 (n * 10 ^ places / d)).length = length at hlow hhigh ⊢
  have hfloor : ((n * 10 ^ places / d : Nat) : ℚ) ≤ (n * 10 ^ places : Nat) / d :=
    Nat.cast_div_le
  have hceil : ((n * 10 ^ places : Nat) : ℚ) / d < 10 ^ (length : ℤ) := by
    have hlt : n * 10 ^ places / d < 10 ^ length := by exact_mod_cast hhigh
    rw [div_lt_iff₀ hd', zpow_natCast]
    exact_mod_cast (Nat.div_lt_iff_lt_mul hd).1 hlt
  have hshift : (0 : ℚ) < 10 ^ (places : ℤ) := by positivity
  constructor
  · rw [sub_right_comm, zpow_sub₀ hten, div_le_iff₀ hshift, ← hmove]
    exact hlow.trans hfloor
  · rw [zpow_sub₀ hten, lt_div_iff₀ hshift, ← hmove]
    exact hceil

/-- Moving the point by enough places makes up for the power of two. -/
theorem two_pow_le_mul {n k places : Nat} (hn : 0 < n) (hk : k ≤ 93 * 12)
    (hplaces : 28 * 12 ≤ places) : 2 ^ k ≤ n * Nat.pow 10 places :=
  calc 2 ^ k ≤ 2 ^ (93 * 12) := pow_le_pow_right₀ (by norm_num) hk
    _ ≤ 10 ^ (28 * 12) := two_pow_le_ten_pow 12
    _ ≤ 10 ^ places := pow_le_pow_right₀ (by norm_num) hplaces
    _ ≤ n * 10 ^ places := Nat.le_mul_of_pos_left _ hn

theorem zpow_leadingPlace {mantissa : Nat} {e : ℤ} (hpos : 0 < mantissa)
    (he : minExponent ≤ e) :
    (10 : ℚ) ^ (leadingPlace mantissa e - 1) ≤ mantissa * 2 ^ e ∧
      (mantissa : ℚ) * 2 ^ e < 10 ^ leadingPlace mantissa e := by
  have hvalue : (mantissa : ℚ) * 2 ^ e =
      (mantissa * Nat.pow 2 e.toNat : Nat) / (Nat.pow 2 (-e).toNat : Nat) := by
    rw [zpow_eq_div, mul_div_assoc', Nat.pow_eq, Nat.pow_eq]
    push_cast
    rfl
  have hdivisor : 0 < Nat.pow 2 (-e).toNat := Nat.two_pow_pos _
  rw [leadingPlace]
  split
  next hwhole =>
    have h := zpow_length_div hdivisor 0 (n := mantissa * Nat.pow 2 e.toNat)
    rw [hvalue]
    simpa using h (by simpa using hwhole)
  next hwhole =>
    -- Without a whole part the exponent is negative.
    have hneg : e.toNat = 0 := by
      by_contra hne
      refine hwhole ?_
      rw [show (-e).toNat = 0 by omega]
      exact Nat.div_pos (Nat.mul_pos hpos (Nat.two_pow_pos _)) Nat.one_pos
    have hk : (-e).toNat ≤ 93 * 12 := by
      unfold minExponent at he
      omega
    have hmoved := two_pow_le_mul hpos hk (by norm_num : 28 * 12 ≤ 343)
    have h := zpow_length_div hdivisor 343 (Nat.div_pos hmoved hdivisor)
    rw [hneg, show Nat.pow 2 0 = 1 from rfl, Nat.mul_one] at hvalue
    rw [hvalue]
    exact h

section

variable {exponent mantissa : Nat}

/-- A unit of which there are `10 ^ 16` in the double is shorter than the
window. Under a power of two it is shorter than the half above. -/
theorem fine_lt (hlt : mantissa < 2 ^ 53) {e : ℤ} {unit : ℚ}
    (hfine : 10 ^ 16 * unit ≤ mantissa * 2 ^ e) :
    unit < 4 * 2 ^ (e - 2) ∧
      (unit < 2 * 2 ^ (e - 2) ∨ (Window.of mantissa e).below = 2) := by
  have hquarter : (0 : ℚ) < 2 ^ (e - 2) := zpow_pos two_pos _
  rw [quarter_eq] at hfine
  constructor
  · have hmantissa : (mantissa : ℚ) * (4 * 2 ^ (e - 2)) <
        2 ^ 53 * (4 * 2 ^ (e - 2)) :=
      mul_lt_mul_of_pos_right (by exact_mod_cast hlt) (by positivity)
    linarith
  · simp only [Window.of, Nat.pow_eq]
    split
    next hpower =>
      obtain ⟨rfl, -⟩ := hpower
      push_cast at hfine
      exact .inl (by linarith)
    next => exact .inr rfl

/-- Seventeen digits tell all doubles apart: on that grid one of the two
multiples next to the double lies in its window. -/
theorem exists_holds_of_fine (hpos : 0 < mantissa) (hlt : mantissa < 2 ^ 53)
    {e place : ℤ} (hfine : 10 ^ 16 * (10 : ℚ) ^ place ≤ mantissa * 2 ^ e) :
    ∃ k : Nat, 0 < k ∧ (Window.of mantissa e).Holds (k * 10 ^ place) := by
  have hproper := isProper_of hpos e
  have hlow := hproper.low_lt
  have hhigh := hproper.lt_high
  obtain ⟨hfloor, hceil⟩ := Window.floor_le (Window.of mantissa e) place
  obtain ⟨hfour, htwo⟩ := fine_lt hlt hfine
  have hunit : (0 : ℚ) < 10 ^ place := zpow_pos (by norm_num) _
  rw [middle_of] at hlow hhigh hfloor hceil
  generalize (Window.of mantissa e).floor place = k at hfloor hceil
  by_cases hin : ((k + 1 : Nat) : ℚ) * 10 ^ place < (Window.of mantissa e).high
  · exact ⟨k + 1, k.succ_pos, Window.holds_of_lt (hlow.trans hceil) hin⟩
  · -- The multiple above is past the window, so the one below is in it.
    rw [high_of, not_lt] at hin
    push_cast at hin hceil
    rw [add_one_mul] at hin hceil
    have hbelow := htwo.resolve_left fun h => by linarith
    refine ⟨k, ?_, Window.holds_of_lt ?_ (hfloor.trans_lt hhigh)⟩
    · by_contra hzero
      obtain rfl : k = 0 := by omega
      push_cast at hceil
      linarith
    · rw [low_of, hbelow]
      push_cast
      linarith

/-! ## The result of the search -/

/-- The decimal is read as the double, and no decimal with a coarser last place
is. -/
structure IsShortest (bits : Nat) (d : Decimal) : Prop where
  pos : 0 < d.digits
  nearest : IsNearest d.value bits
  coarser : ∀ (k : Nat) (place : ℤ), 0 < k → d.exponent < place →
    ¬ IsNearest (k * 10 ^ place) bits

/-- Every grid is part of the finer ones. -/
theorem exists_mul_zpow_eq (k : Nat) {place finer : ℤ} (h : finer ≤ place) :
    ∃ j : Nat, (0 < k → 0 < j) ∧
      (k : ℚ) * 10 ^ place = j * 10 ^ finer := by
  refine ⟨k * 10 ^ (place - finer).toNat, fun hk => by positivity, ?_⟩
  rw [Nat.cast_mul, Nat.cast_pow, ← zpow_natCast,
    Int.toNat_of_nonneg (by omega), mul_assoc, Nat.cast_ofNat,
    ← zpow_add₀ (by norm_num), sub_add_cancel]

/-- Behind 17 digits the search has found something. -/
theorem pick?_ne_none (hpos : 0 < mantissa) (hlt : mantissa < 2 ^ 53)
    {e place : ℤ} (hleading : (10 : ℚ) ^ (place - 1) ≤ mantissa * 2 ^ e) :
    (Window.of mantissa e).pick? (place - (17 : Nat)) ≠ none := by
  have hfine : 10 ^ 16 * (10 : ℚ) ^ (place - (17 : Nat)) ≤ mantissa * 2 ^ e := by
    refine le_of_eq_of_le ?_ hleading
    rw [← zpow_natCast, ← zpow_add₀ (by norm_num)]
    congr 1
    push_cast
    ring
  obtain ⟨k, hk, hin⟩ := exists_holds_of_fine hpos hlt hfine
  exact fun hnone => Window.pick?_eq_none (isProper_of hpos e) hnone hk hin

/-- In front of the first digit the grid is coarser than all of the window. -/
theorem not_holds_of_coarse (hpos : 0 < mantissa) {e place p : ℤ}
    (hbound : (mantissa : ℚ) * 2 ^ e < 10 ^ place) (hp : place < p) {k : Nat}
    (hk : 0 < k) : ¬ (Window.of mantissa e).Holds (k * 10 ^ p) := by
  intro hholds
  have hle := hholds.le_high
  have hge : (10 : ℚ) ^ place * 10 ≤ k * 10 ^ p :=
    calc (10 : ℚ) ^ place * 10 = 10 ^ (place + 1) :=
          (zpow_add_one₀ (by norm_num) _).symm
      _ ≤ 10 ^ p := zpow_le_zpow_right₀ (by norm_num) hp
      _ ≤ k * 10 ^ p :=
          le_mul_of_one_le_left (by positivity) (by exact_mod_cast hk)
  have hhigh : (Window.of mantissa e).high ≤ 2 * (mantissa * 2 ^ e) := by
    have hone : (1 : ℚ) ≤ mantissa := by exact_mod_cast hpos
    have hquarter : (0 : ℚ) < 2 ^ (e - 2) := zpow_pos two_pos _
    rw [high_of, quarter_eq]
    nlinarith
  have hten : (0 : ℚ) < 10 ^ place := zpow_pos (by norm_num) _
  linarith

/-- The search finds a shortest decimal. -/
theorem isShortest_shortest (h : IsPair exponent mantissa) (hpos : 0 < mantissa)
    (hlt : exponent * 2 ^ 52 + mantissa < infinityBits) :
    IsShortest (exponent * 2 ^ 52 + mantissa)
      (shortest mantissa (exponent - 1074)) := by
  have hproper := isProper_of hpos (exponent - 1074)
  have hholds := holds_iff h hpos hlt
  have he : minExponent ≤ (exponent - 1074 : ℤ) := by
    unfold minExponent
    omega
  obtain ⟨hleading, hbound⟩ := zpow_leadingPlace hpos he
  rw [shortest, if_neg (Nat.ne_of_gt hpos)]
  generalize leadingPlace mantissa (exponent - 1074) = place at hleading hbound ⊢
  obtain ⟨hfound, hbefore⟩ := Window.search_stops _ (by norm_num : 17 < 18)
    (pick?_ne_none hpos h.lt hleading)
  generalize (Window.of mantissa (exponent - 1074)).search 18 place = d
    at hfound hbefore ⊢
  obtain ⟨hdigits, hin⟩ := Window.holds_of_pick? hproper hfound
  refine ⟨hdigits, (hholds _).1 hin, fun k p hk hp hnear => ?_⟩
  have hcoarse := (hholds _).2 hnear
  rcases hbefore with hfirst | hnone
  · exact not_holds_of_coarse hpos hbound (hfirst ▸ hp) hk hcoarse
  · obtain ⟨j, hj, heq⟩ := exists_mul_zpow_eq k hp
    rw [heq] at hcoarse
    exact Window.pick?_eq_none hproper hnone (hj hk) hcoarse

/-- Zero, or a decimal that does not end in a zero. -/
def IsCanonical (d : Decimal) : Prop := d = ⟨0, 0⟩ ∨ d.digits % 10 ≠ 0

/-- A shortest decimal does not end in a zero, since it could be written without
it. -/
theorem IsShortest.isCanonical {bits : Nat} {d : Decimal}
    (h : IsShortest bits d) : d.IsCanonical := by
  refine .inr fun hzero => ?_
  obtain ⟨k, hk⟩ := Nat.dvd_of_mod_eq_zero hzero
  have hpos := h.pos
  refine h.coarser k (d.exponent + 1) (by omega) (Int.lt_succ _) ?_
  have hvalue : (k : ℚ) * 10 ^ (d.exponent + 1) = d.value := by
    rw [value, hk, zpow_add_one₀ (by norm_num)]
    push_cast
    ring
  rw [hvalue]
  exact h.nearest

end

end Scriptlet.Decimal
