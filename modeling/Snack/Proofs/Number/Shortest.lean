import Mathlib
import Snack.Number.Shortest

/-! The search for the shortest digits of a float always finds some. The decimal that it finds lies among the
reals that round to the float, so it is not zero. -/

namespace Snack.Shortest

open Float.Model UnpackedFloat

/-! ### Floats as integers times powers of two -/

/-- The integer and the exponent of a float: at most 53 bits, and all of them in use unless the exponent is
the least one. -/
structure Fits (m : Nat) (e : Int) : Prop where
  pos : 0 < m
  lt : m < 2 ^ 53
  low : -1074 ≤ e
  high : e ≤ 971
  full : 2 ^ 52 ≤ m ∨ e = -1074

theorem fits_of_unpack {x : Float} {s : Sign} {m : Nat} {e : Int} {hm : 0 < m}
    (h : Number.unpack x = .finite s m e hm) : Fits m e := by
  have hbias : Format.binary64.exponentBias = 1023 := rfl
  have hbits : (Format.binary64.mantissaBitsWithoutImplicit : Int) = 52 := rfl
  rw [Number.unpack, Float.Model.unpack, UnpackedFloat.unpack, hbias] at h
  set bits := x.toModel.toBits.toBitVec
  have hmantissa : (@unpackMantissa .binary64 bits).toNat < 2 ^ 52 := BitVec.isLt _
  have hexponent : (@unpackExponent .binary64 bits).toNat < 2 ^ 11 := BitVec.isLt _
  split at h
  · split at h <;> cases h
  · next hones =>
    split at h
    · next hzeros =>
      split at h
      · cases h
      · cases h
        have hmin : ((@unpackExponent .binary64 bits).toNat : Int) = 0 := by rw [hzeros]; rfl
        exact ⟨hm, by omega, by omega, by omega, .inr (by omega)⟩
    · next hzeros =>
      cases h
      have hones' : (@unpackExponent .binary64 bits).toNat ≠ 2047 := fun hmax => hones (BitVec.eq_of_toNat_eq hmax)
      have hzeros' : (@unpackExponent .binary64 bits).toNat ≠ 0 := fun hmin => hzeros (BitVec.eq_of_toNat_eq hmin)
      have hfull : (1#1 ++ @unpackMantissa .binary64 bits).toNat = 2 ^ 52 + (@unpackMantissa .binary64 bits).toNat := by
        rw [BitVec.toNat_append, ← Nat.shiftLeft_add_eq_or_of_lt (BitVec.isLt _), Nat.shiftLeft_eq]
        simp
      exact ⟨hm, by omega, by omega, by omega, .inl (by omega)⟩

/-! ### The interval around a float -/

/-- The interval as a set of rational numbers. -/
def Interval.Holds (i : Interval) (v : ℚ) : Prop :=
  if i.closed then (i.low : ℚ) ≤ v * i.scale ∧ v * i.scale ≤ i.high
  else (i.low : ℚ) < v * i.scale ∧ v * i.scale < i.high

theorem Interval.contains_iff (i : Interval) (num : Nat) {den : Nat} (hden : 0 < den) :
    i.contains num den = true ↔ i.Holds (num / den) := by
  have hpos : (0 : ℚ) < den := by exact_mod_cast hden
  have hscale : (num / den : ℚ) * i.scale = (num * i.scale : Nat) / den := by
    push_cast
    ring
  rw [contains, Holds, hscale]
  split
  · rw [Bool.and_eq_true, decide_eq_true_eq, decide_eq_true_eq, le_div_iff₀ hpos, div_le_iff₀ hpos]
    norm_cast
  · rw [Bool.and_eq_true, decide_eq_true_eq, decide_eq_true_eq, lt_div_iff₀ hpos, div_lt_iff₀ hpos]
    norm_cast

/-- A power with an exponent of any sign, as a quotient of two integers. -/
theorem pow_toNat_div {b : Nat} (hb : 0 < b) (k : Int) :
    ((Nat.pow b k.toNat : Nat) : ℚ) / (Nat.pow b (-k).toNat : Nat) = (b : ℚ) ^ k := by
  have hne : (b : ℚ) ≠ 0 := by exact_mod_cast hb.ne'
  rw [Nat.pow_eq, Nat.pow_eq, Nat.cast_pow, Nat.cast_pow, ← zpow_natCast, ← zpow_natCast, ← zpow_sub₀ hne]
  congr 1
  omega

/-- The floats next to `m * 2 ^ e` are nearer below a power of two. -/
def below (m : Nat) (e : Int) : ℚ := if m = 2 ^ 52 ∧ -1074 < e then 1 / 4 else 1 / 2

theorem below_bounds (m : Nat) (e : Int) : 1 / 4 ≤ below m e ∧ below m e ≤ 1 / 2 := by
  unfold below
  split <;> norm_num

theorem Interval.holds_around {m : Nat} (hm : 0 < m) (e : Int) (v : ℚ) : (around m e).Holds v ↔
    if m % 2 = 0 then (m - below m e) * 2 ^ e ≤ v ∧ v ≤ (m + 1 / 2) * 2 ^ e
    else (m - below m e) * 2 ^ e < v ∧ v < (m + 1 / 2) * 2 ^ e := by
  have hpow : (2 : ℚ) ^ e = (Nat.pow 2 e.toNat : Nat) / (Nat.pow 2 (-e).toNat : Nat) :=
    (pow_toNat_div (by decide) e).symm
  have hdown : (0 : ℚ) < (Nat.pow 2 (-e).toNat : Nat) := by exact_mod_cast Nat.two_pow_pos _
  have hscale : ((around m e).scale : ℚ) = 4 * (Nat.pow 2 (-e).toNat : Nat) := by simp [around]
  have hpos : (0 : ℚ) < (around m e).scale := by rw [hscale]; positivity
  have hup : m * Nat.pow 2 e.toNat ≥ Nat.pow 2 e.toNat := Nat.le_mul_of_pos_left _ hm
  have hhigh : ((around m e).high : ℚ) = (m + 1 / 2) * 2 ^ e * (around m e).scale := by
    rw [hscale, hpow]
    simp only [around]
    push_cast
    field_simp
    ring
  have hlow : ((around m e).low : ℚ) = (m - below m e) * 2 ^ e * (around m e).scale := by
    have hle {n : Nat} (hn : n ≤ 4 * m * Nat.pow 2 e.toNat) :
        ((4 * m * Nat.pow 2 e.toNat - n : Nat) : ℚ) = 4 * m * (Nat.pow 2 e.toNat : Nat) - n := by
      push_cast [hn]
      ring
    rw [hscale, hpow]
    simp only [around, Bool.and_eq_true, decide_eq_true_eq, gt_iff_lt]
    by_cases h : m = Nat.pow 2 52 ∧ -1074 < e
    · have hbelow : below m e = 1 / 4 := if_pos h
      rw [if_pos h, hbelow, hle (by grind)]
      field_simp
    · have hbelow : below m e = 1 / 2 := if_neg h
      rw [if_neg h, hbelow, hle (by grind)]
      push_cast
      field_simp
      ring
  have hclosed : (around m e).closed = decide (m % 2 = 0) := by simp [around, BEq.beq]
  rw [Holds, hclosed, hlow, hhigh]
  simp only [decide_eq_true_eq, mul_le_mul_iff_left₀ hpos, mul_lt_mul_iff_left₀ hpos]

theorem bounds_of_holds {m : Nat} {e : Int} {v : ℚ} (hm : 0 < m) (hv : (Interval.around m e).Holds v) :
    (m - below m e) * 2 ^ e ≤ v ∧ v ≤ (m + 1 / 2) * 2 ^ e := by
  rw [Interval.holds_around hm] at hv
  split at hv
  · exact hv
  · exact ⟨hv.1.le, hv.2.le⟩

/-! ### The search -/

section

variable {i : Interval} {k : Int}

theorem Interval.contains_grid (i : Interval) (k : Int) (a : Nat) :
    i.contains (a * Nat.pow 10 k.toNat) (Nat.pow 10 (-k).toNat) = true ↔ i.Holds (a * 10 ^ k) := by
  have hgrid : (((a * Nat.pow 10 k.toNat : Nat) : ℚ) / (Nat.pow 10 (-k).toNat : Nat)) = a * 10 ^ k := by
    rw [Nat.cast_mul, mul_div_assoc, pow_toNat_div (by decide)]
    norm_num
  have hden : 0 < Nat.pow 10 (-k).toNat := Nat.pow_pos (by decide)
  rw [i.contains_iff _ hden, hgrid]

theorem Interval.holds_of_onGrid? {a : Nat} (h : i.onGrid? k = some a) : i.Holds (a * 10 ^ k) := by
  rw [← i.contains_grid]
  unfold onGrid? at h
  dsimp only at h
  split at h
  · next hboth =>
    obtain ⟨hdown, hup⟩ := Bool.and_eq_true_iff.1 hboth
    split at h
    · cases h
      exact hdown
    · cases h
      exact hup
    · cases h
      split
      · exact hdown
      · exact hup
  · split at h
    · next hdown =>
      cases h
      exact hdown
    · split at h
      · next hup =>
        cases h
        exact hup
      · cases h

/-- The multiple of `10 ^ k` next below a float. -/
theorem Interval.floor_around (m : Nat) (e k : Int) :
    ((around m e).value * Nat.pow 10 (-k).toNat) / ((around m e).scale * Nat.pow 10 k.toNat) =
      ⌊(m * 2 ^ e / 10 ^ k : ℚ)⌋₊ := by
  have htwo : (2 : ℚ) ^ e = (Nat.pow 2 e.toNat : Nat) / (Nat.pow 2 (-e).toNat : Nat) :=
    (pow_toNat_div (by decide) e).symm
  have hten : (10 : ℚ) ^ k = (Nat.pow 10 k.toNat : Nat) / (Nat.pow 10 (-k).toNat : Nat) :=
    (pow_toNat_div (by decide) k).symm
  rw [← Nat.floor_div_eq_div (K := ℚ), htwo, hten]
  congr 1
  simp only [around]
  push_cast
  field_simp

/-- A grid meets the interval if the float is farther from the ends than two of its multiples from each other. -/
theorem Interval.onGrid?_around {m : Nat} {e : Int} (hm : 0 < m) (h : 4 * (10 : ℚ) ^ k < 2 ^ e) :
    ((around m e).onGrid? k).isSome = true := by
  have hten : (0 : ℚ) < 10 ^ k := by positivity
  have hbelow := (below_bounds m e).1
  have hdown : (around m e).Holds (⌊(m * 2 ^ e / 10 ^ k : ℚ)⌋₊ * 10 ^ k) := by
    have hle : (⌊(m * 2 ^ e / 10 ^ k : ℚ)⌋₊ : ℚ) * 10 ^ k ≤ m * 2 ^ e := by
      rw [← le_div_iff₀ hten]
      exact Nat.floor_le (by positivity)
    have hlt : m * 2 ^ e < ((⌊(m * 2 ^ e / 10 ^ k : ℚ)⌋₊ : ℚ) + 1) * 10 ^ k := by
      rw [← div_lt_iff₀ hten]
      exact Nat.lt_floor_add_one _
    have hlow : (m - below m e) * 2 ^ e < (⌊(m * 2 ^ e / 10 ^ k : ℚ)⌋₊ : ℚ) * 10 ^ k := by
      nlinarith
    have hhigh : (⌊(m * 2 ^ e / 10 ^ k : ℚ)⌋₊ : ℚ) * 10 ^ k < (m + 1 / 2) * 2 ^ e := by
      nlinarith
    rw [holds_around hm]
    split
    · exact ⟨hlow.le, hhigh.le⟩
    · exact ⟨hlow, hhigh⟩
  rw [← contains_grid, ← floor_around] at hdown
  -- with the multiple below in the interval, one of the two is taken whatever the other is
  unfold onGrid?
  dsimp only
  rw [hdown, Bool.true_and, if_pos rfl]
  split
  · split <;> rfl
  · rfl

theorem Interval.holds_search {n : Nat} (h : ∃ j < n, (i.onGrid? (k - j)).isSome = true) :
    i.Holds ((i.search n k).1 * 10 ^ (i.search n k).2) := by
  induction n generalizing k with
  | zero => simp at h
  | succ n ih =>
    rw [search]
    split
    · next a ha => exact holds_of_onGrid? ha
    · next hnone =>
      obtain ⟨j, hj, hsome⟩ := h
      cases j with
      | zero => simp [hnone] at hsome
      | succ j =>
        refine ih ⟨j, by omega, ?_⟩
        rw [← hsome]
        congr 2
        push_cast
        ring

end

/-! ### The leading digit -/

/-- A larger base gives the smaller power if the exponent is negative. -/
theorem zpow_le_zpow_of_neg {a b : ℚ} {k : Int} (ha : 0 < a) (h : a ≤ b) (hk : k < 0) : b ^ k ≤ a ^ k := by
  have hflip : a ^ (-k) ≤ b ^ (-k) := zpow_le_zpow_left₀ (by omega) ha.le h
  rwa [zpow_neg, zpow_neg, inv_le_inv₀ (zpow_pos ha k) (zpow_pos (ha.trans_le h) k)] at hflip

theorem ten_pow_between : 2 ^ 100000 ≤ 10 ^ 30103 ∧ 10 ^ 30103 ≤ 2 ^ 100001 := by decide +kernel

/-- The number of bits tells the place of the leading digit. -/
theorem pow_lead_le {l : Int} (hl : l ≤ 100000) : (10 : ℚ) ^ (l * 30103 / 100000) ≤ 2 ^ (l + 1) := by
  have hten : ((10 : ℚ) ^ 30103) ^ l ≤ 2 ^ ((l + 1) * 100000) := by
    rcases le_or_gt 0 l with hpos | hneg
    · have hle : (10 : ℚ) ^ 30103 ≤ 2 ^ 100001 := by exact_mod_cast ten_pow_between.2
      calc ((10 : ℚ) ^ 30103) ^ l ≤ ((2 : ℚ) ^ 100001) ^ l := zpow_le_zpow_left₀ hpos (by positivity) hle
        _ = 2 ^ (100001 * l) := by rw [zpow_mul]; rfl
        _ ≤ 2 ^ ((l + 1) * 100000) := zpow_le_zpow_right₀ (by norm_num) (by omega)
    · have hle : (2 : ℚ) ^ 100000 ≤ 10 ^ 30103 := by exact_mod_cast ten_pow_between.1
      calc ((10 : ℚ) ^ 30103) ^ l ≤ ((2 : ℚ) ^ 100000) ^ l := zpow_le_zpow_of_neg (by positivity) hle hneg
        _ = 2 ^ (100000 * l) := by rw [zpow_mul]; rfl
        _ ≤ 2 ^ ((l + 1) * 100000) := zpow_le_zpow_right₀ (by norm_num) (by omega)
  -- the quotient is rounded down, so the powers are compared before the root is taken
  have hpow : ((10 : ℚ) ^ (l * 30103 / 100000)) ^ 100000 ≤ ((2 : ℚ) ^ (l + 1)) ^ 100000 := by
    calc ((10 : ℚ) ^ (l * 30103 / 100000)) ^ 100000 = 10 ^ (l * 30103 / 100000 * 100000) := by
          rw [zpow_mul]; rfl
      _ ≤ 10 ^ (30103 * l) := zpow_le_zpow_right₀ (by norm_num) (by omega)
      _ = ((10 : ℚ) ^ 30103) ^ l := by rw [zpow_mul]; rfl
      _ ≤ 2 ^ ((l + 1) * 100000) := hten
      _ = ((2 : ℚ) ^ (l + 1)) ^ 100000 := by rw [zpow_mul]; rfl
  exact le_of_pow_le_pow_left₀ (by decide) (by positivity) hpow

/-- Of the grids that are tried, the last one is fine enough. -/
theorem pow_last_lt {m : Nat} {e : Int} (h : Fits m e) :
    4 * (10 : ℚ) ^ (((m.log2 : Int) + e) * 30103 / 100000 - 18) < 2 ^ e := by
  have hlog : m.log2 < 53 := (Nat.log2_lt h.pos.ne').2 h.lt
  have hhigh := h.high
  have htwo : (0 : ℚ) < 2 ^ e := by positivity
  have hlead : (10 : ℚ) ^ (((m.log2 : Int) + e) * 30103 / 100000) ≤ 2 ^ e * 2 ^ 53 :=
    calc _ ≤ (2 : ℚ) ^ ((m.log2 : Int) + e + 1) := pow_lead_le (by omega)
      _ ≤ 2 ^ (e + 53) := zpow_le_zpow_right₀ (by norm_num) (by omega)
      _ = 2 ^ e * 2 ^ 53 := by rw [zpow_add₀ (by norm_num)]; rfl
  calc 4 * (10 : ℚ) ^ (((m.log2 : Int) + e) * 30103 / 100000 - 18)
      = 4 * (10 : ℚ) ^ (((m.log2 : Int) + e) * 30103 / 100000) / 10 ^ 18 := by
        rw [zpow_sub₀ (by norm_num), mul_div_assoc]
        rfl
    _ ≤ 4 * (2 ^ e * 2 ^ 53) / 10 ^ 18 := by gcongr
    _ < 2 ^ e := by linarith

/-- The decimal that is found rounds to the float. -/
theorem holds_digits {m : Nat} {e : Int} (h : Fits m e) :
    (Interval.around m e).Holds ((digits m e).1 * 10 ^ (digits m e).2) := by
  refine Interval.holds_search ⟨20, by decide, Interval.onGrid?_around h.pos ?_⟩
  have hlast : ((m.log2 : Int) + e) * 30103 / 100000 + 2 - (20 : Nat) =
      ((m.log2 : Int) + e) * 30103 / 100000 - 18 := by omega
  rw [hlast]
  exact pow_last_lt h

theorem digits_pos {m : Nat} {e : Int} (h : Fits m e) : 0 < (digits m e).1 := by
  have hm : (1 : ℚ) ≤ m := by exact_mod_cast h.pos
  have hbelow := (below_bounds m e).2
  have hlow : 0 < (m - below m e) * 2 ^ e := mul_pos (by linarith) (by positivity)
  have hpos : (0 : ℚ) < (digits m e).1 * 10 ^ (digits m e).2 :=
    hlow.trans_le (bounds_of_holds h.pos (holds_digits h)).1
  exact_mod_cast pos_of_mul_pos_left hpos (by positivity)

end Snack.Shortest
