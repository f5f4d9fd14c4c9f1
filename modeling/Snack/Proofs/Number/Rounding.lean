import Mathlib
import Snack.Number.Numeral
import Snack.Proofs.Number.Floats
import Snack.Proofs.Number.Shortest

/-! A decimal is read as the float whose interval it lies in. -/

namespace Snack.Shortest

open Float.Model UnpackedFloat

/-! ### What is cut off -/

/-- The part of one that an accuracy tells of. -/
def Part : Accuracy → ℚ → Prop
  | .exact, f => f = 0
  | .inexact .lt, f => 0 < f ∧ f < 1 / 2
  | .inexact .eq, f => f = 1 / 2
  | .inexact .gt, f => 1 / 2 < f ∧ f < 1

/-- The bits of a number, with what was cut off behind them. -/
def Stands (em : ExtendedMantissa) (v : ℚ) : Prop := Part em.accuracy (v - em.mantissa)

theorem Part.bounds {a : Accuracy} {f : ℚ} (h : Part a f) : 0 ≤ f ∧ f < 1 := by
  rcases a with _ | (_ | _ | _) <;> simp only [Part] at h <;> constructor <;> linarith

theorem stands_of_part {a : Accuracy} {f : ℚ} (h : Part a f) (m : Nat) :
    Stands (.ofMantissaAndAccuracy m a) (m + f) := by
  rcases a with _ | (_ | _ | _) <;> simpa [Stands, ExtendedMantissa.ofMantissaAndAccuracy, ExtendedMantissa.accuracy]

/-- A bit less leaves half the number. -/
theorem Stands.shiftRightOne {em : ExtendedMantissa} {v : ℚ} (h : Stands em v) :
    Stands em.shiftRightOne (v / 2) := by
  obtain ⟨m, r, s⟩ := em
  have hm : ((m % 2 : Nat) : ℚ) + 2 * (m / 2 : Nat) = m := by exact_mod_cast Nat.mod_add_div m 2
  rcases Nat.mod_two_eq_zero_or_one m with hbit | hbit <;> rw [hbit] at hm <;> push_cast at hm <;>
    cases r <;> cases s <;>
    simp only [Stands, ExtendedMantissa.shiftRightOne, hbit, bne_self_eq_false, Nat.reduceBneDiff,
      Bool.or_false, Bool.or_true, ExtendedMantissa.accuracy, Part] at h ⊢ <;>
    first | linarith | constructor <;> linarith

theorem Stands.shiftRight {em : ExtendedMantissa} {v : ℚ} (h : Stands em v) (k : Nat) :
    Stands (em >>> k) (v / 2 ^ k) := by
  show Stands (k.repeat ExtendedMantissa.shiftRightOne em) (v / 2 ^ k)
  induction k with
  | zero => simpa [Nat.repeat] using h
  | succ k ih =>
    rw [Nat.repeat, pow_succ, ← div_div]
    exact ih.shiftRightOne

/-! ### Rounding -/

/-- The integer is nearest to the number, or one of two and even. -/
def Nearest (n : Nat) (v : ℚ) : Prop :=
  if n % 2 = 0 then n - 1 / 2 ≤ v ∧ v ≤ n + 1 / 2 else n - 1 / 2 < v ∧ v < n + 1 / 2

theorem eq_of_lt_succ {m n : Nat} (hm : (m : ℚ) < n + 1) (hn : (n : ℚ) < m + 1) : m = n := by
  norm_cast at hm hn
  omega

theorem Stands.roundedMantissa {em : ExtendedMantissa} {v : ℚ} (h : Stands em v) {n : Nat} (hn : Nearest n v) :
    em.roundedMantissa = n := by
  have hbounds : (n : ℚ) - 1 / 2 ≤ v ∧ v ≤ n + 1 / 2 := by
    unfold Nearest at hn
    split at hn
    · exact hn
    · exact ⟨hn.1.le, hn.2.le⟩
  obtain ⟨hlow, hhigh⟩ := hbounds
  obtain ⟨m, r, s⟩ := em
  cases r <;> cases s <;>
    simp only [Stands, ExtendedMantissa.accuracy, Part, ExtendedMantissa.roundedMantissa,
      Accuracy.roundToNearestEven] at h ⊢
  · exact eq_of_lt_succ (by linarith) (by linarith)
  · exact eq_of_lt_succ (by linarith) (by linarith)
  · -- only the even one of the two neighbours is nearest to their middle
    unfold Nearest at hn
    split at hn
    · have hle : (m : ℚ) ≤ n := by linarith
      have hge : (n : ℚ) ≤ m + 1 := by linarith
      norm_cast at hle hge
      omega
    · have hlt : (m : ℚ) < n := by linarith
      have hgt : (n : ℚ) < m + 1 := by linarith
      norm_cast at hlt hgt
      omega
  · exact eq_of_lt_succ (by push_cast; linarith) (by push_cast; linarith)

/-! ### The float that is chosen -/

theorem targetExponent_eq (m : Nat) (e : Int) :
    Format.binary64.targetExponent (totalExponent m e) = max ((m.log2 : Int) + e - 52) (-1074) := by
  have hmin : Format.binary64.minExponent = -1074 := rfl
  have hbits : Format.binary64.mantissaBits = 53 := rfl
  rw [Format.targetExponent, totalExponent, hmin, hbits]
  congr 1
  omega

/-- A number of at most 53 bits needs no shift. -/
theorem shiftToTargetExponent_of_lt {m : Nat} {e : Int} (hm : m < 2 ^ 53) (he : -1074 ≤ e) :
    shiftToTargetExponent .binary64 m e .exact = (⟨m, false, false⟩, e) := by
  have hlog : m.log2 ≤ 52 := by
    rcases Nat.eq_zero_or_pos m with rfl | hpos
    · simp
    · have := (Nat.log2_lt hpos.ne').2 hm
      omega
  have hshift : (max ((m.log2 : Int) + e - 52) (-1074) - e).toNat = 0 := by omega
  rw [shiftToTargetExponent, targetExponent_eq, shiftToExponent, hshift]
  simp [ExtendedMantissa.ofMantissaAndAccuracy, HShiftRight.hShiftRight, Nat.repeat]

/-- One bit too many goes to the exponent. -/
theorem shiftToTargetExponent_carry {e : Int} (he : -1074 ≤ e) :
    shiftToTargetExponent .binary64 (2 ^ 53) e .exact = (⟨2 ^ 52, false, false⟩, e + 1) := by
  have hcarry : 2 ^ 53 = 2 ^ 52 <<< 1 := by decide
  rw [hcarry]
  exact Number.shiftToTargetExponent_shiftLeft Nat.log2_two_pow (by omega)

/-- A number is rounded at the place of its 53rd bit, or at the last place there is. -/
theorem place_of_target {mant : Nat} {exp t : Int} {f : ℚ} (hf : 0 ≤ f) (hf' : f < 1)
    (ht : t = max ((mant.log2 : Int) + exp - 52) (-1074)) (hexp : exp ≤ t) :
    (mant + f) * 2 ^ exp < (2 : ℚ) ^ (t + 53) ∧ (t = -1074 ∨ (2 : ℚ) ^ (t + 52) ≤ (mant + f) * 2 ^ exp) := by
  have hpos : (0 : ℚ) < 2 ^ exp := by positivity
  constructor
  · have hlt : ((mant + 1 : Nat) : ℚ) ≤ 2 ^ (mant.log2 + 1) := by exact_mod_cast Nat.lt_log2_self
    calc (mant + f) * 2 ^ exp < (mant + 1 : Nat) * (2 : ℚ) ^ exp := by
          push_cast
          gcongr
      _ ≤ 2 ^ (mant.log2 + 1) * 2 ^ exp := by gcongr
      _ = 2 ^ ((mant.log2 : Int) + 1 + exp) := by
          rw [zpow_add₀ (by norm_num)]
          norm_cast
      _ ≤ 2 ^ (t + 53) := zpow_le_zpow_right₀ (by norm_num) (by omega)
  · rcases Nat.eq_zero_or_pos mant with rfl | hmant
    · left
      rw [Nat.log2_zero] at ht
      omega
    · by_cases hmin : t = -1074
      · exact .inl hmin
      · right
        have hle : ((2 ^ mant.log2 : Nat) : ℚ) ≤ mant := by exact_mod_cast Nat.log2_self_le hmant.ne'
        calc (2 : ℚ) ^ (t + 52) = 2 ^ ((mant.log2 : Int) + exp) := by congr 1; omega
          _ = (2 ^ mant.log2 : Nat) * 2 ^ exp := by
            rw [zpow_add₀ (by norm_num)]
            norm_cast
          _ ≤ (mant + f) * 2 ^ exp := by gcongr; linarith

theorem nearest_of_holds {m : Nat} {e : Int} {v : ℚ} (hm : 0 < m) (hv : (Interval.around m e).Holds v) :
    Nearest m (v / 2 ^ e) := by
  have hpos : (0 : ℚ) < 2 ^ e := by positivity
  have hbelow : (m - 1 / 2) * (2 : ℚ) ^ e ≤ (m - below m e) * 2 ^ e := by
    gcongr
    exact (below_bounds m e).2
  rw [Interval.holds_around hm] at hv
  unfold Nearest
  split at hv
  · next heven =>
    rw [if_pos heven, le_div_iff₀ hpos, div_le_iff₀ hpos]
    exact ⟨hbelow.trans hv.1, hv.2⟩
  · next hodd =>
    rw [if_neg hodd, lt_div_iff₀ hpos, div_lt_iff₀ hpos]
    exact ⟨hbelow.trans_lt hv.1, hv.2⟩

/-- Where a number in the interval around a float is rounded: at the float's last place, or below it at the
place of the next smaller floats. -/
theorem place_of_holds {m : Nat} {e t : Int} {v : ℚ} (h : Fits m e) (hv : (Interval.around m e).Holds v)
    (hlow : -1074 ≤ t) (hlt : v < (2 : ℚ) ^ (t + 53)) (hge : t = -1074 ∨ (2 : ℚ) ^ (t + 52) ≤ v) :
    t = e ∨ (t = e - 1 ∧ m = 2 ^ 52 ∧ Nearest (2 ^ 53) (v / 2 ^ t)) := by
  have hpos : (0 : ℚ) < 2 ^ e := by positivity
  obtain ⟨hfrom, hto⟩ := bounds_of_holds h.pos hv
  obtain ⟨hnear, hfar⟩ := below_bounds m e
  have hshift (n : Nat) : (2 : ℚ) ^ (e + n) = 2 ^ n * 2 ^ e := by
    rw [zpow_add₀ (by norm_num), zpow_natCast, mul_comm]
  rcases lt_trichotomy t e with htlt | rfl | htgt
  · right
    have hfull : 2 ^ 52 ≤ m := h.full.resolve_right (by have := h.low; omega)
    have hle : v < 2 ^ 52 * (2 : ℚ) ^ e := by
      rw [← hshift 52]
      exact hlt.trans_le (zpow_le_zpow_right₀ (by norm_num) (by omega))
    -- above a power of two the interval does not reach down to it
    have hm : m = 2 ^ 52 := by
      by_contra hne
      have hsucc : ((2 ^ 52 + 1 : Nat) : ℚ) ≤ m := by exact_mod_cast (by omega : 2 ^ 52 + 1 ≤ m)
      push_cast at hsucc
      nlinarith
    have hquarter : below m e = 1 / 4 := if_pos ⟨hm, by have := h.low; omega⟩
    rw [hquarter, hm] at hfrom
    push_cast at hfrom
    have ht : t = e - 1 := by
      have hbit : (2 : ℚ) ^ (e + (51 : Nat)) < 2 ^ (t + 53) := by
        rw [hshift 51]
        linarith
      have := (zpow_lt_zpow_iff_right₀ (by norm_num : (1 : ℚ) < 2)).1 hbit
      omega
    have hhalf : (2 : ℚ) ^ e = 2 * 2 ^ t := by
      rw [ht, zpow_sub_one₀ (by norm_num)]
      ring
    have hpos' : (0 : ℚ) < 2 ^ t := by positivity
    refine ⟨ht, hm, ?_⟩
    rw [Nearest, if_pos (by decide), le_div_iff₀ hpos', div_le_iff₀ hpos']
    push_cast
    constructor <;> linarith
  · exact .inl rfl
  · have hbit : (2 : ℚ) ^ (t + 52) < 2 ^ (e + (53 : Nat)) := by
      rw [hshift 53]
      have hm : (m : ℚ) + 1 ≤ 2 ^ 53 := by exact_mod_cast h.lt
      refine (hge.resolve_left (by have := h.low; omega)).trans_lt (hto.trans_lt ?_)
      gcongr
      linarith
    have := (zpow_lt_zpow_iff_right₀ (by norm_num : (1 : ℚ) < 2)).1 hbit
    omega

theorem roundWithAccuracy_of_holds {s : Sign} {mant m : Nat} {exp e : Int} {a : Accuracy} {f : ℚ}
    (h : Fits m e) (ha : Part a f) (hexp : exp ≤ max ((mant.log2 : Int) + exp - 52) (-1074))
    (hv : (Interval.around m e).Holds ((mant + f) * 2 ^ exp)) :
    roundWithAccuracy .binary64 s mant exp a = .finite s m e h.pos := by
  obtain ⟨t, ht⟩ : ∃ t, t = max ((mant.log2 : Int) + exp - 52) (-1074) := ⟨_, rfl⟩
  rw [← ht] at hexp
  obtain ⟨hf, hf'⟩ := ha.bounds
  obtain ⟨hlt, hge⟩ := place_of_target hf hf' ht hexp
  have hlow : -1074 ≤ t := by omega
  have hstands := (stands_of_part ha mant).shiftRight (t - exp).toNat
  have hplace : (mant + f) / (2 : ℚ) ^ (t - exp).toNat = (mant + f) * 2 ^ exp / 2 ^ t := by
    have hpow : (2 : ℚ) ^ (t - exp).toNat = 2 ^ t / 2 ^ exp := by
      rw [← zpow_natCast, Int.toNat_of_nonneg (by omega), zpow_sub₀ (by norm_num)]
    rw [hpow, div_div_eq_mul_div]
  rw [hplace] at hstands
  have hfirst : shiftToTargetExponent .binary64 mant exp a =
      (ExtendedMantissa.ofMantissaAndAccuracy mant a >>> (t - exp).toNat, t) := by
    rw [shiftToTargetExponent, targetExponent_eq, shiftToExponent, ← ht]
    exact Prod.ext rfl (by omega)
  unfold roundWithAccuracy
  rw [hfirst]
  dsimp only
  rcases place_of_holds h hv hlow hlt hge with rfl | ⟨rfl, rfl, hnearest⟩
  · rw [hstands.roundedMantissa (nearest_of_holds h.pos hv), shiftToTargetExponent_of_lt h.lt h.low]
    exact dif_neg h.pos.ne'
  · rw [hstands.roundedMantissa hnearest, shiftToTargetExponent_carry (by omega)]
    dsimp only
    rw [dif_neg (by decide)]
    congr 1
    omega

/-! ### Decimals -/

/-- The numbers that round to a float are neither too small nor too large for one. -/
theorem range_of_holds {m : Nat} {e : Int} {v : ℚ} (h : Fits m e) (hv : (Interval.around m e).Holds v) :
    (2 : ℚ) ^ (-1075 : Int) ≤ v ∧ v < 2 ^ (1024 : Int) := by
  obtain ⟨hfrom, hto⟩ := bounds_of_holds h.pos hv
  have hbelow := (below_bounds m e).2
  have hone : (1 : ℚ) ≤ m := by exact_mod_cast h.pos
  have hmax : (m : ℚ) + 1 ≤ 2 ^ 53 := by exact_mod_cast h.lt
  constructor
  · calc (2 : ℚ) ^ (-1075 : Int) = 1 / 2 * 2 ^ (-1074 : Int) := by
          rw [show (-1075 : Int) = -1 + -1074 from rfl, zpow_add₀ (by norm_num), zpow_neg_one, one_div]
      _ ≤ (m - below m e) * 2 ^ e := by
        refine mul_le_mul (by linarith) (zpow_le_zpow_right₀ (by norm_num) h.low) (by positivity) (by linarith)
      _ ≤ v := hfrom
  · calc v ≤ (m + 1 / 2) * 2 ^ e := hto
      _ < 2 ^ 53 * 2 ^ e := by
        gcongr
        linarith
      _ ≤ 2 ^ 53 * 2 ^ (971 : Int) := by
        gcongr
        · norm_num
        · exact h.high
      _ = 2 ^ (1024 : Int) := by
        rw [show (1024 : Int) = 53 + 971 from rfl, zpow_add₀ (by norm_num)]
        rfl

/-- The quotient of two integers, with what is cut off behind it. -/
theorem part_accuracyOfFraction {r d : Nat} (h : r < d) : Part (accuracyOfFraction r d) (r / d) := by
  have hd : (0 : ℚ) < d := by exact_mod_cast (by omega : 0 < d)
  have hlt : (r : ℚ) < d := by exact_mod_cast h
  unfold accuracyOfFraction
  split
  · next hr =>
    rw [hr]
    simp [Part]
  · next hr =>
    have hpos : (0 : ℚ) < r := by exact_mod_cast Nat.pos_of_ne_zero hr
    rcases hcmp : compare (2 * r) d with _ | _ | _
    · have hhalf : (2 * r : ℚ) < d := by exact_mod_cast compare_lt_iff_lt.1 hcmp
      exact ⟨by positivity, by rw [div_lt_iff₀ hd]; linarith⟩
    · have hhalf : (2 * r : ℚ) = d := by exact_mod_cast compare_eq_iff_eq.1 hcmp
      show (r / d : ℚ) = 1 / 2
      rw [div_eq_iff hd.ne']
      linarith
    · have hhalf : (d : ℚ) < 2 * r := by exact_mod_cast compare_gt_iff_gt.1 hcmp
      exact ⟨by rw [lt_div_iff₀ hd]; linarith, by rw [div_lt_one hd]; exact hlt⟩

theorem mul_of_holds {m u : Nat} {e k : Int} (h : Fits m e) (hu : 0 < u) (hk : 0 ≤ k)
    (hv : (Interval.around m e).Holds (u * 10 ^ k)) :
    roundWithAccuracy .binary64 .positive (u * 2 ^ 53 * 10 ^ k.toNat) (-53) .exact = .finite .positive m e h.pos := by
  have hpart : Part .exact 0 := rfl
  refine roundWithAccuracy_of_holds h hpart ?_ ?_
  · have hle : 2 ^ 53 ≤ u * 2 ^ 53 * 10 ^ k.toNat := by
      rw [mul_right_comm]
      exact Nat.le_mul_of_pos_left _ (by positivity)
    have hlog : 53 ≤ (u * 2 ^ 53 * 10 ^ k.toNat).log2 := (Nat.le_log2 (by positivity)).2 hle
    omega
  · have hvalue : (((u * 2 ^ 53 * 10 ^ k.toNat : Nat) : ℚ) + 0) * 2 ^ (-53 : Int) = u * 10 ^ k := by
      rw [← Int.toNat_of_nonneg hk, zpow_natCast, Int.toNat_natCast]
      push_cast
      norm_num
      ring
    rw [hvalue]
    exact hv

theorem divCore_eq (u d : Nat) : ∃ k : Nat, (k : Int) = -min 0 (max ((u.log2 : Int) - d.log2 - 53) (-1074)) ∧
    divCore .binary64 u 0 d 0 = (u * 2 ^ k / d, -(k : Int), accuracyOfFraction (u * 2 ^ k % d) d) := by
  have hmin : Format.binary64.minExponent = -1074 := rfl
  have hbits : Format.binary64.mantissaBits = 53 := rfl
  have htarget : Format.binary64.targetExponent (totalExponent u 0 - totalExponent d 0) =
      max ((u.log2 : Int) - d.log2 - 53) (-1074) := by
    rw [Format.targetExponent, totalExponent, totalExponent, hmin, hbits]
    congr 1
    omega
  obtain ⟨k, hk⟩ : ∃ k : Nat, (k : Int) = -min 0 (max ((u.log2 : Int) - d.log2 - 53) (-1074)) :=
    ⟨_, Int.toNat_of_nonneg (by omega)⟩
  refine ⟨k, hk, ?_⟩
  have hneg : min ((0 : Int) - 0) (max ((u.log2 : Int) - d.log2 - 53) (-1074)) = -k := by omega
  have hshift : ((0 : Int) - 0 - -k).toNat = k := by omega
  rw [divCore, htarget, hneg, hshift, Nat.shiftLeft_eq]

theorem div_of_holds {m u d : Nat} {e : Int} (h : Fits m e) (hu : 0 < u) (hd : 0 < d)
    (hv : (Interval.around m e).Holds (u / d)) {q : Nat} {t : Int} {a : Accuracy}
    (hdiv : divCore .binary64 u 0 d 0 = (q, t, a)) :
    roundWithAccuracy .binary64 .positive q t a = .finite .positive m e h.pos := by
  obtain ⟨k, hk, hcore⟩ := divCore_eq u d
  obtain ⟨rfl, rfl, rfl⟩ : u * 2 ^ k / d = q ∧ -(k : Int) = t ∧ accuracyOfFraction (u * 2 ^ k % d) d = a := by
    simpa [hcore] using hdiv
  refine roundWithAccuracy_of_holds h (part_accuracyOfFraction (Nat.mod_lt _ hd)) ?_ ?_
  · by_cases hmin : (-k : Int) = -1074
    · omega
    · -- enough zeros were put behind the dividend for 53 bits of the quotient
      have hbits : 2 ^ 52 * d ≤ u * 2 ^ k :=
        calc 2 ^ 52 * d ≤ 2 ^ 52 * 2 ^ (d.log2 + 1) := Nat.mul_le_mul_left _ Nat.lt_log2_self.le
          _ = 2 ^ (52 + (d.log2 + 1)) := (pow_add ..).symm
          _ ≤ 2 ^ (u.log2 + k) := Nat.pow_le_pow_right (by decide) (by omega)
          _ = 2 ^ u.log2 * 2 ^ k := pow_add ..
          _ ≤ u * 2 ^ k := Nat.mul_le_mul_right _ (Nat.log2_self_le hu.ne')
      have hquot : 2 ^ 52 ≤ u * 2 ^ k / d := (Nat.le_div_iff_mul_le hd).2 hbits
      have hlog : 52 ≤ (u * 2 ^ k / d).log2 := (Nat.le_log2 (by omega)).2 hquot
      omega
  · have hpos : (d : ℚ) ≠ 0 := by exact_mod_cast hd.ne'
    have hmod : (d : ℚ) * (u * 2 ^ k / d : Nat) + (u * 2 ^ k % d : Nat) = u * 2 ^ k := by
      exact_mod_cast Nat.div_add_mod (u * 2 ^ k) d
    have hvalue : (((u * 2 ^ k / d : Nat) : ℚ) + (u * 2 ^ k % d : Nat) / d) * 2 ^ (-(k : Int)) = u / d := by
      rw [zpow_neg, zpow_natCast]
      field_simp
      linarith
    rw [hvalue]
    exact hv

/-- A decimal is read as the float around which it lies. -/
theorem ofScientific_of_holds {m u : Nat} {e k : Int} (h : Fits m e)
    (hv : (Interval.around m e).Holds (u * 10 ^ k)) :
    UnpackedFloat.ofScientific .binary64 u k = .finite .positive m e h.pos := by
  have hexponent : (2 : Int) ^ Format.binary64.exponentBits = 2048 := rfl
  obtain ⟨hlow, hhigh⟩ := range_of_holds h hv
  have hu : u ≠ 0 := by
    rintro rfl
    have hpos : (0 : ℚ) < 2 ^ (-1075 : Int) := by positivity
    rw [Nat.cast_zero, zero_mul] at hlow
    linarith
  have hone : (1 : ℚ) ≤ u := by exact_mod_cast Nat.pos_of_ne_zero hu
  have hlarge : k ≤ 2048 := by
    by_contra hk
    have hpow : (2 : ℚ) ^ (1024 : Int) ≤ u * 10 ^ k :=
      calc (2 : ℚ) ^ (1024 : Int) ≤ 2 ^ k := zpow_le_zpow_right₀ (by norm_num) (by omega)
        _ ≤ 10 ^ k := zpow_le_zpow_left₀ (by omega) (by norm_num) (by norm_num)
        _ ≤ u * 10 ^ k := le_mul_of_one_le_left (by positivity) hone
    exact absurd hhigh hpow.not_gt
  have hsmall : -(2048 + (u.log2 : Int)) ≤ k := by
    by_contra hk
    have hlog : (u : ℚ) < 2 ^ (u.log2 + 1) := by exact_mod_cast Nat.lt_log2_self
    have hpow : u * (10 : ℚ) ^ k < 2 ^ (-1075 : Int) :=
      calc u * (10 : ℚ) ^ k ≤ u * 2 ^ k := by
            gcongr
            exact zpow_le_zpow_of_neg (by norm_num) (by norm_num) (by omega)
        _ < 2 ^ (u.log2 + 1) * 2 ^ k := by gcongr
        _ = 2 ^ ((u.log2 : Int) + 1 + k) := by
            rw [zpow_add₀ (by norm_num)]
            norm_cast
        _ ≤ 2 ^ (-1075 : Int) := zpow_le_zpow_right₀ (by norm_num) (by omega)
    exact absurd hlow hpow.not_ge
  unfold UnpackedFloat.ofScientific
  rw [dif_neg hu, if_neg (by omega), if_neg (by omega)]
  split
  · next hk =>
    have hround := mul_of_holds h (Nat.pos_of_ne_zero hu) hk hv
    rw [← Nat.shiftLeft_eq] at hround
    exact hround
  · next hk =>
    have hquot : (u : ℚ) * 10 ^ k = u / (10 ^ (-k).toNat : Nat) := by
      have hten := pow_toNat_div (b := 10) (by decide) k
      rw [Int.toNat_of_nonpos (by omega)] at hten
      rw [Nat.cast_ofNat] at hten
      rw [← hten, mul_div_assoc']
      simp
    rw [hquot] at hv
    rw [UnpackedFloat.div]
    exact div_of_holds h (Nat.pos_of_ne_zero hu) (by positivity) hv rfl

/-! ### Floats -/

/-- A float is read as it was packed. -/
theorem unpack_pack_of_fits {m : Nat} {e : Int} (h : Fits m e) (s : Sign) :
    (Float.Model.pack (.finite s m e h.pos)).unpack = .finite s m e h.pos := by
  by_cases hfull : 2 ^ 52 ≤ m
  · have hlog : m.log2 = 52 := (Nat.log2_eq_iff h.pos.ne').2 ⟨hfull, h.lt⟩
    exact Number.unpack_pack_finite h.pos hlog h.low h.high
  · obtain rfl : e = -1074 := h.full.resolve_left hfull
    have hbias : Format.binary64.exponentBias = 1023 := rfl
    have hlog : m.log2 < 52 := (Nat.log2_lt h.pos.ne').2 (by omega)
    have hmod : m % 2 ^ 52 = m := Nat.mod_eq_of_lt (by omega)
    have hmantissa : BitVec.ofNat 52 m ≠ 0#52 := by
      intro hzero
      have hnat := congrArg BitVec.toNat hzero
      rw [BitVec.toNat_ofNat, hmod, BitVec.toNat_zero] at hnat
      exact h.pos.ne' hnat
    have hpack : UnpackedFloat.pack .binary64 (.finite s m (-1074) h.pos) =
        packComponents .binary64 s 0#11 (BitVec.ofNat 52 m) := by
      rw [UnpackedFloat.pack, hbias]
      dsimp only
      rw [if_neg (by decide), if_neg]
      show m.log2 + 1 ≠ 53
      omega
    show UnpackedFloat.unpack .binary64 (UnpackedFloat.pack .binary64 (.finite s m (-1074) h.pos)) = _
    rw [hpack, UnpackedFloat.unpack]
    simp only [unpackMantissa_packComponents, unpackExponent_packComponents, unpackSign_packComponents,
      Sign.ofBitVec_toBitVec, if_neg (by decide : ¬(0#11 = -1#11)), if_true, dif_neg hmantissa, hbias,
      BitVec.toNat_ofNat, hmod]
    rfl

theorem ofModel_pack_unpack (x : Float) : Float.ofModel (.pack (Number.unpack x)) = x := by
  obtain ⟨⟨bits, hvalid⟩⟩ := x
  have hpack : UnpackedFloat.pack .binary64 (UnpackedFloat.unpack .binary64 bits.toBitVec) = bits.toBitVec :=
    pack_unpack_of_valid hvalid
  simp only [Number.unpack, Float.Model.unpack, Float.Model.pack, hpack]

theorem neg_ofModel {m : Nat} {e : Int} (h : Fits m e) :
    -Float.ofModel (.pack (.finite .positive m e h.pos)) = .ofModel (.pack (.finite .negative m e h.pos)) := by
  show Float.ofModel (.pack (Float.Model.pack (.finite .positive m e h.pos)).unpack.neg) = _
  rw [unpack_pack_of_fits h]
  rfl

end Snack.Shortest
