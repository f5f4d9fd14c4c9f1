import Mathlib
import Snack.Number.Arith

/-! Floats that have the value of an integer. An integer of at most 53 bits is such a float itself, and so is
its quotient by one; zero over anything but zero is a zero, and one to any power that is an integer is
one. -/

namespace Snack.Number

open Float.Model UnpackedFloat

/-! ### Packing -/

/-- The leading one of 53 bits is not stored, and put back when the float is read. -/
theorem toNat_append_one {m : Nat} (h : m.log2 = 52) : (1#1 ++ BitVec.ofNat 52 m).toNat = m := by
  have hm : m ≠ 0 := by rintro rfl; cases h
  obtain ⟨hlow, hhigh⟩ := (Nat.log2_eq_iff hm).1 h
  rw [BitVec.toNat_append, ← Nat.shiftLeft_add_eq_or_of_lt (BitVec.isLt _), BitVec.toNat_ofNat,
    BitVec.toNat_ofNat, Nat.shiftLeft_eq]
  omega

/-- A float of 53 bits with an exponent in range is read as it was packed. -/
theorem unpack_pack_finite {s : Sign} {m : Nat} {e : Int} (hm : 0 < m) (hlog : m.log2 = 52)
    (hlow : -1074 ≤ e) (hhigh : e ≤ 971) :
    (Float.Model.pack (.finite s m e hm)).unpack = .finite s m e hm := by
  have hbias : Format.binary64.exponentBias = 1023 := rfl
  obtain ⟨b, hb⟩ : ∃ b : Nat, e + 1023 + 52 = b := ⟨_, (Int.toNat_of_nonneg (by omega)).symm⟩
  have hbiased : (e + (1023 : Nat) + (52 : Nat)).toNat = b := by omega
  have hpack : UnpackedFloat.pack .binary64 (.finite s m e hm) =
      packComponents .binary64 s (BitVec.ofNat 11 b) (BitVec.ofNat 52 m) := by
    rw [UnpackedFloat.pack, hbias]
    dsimp only
    rw [hbiased, if_neg (by omega), if_pos (by rw [hlog]; rfl)]
  have hexponent : (BitVec.ofNat 11 b).toNat = b := by
    rw [BitVec.toNat_ofNat, Nat.mod_eq_of_lt (by omega)]
  have hones : BitVec.ofNat 11 b ≠ -1#11 := by
    intro h
    have := congrArg BitVec.toNat h
    rw [hexponent] at this
    have hmax : (-1#11).toNat = 2047 := rfl
    omega
  have hzeros : BitVec.ofNat 11 b ≠ 0#11 := by
    intro h
    have := congrArg BitVec.toNat h
    rw [hexponent, BitVec.toNat_zero] at this
    omega
  show UnpackedFloat.unpack .binary64 (UnpackedFloat.pack .binary64 (.finite s m e hm)) = _
  rw [hpack, UnpackedFloat.unpack]
  simp only [unpackMantissa_packComponents, unpackExponent_packComponents, unpackSign_packComponents,
    Sign.ofBitVec_toBitVec, if_neg hones, if_neg hzeros, hexponent, toNat_append_one hlog, hbias]
  congr 1
  omega

/-! ### Rounding that changes nothing -/

theorem log2_shiftLeft_of_ne_zero {m : Nat} (hm : m ≠ 0) (k : Nat) : (m <<< k).log2 = m.log2 + k := by
  induction k with
  | zero => rfl
  | succ k ih =>
    have hk : m <<< k ≠ 0 := Nat.ne_of_gt (Nat.shiftLeft_pos_iff.2 (Nat.pos_of_ne_zero hm))
    rw [Nat.shiftLeft_succ, Nat.log2_two_mul hk, ih, Nat.add_assoc]

/-- Zeros are dropped from the end of a mantissa without loss. -/
theorem shiftRight_shiftLeft (m k : Nat) :
    (⟨m <<< k, false, false⟩ : ExtendedMantissa) >>> k = ⟨m, false, false⟩ := by
  show k.repeat ExtendedMantissa.shiftRightOne ⟨m <<< k, false, false⟩ = _
  induction k generalizing m with
  | zero => rfl
  | succ k ih =>
    rw [Nat.repeat, Nat.add_comm, Nat.shiftLeft_add, ih]
    simp [ExtendedMantissa.shiftRightOne, Nat.shiftLeft_eq]

/-- A mantissa of 53 bits with zeros behind it comes to its target exponent without them. -/
theorem shiftToTargetExponent_shiftLeft {m k : Nat} {e : Int} (hlog : m.log2 = 52) (he : -1074 ≤ e + k) :
    shiftToTargetExponent .binary64 (m <<< k) e .exact = (⟨m, false, false⟩, e + k) := by
  have hm : m ≠ 0 := by rintro rfl; cases hlog
  have htarget : Format.binary64.targetExponent (totalExponent (m <<< k) e) = e + k := by
    have hmin : Format.binary64.minExponent = -1074 := rfl
    have hbits : Format.binary64.mantissaBits = 53 := rfl
    rw [Format.targetExponent, totalExponent, log2_shiftLeft_of_ne_zero hm, hlog, hmin, hbits]
    omega
  have hshift : (e + k - e).toNat = k := by omega
  rw [shiftToTargetExponent, htarget, shiftToExponent, hshift]
  exact Prod.ext (shiftRight_shiftLeft m k) rfl

theorem roundWithAccuracy_shiftLeft {s : Sign} {m k : Nat} {e : Int} (hm : 0 < m) (hlog : m.log2 = 52)
    (he : -1074 ≤ e + k) :
    roundWithAccuracy .binary64 s (m <<< k) e .exact = .finite s m (e + k) hm := by
  have hagain := shiftToTargetExponent_shiftLeft (k := 0) (e := e + k) hlog (by omega)
  rw [Nat.shiftLeft_zero, Int.natCast_zero, Int.add_zero] at hagain
  have hrounded : (⟨m, false, false⟩ : ExtendedMantissa).roundedMantissa = m := rfl
  unfold roundWithAccuracy
  rw [shiftToTargetExponent_shiftLeft hlog he]
  dsimp only
  rw [hrounded, hagain]
  exact dif_neg (Nat.ne_of_gt hm)

theorem div_finite {s₁ s₂ : Sign} {m₁ m₂ m : Nat} {e₁ e₂ e : Int} {h₁ : 0 < m₁} {h₂ : 0 < m₂} {acc : Accuracy}
    (h : divCore .binary64 m₁ e₁ m₂ e₂ = (m, e, acc)) :
    UnpackedFloat.div .binary64 (.finite s₁ m₁ e₁ h₁) (.finite s₂ m₂ e₂ h₂) =
      roundWithAccuracy .binary64 (s₁ / s₂) m e acc := by
  unfold UnpackedFloat.div
  dsimp only
  rw [h]

/-! ### Floats with the value of an integer -/

/-- The float is a zero, or the integer with zeros behind it and as many places more. -/
inductive Exactly : Float → Int → Prop where
  | zero {x s} (h : unpack x = .zero s) : Exactly x 0
  | scaled {x} {n : Int} {w : Nat} {hm} (h : unpack x = .finite (sign (n < 0)) (n.natAbs <<< w) (-w) hm) :
      Exactly x n

section Integers

variable {n : Int}

/-- The zeros behind an integer in a float. -/
def places (n : Int) : Nat := 52 - n.natAbs.log2

theorem log2_shiftLeft_places (hn : n ≠ 0) (h : n.natAbs < 2 ^ 53) :
    (n.natAbs <<< places n).log2 = 52 := by
  have hne : n.natAbs ≠ 0 := Int.natAbs_ne_zero.2 hn
  have hlog : n.natAbs.log2 < 53 := (Nat.log2_lt hne).2 h
  rw [log2_shiftLeft_of_ne_zero hne, places]
  omega

theorem round_exact (s : Sign) (hn : n ≠ 0) (h : n.natAbs < 2 ^ 53)
    (hm : 0 < n.natAbs <<< places n) :
    UnpackedFloat.round .binary64 s n.natAbs 0 = .finite s (n.natAbs <<< places n) (-places n) hm := by
  have hlog : n.natAbs.log2 < 53 := (Nat.log2_lt (Int.natAbs_ne_zero.2 hn)).2 h
  have htarget : Format.binary64.targetExponent (totalExponent n.natAbs 0) = -places n := by
    have hmin : Format.binary64.minExponent = -1074 := rfl
    have hbits : Format.binary64.mantissaBits = 53 := rfl
    rw [Format.targetExponent, totalExponent, hmin, hbits, places]
    omega
  have hshift : (0 - -(places n : Int)).toNat = places n := by omega
  have hround := roundWithAccuracy_shiftLeft (s := s) (k := 0) (e := -places n) hm
    (log2_shiftLeft_places hn h) (by rw [places]; omega)
  rw [Nat.shiftLeft_zero, Int.natCast_zero, Int.add_zero] at hround
  rw [UnpackedFloat.round, htarget, decreaseExponent, hshift, ← hround]
  dsimp only
  rw [Int.zero_sub]

theorem ofInt_exact (hn : n ≠ 0) (h : n.natAbs < 2 ^ 53) (hm : 0 < n.natAbs <<< places n) :
    UnpackedFloat.ofInt .binary64 n = .finite (sign (n < 0)) (n.natAbs <<< places n) (-places n) hm := by
  rw [UnpackedFloat.ofInt, UnpackedFloat.normalize]
  rcases Int.lt_trichotomy n 0 with hneg | hzero | hpos
  · have habs : (-n).toNat = n.natAbs := by omega
    rw [Int.compare_eq_lt.2 hneg, habs]
    dsimp only
    rw [round_exact .negative hn h hm, decide_eq_true hneg]
    rfl
  · exact absurd hzero hn
  · have habs : n.toNat = n.natAbs := by omega
    rw [Int.compare_eq_gt.2 hpos, habs]
    dsimp only
    rw [round_exact .positive hn h hm, decide_eq_false (Int.not_lt.2 (Int.le_of_lt hpos))]
    rfl

theorem unpack_ofInt (hn : n ≠ 0) (h : n.natAbs < 2 ^ 53) (hm : 0 < n.natAbs <<< places n) :
    unpack (.ofModel (.ofInt n)) = .finite (sign (n < 0)) (n.natAbs <<< places n) (-places n) hm := by
  show (Float.Model.pack (UnpackedFloat.ofInt .binary64 n)).unpack = _
  rw [ofInt_exact hn h hm]
  exact unpack_pack_finite hm (log2_shiftLeft_places hn h) (by rw [places]; omega) (by omega)

theorem exactly_ofInt (h : n.natAbs < 2 ^ 53) : Exactly (.ofModel (.ofInt n)) n := by
  by_cases hn : n = 0
  · subst hn
    exact .zero (s := .positive) rfl
  · exact .scaled (unpack_ofInt hn h (Nat.shiftLeft_pos_iff.2 (Int.natAbs_pos.2 hn)))

/-- The quotient by one is computed with one place more than there is room for, and that place is zero. -/
theorem exactly_div_one (h : n.natAbs < 2 ^ 53) :
    Exactly (.ofModel (.pack (UnpackedFloat.div .binary64 (unrounded n) (unrounded 1)))) n := by
  by_cases hn : n = 0
  · subst hn
    exact .zero (s := .positive) rfl
  · have hm : 0 < n.natAbs <<< places n := Nat.shiftLeft_pos_iff.2 (Int.natAbs_pos.2 hn)
    have hlog : n.natAbs.log2 < 53 := (Nat.log2_lt (Int.natAbs_ne_zero.2 hn)).2 h
    have hcore : divCore .binary64 n.natAbs 0 1 0 =
        ((n.natAbs <<< places n) <<< 1, -(places n : Int) - 1, .exact) := by
      have htarget : min (0 - 0) (Format.binary64.targetExponent (totalExponent n.natAbs 0 - totalExponent 1 0))
          = -(places n : Int) - 1 := by
        have hmin : Format.binary64.minExponent = -1074 := rfl
        have hbits : Format.binary64.mantissaBits = 53 := rfl
        have hone : Nat.log2 1 = 0 := rfl
        rw [Format.targetExponent, totalExponent, totalExponent, hmin, hbits, hone, places]
        omega
      have hshift : (0 - 0 - (-(places n : Int) - 1)).toNat = places n + 1 := by omega
      rw [divCore, htarget, hshift, Nat.div_one, Nat.mod_one, Nat.shiftLeft_add]
      rfl
    have hdiv : UnpackedFloat.div .binary64 (unrounded n) (unrounded 1) =
        .finite (sign (n < 0)) (n.natAbs <<< places n) (-places n) hm := by
      have hround := roundWithAccuracy_shiftLeft (s := sign (n < 0) / .positive) (k := 1)
        (e := -(places n : Int) - 1) hm (log2_shiftLeft_places hn h) (by rw [places]; omega)
      have hsign : sign (n < 0) / .positive = sign (n < 0) := by
        cases sign (n < 0) <;> rfl
      rw [Int.natCast_one, Int.sub_add_cancel, hsign] at hround
      have hone : unrounded 1 = .finite .positive 1 0 Nat.one_pos := rfl
      rw [hone, unrounded, dif_neg hn, div_finite hcore, hsign, hround]
    refine @Exactly.scaled _ _ (places n) hm ?_
    show (Float.Model.pack (UnpackedFloat.div .binary64 (unrounded n) (unrounded 1))).unpack = _
    rw [hdiv]
    exact unpack_pack_finite hm (log2_shiftLeft_places hn h) (by rw [places]; omega) (by omega)

theorem exactly_zero_div (hn : n ≠ 0) :
    Exactly (.ofModel (.pack (UnpackedFloat.div .binary64 (unrounded 0) (unrounded n)))) 0 := by
  refine .zero (s := .positive / sign (n < 0)) ?_
  show (Float.Model.pack (UnpackedFloat.div .binary64 (unrounded 0) (unrounded n))).unpack = _
  rw [unrounded, unrounded, dif_pos rfl, dif_neg hn]
  exact unpack_packedZero

end Integers

namespace Exactly

variable {x : Float} {n : Int}

theorem isFinite (h : Exactly x n) : x.isFinite = true := by
  show (unpack x).isFinite = true
  cases h with
  | zero h => rw [h]; rfl
  | scaled h => rw [h]; rfl

theorem compareIntFloat (h : Exactly x n) : compareIntFloat n x = some .eq := by
  unfold Number.compareIntFloat
  cases h with
  | zero h => rw [h]; rfl
  | @scaled _ w hm h =>
    have hscaled : ((n.natAbs <<< w : Nat) : Int) = n.natAbs * Int.pow 2 w := by
      rw [Nat.shiftLeft_eq, Int.natCast_mul, Int.natCast_pow]
      rfl
    -- both sides of the comparison are the integer with its zeros
    have hsame (k : Int) (hk : k = n * Int.pow 2 w) :
        some (if (0 : Int) ≤ -w then compare n (k * Int.pow 2 (-(w : Int)).toNat)
          else compare (n * Int.pow 2 (- -(w : Int)).toNat) k) = some .eq := by
      rw [hk, Int.neg_neg, Int.toNat_natCast]
      split
      · next hw =>
        obtain rfl : w = 0 := by omega
        have hone : Int.pow 2 0 = 1 := rfl
        have hzero : (-((0 : Nat) : Int)).toNat = 0 := rfl
        rw [hzero, hone, Int.mul_one, Int.mul_one, Std.compare_self]
      · rw [Std.compare_self]
    rw [h]
    by_cases hneg : n < 0
    · rw [decide_eq_true hneg]
      refine hsame (-(n.natAbs <<< w : Nat)) ?_
      rw [hscaled, Int.ofNat_natAbs_of_nonpos (Int.le_of_lt hneg), Int.neg_mul, Int.neg_neg]
    · rw [decide_eq_false hneg]
      refine hsame (n.natAbs <<< w : Nat) ?_
      rw [hscaled, Int.natAbs_of_nonneg (Int.not_lt.1 hneg)]

theorem eq (h : Exactly x n) : (float x).eq (int n) = true := by
  simp [Number.eq, compare?, h.compareIntFloat]

theorem isNaN (h : Exactly x n) : x.isNaN = false := by
  show (unpack x).isNaN = false
  cases h with
  | zero h => rw [h]; rfl
  | scaled h => rw [h]; rfl

theorem isInf (h : Exactly x n) : x.isInf = false := by
  show (unpack x).isInf = false
  cases h with
  | zero h => rw [h]; rfl
  | scaled h => rw [h]; rfl

end Exactly

/-! ### Operations -/

section Operations

variable {n : Int}

theorem toFloat?_exact (h : n.natAbs < 2 ^ 53) : ∃ x, toFloat? n = some x ∧ Exactly x n :=
  ⟨_, if_pos (exactly_ofInt h).isFinite, exactly_ofInt h⟩

theorem exactly_one : Exactly one 1 := exactly_ofInt (by decide)

theorem toFloat?_one : toFloat? 1 = some one := by
  show (if one.isFinite then some one else none) = some one
  exact if_pos exactly_one.isFinite

theorem quotient?_one (h : n.natAbs < 2 ^ 53) : ∃ x, quotient? n 1 = some x ∧ Exactly x n := by
  have hx := exactly_div_one h
  refine ⟨_, ?_, hx⟩
  rw [quotient?, if_neg (by decide)]
  exact if_pos hx.isFinite

theorem zero_quotient? (hn : n ≠ 0) : ∃ x, quotient? 0 n = some x ∧ Exactly x 0 := by
  have hx := exactly_zero_div hn
  refine ⟨_, ?_, hx⟩
  rw [quotient?, if_neg hn]
  exact if_pos hx.isFinite

theorem floatPow?_one {y : Float} (h : Exactly y n) : floatPow? one y = some one := by
  have hnan : one.isNaN = false := rfl
  have hinf : one.isInf = false := rfl
  have hzero : (one == zero) = false := rfl
  have hneg : decide (one < zero) = false := rfl
  have habs : (one.abs == one) = true := rfl
  simp only [floatPow?, h.isNaN, h.isInf, hnan, hinf, hzero, hneg, habs, Bool.false_and, Bool.false_eq_true,
    if_true, if_false, ite_self]

end Operations

end Snack.Number
