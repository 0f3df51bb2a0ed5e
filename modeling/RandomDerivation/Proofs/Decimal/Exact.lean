import Mathlib
import RandomDerivation.Decimal.Nearest

/-!
# Operations on doubles that are exact

An operation on doubles rounds its result to 53 bits. When the result has no more of them, it is
not changed by this: the mantissa is moved to its place, and all that is dropped on the way are
zeros. So whole numbers below `2^53` are doubles, and so are their shares of `2^53` and what such a
share leaves of one.

## Main definitions

* `Decimal.value?`: the number that a double is.
* `Decimal.IsScaled`: a double is a number of at most 53 bits times a power of two.
-/

namespace RandomDerivation.Decimal
open Float.Model Float.Model.UnpackedFloat

theorem log2_mul_two_pow {n : Nat} (hn : n ≠ 0) (j : Nat) : (n * 2 ^ j).log2 = n.log2 + j := by
  have hpos : 0 < 2 ^ j := Nat.two_pow_pos j
  have hne : n * 2 ^ j ≠ 0 := Nat.mul_ne_zero hn hpos.ne'
  rw [Nat.log2_eq_iff hne, Nat.pow_add, Nat.add_right_comm, Nat.pow_add]
  exact ⟨Nat.mul_le_mul_right _ (Nat.log2_self_le hn),
    Nat.mul_lt_mul_of_pos_right Nat.lt_log2_self hpos⟩

/-- Zeros that are shifted out leave nothing to be rounded. -/
theorem shiftRight_mul_two_pow (m i : Nat) :
    ExtendedMantissa.mk (m * 2 ^ i) false false >>> i = ⟨m, false, false⟩ := by
  change Nat.repeat ExtendedMantissa.shiftRightOne i _ = _
  induction i generalizing m with
  | zero => simp [Nat.repeat]
  | succ i ih =>
    rw [Nat.repeat, Nat.pow_succ', ← Nat.mul_assoc, ih]
    simp [ExtendedMantissa.shiftRightOne]

theorem targetExponent_eq {m : Nat} {e t : Int} (h : m.log2 + e = t + 52) (ht : -1074 ≤ t) :
    Format.binary64.targetExponent (totalExponent m e) = t := by
  simp only [Format.targetExponent, totalExponent, Format.mantissaBits, Format.minExponent]
  omega

theorem shiftToTargetExponent_eq {m : Nat} (hm : m.log2 = 52) (i : Nat) {e : Int}
    (he : -1074 ≤ e + i) :
    shiftToTargetExponent Format.binary64 (m * 2 ^ i) e .exact = (⟨m, false, false⟩, e + i) := by
  have hne : m ≠ 0 := by
    rintro rfl
    cases hm
  have htarget : Format.binary64.targetExponent (totalExponent (m * 2 ^ i) e) = e + i := by
    apply targetExponent_eq _ he
    rw [log2_mul_two_pow hne, hm]
    omega
  have hshift : (e + i - e).toNat = i := by omega
  rw [shiftToTargetExponent, htarget, shiftToExponent, hshift]
  exact congrArg (·, e + i) (shiftRight_mul_two_pow m i)

/-- A mantissa of 53 bits is not rounded, and zeros behind it are dropped. -/
theorem roundWithAccuracy_eq (s : Sign) {m : Nat} (hm : m.log2 = 52) (hpos : 0 < m) (i : Nat)
    {e : Int} (he : -1074 ≤ e + i) :
    roundWithAccuracy Format.binary64 s (m * 2 ^ i) e .exact = .finite s m (e + i) hpos := by
  -- The mantissa is shifted a second time, in case rounding has made it longer.
  have hagain := shiftToTargetExponent_eq hm 0 (e := e + i) (by simpa using he)
  rw [Nat.pow_zero, Nat.mul_one] at hagain
  unfold roundWithAccuracy
  rw [shiftToTargetExponent_eq hm i he]
  dsimp only [ExtendedMantissa.roundedMantissa, ExtendedMantissa.accuracy,
    Accuracy.roundToNearestEven]
  rw [hagain, dif_neg hpos.ne']
  simp

section
variable {n : Nat} (hn : 0 < n) (hlt : n < 2 ^ 53)
include hn hlt

theorem log2_le_of_lt : n.log2 ≤ 52 := by
  have := (Nat.log2_lt hn.ne').2 hlt
  omega

/-- With zeros behind it a number of at most 53 bits becomes a mantissa. -/
theorem log2_mantissa : (n * 2 ^ (52 - n.log2)).log2 = 52 := by
  have := log2_le_of_lt hn hlt
  rw [log2_mul_two_pow hn.ne']
  omega

omit hlt in
theorem mantissa_pos : 0 < n * 2 ^ (52 - n.log2) := Nat.mul_pos hn (Nat.two_pow_pos _)

/-- A number of at most 53 bits is not rounded, however many zeros stand behind it. -/
theorem round_eq (s : Sign) (j : Nat) {e : Int} (he : -1022 ≤ e + j) :
    round Format.binary64 s (n * 2 ^ j) e =
      .finite s (n * 2 ^ (52 - n.log2)) (e + j - (52 - n.log2 : Nat)) (mantissa_pos hn) := by
  have hm := log2_mantissa hn hlt
  have hpos := mantissa_pos hn
  have hle := log2_le_of_lt hn hlt
  have htarget : Format.binary64.targetExponent (totalExponent (n * 2 ^ j) e) =
      e + j - (52 - n.log2 : Nat) := by
    apply targetExponent_eq
    · rw [log2_mul_two_pow hn.ne']
      omega
    · omega
  rw [UnpackedFloat.round, htarget, decreaseExponent]
  dsimp only
  -- There are too few zeros behind the number for a mantissa, or there are too many.
  by_cases hj : j ≤ 52 - n.log2
  · have hshift : (n * 2 ^ j) <<< (e - (e + j - (52 - n.log2 : Nat))).toNat =
        n * 2 ^ (52 - n.log2) * 2 ^ 0 := by
      rw [Nat.shiftLeft_eq, Nat.mul_assoc, ← Nat.pow_add, Nat.pow_zero, Nat.mul_one]
      congr 2
      omega
    rw [hshift, roundWithAccuracy_eq s hm hpos 0 (by omega)]
    congr 1
    omega
  · have hshift : (n * 2 ^ j) <<< (e - (e + j - (52 - n.log2 : Nat))).toNat =
        n * 2 ^ (52 - n.log2) * 2 ^ (j - (52 - n.log2)) := by
      rw [Nat.shiftLeft_eq, Nat.mul_assoc, Nat.mul_assoc, ← Nat.pow_add, ← Nat.pow_add]
      congr 2
      omega
    rw [hshift, roundWithAccuracy_eq s hm hpos _ (by omega)]
    congr 1
    omega

end

/-! ## Packing -/

@[simp] theorem unpackSign_packComponents {spec : Format} {s : Sign}
    {e : BitVec spec.exponentBits} {m : BitVec spec.mantissaBitsWithoutImplicit} :
    unpackSign (packComponents spec s e m) = s.toBitVec := by
  ext i hi
  obtain rfl : i = 0 := by omega
  simp [unpackSign, packComponents, BitVec.getLsbD_append, BitVec.getElem_append]

section
variable {s : Sign} {m field : Nat} {e : Int} {hpos : 0 < m}

/-- A mantissa of 53 bits is packed without its first bit. -/
theorem pack_finite (hm : m.log2 = 52) (he : e = field - 1075) (hfield : field ≤ 2046) :
    UnpackedFloat.pack Format.binary64 (.finite s m e hpos) =
      packComponents Format.binary64 s (BitVec.ofNat 11 field) (BitVec.ofNat 52 m) := by
  have hbiased : (e + (Format.binary64.exponentBias : Nat) + (52 : Nat)).toNat = field := by
    simp only [Format.exponentBias]
    omega
  unfold UnpackedFloat.pack
  simp only [hbiased, hm]
  rw [if_neg (by omega)]
  exact if_pos rfl

/-- The first bit of the mantissa is put back. -/
theorem unpack_packComponents (hm : m.log2 = 52) (he : e = field - 1075) (hfield : 1 ≤ field)
    (hfield' : field ≤ 2046) :
    UnpackedFloat.unpack Format.binary64
        (packComponents Format.binary64 s (BitVec.ofNat 11 field) (BitVec.ofNat 52 m)) =
      .finite s m e hpos := by
  obtain ⟨hlow, hhigh⟩ := (Nat.log2_eq_iff hpos.ne').1 hm
  have hexponent : (BitVec.ofNat 11 field).toNat = field := by
    rw [BitVec.toNat_ofNat]
    omega
  have hones : BitVec.ofNat 11 field ≠ -1#11 := by
    intro h
    have h := congrArg BitVec.toNat h
    rw [hexponent] at h
    simp at h
    omega
  have hzeros : BitVec.ofNat 11 field ≠ 0#11 := by
    intro h
    have h := congrArg BitVec.toNat h
    rw [hexponent] at h
    simp at h
    omega
  have hmantissa : (1#1 ++ BitVec.ofNat 52 m).toNat = m := by
    rw [BitVec.toNat_append, ← Nat.shiftLeft_add_eq_or_of_lt (BitVec.isLt _), Nat.shiftLeft_eq]
    simp only [BitVec.toNat_ofNat]
    omega
  have hsign : Sign.ofBitVec s.toBitVec = s := by cases s <;> rfl
  unfold UnpackedFloat.unpack
  simp only [unpackMantissa_packComponents, unpackExponent_packComponents,
    unpackSign_packComponents, hones, hzeros, if_false, hexponent, hmantissa, hsign]
  congr 1
  simp only [Format.exponentBias]
  omega

theorem unpack_pack (hm : m.log2 = 52) (he : -1074 ≤ e) (he' : e ≤ 971) :
    (Float.Model.pack (.finite s m e hpos)).unpack = .finite s m e hpos := by
  have hfield : e = (e + 1075).toNat - 1075 := by omega
  change UnpackedFloat.unpack Format.binary64
    (UnpackedFloat.pack Format.binary64 (.finite s m e hpos)) = _
  rw [pack_finite hm hfield (by omega)]
  exact unpack_packComponents hm hfield (by omega) (by omega)

end

/-- The numbers that arithmetic works on, as parts of a double. -/
def Parts.ofUnpacked : UnpackedFloat → Parts
  | .notANumber => .nan
  | .infinity s => .infinite (s == .negative)
  | .zero s => .finite (s == .negative) 0 leastExponent
  | .finite s m e _ => .finite (s == .negative) m e

section
variable (b : BitVec Format.binary64.numBits)

theorem toNat_unpackMantissa : (unpackMantissa b).toNat = b.toNat % leadingBit := by
  simp [unpackMantissa, leadingBit]

theorem toNat_unpackExponent : (unpackExponent b).toNat = b.toNat / leadingBit % 2048 := by
  simp [unpackExponent, leadingBit, Nat.shiftRight_eq_div_pow]

theorem toNat_unpackSign : (unpackSign b).toNat = b.toNat / signBit := by
  have hlt : b.toNat < 2 ^ 64 := b.isLt
  simp [unpackSign, signBit, Nat.shiftRight_eq_div_pow]
  omega

theorem sign_unpackSign :
    (Sign.ofBitVec (unpackSign b) == .negative) = decide (signBit ≤ b.toNat) := by
  have hzero : unpackSign b = 0#1 ↔ b.toNat < signBit := by
    rw [← BitVec.toNat_inj, toNat_unpackSign, BitVec.toNat_zero,
      Nat.div_eq_zero_iff_lt (by decide)]
  unfold Sign.ofBitVec
  split
  · rename_i h
    exact (decide_eq_false (Nat.not_le.2 (hzero.1 h))).symm
  · rename_i h
    exact (decide_eq_true (Nat.le_of_not_lt (h ∘ hzero.2))).symm

theorem partsOfBits_eq : partsOfBits b.toNat = .ofUnpacked (UnpackedFloat.unpack _ b) := by
  have hones : unpackExponent b = -1#11 ↔ b.toNat / leadingBit % 2048 = 2047 := by
    rw [← BitVec.toNat_inj, toNat_unpackExponent]
    simp
  have hzeros : unpackExponent b = 0#11 ↔ b.toNat / leadingBit % 2048 = 0 := by
    rw [← BitVec.toNat_inj, toNat_unpackExponent]
    simp
  have hempty : unpackMantissa b = 0#52 ↔ b.toNat % leadingBit = 0 := by
    rw [← BitVec.toNat_inj, toNat_unpackMantissa]
    simp
  have hlead : (1#1 ++ unpackMantissa b).toNat = leadingBit + b.toNat % leadingBit := by
    rw [BitVec.toNat_append, ← Nat.shiftLeft_add_eq_or_of_lt (BitVec.isLt _),
      toNat_unpackMantissa]
    rfl
  unfold partsOfBits UnpackedFloat.unpack
  simp only [hones, hzeros, hempty]
  split
  · split
    · simp [Parts.ofUnpacked, sign_unpackSign]
    · rfl
  split
  · split
    · simp [Parts.ofUnpacked, sign_unpackSign, *]
    · rename_i hzero _
      simp only [Parts.ofUnpacked, sign_unpackSign, toNat_unpackMantissa, toNat_unpackExponent,
        hzero]
      rfl
  · rename_i hzero
    simp only [Parts.ofUnpacked, sign_unpackSign, toNat_unpackExponent, hlead, leastExponent,
      Format.exponentBias]
    congr 1
    omega

end

/-- The parts that are read off the bits of a double are the numbers that arithmetic works on. -/
theorem partsOf_eq (x : Float) : partsOf x = .ofUnpacked x.toModel.unpack :=
  partsOfBits_eq x.toBits.toBitVec

/-- The number of which these are the parts. -/
def Parts.value? : Parts → Option ℚ
  | .finite negative m e => some ((if negative then -1 else 1) * (m * 2 ^ e))
  | _ => none

/-- The number that a double is. -/
def value? (x : Float) : Option ℚ := (partsOf x).value?

/-! ## Operations -/

/-- The double is `n · 2^e`, for a number `n` of at most 53 bits. -/
def IsScaled (x : Float) (n : Nat) (e : Int) : Prop :=
  ∃ hpos, x.toModel.unpack =
    .finite .positive (n * 2 ^ (52 - n.log2)) (e - (52 - n.log2 : Nat)) hpos

theorem IsScaled.value? {x : Float} {n : Nat} {e : Int} (hx : IsScaled x n e) :
    Decimal.value? x = some ((n : ℚ) * 2 ^ e) := by
  obtain ⟨hpos, hx⟩ := hx
  have hscale : (2 : ℚ) ^ (52 - n.log2) * 2 ^ (e - (52 - n.log2 : Nat)) = 2 ^ e := by
    rw [← zpow_natCast, ← zpow_add₀ (by norm_num)]
    congr 1
    omega
  rw [Decimal.value?, partsOf_eq, hx, Parts.ofUnpacked]
  change some (1 * (((n * 2 ^ (52 - n.log2) : Nat) : ℚ) * 2 ^ (e - (52 - n.log2 : Nat)))) = _
  rw [one_mul, Nat.cast_mul, Nat.cast_pow, mul_assoc, Nat.cast_ofNat, hscale]

/-- Dividing a mantissa by a power of two leaves no remainder. -/
theorem divCore_two_pow {m : Nat} {e : Int} (hm : m.log2 = 52) (he : -1020 ≤ e) :
    divCore Format.binary64 m e (2 ^ 52) 1 = (m * 2 ^ 1, e - 54, .exact) := by
  have htarget : Format.binary64.targetExponent (totalExponent m e - totalExponent (2 ^ 52) 1) =
      e - 54 := by
    simp only [Format.targetExponent, totalExponent, Format.mantissaBits, Format.minExponent, hm,
      Nat.log2_two_pow]
    omega
  have hmin : min (e - 1) (e - 54) = e - 54 := by omega
  have hshift : (e - 1 - (e - 54)).toNat = 53 := by omega
  have hwhole : m * 2 ^ 53 = m * 2 ^ 1 * 2 ^ 52 := by omega
  rw [divCore, htarget, hmin, hshift]
  rw [Nat.shiftLeft_eq, hwhole, Nat.mul_div_cancel _ (by decide), Nat.mul_mod_left]
  rfl

/-- Of one and a share of `2^53`, the smaller exponent is that of the share. -/
theorem sub_finite {n d : Nat} (hlt : n < 2 ^ 53) (hone : 0 < 2 ^ 52) (hpos : 0 < n * 2 ^ d) :
    UnpackedFloat.sub Format.binary64 (.finite .positive (2 ^ 52) (-52) hone)
        (.finite .positive (n * 2 ^ d) (-53 - d) hpos) =
      round Format.binary64 .positive ((2 ^ 53 - n) * 2 ^ d) (-53 - d) := by
  have hmin : min (-52) (-53 - (d : Int)) = -53 - d := by omega
  have hshift : (-52 - (-53 - (d : Int))).toNat = d + 1 := by omega
  have hdifference : ((2 ^ 52 * 2 ^ (d + 1) : Nat) : Int) - ((n * 2 ^ d : Nat) : Int) =
      (((2 ^ 53 - n) * 2 ^ d : Nat) : Int) := by
    have hle : n * 2 ^ d ≤ 2 ^ 53 * 2 ^ d := Nat.mul_le_mul_right _ hlt.le
    have htop : 2 ^ 52 * 2 ^ (d + 1) = 2 ^ 53 * 2 ^ d := by
      rw [← Nat.pow_add, ← Nat.pow_add, Nat.add_comm d, ← Nat.add_assoc]
    rw [htop, Nat.sub_mul, Nat.cast_sub hle]
  have hpositive : 0 < (2 ^ 53 - n) * 2 ^ d := Nat.mul_pos (by omega) (Nat.two_pow_pos d)
  simp only [UnpackedFloat.sub, hmin, hshift, decreaseExponent, Sign.apply, Nat.shiftLeft_eq,
    Int.sub_self, Int.toNat_zero, Nat.pow_zero, Nat.mul_one, hdifference]
  rw [UnpackedFloat.normalize, Int.compare_eq_gt.2 (by omega)]
  simp only [Int.toNat_natCast]

section
variable {n : Nat} (hn : 0 < n) (hlt : n < 2 ^ 53)
include hn hlt

/-- What is rounded to a number of at most 53 bits is this number. -/
theorem isScaled_round (j : Nat) {e : Int} (he : -1022 ≤ e + j) (he' : e + j ≤ 971) :
    IsScaled ⟨Float.Model.pack (round Format.binary64 .positive (n * 2 ^ j) e)⟩ n (e + j) := by
  refine ⟨mantissa_pos hn, ?_⟩
  rw [round_eq hn hlt _ j he]
  exact unpack_pack (log2_mantissa hn hlt) (by omega) (by omega)

theorem isScaled_toFloat : IsScaled n.toUInt64.toFloat n 0 := by
  have hnat : n.toUInt64.toNat = n := by
    simp
    omega
  have hround := isScaled_round hn hlt 0 (e := 0) (by omega) (by omega)
  have hnormal : UnpackedFloat.ofUInt64 Format.binary64 n.toUInt64 =
      round Format.binary64 .positive (n * 2 ^ 0) 0 := by
    rw [UnpackedFloat.ofUInt64, hnat, UnpackedFloat.ofNat, UnpackedFloat.ofInt,
      UnpackedFloat.normalize, Int.compare_eq_gt.2 (by omega)]
    simp
  rw [← hnormal] at hround
  exact hround

/-- A share of `2^53`. -/
theorem IsScaled.div {x : Float} {e : Int} (hx : IsScaled x n e) (he : -968 ≤ e)
    (he' : e ≤ 971) : IsScaled (x / 9007199254740992.0) n (e - 53) := by
  obtain ⟨hpos, hx⟩ := hx
  have hm := log2_mantissa hn hlt
  have hle := log2_le_of_lt hn hlt
  have hdivisor : (9007199254740992.0 : Float).toModel.unpack =
      .finite .positive (2 ^ 52) 1 (by decide) := rfl
  have hdiv : UnpackedFloat.div Format.binary64 x.toModel.unpack
      (9007199254740992.0 : Float).toModel.unpack =
        .finite .positive (n * 2 ^ (52 - n.log2)) (e - 53 - (52 - n.log2 : Nat)) hpos := by
    rw [hx, hdivisor]
    have hexponent : -1020 ≤ e - (52 - n.log2 : Nat) := by omega
    simp only [UnpackedFloat.div, divCore_two_pow hm hexponent]
    rw [roundWithAccuracy_eq _ hm hpos 1 (by omega)]
    congr 1
    omega
  refine ⟨hpos, ?_⟩
  change (Float.Model.pack (UnpackedFloat.div Format.binary64 x.toModel.unpack
    (9007199254740992.0 : Float).toModel.unpack)).unpack = _
  rw [hdiv]
  exact unpack_pack hm (by omega) (by omega)

/-- What a share of `2^53` leaves of one. -/
theorem IsScaled.one_sub {x : Float} (hx : IsScaled x n (-53)) :
    IsScaled (1.0 - x) (2 ^ 53 - n) (-53) := by
  obtain ⟨hpos, hx⟩ := hx
  have hone : (1.0 : Float).toModel.unpack = .finite .positive (2 ^ 52) (-52) (by decide) := rfl
  have hround := isScaled_round (n := 2 ^ 53 - n) (by omega) (by omega) (52 - n.log2)
    (e := -53 - (52 - n.log2 : Nat)) (by omega) (by omega)
  rw [Int.sub_add_cancel, ← sub_finite hlt (by decide) hpos, ← hone, ← hx] at hround
  exact hround

end

/-- For every `k` below `2^53` the double that is left of one by the share `k / 2^53` is
`1 - k / 2^53`. -/
theorem value?_one_sub_share {k : Nat} (h : k < 2 ^ 53) :
    value? (1.0 - k.toUInt64.toFloat / 9007199254740992.0) = some (1 - (k : ℚ) / 2 ^ 53) := by
  rcases Nat.eq_zero_or_pos k with rfl | hk
  · have hone : partsOf (1.0 - (0 : Nat).toUInt64.toFloat / 9007199254740992.0) =
        .finite false (2 ^ 52) (-52) := by rfl
    rw [value?, hone]
    norm_num [Parts.value?]
  · have hshare := (isScaled_toFloat hk h).div hk h (by omega) (by omega)
    rw [(hshare.one_sub hk h).value?, Nat.cast_sub h.le]
    norm_num
    ring

theorem one_sub_share_pos {k : Nat} (h : k < 2 ^ 53) : 0 < 1 - (k : ℚ) / 2 ^ 53 := by
  rw [sub_pos, div_lt_one (by positivity)]
  exact_mod_cast h

end RandomDerivation.Decimal
