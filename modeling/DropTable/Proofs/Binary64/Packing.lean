import Mathlib
/-!
# Doubles and their bits

A finite double is a sign, a whole significand below `2^53` and an exponent of two.  It is canonical
if the significand uses all of its bits, or the exponent is the least one.  What the bits of a
double unpack to is canonical, and packing loses nothing but exponents that are too large.
-/

namespace DropTable.Binary64

open Float.Model Float.Model.UnpackedFloat

/-- The significand is full, or the exponent can get no smaller. -/
structure Canonical (significand : Nat) (exponent : Int) : Prop where
  lt : significand < 2 ^ 53
  least : -1074 ≤ exponent
  full : 2 ^ 52 ≤ significand ∨ exponent = -1074

/-- What is neither zero nor out of range is canonical. -/
def Proper : UnpackedFloat → Prop
  | .finite _ significand exponent _ => Canonical significand exponent
  | _ => True

/-- The same with an exponent that fits. -/
def Fits : UnpackedFloat → Prop
  | .finite _ significand exponent _ => Canonical significand exponent ∧ exponent ≤ 971
  | _ => True

/-- Exponents that do not fit give an infinity. -/
def settle : UnpackedFloat → UnpackedFloat
  | .finite s significand exponent h =>
    if exponent ≤ 971 then .finite s significand exponent h else .infinity s
  | u => u

theorem Canonical.log2_eq_iff {significand : Nat} {exponent : Int}
    (h : Canonical significand exponent) (hpos : 0 < significand) :
    significand.log2 = 52 ↔ 2 ^ 52 ≤ significand := by
  have hlt := (Nat.log2_lt (Nat.ne_of_gt hpos)).2 h.lt
  have hle := Nat.le_log2 (k := 52) (Nat.ne_of_gt hpos)
  omega

/-! ## Unpacking -/

private theorem toNat_implicit_append (fraction : BitVec 52) :
    (1#1 ++ fraction).toNat = 2 ^ 52 + fraction.toNat := by
  rw [BitVec.toNat_append, ← Nat.shiftLeft_add_eq_or_of_lt fraction.isLt]
  rfl

private theorem toNat_exponent_lt {field : BitVec 11} (hfield : field ≠ -1#_) :
    field.toNat < 2047 := by
  have hlt := field.isLt
  have hne : field.toNat ≠ 2047 := fun heq => hfield (BitVec.eq_of_toNat_eq heq)
  omega

private theorem bias_eq : (Format.binary64.exponentBias : Int) = 1023 := rfl

theorem fits_unpack (bits : BitVec Format.binary64.numBits) :
    Fits (UnpackedFloat.unpack Format.binary64 bits) := by
  have hfraction := (@unpackMantissa Format.binary64 bits).isLt
  unfold UnpackedFloat.unpack
  simp only
  split
  case isTrue => split <;> exact trivial
  case isFalse hspecial =>
    have hlt := toNat_exponent_lt hspecial
    split
    case isTrue hzero =>
      split
      · exact trivial
      · refine ⟨⟨?_, ?_, ?_⟩, ?_⟩ <;> simp only [hzero, bias_eq, BitVec.toNat_zero] at * <;> omega
    case isFalse hnormal =>
      have hpos := BitVec.toNat_pos_of_ne_zero hnormal
      refine ⟨⟨?_, ?_, ?_⟩, ?_⟩ <;> simp only [toNat_implicit_append, bias_eq] at * <;> omega

/-! ## Packing -/

theorem unpack_normal (s : Sign) {exponent : BitVec 11} (fraction : BitVec 52)
    (hspecial : exponent ≠ -1#_) (hnormal : exponent ≠ 0#_) :
    UnpackedFloat.unpack Format.binary64 (packComponents Format.binary64 s exponent fraction) =
      .finite s (2 ^ 52 + fraction.toNat) (exponent.toNat - 1075) (by positivity) := by
  unfold UnpackedFloat.unpack
  simp only [unpackMantissa_packComponents, unpackExponent_packComponents,
    unpackSign_packComponents, Sign.ofBitVec_toBitVec, if_neg hspecial, if_neg hnormal, bias_eq,
    toNat_implicit_append]
  rfl

theorem unpack_subnormal (s : Sign) {fraction : BitVec 52} (hfraction : fraction ≠ 0#_) :
    UnpackedFloat.unpack Format.binary64 (packComponents Format.binary64 s 0#_ fraction) =
      .finite s fraction.toNat (-1074) (BitVec.toNat_pos_of_ne_zero hfraction) := by
  unfold UnpackedFloat.unpack
  simp [hfraction, bias_eq]

private theorem pack_finite (s : Sign) {significand : Nat} {exponent : Int}
    (h : Canonical significand exponent) (hpos : 0 < significand) :
    UnpackedFloat.pack Format.binary64 (.finite s significand exponent hpos) =
      if 971 < exponent then packedInfinity Format.binary64 s
      else if 2 ^ 52 ≤ significand then
        packComponents Format.binary64 s (BitVec.ofNat 11 (exponent + 1075).toNat)
          (BitVec.ofNat 52 significand)
      else packComponents Format.binary64 s 0#_ (BitVec.ofNat 52 significand) := by
  have hleast := h.least
  have hbiased : exponent + Format.binary64.exponentBias + (52 : Nat) = exponent + 1075 := by
    rw [bias_eq]
    omega
  have hrange : 2 ^ 11 ≤ (exponent + 1075).toNat + 1 ↔ 971 < exponent := by omega
  have hfull : significand.log2 + 1 = Format.binary64.mantissaBits ↔ 2 ^ 52 ≤ significand := by
    rw [← h.log2_eq_iff hpos]
    exact Nat.succ_inj
  simp only [UnpackedFloat.pack, hbiased, hrange, hfull]

theorem unpack_pack {u : UnpackedFloat} (h : Proper u) :
    UnpackedFloat.unpack Format.binary64 (UnpackedFloat.pack Format.binary64 u) = settle u := by
  cases u with
  | notANumber => rfl
  | infinity s => cases s <;> rfl
  | zero s => cases s <;> rfl
  | finite s significand exponent hpos =>
      have hcanonical : Canonical significand exponent := h
      have hlt := hcanonical.lt
      have hleast := hcanonical.least
      have hfraction : (BitVec.ofNat 52 significand).toNat = significand % 2 ^ 52 :=
        BitVec.toNat_ofNat _ _
      rw [pack_finite s hcanonical, settle]
      by_cases hrange : 971 < exponent
      · rw [if_pos hrange, if_neg (not_le.2 hrange)]
        cases s <;> rfl
      · rw [if_neg hrange, if_pos (not_lt.1 hrange)]
        by_cases hfull : 2 ^ 52 ≤ significand
        · have hfield : (BitVec.ofNat 11 (exponent + 1075).toNat).toNat = (exponent + 1075).toNat := by
            rw [BitVec.toNat_ofNat]
            omega
          have hspecial : BitVec.ofNat 11 (exponent + 1075).toNat ≠ -1#_ := by
            intro heq
            rw [heq] at hfield
            have hones : (-1#11).toNat = 2047 := rfl
            omega
          have hnormal : BitVec.ofNat 11 (exponent + 1075).toNat ≠ 0#_ := by
            intro heq
            rw [heq, BitVec.toNat_zero] at hfield
            omega
          rw [if_pos hfull, unpack_normal s _ hspecial hnormal]
          congr 1 <;> omega
        · have hnonzero : BitVec.ofNat 52 significand ≠ 0#_ := by
            intro heq
            rw [heq, BitVec.toNat_zero] at hfraction
            omega
          rw [if_neg hfull, unpack_subnormal s hnonzero]
          have hsub := hcanonical.full.resolve_left hfull
          congr 1 <;> omega

/-! ## Bits and back -/

private theorem toBitVec_ofBitVec (bit : BitVec 1) : (Sign.ofBitVec bit).toBitVec = bit := by
  revert bit
  decide

section Fields

variable (bits : BitVec Format.binary64.numBits)

theorem toNat_unpackMantissa :
    (@unpackMantissa Format.binary64 bits).toNat = bits.toNat % 2 ^ 52 := by
  simp only [unpackMantissa, BitVec.toNat_cast, BitVec.extractLsb_toNat, Nat.shiftRight_zero]

theorem toNat_unpackExponent :
    (@unpackExponent Format.binary64 bits).toNat = bits.toNat / 2 ^ 52 % 2 ^ 11 := by
  simp only [unpackExponent, BitVec.toNat_cast, BitVec.extractLsb_toNat, Nat.shiftRight_eq_div_pow]

theorem toNat_unpackSign : (@unpackSign Format.binary64 bits).toNat = bits.toNat / 2 ^ 63 := by
  have hlt : bits.toNat < 2 ^ 64 := bits.isLt
  simp only [unpackSign, BitVec.toNat_cast, BitVec.extractLsb_toNat, Nat.shiftRight_eq_div_pow]
  omega

theorem packComponents_unpack :
    packComponents Format.binary64 (Sign.ofBitVec (unpackSign bits)) (unpackExponent bits)
      (unpackMantissa bits) = bits := by
  have hlt : bits.toNat < 2 ^ 64 := bits.isLt
  apply BitVec.eq_of_toNat_eq
  rw [packComponents, toBitVec_ofBitVec, BitVec.toNat_append,
    ← Nat.shiftLeft_add_eq_or_of_lt (BitVec.isLt _), BitVec.toNat_append,
    ← Nat.shiftLeft_add_eq_or_of_lt (BitVec.isLt _), toNat_unpackMantissa, toNat_unpackExponent,
    toNat_unpackSign, Nat.shiftLeft_eq, Nat.shiftLeft_eq]
  change (bits.toNat / 2 ^ 63 * 2 ^ 11 + bits.toNat / 2 ^ 52 % 2 ^ 11) * 2 ^ 52 +
    bits.toNat % 2 ^ 52 = bits.toNat
  omega

end Fields

private theorem canonical_normal (fraction : BitVec 52) {exponent : Int}
    (hleast : -1074 ≤ exponent) :
    Canonical (2 ^ 52 + fraction.toNat) exponent := by
  have hlt : fraction.toNat < 2 ^ 52 := fraction.isLt
  exact ⟨by omega, hleast, .inl (Nat.le_add_right _ _)⟩

private theorem canonical_subnormal (fraction : BitVec 52) : Canonical fraction.toNat (-1074) := by
  have hlt : fraction.toNat < 2 ^ 52 := fraction.isLt
  exact ⟨by omega, le_rfl, .inr rfl⟩

theorem unpack_cases {s : Sign} {exponent : BitVec 11} {fraction : BitVec 52}
    (h : (UnpackedFloat.unpack Format.binary64
      (packComponents Format.binary64 s exponent fraction)).isFinite = true) :
    (exponent = 0#_ ∧ fraction = 0#_) ∨ (exponent = 0#_ ∧ fraction ≠ 0#_) ∨
      (exponent ≠ 0#_ ∧ exponent ≠ -1#_) := by
  by_cases hzero : exponent = 0#_
  · by_cases hnone : fraction = 0#_
    · exact .inl ⟨hzero, hnone⟩
    · exact .inr (.inl ⟨hzero, hnone⟩)
  · refine .inr (.inr ⟨hzero, ?_⟩)
    rintro rfl
    unfold UnpackedFloat.unpack at h
    simp only [unpackExponent_packComponents, if_pos] at h
    split at h <;> contradiction

theorem pack_unpack {bits : BitVec Format.binary64.numBits}
    (h : (UnpackedFloat.unpack Format.binary64 bits).isFinite = true) :
    UnpackedFloat.pack Format.binary64 (UnpackedFloat.unpack Format.binary64 bits) = bits := by
  rw [← packComponents_unpack bits] at h ⊢
  generalize Sign.ofBitVec (unpackSign bits) = s at *
  generalize @unpackExponent Format.binary64 bits = exponent at *
  generalize @unpackMantissa Format.binary64 bits = fraction at *
  obtain ⟨rfl, rfl⟩ | ⟨rfl, hfraction⟩ | ⟨hnormal, hspecial⟩ := unpack_cases h
  · cases s <;> rfl
  · have hlt : fraction.toNat < 2 ^ 52 := fraction.isLt
    rw [unpack_subnormal s hfraction, pack_finite s (canonical_subnormal fraction),
      if_neg (by norm_num), if_neg (not_le.2 hlt), BitVec.ofNat_toNat, BitVec.setWidth_eq]
  · have hlt := toNat_exponent_lt hspecial
    have hpos := BitVec.toNat_pos_of_ne_zero hnormal
    rw [unpack_normal s fraction hspecial hnormal,
      pack_finite s (canonical_normal fraction (by omega)), if_neg (by omega),
      if_pos (Nat.le_add_right _ _)]
    congr 1
    · apply BitVec.eq_of_toNat_eq
      rw [BitVec.toNat_ofNat]
      omega
    · have hfraction : fraction.toNat < 2 ^ 52 := fraction.isLt
      apply BitVec.eq_of_toNat_eq
      rw [BitVec.toNat_ofNat, Nat.add_mod_left, Nat.mod_eq_of_lt hfraction]

/-- The bits of no double are lost by unpacking, since those of a NaN are fixed. -/
theorem pack_unpack_of_valid {bits : BitVec Format.binary64.numBits}
    (h : Format.binary64.Valid bits) :
    UnpackedFloat.pack Format.binary64 (UnpackedFloat.unpack Format.binary64 bits) = bits := by
  by_cases hfinite : (UnpackedFloat.unpack Format.binary64 bits).isFinite = true
  · exact pack_unpack hfinite
  have hspecial : unpackExponent bits = -1#_ := by
    by_contra hnormal
    apply hfinite
    unfold UnpackedFloat.unpack
    simp only [if_neg hnormal]
    split
    · split <;> rfl
    · rfl
  unfold UnpackedFloat.unpack
  simp only [if_pos hspecial]
  split
  case isTrue hfraction =>
    have hbits := packComponents_unpack bits
    rw [hspecial, hfraction] at hbits
    exact hbits
  case isFalse hfraction => exact (h.eq_packedNaN hspecial hfraction).symm

theorem ofModel_pack_unpack (x : Float) : Float.ofModel (.pack x.toModel.unpack) = x := by
  obtain ⟨⟨bits, hvalid⟩⟩ := x
  have hword : UInt64.ofBitVec (UnpackedFloat.pack Format.binary64
      (UnpackedFloat.unpack Format.binary64 bits.toBitVec)) = bits :=
    congrArg UInt64.ofBitVec (pack_unpack_of_valid hvalid)
  exact congrArg Float.ofModel ((Float.Model.mk.injEq ..).mpr hword)

theorem eq_of_unpack {x y : Float} (h : x.toModel.unpack = y.toModel.unpack) : x = y := by
  rw [← ofModel_pack_unpack x, h, ofModel_pack_unpack y]

end DropTable.Binary64
