import DropTable.Proofs.Binary64.Intervals
/-!
# Doubles are read from their texts

The text of a finite double is a sign and the shortest decimal that the double owns without it.  So
the decimal is read as the double but for the sign, and the sign negates what is read.
-/

namespace DropTable.Binary64

open Float.Model Float.Model.UnpackedFloat

/-! ## Sign and magnitude -/

private theorem ofBitVec_unpackSign_eq (bits : BitVec Format.binary64.numBits) :
    Sign.ofBitVec (unpackSign bits) = .positive ↔ bits.toNat < 2 ^ 63 := by
  have hsign := toNat_unpackSign bits
  have hlt : bits.toNat < 2 ^ 64 := bits.isLt
  have hzero : @unpackSign Format.binary64 bits = 0#1 ↔ bits.toNat < 2 ^ 63 := by
    rw [← BitVec.toNat_inj, hsign, BitVec.toNat_zero]
    omega
  rw [← hzero, Sign.ofBitVec]
  split
  case isTrue h => exact iff_of_true rfl h
  case isFalse h => exact iff_of_false Sign.noConfusion h

private theorem magnitude_eq (x : Float) :
    magnitude x =
      let exponent := (@unpackExponent Format.binary64 x.toModel.toBits.toBitVec).toNat
      let fraction := (@unpackMantissa Format.binary64 x.toModel.toBits.toBitVec).toNat
      if exponent = 0 then ⟨fraction, -1074, false⟩
      else ⟨2 ^ 52 + fraction, exponent - 1075, fraction = 0 ∧ exponent ≠ 1⟩ := by
  rw [toNat_unpackMantissa, toNat_unpackExponent, magnitude, Nat.shiftRight_eq_div_pow,
    Nat.one_shiftLeft, Nat.one_shiftLeft]
  rfl

private theorem exists_fields {x : Float} (h : x.isFinite = true) :
    ∃ s : Sign, (s = .positive ↔ x.toBits.toNat < 1 <<< 63) ∧
      (x.toModel.unpack = .zero s ∨ ∃ significand exponent, ∃ hpos : 0 < significand,
        x.toModel.unpack = .finite s significand exponent hpos ∧
          magnitude x = binary significand exponent) := by
  have hpacked := packComponents_unpack x.toModel.toBits.toBitVec
  have hunpack : x.toModel.unpack =
      UnpackedFloat.unpack Format.binary64 x.toModel.toBits.toBitVec := rfl
  have hfinite : x.toModel.unpack.isFinite = true := h
  refine ⟨Sign.ofBitVec (@unpackSign Format.binary64 x.toModel.toBits.toBitVec),
    ofBitVec_unpackSign_eq _, ?_⟩
  rw [magnitude_eq]
  rw [← hpacked] at hunpack
  rw [hunpack] at hfinite ⊢
  clear hpacked hunpack
  generalize Sign.ofBitVec (@unpackSign Format.binary64 x.toModel.toBits.toBitVec) = s at *
  generalize @unpackExponent Format.binary64 x.toModel.toBits.toBitVec = exponent at *
  generalize @unpackMantissa Format.binary64 x.toModel.toBits.toBitVec = fraction at *
  obtain ⟨rfl, rfl⟩ | ⟨rfl, hfraction⟩ | ⟨hnormal, hspecial⟩ := unpack_cases hfinite
  · left
    cases s <;> rfl
  · right
    refine ⟨_, _, _, unpack_subnormal s hfraction, ?_⟩
    simp [binary]
  · right
    have hpos := BitVec.toNat_pos_of_ne_zero hnormal
    refine ⟨_, _, _, unpack_normal s fraction hspecial hnormal, ?_⟩
    dsimp only
    rw [if_neg hpos.ne', binary]
    congr 1
    rw [decide_eq_decide]
    omega

/-! ## Negation -/

theorem Fits.neg {u : UnpackedFloat} (h : Fits u) : Fits u.neg := by
  cases u <;> exact h

private theorem neg_neg_unpacked (u : UnpackedFloat) : u.neg.neg = u := by
  cases u with
  | infinity s => cases s <;> rfl
  | zero s => cases s <;> rfl
  | finite s significand exponent hpos => cases s <;> rfl
  | notANumber => rfl

theorem Fits.settle_eq {u : UnpackedFloat} (h : Fits u) : settle u = u := by
  cases u with
  | finite s significand exponent hpos => exact if_pos h.2
  | _ => rfl

theorem unpack_neg (x : Float) : (-x).toModel.unpack = x.toModel.unpack.neg := by
  have hfits := (fits x).neg
  exact (unpack_pack hfits.proper).trans hfits.settle_eq

theorem neg_neg_eq (x : Float) : -(-x) = x := by
  have hmodel : -(-x) = .ofModel (.pack (-x).toModel.unpack.neg) := rfl
  rw [hmodel, unpack_neg, neg_neg_unpacked, ofModel_pack_unpack]

/-! ## Texts -/

theorem unpack_zero : (0.0 : Float).toModel.unpack = .zero .positive := by
  rfl

private theorem beq_zero_of_zero {x : Float} {s : Sign} (h : x.toModel.unpack = .zero s) :
    (x == 0.0) = true := by
  change x.toModel.unpack.beq (0.0 : Float).toModel.unpack = true
  rw [h, unpack_zero]
  rfl

private theorem beq_zero_of_finite {x : Float} {s : Sign} {significand : Nat} {exponent : Int}
    {hpos : 0 < significand} (h : x.toModel.unpack = .finite s significand exponent hpos) :
    (x == 0.0) = false := by
  change x.toModel.unpack.beq (0.0 : Float).toModel.unpack = false
  rw [h, unpack_zero]
  cases s <;> rfl

/-- A finite double without its sign. -/
def unsigned (x : Float) : Float :=
  if x.toBits.toNat < 1 <<< 63 then x else -x

private theorem unpack_unsigned {x : Float} {s : Sign}
    (hs : s = .positive ↔ x.toBits.toNat < 1 <<< 63) :
    (unsigned x).toModel.unpack =
      match s with
      | .positive => x.toModel.unpack
      | .negative => x.toModel.unpack.neg := by
  cases s with
  | positive => rw [unsigned, if_pos (hs.1 rfl)]
  | negative => rw [unsigned, if_neg (fun h => Sign.noConfusion (hs.2 h)), unpack_neg]

private theorem toList_text {x : Float} (h : x.isFinite = true) {digits : List Char}
    (hdigits : (if x == 0.0 then "0" else (magnitude x).shortest.positional).toList = digits) :
    (text x).toList = if x.toBits.toNat < 1 <<< 63 then digits else '-' :: digits := by
  have hspecial : x.isNaN = false ∧ x.isInf = false := by
    obtain ⟨s, hunpack⟩ | ⟨s, significand, exponent, hpos, hunpack⟩ := cases_of_isFinite h
    · exact ⟨congrArg UnpackedFloat.isNaN hunpack, congrArg UnpackedFloat.isInf hunpack⟩
    · exact ⟨congrArg UnpackedFloat.isNaN hunpack, congrArg UnpackedFloat.isInf hunpack⟩
  have htext : text x = (if x.toBits.toNat < 1 <<< 63 then "" else "-") ++
      if x == 0.0 then "0" else (magnitude x).shortest.positional := by
    unfold text
    dsimp only
    rw [hspecial.1, hspecial.2, if_neg Bool.false_ne_true, if_neg Bool.false_ne_true]
    split <;> rfl
  rw [htext, String.toList_append, hdigits]
  split <;> rfl

theorem exists_text {x : Float} (h : x.isFinite = true) :
    ∃ d cs, Decimal.Writes d cs ∧ ofDecimal d = unsigned x ∧
      (text x).toList = if x.toBits.toNat < 1 <<< 63 then cs else '-' :: cs := by
  obtain ⟨s, hs, hzero | ⟨significand, exponent, hpos, hunpack, hmagnitude⟩⟩ := exists_fields h
  · have hwrites : Decimal.Writes ⟨Decimal.digitsValue ['0'], 0⟩ ['0'] :=
      .whole (List.cons_ne_nil _ _) (List.forall_mem_singleton.2 rfl)
    have hread : ofDecimal ⟨Decimal.digitsValue ['0'], 0⟩ = 0.0 := rfl
    have hunsigned : (0.0 : Float).toModel.unpack = (unsigned x).toModel.unpack := by
      rw [unpack_unsigned hs, hzero]
      cases s <;> rfl
    refine ⟨_, _, hwrites, hread.trans (eq_of_unpack hunsigned), toList_text h ?_⟩
    rw [if_pos (beq_zero_of_zero hzero)]
    rfl
  · have hunsigned : (unsigned x).toModel.unpack = .finite .positive significand exponent hpos := by
      rw [unpack_unsigned hs, hunpack]
      cases s <;> rfl
    have hshortest := Decimal.Binary.owns_shortest (b := binary significand exponent) hpos
    obtain ⟨d, hwrites, hvalue⟩ :=
      Decimal.exists_writes_positional (binary significand exponent).shortest
    rw [← hvalue] at hshortest
    refine ⟨d, _, hwrites, ofDecimal_of_owns hunsigned hshortest, toList_text h ?_⟩
    rw [if_neg (Bool.eq_false_iff.1 (beq_zero_of_finite hunpack)), hmagnitude]

end DropTable.Binary64
