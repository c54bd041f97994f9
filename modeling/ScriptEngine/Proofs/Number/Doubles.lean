import ScriptEngine.Proofs.Number.Rounding
set_option autoImplicit false

/-!
# Doubles: fields

The bits of a double are three fields (`exists_packComponents`).  What they stand for is
`ofFields`, for every finite double, and packing gives the fields back (`pack_ofFields`).
-/

namespace ScriptEngine

open Float.Model Float.Model.UnpackedFloat

namespace Double

variable (s : Sign) {E : BitVec 11} {M : BitVec 52}

/-! ## Fields -/

/-- The finite double with these fields.  The significand lacks its first bit unless the
exponent is the least one. -/
def ofFields (s : Sign) (E : BitVec 11) (M : BitVec 52) : UnpackedFloat :=
  if E = 0#11 then
    if h : 0 < M.toNat then .finite s M.toNat (-1074) h else .zero s
  else .finite s (2 ^ 52 + M.toNat) (E.toNat - 1075) (by omega)

theorem neg_ofFields : (ofFields s E M).neg = ofFields (-s) E M := by
  unfold ofFields
  split
  · split <;> rfl
  · rfl

theorem toNat_packComponents :
    (packComponents .binary64 s E M).toNat =
      s.toBitVec.toNat * 2 ^ 63 + E.toNat * 2 ^ 52 + M.toNat := by
  have hupper : s.toBitVec.toNat <<< 11 ||| E.toNat = s.toBitVec.toNat <<< 11 + E.toNat :=
    (Nat.shiftLeft_add_eq_or_of_lt E.isLt _).symm
  have hall : (s.toBitVec.toNat <<< 11 + E.toNat) <<< 52 ||| M.toNat =
      (s.toBitVec.toNat <<< 11 + E.toNat) <<< 52 + M.toNat :=
    (Nat.shiftLeft_add_eq_or_of_lt M.isLt _).symm
  unfold packComponents
  rw [BitVec.toNat_append, BitVec.toNat_append, hupper, hall]
  simp only [Nat.shiftLeft_eq]
  ring

/-- Any bits are those of three fields. -/
theorem exists_packComponents (b : BitVec 64) :
    ∃ s E M, b = packComponents .binary64 s E M := by
  have hb := b.isLt
  refine ⟨.ofBitVec (.ofNat 1 (b.toNat / 2 ^ 63)), .ofNat 11 (b.toNat / 2 ^ 52),
    .ofNat 52 b.toNat, BitVec.eq_of_toNat_eq ?_⟩
  rw [toNat_packComponents, BitVec.toNat_ofNat, BitVec.toNat_ofNat]
  rcases (by omega : b.toNat / 2 ^ 63 = 0 ∨ b.toNat / 2 ^ 63 = 1) with hsign | hsign
  · rw [hsign]
    show _ = 0 * 2 ^ 63 + _ + _
    omega
  · rw [hsign]
    show _ = 1 * 2 ^ 63 + _ + _
    omega

theorem unpackSign_packComponents :
    unpackSign (packComponents .binary64 s E M) = s.toBitVec := by
  have hE := E.isLt
  have hM := M.isLt
  have hs := s.toBitVec.isLt
  apply BitVec.eq_of_toNat_eq
  simp only [unpackSign, BitVec.toNat_cast, BitVec.extractLsb_toNat, toNat_packComponents,
    Nat.shiftRight_eq_div_pow]
  omega

theorem unpack_packComponents (hE : E ≠ -1#11) :
    UnpackedFloat.unpack .binary64 (packComponents .binary64 s E M) = ofFields s E M := by
  have hs : Sign.ofBitVec s.toBitVec = s := by cases s <;> rfl
  unfold UnpackedFloat.unpack ofFields
  simp only [unpackMantissa_packComponents, unpackExponent_packComponents,
    unpackSign_packComponents, hs]
  rw [if_neg hE]
  split
  · next hzero =>
    subst hzero
    split
    · next hM =>
      subst hM
      rfl
    · next hM =>
      rw [dif_pos (Nat.pos_of_ne_zero fun h => hM (BitVec.eq_of_toNat_eq h))]
      rfl
  · have hM := M.isLt
    congr 1
    rw [BitVec.toNat_append, ← Nat.shiftLeft_add_eq_or_of_lt M.isLt]
    rfl

theorem pack_ofFields (hE : E ≠ -1#11) :
    UnpackedFloat.pack .binary64 (ofFields s E M) = packComponents .binary64 s E M := by
  have hElt := E.isLt
  have hMlt := M.isLt
  unfold ofFields
  split
  · next hzero =>
    subst hzero
    split
    · next hM =>
      have hlog : M.toNat.log2 < 52 := (Nat.log2_lt (Nat.ne_of_gt hM)).mpr hMlt
      have hplain : ¬ M.toNat.log2 + 1 = Format.binary64.mantissaBits := by
        show ¬ M.toNat.log2 + 1 = 53
        omega
      unfold UnpackedFloat.pack
      dsimp only
      rw [if_neg (by decide), if_neg hplain, BitVec.ofNat_toNat, BitVec.setWidth_eq]
    · next hM =>
      obtain rfl : M = 0#52 := BitVec.eq_of_toNat_eq (by simpa using hM)
      rfl
  · have hlog : (2 ^ 52 + M.toNat).log2 = 52 := by
      rw [Nat.log2_eq_iff (by omega)]
      omega
    have hbiased : ((E.toNat : Int) - 1075 + Format.binary64.exponentBias +
        Format.binary64.mantissaBitsWithoutImplicit).toNat = E.toNat := by
      show ((E.toNat : Int) - 1075 + 1023 + 52).toNat = E.toNat
      omega
    have hfits : ¬ 2 ^ 11 ≤ E.toNat + 1 := by
      intro hle
      have hlast : E.toNat = 2047 := by omega
      exact hE (BitVec.eq_of_toNat_eq hlast)
    unfold UnpackedFloat.pack
    dsimp only
    rw [hbiased, if_neg hfits, hlog, if_pos (by rfl), BitVec.ofNat_toNat, BitVec.setWidth_eq]
    congr 1
    apply BitVec.eq_of_toNat_eq
    rw [BitVec.toNat_ofNat]
    omega

/-! ## Doubles and their fields -/

/-- A finite double is one that has fields: the last exponent is none. -/
theorem exists_fields {x : Float} (hfinite : x.isFinite = true) :
    ∃ s E M, E ≠ -1#11 ∧ x.toModel.toBits.toBitVec = packComponents .binary64 s E M := by
  obtain ⟨s, E, M, hx⟩ := exists_packComponents x.toModel.toBits.toBitVec
  refine ⟨s, E, M, ?_, hx⟩
  rintro rfl
  have hunpack : (UnpackedFloat.unpack .binary64 x.toModel.toBits.toBitVec).isFinite = true :=
    hfinite
  rw [hx] at hunpack
  unfold UnpackedFloat.unpack at hunpack
  simp only [unpackExponent_packComponents, if_true] at hunpack
  split at hunpack <;> cases hunpack

/-- A double that is not too large has fields. -/
theorem exists_ofFields {m : Nat} {e : Int} (hm : 0 < m) (h : Canonical m e) (he : e ≤ 971) :
    ∃ E M, E ≠ -1#11 ∧ ofFields s E M = .finite s m e hm := by
  obtain ⟨hlt, hle, hfull⟩ := h
  by_cases hbig : 2 ^ 52 ≤ m
  · obtain ⟨k, rfl⟩ : ∃ k : Nat, e = (k : Int) - 1075 := ⟨(e + 1075).toNat, by omega⟩
    have hE : (BitVec.ofNat 11 k).toNat = k := by
      rw [BitVec.toNat_ofNat]
      omega
    have hM : (BitVec.ofNat 52 m).toNat = m - 2 ^ 52 := by
      rw [BitVec.toNat_ofNat]
      omega
    have hne : ∀ n < 2 ^ 11, BitVec.ofNat 11 k = BitVec.ofNat 11 n → k = n := by
      intro n hn heq
      rw [← hE, heq, BitVec.toNat_ofNat, Nat.mod_eq_of_lt hn]
    refine ⟨.ofNat 11 k, .ofNat 52 m, fun hall => ?_, ?_⟩
    · have := hne 2047 (by decide) hall
      omega
    · unfold ofFields
      rw [if_neg]
      · congr 1
        · omega
        · rw [hE]
      · intro hzero
        have := hne 0 (by decide) hzero
        omega
  · have hM : (BitVec.ofNat 52 m).toNat = m := by
      rw [BitVec.toNat_ofNat]
      omega
    obtain rfl : e = -1074 := hfull.resolve_left hbig
    refine ⟨0#11, .ofNat 52 m, by decide, ?_⟩
    unfold ofFields
    rw [if_pos rfl, dif_pos (by rwa [hM])]
    congr 1

theorem unpack_pack {m : Nat} {e : Int} (hm : 0 < m) (h : Canonical m e) (he : e ≤ 971) :
    (Float.Model.pack (.finite s m e hm)).unpack = .finite s m e hm := by
  obtain ⟨E, M, hE, hfields⟩ := exists_ofFields s hm h he
  rw [← hfields]
  show UnpackedFloat.unpack .binary64 (UnpackedFloat.pack .binary64 (ofFields s E M)) = _
  rw [pack_ofFields s hE, unpack_packComponents s hE]

/-! ## Small whole numbers -/

/-- The exponent of a whole number that fits in a significand. -/
def wholeExponent (n : Nat) : Nat := 52 - n.log2

theorem canonical_whole {n : Nat} (hpos : 0 < n) (hlt : n < 2 ^ 53) :
    Canonical (n * 2 ^ wholeExponent n) (-wholeExponent n) := by
  have hlog : n.log2 < 53 := (Nat.log2_lt (Nat.ne_of_gt hpos)).mpr hlt
  have hk : n.log2 + wholeExponent n = 52 := by
    unfold wholeExponent
    omega
  refine ⟨?_, by omega, .inl ?_⟩
  · calc n * 2 ^ wholeExponent n < 2 ^ (n.log2 + 1) * 2 ^ wholeExponent n :=
          Nat.mul_lt_mul_of_pos_right Nat.lt_log2_self (Nat.two_pow_pos _)
      _ = 2 ^ 53 := by rw [← Nat.pow_add, show n.log2 + 1 + wholeExponent n = 53 by omega]
  · calc 2 ^ 52 = 2 ^ n.log2 * 2 ^ wholeExponent n := by rw [← Nat.pow_add, hk]
      _ ≤ n * 2 ^ wholeExponent n :=
          Nat.mul_le_mul_right _ (Nat.log2_self_le (Nat.ne_of_gt hpos))

theorem ofNat_whole {n : Nat} (hpos : 0 < n) (hlt : n < 2 ^ 53) :
    UnpackedFloat.ofNat .binary64 n =
      .finite .positive (n * 2 ^ wholeExponent n) (-wholeExponent n)
        (Nat.mul_pos hpos (Nat.two_pow_pos _)) := by
  have hlog : n.log2 < 53 := (Nat.log2_lt (Nat.ne_of_gt hpos)).mpr hlt
  have htarget : Format.binary64.targetExponent (totalExponent n 0) =
      -(wholeExponent n : Int) := by
    rw [targetExponent_binary64]
    unfold totalExponent wholeExponent
    omega
  have hshift : ((0 : Int) - -(wholeExponent n : Int)).toNat = wholeExponent n := by omega
  rw [← round_canonical (Nat.mul_pos hpos (Nat.two_pow_pos _)) (canonical_whole hpos hlt)]
  unfold UnpackedFloat.ofNat UnpackedFloat.ofInt UnpackedFloat.normalize
  rw [Int.compare_eq_gt.mpr (by omega : (n : Int) > 0)]
  dsimp only
  unfold UnpackedFloat.round decreaseExponent
  dsimp only
  rw [Int.toNat_natCast, htarget, hshift, Nat.shiftLeft_eq, Int.zero_sub]

end Double

end ScriptEngine
