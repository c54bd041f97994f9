import ScriptEngine.Proofs.Number.Doubles
set_option autoImplicit false

/-!
# Numerals: reading

A numeral is read as the double nearest to it (`toFloat_eq`).  There are two ways to do so, a
short one for small numerals and a general one, and both round the same ratio.  The double that
is read therefore depends on the numeral's value alone (`toFloat_congr`).
-/

namespace ScriptEngine

open Float.Model Float.Model.UnpackedFloat

namespace Double

/-! ## Units -/

/-- The number one in units of the smallest double. -/
def units : Nat := 2 ^ 1074

theorem units_pos : 0 < units := by
  unfold units
  exact pow_pos Nat.two_pos 1074

theorem units_eq {i j : Nat} (h : i + j = 1074) : 2 ^ i * 2 ^ j = units := by
  rw [← pow_add, h, units]

theorem two_pow_units (k : Nat) : 2 ^ (k + 1074) = 2 ^ k * units := by rw [pow_add, units]

/-- A number has at least as many bits as its units. -/
theorem le_log2_units {n k : Nat} (hn : 0 < n) (hk : k ≤ n.log2 + 1074) :
    k ≤ (n * units).log2 := by
  refine (Nat.le_log2 (Nat.ne_of_gt (Nat.mul_pos hn units_pos))).mpr ?_
  calc 2 ^ k ≤ 2 ^ (n.log2 + 1074) := Nat.pow_le_pow_right Nat.two_pos hk
    _ = 2 ^ n.log2 * units := two_pow_units _
    _ ≤ n * units := Nat.mul_le_mul_right _ (Nat.log2_self_le (Nat.ne_of_gt hn))

/-! ## The general way -/

theorem mul_finite {m n : Nat} (hm : 0 < m) (hn : 0 < n) (e f : Int) :
    UnpackedFloat.mul .binary64 (.finite .positive m e hm) (.finite .positive n f hn) =
      roundWithAccuracy .binary64 .positive (m * n) (e + f) .exact := rfl

theorem round_whole {m : Nat} (hm : 0 < m) :
    roundWithAccuracy .binary64 .positive (m * 2 ^ 53) (-53) .exact = nearest (m * units) 1 := by
  have hpow : m * 2 ^ 53 * 2 ^ 1021 = m * units := by rw [Nat.mul_assoc, units_eq (by rfl)]
  have hbits : 1021 + 52 ≤ (m * 2 ^ 53 * 2 ^ 1021 / 1).log2 := by
    rw [hpow, Nat.div_one]
    exact le_log2_units hm (by omega)
  have hround := round_ratio Nat.one_pos (.inr hbits)
  rwa [hpow, Nat.div_one, Nat.mod_one] at hround

/-- A number without many decimals is the nearest double to its value. -/
theorem ofScientific_eq (m : Nat) {p : Nat} (hp : p ≤ 2048) :
    UnpackedFloat.ofScientific .binary64 m (.negOfNat p) = nearest (m * units) (10 ^ p) := by
  have hneg : Int.negOfNat p = -(p : Int) := Int.negOfNat_eq
  have hsmall : ¬ Int.negOfNat p > 2 ^ Format.binary64.exponentBits := by
    show ¬ Int.negOfNat p > 2048
    omega
  have hlarge : ¬ Int.negOfNat p < -((2 ^ Format.binary64.exponentBits : Int) + m.log2) := by
    show ¬ Int.negOfNat p < -((2048 : Int) + m.log2)
    omega
  unfold UnpackedFloat.ofScientific
  split
  · next hm => rw [hm, Nat.zero_mul, nearest_zero (Nat.pow_pos (by decide))]
  · next hm =>
    have hpos := Nat.pos_of_ne_zero hm
    split
    · next hle =>
      obtain rfl : p = 0 := by omega
      have hone : 10 ^ (Int.negOfNat 0).toNat = 1 := rfl
      have hbits : m <<< Format.binary64.mantissaBits = m * 2 ^ 53 := Nat.shiftLeft_eq ..
      have hexp : -(Format.binary64.mantissaBits : Int) + 0 = -53 := rfl
      rw [mul_finite, hone, hbits, hexp, Nat.mul_one, round_whole hpos, Nat.pow_zero]
    · have hcount : (-Int.negOfNat p).toNat = p := by omega
      have hexp : ((0 : Int) - 0 + 1074).toNat = 1074 := rfl
      rw [div_finite hpos (Nat.pow_pos (by decide)) (by decide), hcount, hexp, units]

/-! ## The short way -/

/-- The unpacked double is `10 ^ p`. -/
def isPower (u : UnpackedFloat) (p : Nat) : Bool :=
  match u with
  | .finite .positive n f _ => n * 2 ^ (f + 1074).toNat == 10 ^ p * units && f.natAbs ≤ 1000
  | _ => false

theorem isPower_table : ∀ p : Fin Float.exactlyRepresentablePowersOfTen.size,
    isPower Float.exactlyRepresentablePowersOfTen[p].toModel.unpack p = true := by
  decide +kernel

theorem toNat_toUInt64 {n : Nat} (hlt : n < 2 ^ 53) : n.toUInt64.toNat = n := by
  rw [Nat.toUInt64, UInt64.toNat_ofNat']
  omega

theorem unpack_whole {n : Nat} (hpos : 0 < n) (hlt : n < 2 ^ 53) :
    n.toUInt64.toFloat.toModel.unpack =
      .finite .positive (n * 2 ^ wholeExponent n) (-wholeExponent n)
        (Nat.mul_pos hpos (Nat.two_pow_pos _)) := by
  have hmodel : n.toUInt64.toFloat.toModel =
      Float.Model.pack (UnpackedFloat.ofNat .binary64 n.toUInt64.toNat) := rfl
  rw [hmodel, toNat_toUInt64 hlt, ofNat_whole hpos hlt,
    unpack_pack _ _ (canonical_whole hpos hlt) (by omega)]

/-- A small whole number over a small power of ten is the nearest double to this ratio. -/
theorem div_whole {n p : Nat} (hlt : n < 2 ^ 53) {u : UnpackedFloat}
    (hu : isPower u p = true) :
    UnpackedFloat.div .binary64 n.toUInt64.toFloat.toModel.unpack u =
      nearest (n * units) (10 ^ p) := by
  unfold isPower at hu
  split at hu
  · next m f hm =>
    simp only [Bool.and_eq_true, beq_iff_eq, decide_eq_true_eq] at hu
    obtain ⟨hvalue, hf⟩ := hu
    rcases Nat.eq_zero_or_pos n with rfl | hpos
    · rw [Nat.zero_mul, nearest_zero (Nat.pow_pos (by decide))]
      rfl
    rw [unpack_whole hpos hlt, div_finite _ hm (by unfold wholeExponent; omega)]
    refine nearest_congr hm (Nat.pow_pos (by decide)) ?_
    have hk : wholeExponent n ≤ 52 := Nat.sub_le ..
    generalize wholeExponent n = k at hk ⊢
    obtain ⟨i, hi⟩ : ∃ i : Nat, f + 1074 = i := ⟨(f + 1074).toNat, by omega⟩
    obtain ⟨j, hj⟩ : ∃ j : Nat, -(k : Int) - f + 1074 = j :=
      ⟨(-(k : Int) - f + 1074).toNat, by omega⟩
    rw [hi, Int.toNat_natCast] at hvalue
    rw [hj, Int.toNat_natCast]
    have hunits : 2 ^ (k + j + i) = units * units := by
      rw [units, ← pow_add]
      congr 1
      omega
    refine Nat.eq_of_mul_eq_mul_right (Nat.two_pow_pos i) ?_
    calc n * 2 ^ k * 2 ^ j * 10 ^ p * 2 ^ i = n * 10 ^ p * 2 ^ (k + j + i) := by
          rw [pow_add, pow_add]
          ring
      _ = n * units * (10 ^ p * units) := by
          rw [hunits]
          ring
      _ = n * units * m * 2 ^ i := by rw [← hvalue, Nat.mul_assoc (n * units)]
  · cases hu

end Double

namespace Decimal

open Double

/-- A numeral is read as the nearest double. -/
theorem toFloat_eq (d : Decimal) (hplaces : d.places ≤ 2048) :
    d.toFloat = .ofModel (.pack (nearest (d.digits * units) (10 ^ d.places))) := by
  unfold toFloat Float.ofScientific
  split
  · next h =>
    have hpower := isPower_table ⟨d.places, Nat.lt_succ_of_le h.2⟩
    refine congrArg (fun u => Float.ofModel (.pack u)) (div_whole h.1 hpower)
  · exact congrArg (fun u => Float.ofModel (.pack u)) (ofScientific_eq d.digits hplaces)

/-- Numerals of the same value are read as the same double. -/
theorem toFloat_congr {c d : Decimal} (hc : c.places ≤ 2048) (hd : d.places ≤ 2048)
    (h : c.digits * 10 ^ d.places = d.digits * 10 ^ c.places) : c.toFloat = d.toFloat := by
  have hten : ∀ p, 0 < 10 ^ p := fun p => Nat.pow_pos (by decide)
  rw [toFloat_eq c hc, toFloat_eq d hd, nearest_congr (hten _) (hten _)]
  rw [Nat.mul_right_comm, h, Nat.mul_right_comm]

end Decimal

end ScriptEngine
