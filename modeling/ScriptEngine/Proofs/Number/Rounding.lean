import Mathlib
import ScriptEngine.Number.Decimal
set_option autoImplicit false

/-!
# Doubles: rounding a ratio

A ratio is rounded in three parts: so many bits of the quotient that a double cannot need more,
what is left as a comparison with half a unit, and a shift to the exponent that a double of this
size has.  The quotient may be taken at any low exponent (`round_ratio`), so that the result
depends on nothing but the ratio (`nearest_congr`).

Ratios are counted in units of the smallest double, `2 ^ -1074`: `nearest a b` is `a / b` of
these units, rounded.  A double is the nearest one to itself (`nearest_canonical`), and a
quotient of two doubles is the nearest one to their ratio (`div_finite`).
-/

namespace ScriptEngine

open Float.Model Float.Model.UnpackedFloat

namespace Double

/-! ## Quotients with two more bits -/

/-- The quotient of two numbers with a round bit and a sticky bit for the rest. -/
def extended (a b : Nat) : ExtendedMantissa :=
  .ofMantissaAndAccuracy (a / b) (accuracyOfFraction (a % b) b)

/-- The round bit says whether the rest is half of the divisor or more, and the sticky bit
whether it is neither nothing nor exactly half. -/
theorem extended_eq {a b : Nat} (hb : 0 < b) :
    extended a b =
      ⟨a / b, decide (b ≤ 2 * (a % b)), decide (a % b ≠ 0 ∧ 2 * (a % b) ≠ b)⟩ := by
  unfold extended accuracyOfFraction
  split
  · next h =>
    simp only [h]
    simp [ExtendedMantissa.ofMantissaAndAccuracy]
    omega
  · next h =>
    rcases Nat.lt_trichotomy (2 * (a % b)) b with hlt | heq | hgt
    · rw [Nat.compare_eq_lt.mpr hlt]
      simp [ExtendedMantissa.ofMantissaAndAccuracy]
      omega
    · rw [Nat.compare_eq_eq.mpr heq]
      simp [ExtendedMantissa.ofMantissaAndAccuracy]
      omega
    · rw [Nat.compare_eq_gt.mpr hgt]
      simp [ExtendedMantissa.ofMantissaAndAccuracy]
      omega

/-- Dropping a bit doubles the divisor. -/
theorem shiftRightOne_extended {a b : Nat} (hb : 0 < b) :
    (extended a b).shiftRightOne = extended a (2 * b) := by
  rw [extended_eq hb, extended_eq (by omega)]
  have hmod : a % (2 * b) = a % b + b * (a / b % 2) := by rw [Nat.mul_comm 2 b, Nat.mod_mul]
  have hdiv : a / (2 * b) = a / b / 2 := by rw [Nat.mul_comm 2 b, Nat.div_div_eq_div_mul]
  have hlt := Nat.mod_lt a hb
  rw [hmod, hdiv]
  unfold ExtendedMantissa.shiftRightOne
  dsimp only
  generalize a % b = rest at hlt ⊢
  rcases Nat.mod_two_eq_zero_or_one (a / b) with heven | hodd
  · rw [heven, Nat.mul_zero, Nat.add_zero]
    congr 1
    · simp
      omega
    · rw [← Bool.decide_or]
      exact decide_eq_decide.mpr (by omega)
  · rw [hodd, Nat.mul_one]
    congr 1
    · simp
    · rw [← Bool.decide_or]
      exact decide_eq_decide.mpr (by omega)

theorem shiftRight_extended {a b : Nat} (hb : 0 < b) (n : Nat) :
    extended a b >>> n = extended a (2 ^ n * b) := by
  change n.repeat ExtendedMantissa.shiftRightOne _ = _
  induction n with
  | zero =>
    rw [Nat.pow_zero, Nat.one_mul]
    rfl
  | succ n ih =>
    rw [Nat.repeat, ih, shiftRightOne_extended (Nat.mul_pos (Nat.two_pow_pos n) hb), Nat.pow_succ]
    congr 1
    ring

/-- Nothing but the ratio matters. -/
theorem extended_congr {a b c d : Nat} (hb : 0 < b) (hd : 0 < d) (h : a * d = c * b) :
    extended a b = extended c d := by
  have hscale : ∀ {a b k : Nat}, 0 < b → 0 < k → extended (a * k) (b * k) = extended a b := by
    intro a b k hb hk
    rw [extended_eq (Nat.mul_pos hb hk), extended_eq hb, Nat.mul_div_mul_right _ _ hk,
      Nat.mul_mod_mul_right, ← Nat.mul_assoc]
    congr 2
    · simp [Nat.mul_le_mul_right_iff hk]
    · simp [Nat.mul_left_inj (Nat.ne_of_gt hk), hk.ne']
  rw [← hscale hb hd, h, Nat.mul_comm b d, hscale hd hb]

/-! ## The nearest double -/

theorem targetExponent_binary64 (t : Int) :
    Format.binary64.targetExponent t = max (t - 53) (-1074) := rfl

/-- The double nearest to `a / b` units of the smallest one. -/
def nearest (a b : Nat) : UnpackedFloat :=
  roundWithAccuracy .binary64 .positive (a / b) (-1074) (accuracyOfFraction (a % b) b)

theorem shiftToTargetExponent_ratio {a b : Nat} (hb : 0 < b) (e : Int) :
    shiftToTargetExponent .binary64 (a / b) e (accuracyOfFraction (a % b) b) =
      (extended a (2 ^ (max ((a / b).log2 + 1 + e - 53) (-1074) - e).toNat * b),
        e + (max ((a / b).log2 + 1 + e - 53) (-1074) - e).toNat) := by
  rw [← shiftRight_extended hb]
  rfl

theorem nearest_congr {a b c d : Nat} (hb : 0 < b) (hd : 0 < d) (h : a * d = c * b) :
    nearest a b = nearest c d := by
  have hratio := extended_congr hb hd h
  have hdiv : a / b = c / d := by
    rw [extended_eq hb, extended_eq hd] at hratio
    exact congrArg ExtendedMantissa.mantissa hratio
  have hshift : shiftToTargetExponent .binary64 (a / b) (-1074) (accuracyOfFraction (a % b) b) =
      shiftToTargetExponent .binary64 (c / d) (-1074) (accuracyOfFraction (c % d) d) := by
    unfold shiftToTargetExponent shiftToExponent
    rw [← extended, ← extended, hratio, hdiv]
  unfold nearest roundWithAccuracy
  rw [hshift]

/-- A quotient taken at a higher exponent is rounded to the same double, if it still has as many
bits as a double. -/
theorem round_ratio {a b j : Nat} (hb : 0 < b) (hj : j = 0 ∨ j + 52 ≤ (a * 2 ^ j / b).log2) :
    roundWithAccuracy .binary64 .positive (a / b) (j - 1074) (accuracyOfFraction (a % b) b) =
      nearest (a * 2 ^ j) b := by
  rcases hj with rfl | hj
  · simp [nearest]
  have hdiv : a / b = a * 2 ^ j / b / 2 ^ j := by
    rw [Nat.div_div_eq_div_mul, Nat.mul_div_mul_right _ _ (Nat.two_pow_pos j)]
  have hlog : (a / b).log2 + j = (a * 2 ^ j / b).log2 := by
    rw [hdiv, Nat.log2_eq_log_two, Nat.log_div_base_pow, ← Nat.log2_eq_log_two]
    omega
  have hshift : shiftToTargetExponent .binary64 (a / b) (j - 1074)
      (accuracyOfFraction (a % b) b) =
      shiftToTargetExponent .binary64 (a * 2 ^ j / b) (-1074)
        (accuracyOfFraction (a * 2 ^ j % b) b) := by
    rw [shiftToTargetExponent_ratio hb, shiftToTargetExponent_ratio hb]
    generalize (a / b).log2 = low at hlog ⊢
    generalize (a * 2 ^ j / b).log2 = high at hj hlog ⊢
    subst hlog
    have hless : (max ((low : Int) + 1 + (j - 1074) - 53) (-1074) - (j - 1074)).toNat =
        low - 52 := by omega
    have hmore : (max (((low + j : Nat) : Int) + 1 + (-1074) - 53) (-1074) - (-1074)).toNat =
        low - 52 + j := by omega
    rw [hless, hmore]
    refine Prod.ext ?_ ?_
    · refine extended_congr (Nat.mul_pos (Nat.two_pow_pos _) hb)
        (Nat.mul_pos (Nat.two_pow_pos _) hb) ?_
      rw [Nat.pow_add]
      ring
    · dsimp only
      omega
  unfold nearest roundWithAccuracy
  rw [hshift]

theorem nearest_zero {b : Nat} (hb : 0 < b) : nearest 0 b = .zero .positive := by
  rw [nearest_congr (c := 0) hb Nat.one_pos (by simp)]
  rfl

/-! ## Doubles themselves -/

/-- The significand and the exponent are those of a double: the significand is full, unless the
exponent is the least one. -/
structure Canonical (m : Nat) (e : Int) : Prop where
  lt : m < 2 ^ 53
  le : -1074 ≤ e
  full : 2 ^ 52 ≤ m ∨ e = -1074

/-- A double needs no rounding. -/
theorem round_canonical {m : Nat} {e : Int} (hm : 0 < m) (h : Canonical m e) :
    roundWithAccuracy .binary64 .positive m e .exact = .finite .positive m e hm := by
  obtain ⟨hlt, hle, hfull⟩ := h
  have hmost : m.log2 < 53 := (Nat.log2_lt (Nat.ne_of_gt hm)).mpr hlt
  have hstays : shiftToTargetExponent .binary64 m e .exact =
      (ExtendedMantissa.mk m false false, e) := by
    have hzero : (Format.binary64.targetExponent (totalExponent m e) - e).toNat = 0 := by
      rw [targetExponent_binary64]
      unfold totalExponent
      omega
    unfold shiftToTargetExponent shiftToExponent
    dsimp only
    rw [hzero]
    simp
    rfl
  have hrounded : (ExtendedMantissa.mk m false false).roundedMantissa = m := rfl
  unfold roundWithAccuracy
  rw [hstays]
  dsimp only
  rw [hrounded, hstays]
  exact dif_neg (Nat.ne_of_gt hm)

/-- A double is the nearest one to itself. -/
theorem nearest_canonical {m : Nat} {e : Int} (hm : 0 < m) (h : Canonical m e) :
    nearest (m * 2 ^ (e + 1074).toNat) 1 = .finite .positive m e hm := by
  have hround := round_canonical hm h
  obtain ⟨hlt, hle, hfull⟩ := h
  obtain ⟨j, rfl⟩ : ∃ j : Nat, e = j - 1074 := ⟨(e + 1074).toNat, by omega⟩
  have hbits : j = 0 ∨ j + 52 ≤ (m * 2 ^ j / 1).log2 := by
    rcases hfull with hfull | hlow
    · right
      rw [Nat.div_one]
      refine (Nat.le_log2 (Nat.ne_of_gt (Nat.mul_pos hm (Nat.two_pow_pos j)))).mpr ?_
      rw [Nat.add_comm, Nat.pow_add]
      exact Nat.mul_le_mul_right _ hfull
    · left
      omega
  have hexact : accuracyOfFraction 0 1 = .exact := rfl
  rw [show ((j : Int) - 1074 + 1074).toNat = j by omega, ← round_ratio Nat.one_pos hbits,
    Nat.div_one, Nat.mod_one, hexact, hround]

/-! ## Quotients -/

/-- The quotient of two positive doubles is the one nearest to their ratio. -/
theorem div_finite {m n : Nat} (hm : 0 < m) (hn : 0 < n) {e f : Int} (hle : -1074 ≤ e - f) :
    UnpackedFloat.div .binary64 (.finite .positive m e hm) (.finite .positive n f hn) =
      nearest (m * 2 ^ (e - f + 1074).toNat) n := by
  generalize hk : min (e - f)
    (Format.binary64.targetExponent (totalExponent m e - totalExponent n f)) = k
  have hexp := hk
  rw [targetExponent_binary64] at hk
  unfold totalExponent at hk
  -- the quotient is taken `i` bits further, at an exponent `j` above the least one
  obtain ⟨j, rfl⟩ : ∃ j : Nat, k = j - 1074 := ⟨(k + 1074).toNat, by omega⟩
  obtain ⟨i, hi⟩ : ∃ i : Nat, e - f - (j - 1074) = i := ⟨(e - f - (j - 1074)).toNat, by omega⟩
  have hsum : (e - f + 1074).toNat = i + j := by omega
  have hround : UnpackedFloat.div .binary64 (.finite .positive m e hm) (.finite .positive n f hn) =
      roundWithAccuracy .binary64 .positive (m * 2 ^ i / n) (j - 1074)
        (accuracyOfFraction (m * 2 ^ i % n) n) := by
    unfold UnpackedFloat.div divCore
    dsimp only
    rw [hexp, hi, Int.toNat_natCast, Nat.shiftLeft_eq]
    rfl
  have hbits : j = 0 ∨ j + 52 ≤ (m * 2 ^ (i + j) / n).log2 := by
    by_cases hj : j = 0
    · exact .inl hj
    right
    have hmany : n.log2 + 1 + (j + 52) ≤ m.log2 + (i + j) := by omega
    have hge : 2 ^ (j + 52) ≤ m * 2 ^ (i + j) / n := by
      rw [Nat.le_div_iff_mul_le hn]
      calc 2 ^ (j + 52) * n
          ≤ 2 ^ (j + 52) * 2 ^ (n.log2 + 1) := Nat.mul_le_mul_left _ Nat.lt_log2_self.le
        _ = 2 ^ (n.log2 + 1 + (j + 52)) := by rw [← Nat.pow_add, Nat.add_comm]
        _ ≤ 2 ^ (m.log2 + (i + j)) := Nat.pow_le_pow_right (by decide) hmany
        _ = 2 ^ m.log2 * 2 ^ (i + j) := Nat.pow_add ..
        _ ≤ m * 2 ^ (i + j) :=
            Nat.mul_le_mul_right _ (Nat.log2_self_le (Nat.ne_of_gt hm))
    exact (Nat.le_log2 (Nat.ne_of_gt ((Nat.two_pow_pos _).trans_le hge))).mpr hge
  rw [Nat.pow_add, ← Nat.mul_assoc] at hbits
  rw [hround, round_ratio hn hbits, hsum, Nat.pow_add, Nat.mul_assoc]

end Double

end ScriptEngine
