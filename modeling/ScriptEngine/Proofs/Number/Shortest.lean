import ScriptEngine.Proofs.Number.Reading
set_option autoImplicit false

/-!
# Numerals: the shortest one

The numeral that a finite double is written as is read as its magnitude, and so as the double
itself once the sign is put in front of it (`Number.signed_shortest`).

Two facts carry this.  The numeral that stands for a double exactly is read as the double
(`toFloat_exact`), and whatever the search for fewer digits ends with is read as the numeral that
it started from (`toFloat_fewestDigits`): each candidate is tested by reading it, and the zeros
that are dropped in the end do not count (`toFloat_trim`).
-/

namespace ScriptEngine

open Float.Model Float.Model.UnpackedFloat

namespace Decimal

open Double

/-! ## Fewer digits -/

/-- Zeros at the end of a fraction do not change what is read. -/
theorem toFloat_trim (digits : Nat) {places : Nat} (hplaces : places ≤ 2048) :
    (trim digits places).toFloat = (Decimal.mk digits places).toFloat := by
  induction places generalizing digits with
  | zero => rfl
  | succ places ih =>
    unfold trim
    split
    · next hzero =>
      rw [ih _ (by omega)]
      refine toFloat_congr (by show places ≤ 2048; omega) hplaces ?_
      show digits / 10 * 10 ^ (places + 1) = digits * 10 ^ places
      rw [Nat.pow_succ, Nat.mul_comm (10 ^ places), ← Nat.mul_assoc,
        Nat.div_mul_cancel (Nat.dvd_of_mod_eq_zero hzero)]
    · rfl

theorem places_withDropped_le (d : Decimal) (dropped head : Nat) :
    (d.withDropped dropped head).places ≤ d.places := by
  unfold withDropped
  split
  · exact Nat.sub_le ..
  · exact Nat.zero_le _

theorem places_neighbours_le {c d : Decimal} {dropped : Nat} (h : c ∈ d.neighbours dropped) :
    c.places ≤ d.places := by
  unfold neighbours at h
  dsimp only at h
  split at h <;>
  · simp only [List.mem_cons, List.not_mem_nil, or_false] at h
    rcases h with rfl | rfl <;> exact places_withDropped_le ..

/-- A double is told by its bits. -/
theorem eq_of_toBits_eq {x y : Float} (h : x.toBits = y.toBits) : x = y := by
  obtain ⟨⟨bits, hvalid⟩⟩ := x
  obtain ⟨⟨bits', hvalid'⟩⟩ := y
  obtain rfl : bits = bits' := h
  rfl

/-- The numeral that is kept is read as the same double. -/
theorem toFloat_fewestDigits {d : Decimal} (hplaces : d.places ≤ 2048) :
    d.fewestDigits.toFloat = d.toFloat := by
  have hbest : ∀ best : Option Decimal, (∀ c, best = some c → c.places ≤ d.places ∧
      c.toFloat = d.toFloat) → (trim (best.getD d).digits (best.getD d).places).toFloat =
        d.toFloat := by
    intro best h
    cases best with
    | none => exact toFloat_trim d.digits hplaces
    | some c =>
      obtain ⟨hle, hsame⟩ := h c rfl
      exact (toFloat_trim c.digits (hle.trans hplaces)).trans hsame
  unfold fewestDigits
  dsimp only
  refine hbest _ fun c hc => ?_
  obtain ⟨kept, -, hfound⟩ := List.exists_of_findSome?_eq_some hc
  have hbits := List.find?_some hfound
  exact ⟨places_neighbours_le (List.mem_of_find?_eq_some hfound),
    eq_of_toBits_eq (beq_iff_eq.mp hbits)⟩

/-- The exact numeral has no more decimals than the smallest double. -/
theorem places_exact_le {m : Nat} {e : Int} (he : -1074 ≤ e) : (exact m e).places ≤ 1074 := by
  unfold exact
  split
  · exact Nat.zero_le _
  · next k =>
    show k + 1 ≤ 1074
    omega

/-- The exact numeral is the number of units that the double has. -/
theorem toFloat_exact {m : Nat} {e : Int} (he : -1074 ≤ e) :
    (exact m e).toFloat = .ofModel (.pack (nearest (m * 2 ^ (e + 1074).toNat) 1)) := by
  rw [toFloat_eq _ ((places_exact_le he).trans (by decide))]
  refine congrArg (fun u => Float.ofModel (.pack u)) (nearest_congr (Nat.pow_pos (by decide))
    Nat.one_pos ?_)
  unfold exact
  split
  · next k =>
    have hsum : (Int.ofNat k + 1074).toNat = k + 1074 := by
      show ((k : Int) + 1074).toNat = _
      omega
    show m * 2 ^ k * units * 1 = m * 2 ^ (Int.ofNat k + 1074).toNat * 10 ^ 0
    rw [hsum, two_pow_units]
    ring
  · next k =>
    obtain ⟨i, hi⟩ : ∃ i, i + (k + 1) = 1074 := ⟨1074 - (k + 1), by omega⟩
    have hsum : (Int.negSucc k + 1074).toNat = i := by omega
    show m * 5 ^ (k + 1) * units * 1 = m * 2 ^ (Int.negSucc k + 1074).toNat * 10 ^ (k + 1)
    rw [hsum, ← units_eq hi, show 10 = 5 * 2 from rfl, Nat.mul_pow]
    ring

end Decimal

namespace Number

open Double

variable {x : Float} {s : Sign} {E : BitVec 11} {M : BitVec 52}

theorem toNat_toBits (hx : x.toModel.toBits.toBitVec = packComponents .binary64 s E M) :
    x.toBits.toNat = s.toBitVec.toNat * 2 ^ 63 + E.toNat * 2 ^ 52 + M.toNat := by
  rw [← toNat_packComponents, ← hx]
  rfl

/-- The significand and the exponent are those of the magnitude. -/
theorem nearest_parts (hx : x.toModel.toBits.toBitVec = packComponents .binary64 s E M) :
    -1074 ≤ (parts x).2 ∧
      nearest ((parts x).1 * 2 ^ ((parts x).2 + 1074).toNat) 1 = ofFields .positive E M := by
  have hE := E.isLt
  have hM := M.isLt
  have hbits := toNat_toBits hx
  have hfraction : x.toBits.toNat % Nat.pow 2 52 = M.toNat := by
    show x.toBits.toNat % 2 ^ 52 = _
    omega
  have hexponent : x.toBits.toNat / Nat.pow 2 52 % Nat.pow 2 11 = E.toNat := by
    show x.toBits.toNat / 2 ^ 52 % 2 ^ 11 = _
    omega
  unfold parts ofFields
  dsimp only
  rw [hfraction, hexponent]
  split
  · next hzero =>
    obtain rfl : E = 0#11 := BitVec.eq_of_toNat_eq hzero
    refine ⟨Int.le_refl _, ?_⟩
    rw [if_pos rfl]
    split
    · next hpos => exact nearest_canonical hpos ⟨by omega, Int.le_refl _, .inr rfl⟩
    · next hpos =>
      obtain hnone : M.toNat = 0 := by omega
      rw [hnone, Nat.zero_mul]
      exact nearest_zero Nat.one_pos
  · next e he =>
    have hne : E ≠ 0#11 := by
      rintro rfl
      cases he
    refine ⟨by omega, ?_⟩
    have hpow : Nat.pow 2 52 = 2 ^ 52 := rfl
    rw [if_neg hne, hpow,
      nearest_canonical (by omega) ⟨by omega, by omega, .inl (Nat.le_add_right ..)⟩]
    congr 1
    omega

/-- The numeral of a double is read as the double's magnitude. -/
theorem toFloat_shortest (hx : x.toModel.toBits.toBitVec = packComponents .binary64 s E M) :
    (shortest x).toFloat = .ofModel (.pack (ofFields .positive E M)) := by
  obtain ⟨hle, hnearest⟩ := nearest_parts hx
  have hplaces : (Decimal.exact (parts x).1 (parts x).2).places ≤ 2048 :=
    (Decimal.places_exact_le hle).trans (by decide)
  rw [← hnearest, ← Decimal.toFloat_exact hle, ← Decimal.toFloat_fewestDigits hplaces]
  rfl

theorem isNegative_iff (hx : x.toModel.toBits.toBitVec = packComponents .binary64 s E M) :
    isNegative x = true ↔ s = .negative := by
  have hE := E.isLt
  have hM := M.isLt
  have hbits := toNat_toBits hx
  have hshift : (x.toBits >>> 63).toNat = s.toBitVec.toNat := by
    show x.toBits.toNat >>> 63 = _
    rw [Nat.shiftRight_eq_div_pow]
    omega
  unfold isNegative
  rw [beq_iff_eq, ← UInt64.toNat_inj, hshift]
  cases s with
  | negative => simp [Sign.toBitVec]
  | positive => simp [Sign.toBitVec]

/-- With its sign in front, the numeral of a finite double is read as the double itself. -/
theorem signed_shortest (hfinite : x.isFinite = true) :
    (if isNegative x then -(shortest x).toFloat else (shortest x).toFloat) = x := by
  obtain ⟨s, E, M, hE, hx⟩ := exists_fields hfinite
  have hbits : ∀ t,
      (Float.Model.pack (ofFields t E M)).toBits.toBitVec = packComponents .binary64 t E M :=
    fun t => pack_ofFields t hE
  have hself : Float.ofModel (.pack (ofFields s E M)) = x := by
    refine Decimal.eq_of_toBits_eq (UInt64.toBitVec_inj.mp ?_)
    exact (hbits s).trans hx.symm
  have hunpack : (Float.Model.pack (ofFields .positive E M)).unpack = ofFields .positive E M := by
    show UnpackedFloat.unpack .binary64
      (Float.Model.pack (ofFields .positive E M)).toBits.toBitVec = _
    rw [hbits, unpack_packComponents _ hE]
  cases s with
  | negative =>
    rw [if_pos ((isNegative_iff hx).mpr rfl), toFloat_shortest hx]
    show Float.ofModel (.pack (Float.Model.pack (ofFields .positive E M)).unpack.neg) = x
    rw [hunpack, neg_ofFields]
    exact hself
  | positive =>
    rw [if_neg, toFloat_shortest hx, hself]
    rw [isNegative_iff hx]
    exact nofun

end Number

end ScriptEngine
