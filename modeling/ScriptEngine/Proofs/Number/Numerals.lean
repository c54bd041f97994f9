import Mathlib
import ScriptEngine.Number.Decimal
import ScriptEngine.Proofs.Lexis.Spelling
set_option autoImplicit false

/-!
# Numerals: their text

The text of a numeral has the form of a number token (`spells_toText`), and reading it gives the
numeral back, leading zeros of the fraction included (`ofText_toText`).
-/

namespace ScriptEngine

/-! ## Digits -/

theorem toList_decimal (n : Nat) : (Text.decimal n).toList = Nat.toDigits 10 n :=
  String.toList_ofList

theorem isDigits_toDigits (n : Nat) : IsDigits (Nat.toDigits 10 n) :=
  ⟨Nat.toDigits_ne_nil, fun _ hc => Nat.isDigit_of_mem_toDigits (by decide) (by decide) hc⟩

/-- The digits of a number with zeros in front, as many in all as are wanted. -/
theorem decimalZeros_eq {width n : Nat} (hpos : 0 < width) (hlt : n < 10 ^ width) :
    ∃ zeros, (Text.decimalZeros width n).toList =
        List.replicate zeros '0' ++ Nat.toDigits 10 n ∧
      zeros + (Nat.toDigits 10 n).length = width := by
  have hle : (Nat.toDigits 10 n).length ≤ width :=
    (Nat.length_toDigits_le_iff (by decide) hpos).mpr hlt
  refine ⟨width - (Nat.toDigits 10 n).length, ?_, Nat.sub_add_cancel hle⟩
  simp [Text.decimalZeros, Text.padLeft, Text.filling, Text.decimal]

theorem isDigits_decimalZeros {width n : Nat} (hpos : 0 < width) (hlt : n < 10 ^ width) :
    IsDigits (Text.decimalZeros width n).toList := by
  obtain ⟨zeros, heq, -⟩ := decimalZeros_eq hpos hlt
  obtain ⟨hne, hdigits⟩ := isDigits_toDigits n
  rw [heq]
  refine ⟨by simp [hne], fun c hc => ?_⟩
  rcases List.mem_append.mp hc with hzero | hc
  · rw [List.eq_of_mem_replicate hzero]
    rfl
  · exact hdigits c hc

namespace Decimal

theorem ofDigits_eq (cs : List Char) : ofDigits cs = Nat.ofDigitChars 10 cs 0 := rfl

theorem ofDigits_toDigits (n : Nat) : ofDigits (Nat.toDigits 10 n) = n :=
  Nat.ofDigitChars_ten_toDigits

theorem ofDigits_append (ds es : List Char) :
    ofDigits (ds ++ es) = 10 ^ es.length * ofDigits ds + ofDigits es := by
  rw [ofDigits_eq, Nat.ofDigitChars_append, Nat.ofDigitChars_eq_ofDigitChars_zero]
  rfl

theorem ofDigits_zeros (n : Nat) : ofDigits (List.replicate n '0') = 0 := by
  rw [ofDigits_eq, Nat.ofDigitChars_replicate_zero, Nat.mul_zero]

/-! ## The text of a numeral -/

/-- Digits and no point. -/
theorem ofText_digits {ds : List Char} (hds : IsDigits ds) :
    ofText? (String.ofList ds) = some (ofParts ds []) := by
  have hwhole : ds.takeWhile Char.isDigit = ds := List.takeWhile_eq_self_iff.mpr hds.2
  have hrest : ds.dropWhile Char.isDigit = [] := List.dropWhile_eq_nil_iff.mpr hds.2
  unfold ofText?
  rw [String.toList_ofList, hwhole, hrest]
  obtain ⟨d, ds, rfl⟩ := List.exists_cons_of_ne_nil hds.1
  rfl

/-- Digits on both sides of a point. -/
theorem ofText_point {ds fs : List Char} (hds : IsDigits ds) (hfs : IsDigits fs) :
    ofText? (String.ofList (ds ++ '.' :: fs)) = some (ofParts ds fs) := by
  have hpoint : ∀ c ∈ ('.' :: fs).head?, c.isDigit = false := by simp
  obtain ⟨hwhole, hrest⟩ := span_of_head hds.2 hpoint
  have hall : fs.any (fun c => !c.isDigit) = false := by
    simpa using hfs.2
  unfold ofText?
  rw [String.toList_ofList, hwhole, hrest]
  obtain ⟨d, ds, rfl⟩ := List.exists_cons_of_ne_nil hds.1
  simp [hfs.1, hall]

/-- The text of a numeral is digits, or digits on both sides of a point, and the numeral is made
of them. -/
theorem toText_cases (d : Decimal) :
    (∃ ds, d.toText.toList = ds ∧ IsDigits ds ∧ ofParts ds [] = d) ∨
      ∃ ds fs, d.toText.toList = ds ++ '.' :: fs ∧ IsDigits ds ∧ IsDigits fs ∧
        ofParts ds fs = d := by
  obtain ⟨digits, places⟩ := d
  rcases Nat.eq_zero_or_pos places with rfl | hpos
  · refine .inl ⟨Nat.toDigits 10 digits, ?_, isDigits_toDigits digits, ?_⟩
    · rw [toText, if_pos rfl, toList_decimal]
    · simp [ofParts, ofDigits_toDigits]
  · have hlt : digits % 10 ^ places < 10 ^ places := Nat.mod_lt _ (Nat.pow_pos (by decide))
    obtain ⟨zeros, heq, hlength⟩ := decimalZeros_eq hpos hlt
    refine .inr ⟨Nat.toDigits 10 (digits / 10 ^ places),
      (Text.decimalZeros places (digits % 10 ^ places)).toList, ?_, isDigits_toDigits _,
      isDigits_decimalZeros hpos hlt, ?_⟩
    · rw [toText, if_neg hpos.ne']
      simp [toList_decimal]
    · have hplaces : (Text.decimalZeros places (digits % 10 ^ places)).toList.length = places := by
        simp [heq, hlength]
      have hfraction :
          ofDigits (Text.decimalZeros places (digits % 10 ^ places)).toList =
            digits % 10 ^ places := by
        rw [heq, ofDigits_append, ofDigits_zeros, Nat.mul_zero, Nat.zero_add, ofDigits_toDigits]
      rw [ofParts, ofDigits_append, hplaces, hfraction, ofDigits_toDigits, Nat.div_add_mod]

/-- The text of a numeral is the text of a number token. -/
theorem spells_toText (d : Decimal) : TokenKind.number.Spells d.toText.toList := by
  rcases d.toText_cases with ⟨ds, heq, hds, -⟩ | ⟨ds, fs, heq, hds, hfs, -⟩
  · rw [heq]
    exact .integer hds
  · rw [heq]
    exact .decimal hds hfs

/-- A numeral reads back from its text. -/
theorem ofText_toText (d : Decimal) : ofText? d.toText = some d := by
  rw [← String.ofList_toList (s := d.toText)]
  rcases d.toText_cases with ⟨ds, heq, hds, hparts⟩ | ⟨ds, fs, heq, hds, hfs, hparts⟩
  · rw [heq, ofText_digits hds, hparts]
  · rw [heq, ofText_point hds hfs, hparts]

end Decimal

end ScriptEngine
