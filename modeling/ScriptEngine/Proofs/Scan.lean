import Mathlib.Data.List.TakeWhile
import ScriptEngine.Number.Decimal
import ScriptEngine.Token.Scan
set_option autoImplicit false

/-!
# Scanning: tokens of a source

A name that the scanner finds is never empty, a number is a numeral, and the end of the
source comes last and only there.  No token is on a line that the source does not have.
-/

namespace ScriptEngine

/-! ## Kinds up to the end -/

/-- The end comes last, and only there. -/
def Ended (ks : List TokenKind) : Prop :=
  ∃ before, ks = before ++ [.endOfSource] ∧ .endOfSource ∉ before

theorem Ended.tail {k : TokenKind} {ks : List TokenKind} (h : Ended (k :: ks))
    (hk : k ≠ .endOfSource) : Ended ks := by
  obtain ⟨before, hks, hnot⟩ := h
  cases before with
  | nil => exact absurd (List.cons.inj hks).1 hk
  | cons k' before =>
    exact ⟨before, (List.cons.inj hks).2, fun hmem => hnot (List.mem_cons_of_mem _ hmem)⟩

theorem Ended.eq_nil {ks : List TokenKind} (h : Ended (.endOfSource :: ks)) : ks = [] := by
  obtain ⟨before, hks, hnot⟩ := h
  cases before with
  | nil => exact (List.cons.inj hks).2
  | cons k' before =>
    rw [← (List.cons.inj hks).1] at hnot
    exact absurd List.mem_cons_self hnot

theorem Ended.ne_nil {ks : List TokenKind} (h : Ended ks) : ks ≠ [] := by
  obtain ⟨before, rfl, -⟩ := h
  simp

theorem Ended.cons {k : TokenKind} {ks : List TokenKind} (h : Ended ks)
    (hk : k ≠ .endOfSource) : Ended (k :: ks) := by
  obtain ⟨before, rfl, hnot⟩ := h
  refine ⟨k :: before, rfl, fun hmem => ?_⟩
  rcases List.mem_cons.mp hmem with heq | hmem
  · exact hk heq.symm
  · exact hnot hmem

theorem ended_end : Ended [.endOfSource] := ⟨[], rfl, List.not_mem_nil⟩

/-! ## Kinds of tokens -/

/-- The token is neither a name nor a number. -/
def Token.IsPlain (t : Token) : Prop := t.kind ≠ .identifier ∧ t.kind ≠ .number

namespace Scanner

theorem plain_longest (c second : Char) {long short : TokenKind}
    (hlong : long ≠ .identifier ∧ long ≠ .number) (hshort : short ≠ .identifier ∧ short ≠ .number)
    (cs : List Char) (line : Nat) : (longest c second long short cs line).1.IsPlain := by
  unfold longest
  split
  · split
    · exact hlong
    · exact hshort
  · exact hshort

theorem plain_string (cs : List Char) (line : Nat) : (string cs line).1.IsPlain := by
  unfold string
  dsimp only
  split <;> exact ⟨nofun, nofun⟩

/-- Names are words, and numbers start with a digit. -/
theorem tokenAt_cases (cs : List Char) (line : Nat) :
    (tokenAt cs line).1.IsPlain ∨ (∃ c cs', tokenAt cs line = word c cs' line) ∨
      ∃ c cs', c.isDigit = true ∧ tokenAt cs line = number c cs' line := by
  unfold tokenAt
  split
  case h_12 | h_13 | h_14 | h_15 | h_16 =>
    exact .inl (plain_longest _ _ (by decide) (by decide) _ _)
  case h_17 => exact .inl (plain_string _ _)
  case h_18 =>
    split
    · next hdigit => exact .inr (.inr ⟨_, _, hdigit, rfl⟩)
    · split
      · exact .inr (.inl ⟨_, _, rfl⟩)
      · exact .inl ⟨nofun, nofun⟩
  all_goals exact .inl ⟨nofun, nofun⟩

end Scanner

/-! ## Names -/

/-- The token is no name, or it is one that is not empty. -/
def Token.IsNamed (t : Token) : Prop := t.kind = .identifier → t.lexeme ≠ ""

namespace Scanner

theorem named_word (c : Char) (cs : List Char) (line : Nat) : (word c cs line).1.IsNamed := by
  intro _ hempty
  have hlist := congrArg String.toList hempty
  simp [word, token] at hlist

theorem named_tokenAt (cs : List Char) (line : Nat) : (tokenAt cs line).1.IsNamed := by
  rcases tokenAt_cases cs line with hplain | ⟨c, cs', h⟩ | ⟨c, cs', -, h⟩
  · exact fun hname => absurd hname hplain.1
  · exact h ▸ named_word c cs' line
  · exact fun hname => nomatch h ▸ hname

end Scanner

/-! ## Numbers -/

/-- The token is no number, or it can be read as one. -/
def Token.IsNumeral (t : Token) : Prop :=
  t.kind = .number → (Decimal.ofText? t.lexeme).isSome

namespace Scanner

/-- A fraction is nothing, or a point and at least one digit. -/
theorem fraction_cases (cs : List Char) :
    (fraction cs).1 = [] ∨
      ∃ d ds, (fraction cs).1 = '.' :: d :: ds ∧ ∀ c ∈ d :: ds, c.isDigit = true := by
  unfold fraction
  split
  · next d ds =>
    split
    · next hd =>
      refine .inr ⟨d, ds.takeWhile Char.isDigit, rfl, fun c hc => ?_⟩
      rcases List.mem_cons.mp hc with rfl | hc
      · exact hd
      · exact List.mem_takeWhile_imp hc
    · exact .inl rfl
  · exact .inl rfl

/-- Digits and a fraction behind them are a numeral. -/
theorem isSome_ofText {c : Char} {ds after : List Char} (hc : c.isDigit = true)
    (hds : ∀ d ∈ ds, d.isDigit = true)
    (hafter : after = [] ∨ ∃ d fs, after = '.' :: d :: fs ∧ ∀ f ∈ d :: fs, f.isDigit = true) :
    (Decimal.ofText? (String.ofList (c :: ds ++ after))).isSome := by
  have hdigits : ∀ d ∈ c :: ds, d.isDigit = true := List.forall_mem_cons.mpr ⟨hc, hds⟩
  have hstop : after.takeWhile Char.isDigit = [] ∧ after.dropWhile Char.isDigit = after := by
    rcases hafter with rfl | ⟨d, fs, rfl, -⟩ <;> exact ⟨rfl, rfl⟩
  have hwhole : (c :: ds ++ after).takeWhile Char.isDigit = c :: ds := by
    rw [List.takeWhile_append_of_pos hdigits, hstop.1, List.append_nil]
  have hrest : (c :: ds ++ after).dropWhile Char.isDigit = after := by
    rw [List.dropWhile_append_of_pos hdigits, hstop.2]
  unfold Decimal.ofText?
  rw [String.toList_ofList, hwhole, hrest]
  rcases hafter with rfl | ⟨d, fs, rfl, hfs⟩
  · rfl
  · have hnone : ((d :: fs).any fun f => !f.isDigit) = false := by
      rw [List.any_eq_false]
      intro f hf
      rw [hfs f hf]
      decide
    show (if (false || (d :: fs).any fun f => !f.isDigit) = true then none
      else some (Decimal.ofParts (c :: ds) (d :: fs))).isSome = true
    rw [hnone]
    rfl

theorem keyword_ne_number {word : String} : TokenKind.keyword? word ≠ some .number := by
  intro h
  exact absurd (List.mem_of_find?_eq_some h) (by decide)

theorem numeral_tokenAt (cs : List Char) (line : Nat) : (tokenAt cs line).1.IsNumeral := by
  rcases tokenAt_cases cs line with hplain | ⟨c, cs', h⟩ | ⟨c, cs', hdigit, h⟩
  · exact fun hnumber => absurd hnumber hplain.2
  · intro hnumber
    have hkind : (TokenKind.keyword? (String.ofList (c :: cs'.takeWhile continuesWord))).getD
        .identifier = .number := by
      rw [h] at hnumber
      exact hnumber
    cases hkeyword : TokenKind.keyword? (String.ofList (c :: cs'.takeWhile continuesWord)) with
    | none =>
      rw [hkeyword] at hkind
      cases hkind
    | some k =>
      rw [hkeyword] at hkind
      cases hkind
      exact absurd hkeyword keyword_ne_number
  · intro _
    rw [h]
    exact isSome_ofText hdigit (fun d hd => List.mem_takeWhile_imp hd) (fraction_cases _)

end Scanner

/-! ## Sources -/

namespace Scanner

/-- What holds of every token that can be found holds of all that are. -/
theorem forall_tokens {P : Token → Prop} (h : ∀ cs line, P (tokenAt cs line).1) (s : Scanner) :
    ∀ t ∈ s.tokens.1, P t := by
  fun_induction tokens s with
  | case1 s _ =>
    intro t ht
    rw [List.mem_singleton.mp ht]
    exact h _ _
  | case2 s _ _ ih =>
    intro t ht
    rcases List.mem_cons.mp ht with rfl | ht
    · exact h _ _
    · exact ih t ht

theorem ended_tokens (s : Scanner) : Ended (s.tokens.1.map Token.kind) := by
  fun_induction tokens s with
  | case1 s h =>
    rw [List.map_singleton, h]
    exact ended_end
  | case2 s h _ ih => exact ih.cons h

end Scanner

/-! ## Tokens of a source -/

/-- No name in a source is empty. -/
theorem named_scan (source : String) : ∀ t ∈ scan source, t.IsNamed :=
  Scanner.forall_tokens Scanner.named_tokenAt _

/-- Each number in a source can be read. -/
theorem numeral_scan (source : String) : ∀ t ∈ scan source, t.IsNumeral :=
  Scanner.forall_tokens Scanner.numeral_tokenAt _

/-- A source ends with its end. -/
theorem ended_scan (source : String) : Ended ((scan source).map Token.kind) :=
  Scanner.ended_tokens _

end ScriptEngine
