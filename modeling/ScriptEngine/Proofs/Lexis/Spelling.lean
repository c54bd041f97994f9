import Mathlib
import ScriptEngine.Proofs.Scan
set_option autoImplicit false

/-!
# Tokens: lexical forms

Each kind of token has its forms (`TokenKind.Spells`): a keyword, an operator or a mark of
punctuation has one, and names, numbers and strings have as many as there are texts of their
shape.  A text in one of the forms is the longest one where it stands if nothing that follows
makes it another such text (`IsLongest`).

The four classes of forms are told apart by their first character (`TokenKind.Spells.shape`),
and what a longer text would have to go on with follows from the class.
-/

namespace ScriptEngine

open Scanner (startsWord continuesWord)

/-! ## Forms -/

/-- One digit or more. -/
def IsDigits (cs : List Char) : Prop := cs ≠ [] ∧ ∀ c ∈ cs, c.isDigit = true

/-- A letter or an underscore, and then letters, digits and underscores. -/
def IsWord : List Char → Prop
  | [] => False
  | c :: later => startsWord c = true ∧ ∀ d ∈ later, continuesWord d = true

/-- The texts that a kind of token can have. -/
inductive TokenKind.Spells : TokenKind → List Char → Prop where
  | fixed {k : TokenKind} {spelling : String} (h : k.spelling? = some spelling) :
      k.Spells spelling.toList
  /-- A name is a word that is no keyword. -/
  | identifier {text : List Char} (word : IsWord text)
      (free : ∀ k ∈ keywords, k.spelling? ≠ some (String.ofList text)) : Spells .identifier text
  | integer {ds : List Char} (digits : IsDigits ds) : Spells .number ds
  | decimal {ds fs : List Char} (whole : IsDigits ds) (fraction : IsDigits fs) :
      Spells .number (ds ++ '.' :: fs)
  | string {body : List Char} (closed : '"' ∉ body) : Spells .string ('"' :: body ++ ['"'])

/-- Nothing more of what follows belongs to the text: no longer one has a form. -/
def IsLongest (text after : List Char) : Prop :=
  ∀ (k : TokenKind) (more : List Char), more <+: after → k.Spells (text ++ more) → more = []

/-! ## Shapes -/

/-- The spellings of punctuation and operators. -/
def symbols : List (List Char) :=
  [['('], [')'], ['\x7b'], ['\x7d'], [','], ['.'], ['-'], ['+'], ['/'], ['*'], [':'], [':', ':'],
    ['!'], ['!', '='], ['='], ['=', '='], ['>'], ['>', '='], ['<'], ['<', '=']]

theorem spelling_cases {k : TokenKind} {spelling : String} (h : k.spelling? = some spelling) :
    k ∈ TokenKind.keywords ∧ IsWord spelling.toList ∨ spelling.toList ∈ symbols := by
  cases k <;> cases h <;>
    first
      | exact .inr (by decide)
      | exact .inl ⟨by decide, rfl, List.all_eq_true.mp rfl⟩

/-- The kinds of punctuation and operators. -/
def TokenKind.marks : List TokenKind :=
  [leftParen, rightParen, leftBrace, rightBrace, comma, dot, minus, plus, slash, star, colon,
    doubleColon, bang, bangEqual, equal, equalEqual, greater, greaterEqual, less, lessEqual]

/-- Every symbol is spelled by a kind of its own. -/
theorem exists_spells_of_mem_symbols {text : List Char} (h : text ∈ symbols) :
    ∃ k : TokenKind, k.Spells text := by
  have hall : ∀ s ∈ symbols, ∃ k ∈ TokenKind.marks, k.spelling? = some (String.ofList s) := by
    decide
  obtain ⟨k, -, hk⟩ := hall text h
  exact ⟨k, String.toList_ofList (l := text) ▸ .fixed hk⟩

/-- Digits, and perhaps a point and digits behind it. -/
def IsNumber (text : List Char) : Prop :=
  IsDigits text ∨ ∃ ds fs, text = ds ++ '.' :: fs ∧ IsDigits ds ∧ IsDigits fs

/-- A text between quotes. -/
def IsQuoted (text : List Char) : Prop := ∃ body, text = '"' :: body ++ ['"'] ∧ '"' ∉ body

theorem TokenKind.Spells.shape {k : TokenKind} {text : List Char} (h : k.Spells text) :
    IsWord text ∨ IsNumber text ∨ IsQuoted text ∨ text ∈ symbols := by
  cases h with
  | fixed h =>
    rcases spelling_cases h with ⟨-, hword⟩ | hsymbol
    · exact .inl hword
    · exact .inr (.inr (.inr hsymbol))
  | identifier word => exact .inl word
  | integer digits => exact .inr (.inl (.inl digits))
  | decimal whole fraction => exact .inr (.inl (.inr ⟨_, _, rfl, whole, fraction⟩))
  | string closed => exact .inr (.inr (.inl ⟨_, rfl, closed⟩))

theorem TokenKind.Spells.ne_nil {k : TokenKind} {text : List Char} (h : k.Spells text) :
    text ≠ [] := by
  rintro rfl
  rcases h.shape with hword | (hdigits | ⟨ds, fs, heq, -⟩) | ⟨body, heq, -⟩ | hsymbol
  · exact hword
  · exact hdigits.1 rfl
  · simp at heq
  · simp at heq
  · exact absurd hsymbol (by decide)

/-- Neither an invalid token nor the end of the source has a form. -/
theorem TokenKind.Spells.kind_ne {k : TokenKind} {text : List Char} (h : k.Spells text) :
    k ≠ .invalid ∧ k ≠ .endOfSource := by
  constructor
  · rintro rfl
    cases h with
    | fixed hk => cases hk
  · rintro rfl
    cases h with
    | fixed hk => cases hk

/-- Every word is spelled by a keyword or is a name. -/
theorem IsWord.exists_spells {text : List Char} (h : IsWord text) :
    ∃ k : TokenKind, k.Spells text := by
  by_cases hkeyword : ∃ k ∈ TokenKind.keywords, k.spelling? = some (String.ofList text)
  · obtain ⟨k, -, hk⟩ := hkeyword
    exact ⟨k, String.toList_ofList (l := text) ▸ .fixed hk⟩
  · exact ⟨.identifier, .identifier h fun k hk hspelling => hkeyword ⟨k, hk, hspelling⟩⟩

theorem IsNumber.head {c : Char} {cs : List Char} (h : IsNumber (c :: cs)) :
    c.isDigit = true := by
  rcases h with h | ⟨ds, fs, heq, h, -⟩
  · exact h.2 c List.mem_cons_self
  · cases ds with
    | nil => exact absurd rfl h.1
    | cons d ds =>
      obtain ⟨rfl, -⟩ := List.cons.inj heq
      exact h.2 c List.mem_cons_self

theorem IsQuoted.head {c : Char} {cs : List Char} (h : IsQuoted (c :: cs)) : c = '"' := by
  obtain ⟨body, heq, -⟩ := h
  exact (List.cons.inj heq).1

/-- What the first character of a symbol is not. -/
theorem head_of_mem_symbols {c : Char} {cs : List Char} (h : c :: cs ∈ symbols) :
    startsWord c = false ∧ c.isDigit = false ∧ c ≠ '"' := by
  have hall : ∀ s ∈ symbols, s.head?.all (fun c => !startsWord c && !c.isDigit && c != '"') := by
    decide
  simpa [and_assoc] using hall _ h

/-- A digit starts no word. -/
theorem startsWord_of_isDigit {c : Char} (h : c.isDigit = true) : startsWord c = false := by
  have hne : c ≠ '_' := by
    rintro rfl
    cases h
  have hle : c.val.toNat ≤ 57 := by
    simp only [Char.isDigit, Bool.and_eq_true, decide_eq_true_eq] at h
    exact h.2
  rw [Bool.eq_false_iff]
  intro hword
  simp only [startsWord, Char.isAlpha, Char.isUpper, Char.isLower, Bool.or_eq_true,
    Bool.and_eq_true, decide_eq_true_eq, beq_iff_eq] at hword
  rcases hword with (hupper | hlower) | hunderscore
  · have : 65 ≤ c.val.toNat := hupper.1
    omega
  · have : 97 ≤ c.val.toNat := hlower.1
    omega
  · exact hne hunderscore

namespace TokenKind.Spells

variable {k : TokenKind} {c : Char} {cs : List Char}

/-- What starts like a word is one. -/
theorem word (h : k.Spells (c :: cs)) (hc : startsWord c = true) : IsWord (c :: cs) := by
  rcases h.shape with h | h | h | h
  · exact h
  · rw [startsWord_of_isDigit h.head] at hc
    cases hc
  · rw [h.head] at hc
    cases hc
  · rw [(head_of_mem_symbols h).1] at hc
    cases hc

/-- What starts with a digit is a number. -/
theorem number (h : k.Spells (c :: cs)) (hc : c.isDigit = true) : IsNumber (c :: cs) := by
  rcases h.shape with h | h | h | h
  · have hword := h.1
    rw [startsWord_of_isDigit hc] at hword
    cases hword
  · exact h
  · rw [h.head] at hc
    cases hc
  · rw [(head_of_mem_symbols h).2.1] at hc
    cases hc

/-- What starts with a quote is a string. -/
theorem quoted (h : k.Spells ('"' :: cs)) : IsQuoted ('"' :: cs) := by
  rcases h.shape with h | h | h | h
  · cases h.1
  · cases h.head
  · exact h
  · exact absurd rfl (head_of_mem_symbols h).2.2

/-- What starts in none of these ways is a symbol. -/
theorem symbol (h : k.Spells (c :: cs)) (hword : startsWord c = false)
    (hdigit : c.isDigit = false) (hquote : c ≠ '"') : c :: cs ∈ symbols := by
  rcases h.shape with h | h | h | h
  · rw [h.1] at hword
    cases hword
  · rw [h.head] at hdigit
    cases hdigit
  · exact absurd h.head hquote
  · exact h

end TokenKind.Spells

/-! ## Longest texts -/

section Longest

variable {text after : List Char}

theorem IsDigits.append {ds es : List Char} (h : IsDigits ds) (he : ∀ e ∈ es, e.isDigit = true) :
    IsDigits (ds ++ es) := by
  refine ⟨by simp [h.1], fun c hc => ?_⟩
  rcases List.mem_append.mp hc with hc | hc
  · exact h.2 c hc
  · exact he c hc

/-- The characters of a class that a text starts with end where none of them follows. -/
theorem span_of_head {p : Char → Bool} {cs : List Char} (hcs : ∀ c ∈ cs, p c = true)
    (hafter : ∀ d ∈ after.head?, p d = false) :
    (cs ++ after).takeWhile p = cs ∧ (cs ++ after).dropWhile p = after := by
  rw [List.takeWhile_append_of_pos hcs, List.dropWhile_append_of_pos hcs]
  cases after with
  | nil => simp
  | cons d after => simp [hafter d rfl]

/-- Behind the first digits of a number there is nothing, or a point and digits. -/
theorem IsNumber.dropWhile (h : IsNumber text) :
    text.dropWhile Char.isDigit = [] ∨
      ∃ fs, text.dropWhile Char.isDigit = '.' :: fs ∧ IsDigits fs := by
  rcases h with hdigits | ⟨ds, fs, rfl, hds, hfs⟩
  · exact .inl (List.dropWhile_eq_nil_iff.mpr hdigits.2)
  · refine .inr ⟨fs, (span_of_head hds.2 ?_).2, hfs⟩
    intro d hd
    cases hd
    rfl

/-- A word ends where no character goes on with one. -/
theorem isLongest_word (hword : IsWord text)
    (hafter : ∀ d ∈ after.head?, continuesWord d = false) : IsLongest text after := by
  intro k more hmore h
  obtain ⟨c, cs, rfl⟩ := List.exists_cons_of_ne_nil (show text ≠ [] by rintro rfl; exact hword)
  cases more with
  | nil => rfl
  | cons d more =>
    obtain ⟨rest, rfl⟩ := hmore
    have hlonger : IsWord (c :: (cs ++ d :: more)) := h.word hword.1
    have hd := hlonger.2 d (by simp)
    rw [hafter d rfl] at hd
    cases hd

/-- Digits end where no digit follows, and no point with a digit behind it. -/
theorem isLongest_integer (hdigits : IsDigits text)
    (hafter : ∀ d ∈ after.head?, d.isDigit = false)
    (hpoint : ∀ d rest, after = '.' :: d :: rest → d.isDigit = false) : IsLongest text after := by
  intro k more hmore h
  cases more with
  | nil => rfl
  | cons d more =>
    obtain ⟨rest, rfl⟩ := hmore
    have hstop : ∀ e ∈ (d :: more).head?, e.isDigit = false := fun e he => hafter e he
    have hdrop := (span_of_head hdigits.2 hstop).2
    have hnumber : IsNumber (text ++ d :: more) := by
      obtain ⟨c, cs, rfl⟩ := List.exists_cons_of_ne_nil hdigits.1
      exact TokenKind.Spells.number h (hdigits.2 c List.mem_cons_self)
    rcases hnumber.dropWhile with hnil | ⟨fs, hfs, hdigits'⟩
    · rw [hdrop] at hnil
      cases hnil
    · rw [hdrop] at hfs
      obtain ⟨rfl, rfl⟩ := List.cons.inj hfs
      obtain ⟨e, es, rfl⟩ := List.exists_cons_of_ne_nil hdigits'.1
      have he := hdigits'.2 e List.mem_cons_self
      rw [hpoint e (es ++ rest) rfl] at he
      cases he

/-- A fraction ends where no digit follows. -/
theorem isLongest_decimal {ds fs : List Char} (hds : IsDigits ds)
    (hafter : ∀ d ∈ after.head?, d.isDigit = false) : IsLongest (ds ++ '.' :: fs) after := by
  intro k more hmore h
  cases more with
  | nil => rfl
  | cons d more =>
    obtain ⟨rest, rfl⟩ := hmore
    rw [List.append_assoc, List.cons_append] at h
    have hdrop : (ds ++ '.' :: (fs ++ d :: more)).dropWhile Char.isDigit =
        '.' :: (fs ++ d :: more) := by
      refine (span_of_head hds.2 fun e he => ?_).2
      cases he
      rfl
    have hnumber : IsNumber (ds ++ '.' :: (fs ++ d :: more)) := by
      obtain ⟨c, cs, rfl⟩ := List.exists_cons_of_ne_nil hds.1
      exact TokenKind.Spells.number h (hds.2 c List.mem_cons_self)
    rcases hnumber.dropWhile with hnil | ⟨gs, hgs, hdigits⟩
    · rw [hdrop] at hnil
      cases hnil
    · rw [hdrop] at hgs
      obtain ⟨-, rfl⟩ := List.cons.inj hgs
      have hd := hdigits.2 d (by simp)
      rw [hafter d rfl] at hd
      cases hd

/-- A string ends with its closing quote. -/
theorem isLongest_quoted {body : List Char} (hbody : '"' ∉ body) :
    IsLongest ('"' :: body ++ ['"']) after := by
  intro k more _ h
  obtain ⟨longer, heq, hlonger⟩ := TokenKind.Spells.quoted h
  have hsame : body ++ '"' :: more = longer ++ ['"'] := by simpa using heq
  rcases List.append_eq_append_iff.mp hsame with ⟨between, rfl, hbetween⟩ | ⟨between, rfl, hbetween⟩
  · cases between with
    | nil => simpa using hbetween
    | cons q between =>
      obtain ⟨rfl, -⟩ := List.cons.inj hbetween
      exact absurd (by simp) hlonger
  · cases between with
    | nil => simpa using hbetween.symm
    | cons q between =>
      obtain ⟨rfl, -⟩ := List.cons.inj hbetween
      exact absurd (by simp) hbody

/-- A symbol ends where the character that follows makes no longer one. -/
theorem isLongest_symbol (hsymbol : text ∈ symbols)
    (hafter : ∀ d ∈ after.head?, text ++ [d] ∉ symbols) : IsLongest text after := by
  intro k more hmore h
  have hlength : ∀ s ∈ symbols, 1 ≤ s.length ∧ s.length ≤ 2 := by decide
  have hshort := hlength text hsymbol
  have hlonger : text ++ more ∈ symbols := by
    obtain ⟨c, cs, rfl⟩ := List.exists_cons_of_length_pos hshort.1
    obtain ⟨hword, hdigit, hquote⟩ := head_of_mem_symbols hsymbol
    exact TokenKind.Spells.symbol h hword hdigit hquote
  have htotal := (hlength _ hlonger).2
  rw [List.length_append] at htotal
  match more, hmore with
  | [], _ => rfl
  | [d], ⟨rest, hrest⟩ => exact absurd hlonger (hafter d (by simp [← hrest]))
  | _ :: _ :: _, _ =>
    simp only [List.length_cons] at htotal
    omega

end Longest

end ScriptEngine
