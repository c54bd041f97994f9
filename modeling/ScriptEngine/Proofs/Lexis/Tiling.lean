import ScriptEngine.Proofs.Lexis.Spelling
set_option autoImplicit false

/-!
# Tokens: tilings of a source

The tokens of a source tile it: between two of them there are only blanks and comments, each
token is the longest one where it stands, and its line is the one that its text ends on
(`Tiles`), counted with 32 bits (`lineAtEnd`).  A source has just one tiling, and scanning
finds it (`tiles_iff`).

What the scanner does about a token and about a gap is said twice: what it takes is one
(`exists_covers_tokenAt`, `exists_gap_skipBlanks`), and where there is one it takes it
(`tokenAt_of_covers`, `skipBlanks_of_isGap`).
-/

namespace ScriptEngine

open Scanner (startsWord continuesWord)

/-! ## Lines -/

/-- The line that a text ends on, if the source starts with it. -/
def lineAtEnd (text : List Char) : Nat := lineAfter 1 (text.count '\n')

theorem lineAtEnd_append (text more : List Char) :
    lineAtEnd (text ++ more) = lineAfter (lineAtEnd text) (more.count '\n') := by
  unfold lineAtEnd
  rw [List.count_append, lineAfter_add]

theorem lineAtEnd_eq {text : List Char} (h : text.count '\n' < 2 ^ 32 - 1) :
    lineAtEnd text = 1 + text.count '\n' := by
  have hfits : 1 + text.count '\n' < 2 ^ 32 := by omega
  exact lineAfter_eq_add hfits

/-- No line number wraps in a source with fewer than 2^32 - 1 line breaks. -/
theorem lineAtEnd_of_prefix {text source : List Char} (htext : text <+: source)
    (hfew : source.count '\n' < 2 ^ 32 - 1) : lineAtEnd text = 1 + text.count '\n' :=
  lineAtEnd_eq (Nat.lt_of_le_of_lt (htext.sublist.count_le '\n') hfew)

/-! ## Gaps -/

/-- The blanks. -/
def separators : List Char := [' ', '\t', '\r', '\n']

theorem mem_separators {c : Char} :
    c ∈ separators ↔ c = ' ' ∨ c = '\t' ∨ c = '\r' ∨ c = '\n' := by
  simp [separators]

/-- A line ends here, or the source does. -/
def AtLineEnd (cs : List Char) : Prop := ∀ c ∈ cs.head?, c = '\n'

/-- Blanks and comments in front of what comes after them.  A comment goes on to the end of
its line. -/
inductive IsGap (after : List Char) : List Char → Prop where
  | nil : IsGap after []
  | blank {c : Char} {gap : List Char} (hc : c ∈ separators) (rest : IsGap after gap) :
      IsGap after (c :: gap)
  | comment {body gap : List Char} (oneLine : '\n' ∉ body) (whole : AtLineEnd (gap ++ after))
      (rest : IsGap after gap) : IsGap after ('/' :: '/' :: body ++ gap)

/-- A blank or a comment starts here. -/
def StartsGap (cs : List Char) : Prop :=
  (∃ c rest, cs = c :: rest ∧ c ∈ separators) ∨ ∃ rest, cs = '/' :: '/' :: rest

theorem not_startsGap_nil : ¬ StartsGap [] := by
  rintro (⟨c, rest, h, -⟩ | ⟨rest, h⟩) <;> cases h

namespace Scanner

/-- A gap, or what is left of one inside a comment. -/
def IsGapIn (comment : Bool) (after gap : List Char) : Prop :=
  if comment then
    ∃ body later, gap = body ++ later ∧ '\n' ∉ body ∧ AtLineEnd (later ++ after) ∧
      IsGap after later
  else IsGap after gap

/-- What is skipped is a gap, and the lines in it are counted. -/
theorem exists_gap_skipBlanks (comment : Bool) (cs : List Char) (line : Nat) :
    ∃ gap, cs = gap ++ (skipBlanks comment cs line).rest ∧
      IsGapIn comment (skipBlanks comment cs line).rest gap ∧
      ¬ StartsGap (skipBlanks comment cs line).rest ∧
      (skipBlanks comment cs line).line = lineAfter line (gap.count '\n') := by
  have hblank : ∀ {c : Char} {gap after : List Char}, c ∈ separators → IsGapIn false after gap →
      IsGapIn false after (c :: gap) := fun hc hgap => .blank hc hgap
  fun_induction skipBlanks comment cs line with
  | case1 comment cs line ih =>
    obtain ⟨gap, hcs, hgap, hstop, hline⟩ := ih
    refine ⟨'\n' :: gap, congrArg _ hcs, ?_, hstop, ?_⟩
    · cases comment with
      | false => exact hblank (by decide) hgap
      | true =>
        refine ⟨[], '\n' :: gap, rfl, List.not_mem_nil, fun c hc => ?_, hblank (by decide) hgap⟩
        cases hc
        rfl
    · rw [hline, List.count_cons_self, lineAfter]
  | case2 c cs line hbreak ih =>
    obtain ⟨gap, hcs, ⟨body, later, rfl, hbody, hend, hlater⟩, hstop, hline⟩ := ih
    have hc : c ≠ '\n' := fun h => hbreak h
    refine ⟨c :: (body ++ later), congrArg _ hcs, ⟨c :: body, later, rfl, ?_, hend, hlater⟩,
      hstop, ?_⟩
    · simpa [hc.symm] using hbody
    · rw [hline, List.count_cons_of_ne hc]
  | case3 cs line ih =>
    obtain ⟨gap, hcs, hgap, hstop, hline⟩ := ih
    exact ⟨' ' :: gap, congrArg _ hcs, hblank (by decide) hgap, hstop, by simpa using hline⟩
  | case4 cs line ih =>
    obtain ⟨gap, hcs, hgap, hstop, hline⟩ := ih
    exact ⟨'\t' :: gap, congrArg _ hcs, hblank (by decide) hgap, hstop, by simpa using hline⟩
  | case5 cs line ih =>
    obtain ⟨gap, hcs, hgap, hstop, hline⟩ := ih
    exact ⟨'\r' :: gap, congrArg _ hcs, hblank (by decide) hgap, hstop, by simpa using hline⟩
  | case6 cs line ih =>
    obtain ⟨gap, hcs, ⟨body, later, rfl, hbody, hend, hlater⟩, hstop, hline⟩ := ih
    exact ⟨'/' :: '/' :: body ++ later, congrArg (fun cs => '/' :: '/' :: cs) hcs,
      .comment hbody hend hlater, hstop, by simpa using hline⟩
  | case7 comment cs line h1 h2 h3 h4 h5 h6 =>
    cases comment with
    | true =>
      cases cs with
      | nil =>
        have hend : AtLineEnd ([] ++ []) := by simp [AtLineEnd]
        exact ⟨[], rfl, ⟨[], [], rfl, List.not_mem_nil, hend, .nil⟩, not_startsGap_nil, rfl⟩
      | cons c cs => exact absurd rfl (h2 c cs rfl)
    | false =>
      refine ⟨[], rfl, IsGap.nil, ?_, rfl⟩
      rintro (⟨c, rest, rfl, hc⟩ | ⟨rest, rfl⟩)
      · rcases mem_separators.mp hc with rfl | rfl | rfl | rfl
        · exact h3 rest rfl rfl
        · exact h4 rest rfl rfl
        · exact h5 rest rfl rfl
        · exact h1 rest rfl
      · exact h6 rest rfl rfl

/-- Where no gap starts, nothing is skipped. -/
theorem skipBlanks_of_not_startsGap {cs : List Char} (h : ¬ StartsGap cs) (line : Nat) :
    skipBlanks false cs line = ⟨cs, line⟩ := by
  have hseparator : ∀ c rest, cs = c :: rest → c ∉ separators := fun c rest heq hc =>
    h (.inl ⟨c, rest, heq, hc⟩)
  unfold skipBlanks
  split
  · exact absurd (by decide) (hseparator _ _ rfl)
  · contradiction
  · exact absurd (by decide) (hseparator _ _ rfl)
  · exact absurd (by decide) (hseparator _ _ rfl)
  · exact absurd (by decide) (hseparator _ _ rfl)
  · exact absurd (.inr ⟨_, rfl⟩) h
  · rfl

/-- A comment is skipped up to the end of its line. -/
theorem skipBlanks_comment {body cs : List Char} (hbody : '\n' ∉ body) (hend : AtLineEnd cs)
    (line : Nat) : skipBlanks true (body ++ cs) line = skipBlanks false cs line := by
  induction body with
  | nil =>
    cases cs with
    | nil => rfl
    | cons c cs =>
      obtain rfl := hend c rfl
      rfl
  | cons c body ih =>
    rw [List.cons_append, skipBlanks]
    · exact ih fun h => hbody (List.mem_cons_of_mem _ h)
    · rintro rfl
      exact hbody List.mem_cons_self

/-- A gap is skipped as a whole. -/
theorem skipBlanks_of_isGap {gap after : List Char} (h : IsGap after gap)
    (hstop : ¬ StartsGap after) (line : Nat) :
    skipBlanks false (gap ++ after) line = ⟨after, lineAfter line (gap.count '\n')⟩ := by
  induction h generalizing line with
  | nil => exact skipBlanks_of_not_startsGap hstop line
  | @blank c gap hc _ ih =>
    rw [List.cons_append]
    rcases mem_separators.mp hc with rfl | rfl | rfl | rfl
    · simp [skipBlanks, ih]
    · simp [skipBlanks, ih]
    · simp [skipBlanks, ih]
    · simp [skipBlanks, ih, lineAfter]
  | @comment body gap hbody hend _ ih =>
    have hopen : skipBlanks false ('/' :: '/' :: body ++ gap ++ after) line =
        skipBlanks true (body ++ (gap ++ after)) line := by
      simp [skipBlanks]
    rw [hopen, skipBlanks_comment hbody hend, ih]
    simp [List.count_eq_zero.mpr hbody]

end Scanner

/-! ## Tokens -/

/-- The token is what stands at the start of a text: in one of its forms, or as a character
that starts no form, or as a quote that is never closed. -/
inductive Token.Covers (t : Token) : List Char → List Char → Prop where
  | proper {text after : List Char} (spells : t.kind.Spells text) (nonempty : text ≠ [])
      (lexeme : t.lexeme = String.ofList text) (longest : IsLongest text after) :
      t.Covers text after
  | unexpected {c : Char} {after : List Char} (kind : t.kind = .invalid)
      (lexeme : t.lexeme = "Unexpected character.")
      (stray : ∀ (k : TokenKind) (more : List Char), ¬ k.Spells (c :: more)) : t.Covers [c] after
  | unclosed {body : List Char} (kind : t.kind = .invalid)
      (lexeme : t.lexeme = "Unterminated string.") (unclosed : '"' ∉ body) :
      t.Covers ('"' :: body) []

namespace Scanner

theorem break_not_mem_word {text : List Char} (h : IsWord text) : '\n' ∉ text := by
  intro hmem
  obtain ⟨c, cs, rfl⟩ := List.exists_cons_of_ne_nil (List.ne_nil_of_mem hmem)
  rcases List.mem_cons.mp hmem with rfl | hmem
  · cases h.1
  · cases h.2 _ hmem

theorem break_not_mem_symbol {text : List Char} (h : text ∈ symbols) : '\n' ∉ text := by
  have hall : ∀ s ∈ symbols, '\n' ∉ s := by decide
  exact hall text h

theorem break_not_mem_digits {ds : List Char} (h : ∀ d ∈ ds, d.isDigit = true) : '\n' ∉ ds := by
  intro hmem
  cases h _ hmem

/-- A word that no keyword is spelled like is none. -/
theorem keyword_of_free {word : String}
    (h : ∀ k ∈ TokenKind.keywords, k.spelling? ≠ some word) : TokenKind.keyword? word = none := by
  refine List.find?_eq_none.mpr fun k hk => ?_
  simpa using h k hk

/-- What was found is a token with its text, on the line that the text ends on. -/
structure Finds (found : Token × Scanner) (text : List Char) (line : Nat) : Prop where
  covers : found.1.Covers text found.2.rest
  line : found.1.line = lineAfter line (text.count '\n')
  scanner : found.2.line = found.1.line

/-- A text in one of its forms that is on one line. -/
theorem finds_token {k : TokenKind} {text after : List Char} (line : Nat) (hspells : k.Spells text)
    (hnonempty : text ≠ []) (hlongest : IsLongest text after) (hline : '\n' ∉ text) :
    Finds (token k text after line) text line where
  covers := .proper hspells hnonempty rfl hlongest
  line := by
    rw [List.count_eq_zero.mpr hline]
    rfl
  scanner := rfl

/-- The token takes the start of a text. -/
def TakesFrom (found : Token × Scanner) (cs : List Char) (line : Nat) : Prop :=
  ∃ text, cs = text ++ found.2.rest ∧ Finds found text line

theorem takesFrom_symbol {k : TokenKind} {text after : List Char} (line : Nat)
    (hk : k.spelling? = some (String.ofList text)) (hsymbol : text ∈ symbols)
    (hafter : ∀ d ∈ after.head?, text ++ [d] ∉ symbols) :
    TakesFrom (token k text after line) (text ++ after) line := by
  have hnonempty : text ≠ [] := by
    rintro rfl
    exact absurd hsymbol (by decide)
  have hspells : k.Spells text := String.toList_ofList (l := text) ▸ .fixed hk
  exact ⟨text, rfl, finds_token line hspells hnonempty (isLongest_symbol hsymbol hafter)
    (break_not_mem_symbol hsymbol)⟩

/-- Of a symbol and a longer one, the longer one is taken where it stands. -/
theorem takesFrom_longest {c second : Char} {long short : TokenKind} (cs : List Char) (line : Nat)
    (hlong : long.spelling? = some (String.ofList [c, second]))
    (hshort : short.spelling? = some (String.ofList [c]))
    (hsymbols : [c] ∈ symbols ∧ [c, second] ∈ symbols)
    (honly : ∀ d, [c, d] ∈ symbols → d = second) (hlast : ∀ d, [c, second, d] ∉ symbols) :
    TakesFrom (longest c second long short cs line) (c :: cs) line := by
  unfold longest
  split
  · next d rest =>
    split
    · next hd =>
      subst hd
      exact takesFrom_symbol line hlong hsymbols.2 fun e _ => hlast e
    · next hd =>
      refine takesFrom_symbol line hshort hsymbols.1 fun e he hmem => ?_
      cases he
      exact hd (honly _ hmem)
  · exact takesFrom_symbol line hshort hsymbols.1 nofun

/-- What is left behind the characters of a class starts with none of them. -/
theorem head_dropWhile {p : Char → Bool} (cs : List Char) :
    ∀ d ∈ (cs.dropWhile p).head?, p d = false := by
  intro d hd
  have hnot := List.head?_dropWhile_not p cs
  rw [Option.mem_def.mp hd] at hnot
  exact hnot

theorem takesFrom_word {c : Char} (hc : startsWord c = true) (cs : List Char) (line : Nat) :
    TakesFrom (word c cs line) (c :: cs) line := by
  have hword : IsWord (c :: cs.takeWhile continuesWord) :=
    ⟨hc, fun d hd => List.mem_takeWhile_imp hd⟩
  refine ⟨c :: cs.takeWhile continuesWord, ?_, finds_token line ?_ (List.cons_ne_nil _ _)
    (isLongest_word hword (head_dropWhile cs)) (break_not_mem_word hword)⟩
  · exact congrArg _ List.takeWhile_append_dropWhile.symm
  · cases hkeyword : TokenKind.keyword? (String.ofList (c :: cs.takeWhile continuesWord)) with
    | none =>
      refine .identifier hword fun k hk hspelling => ?_
      rw [TokenKind.keyword_spelling hk hspelling] at hkeyword
      cases hkeyword
    | some k =>
      have hspelling : k.spelling? = some (String.ofList (c :: cs.takeWhile continuesWord)) := by
        simpa using List.find?_some hkeyword
      exact String.toList_ofList (l := c :: cs.takeWhile continuesWord) ▸ .fixed hspelling

/-- A fraction is split off where a point with a digit behind it stands. -/
theorem fraction_split (cs : List Char) :
    (fraction cs = ([], cs) ∧ ∀ d rest, cs = '.' :: d :: rest → d.isDigit = false) ∨
      ∃ fs rest, IsDigits fs ∧ (∀ d ∈ rest.head?, d.isDigit = false) ∧
        cs = '.' :: fs ++ rest ∧ fraction cs = ('.' :: fs, rest) := by
  unfold fraction
  split
  · next d ds =>
    split
    · next hd =>
      refine .inr ⟨d :: ds.takeWhile Char.isDigit, ds.dropWhile Char.isDigit, ?_,
        head_dropWhile ds, by simp, rfl⟩
      refine ⟨List.cons_ne_nil _ _, List.forall_mem_cons.mpr ⟨hd, fun e he => ?_⟩⟩
      exact List.mem_takeWhile_imp he
    · next hd =>
      refine .inl ⟨rfl, fun e rest h => ?_⟩
      cases h
      exact Bool.eq_false_iff.mpr hd
  · next hno => exact .inl ⟨rfl, fun d rest h => absurd h (hno d rest)⟩

theorem takesFrom_number {c : Char} (hc : c.isDigit = true) (cs : List Char) (line : Nat) :
    TakesFrom (number c cs line) (c :: cs) line := by
  have hdigits : IsDigits (c :: cs.takeWhile Char.isDigit) := by
    refine ⟨List.cons_ne_nil _ _, List.forall_mem_cons.mpr ⟨hc, fun d hd => ?_⟩⟩
    exact List.mem_takeWhile_imp hd
  have hline := break_not_mem_digits hdigits.2
  have hcs : cs = cs.takeWhile Char.isDigit ++ cs.dropWhile Char.isDigit :=
    List.takeWhile_append_dropWhile.symm
  unfold number
  rcases fraction_split (cs.dropWhile Char.isDigit) with
    ⟨hnone, hpoint⟩ | ⟨fs, rest, hfs, hrest, hdrop, hsome⟩
  · rw [hnone]
    dsimp only
    rw [List.append_nil]
    refine ⟨_, congrArg (c :: ·) hcs, finds_token line (.integer hdigits) hdigits.1 ?_ hline⟩
    exact isLongest_integer hdigits (head_dropWhile cs) hpoint
  · rw [hsome]
    dsimp only
    refine ⟨_, ?_, finds_token line (.decimal hdigits hfs) (by simp)
      (isLongest_decimal hdigits hrest) ?_⟩
    · show c :: cs = (c :: cs.takeWhile Char.isDigit ++ '.' :: fs) ++ rest
      rw [List.append_assoc, ← hdrop, List.cons_append, ← hcs]
    · simp only [List.mem_append, List.mem_cons, not_or]
      exact ⟨by simpa using hline, by decide, break_not_mem_digits hfs.2⟩

theorem takesFrom_string (cs : List Char) (line : Nat) :
    TakesFrom (string cs line) ('"' :: cs) line := by
  have hbody : '"' ∉ cs.takeWhile (· != '"') := by
    intro hmem
    cases List.mem_takeWhile_imp hmem
  have hcs : cs = cs.takeWhile (· != '"') ++ cs.dropWhile (· != '"') :=
    List.takeWhile_append_dropWhile.symm
  have hquote := head_dropWhile (p := (· != '"')) cs
  unfold string
  dsimp only
  split
  · next q rest hdrop =>
    rw [hdrop] at hquote hcs
    obtain rfl : q = '"' := by simpa using hquote q rfl
    refine ⟨'"' :: cs.takeWhile (· != '"') ++ ['"'], ?_, ?_⟩
    · show _ = ('"' :: cs.takeWhile (· != '"') ++ ['"']) ++ rest
      simpa using hcs
    · exact {
        covers := .proper (.string hbody) (by simp) rfl (isLongest_quoted hbody)
        line := by simp [token]
        scanner := rfl }
  · next hdrop =>
    rw [hdrop, List.append_nil] at hcs
    refine ⟨'"' :: cs, by simp [invalid], ?_⟩
    rw [← hcs] at hbody ⊢
    exact {
      covers := .unclosed rfl rfl hbody
      line := by simp [invalid]
      scanner := rfl }

/-- What is found is the start of what was left. -/
theorem takesFrom_tokenAt {cs : List Char} (hne : cs ≠ []) (hgap : ¬ StartsGap cs) (line : Nat) :
    TakesFrom (tokenAt cs line) cs line := by
  have hlast : ∀ c d e : Char, [c, d, e] ∉ symbols := by simp [symbols]
  fun_cases tokenAt cs line
  case case1 => exact absurd rfl hne
  case case12 | case13 | case14 | case15 | case16 =>
    exact takesFrom_longest _ line rfl rfl (by decide) (by simp [symbols]) (hlast _ _)
  case case17 => exact takesFrom_string _ line
  case case18 hdigit => exact takesFrom_number hdigit _ line
  case case19 hword => exact takesFrom_word hword _ line
  case case20 c cs _ _ _ _ _ _ _ _ _ _ _ _ _ _ _ hquote hdigit hword =>
    have hstray : ∀ (k : TokenKind) (more : List Char), ¬ k.Spells (c :: more) := by
      intro k more h
      have hsymbol := h.symbol (Bool.eq_false_iff.mpr hword) (Bool.eq_false_iff.mpr hdigit) hquote
      simp only [symbols, List.mem_cons, List.cons.injEq, List.not_mem_nil] at hsymbol
      grind
    have hc : c ≠ '\n' := by
      rintro rfl
      exact hgap (.inl ⟨_, cs, rfl, by decide⟩)
    exact ⟨[c], rfl, .unexpected rfl rfl hstray, by simp [invalid, hc], rfl⟩
  all_goals exact takesFrom_symbol line rfl (by decide) (by simp [symbols])

/-! ## What stands there is found -/

variable {text after : List Char}

/-- A longest text is followed by no character with which it would still have a form. -/
theorem head_of_isLongest {p : Char → Bool} (h : IsLongest text after)
    (hspells : ∀ d, p d = true → ∃ k : TokenKind, k.Spells (text ++ [d])) :
    ∀ d ∈ after.head?, p d = false := by
  intro d hd
  obtain ⟨rest, rfl⟩ := List.head?_eq_some_iff.mp hd
  rw [Bool.eq_false_iff]
  intro hp
  obtain ⟨k, hk⟩ := hspells d hp
  cases h k [d] ⟨rest, rfl⟩ hk

theorem tokenAt_of_startsWord {c : Char} (hc : startsWord c = true) (cs : List Char)
    (line : Nat) : tokenAt (c :: cs) line = word c cs line := by
  have hdigit : ¬ c.isDigit = true := by
    intro h
    rw [startsWord_of_isDigit h] at hc
    cases hc
  rw [tokenAt, if_neg hdigit, if_pos hc]
  all_goals
    rintro rfl
    cases hc

theorem tokenAt_of_isDigit {c : Char} (hc : c.isDigit = true) (cs : List Char) (line : Nat) :
    tokenAt (c :: cs) line = number c cs line := by
  rw [tokenAt, if_pos hc]
  all_goals
    rintro rfl
    cases hc

/-- The longest word is taken as a whole. -/
theorem tokenAt_word (hword : IsWord text) (hlongest : IsLongest text after) (line : Nat) :
    tokenAt (text ++ after) line =
      token ((TokenKind.keyword? (String.ofList text)).getD .identifier) text after line := by
  obtain ⟨c, cs, rfl⟩ := List.exists_cons_of_ne_nil (show text ≠ [] by rintro rfl; exact hword)
  have hhead : ∀ d ∈ after.head?, continuesWord d = false := by
    refine head_of_isLongest hlongest fun d hd => IsWord.exists_spells ⟨hword.1, fun e he => ?_⟩
    rcases List.mem_append.mp he with he | he
    · exact hword.2 e he
    · rwa [List.mem_singleton.mp he]
  obtain ⟨htake, hdrop⟩ := span_of_head hword.2 hhead
  rw [List.cons_append, tokenAt_of_startsWord hword.1]
  unfold word
  rw [htake, hdrop]

/-- The longest number without a fraction is taken as a whole. -/
theorem tokenAt_integer (hdigits : IsDigits text) (hlongest : IsLongest text after) (line : Nat) :
    tokenAt (text ++ after) line = token .number text after line := by
  have hhead : ∀ d ∈ after.head?, d.isDigit = false :=
    head_of_isLongest hlongest fun d hd => ⟨.number, .integer (hdigits.append (by simpa using hd))⟩
  have hfraction : fraction after = ([], after) := by
    rcases fraction_split after with ⟨hnone, -⟩ | ⟨fs, rest, hfs, -, rfl, -⟩
    · exact hnone
    · cases hlongest _ ('.' :: fs) (List.prefix_append _ _) (.decimal hdigits hfs)
  obtain ⟨c, cs, rfl⟩ := List.exists_cons_of_ne_nil hdigits.1
  obtain ⟨hc, hcs⟩ := List.forall_mem_cons.mp hdigits.2
  obtain ⟨htake, hdrop⟩ := span_of_head hcs hhead
  rw [List.cons_append, tokenAt_of_isDigit hc]
  unfold number
  rw [htake, hdrop, hfraction]
  dsimp only
  rw [List.append_nil]

/-- The longest number with a fraction is taken as a whole. -/
theorem tokenAt_decimal {ds fs : List Char} (hds : IsDigits ds) (hfs : IsDigits fs)
    (hlongest : IsLongest (ds ++ '.' :: fs) after) (line : Nat) :
    tokenAt (ds ++ '.' :: fs ++ after) line = token .number (ds ++ '.' :: fs) after line := by
  have hhead : ∀ d ∈ after.head?, d.isDigit = false := by
    refine head_of_isLongest hlongest fun d hd => ⟨.number, ?_⟩
    rw [List.append_assoc]
    exact .decimal hds (hfs.append (by simpa using hd))
  obtain ⟨c, cs, rfl⟩ := List.exists_cons_of_ne_nil hds.1
  obtain ⟨d, gs, rfl⟩ := List.exists_cons_of_ne_nil hfs.1
  obtain ⟨hc, hcs⟩ := List.forall_mem_cons.mp hds.2
  obtain ⟨hd, hgs⟩ := List.forall_mem_cons.mp hfs.2
  have hpoint : ∀ e ∈ ('.' :: d :: (gs ++ after)).head?, e.isDigit = false := by
    intro e he
    cases he
    rfl
  obtain ⟨htake, hdrop⟩ := span_of_head hcs hpoint
  obtain ⟨htake', hdrop'⟩ := span_of_head hgs hhead
  have hsource : c :: cs ++ '.' :: d :: gs ++ after = c :: (cs ++ '.' :: d :: (gs ++ after)) := by
    simp
  rw [hsource, tokenAt_of_isDigit hc]
  unfold number
  rw [htake, hdrop, fraction, if_pos hd, htake', hdrop']

theorem inside_quotes {body : List Char} (hbody : '"' ∉ body) : ∀ c ∈ body, (c != '"') = true := by
  intro c hc
  simp only [bne_iff_ne, ne_eq]
  rintro rfl
  exact hbody hc

/-- A string is taken up to its closing quote. -/
theorem string_closed {body : List Char} (hbody : '"' ∉ body) (after : List Char) (line : Nat) :
    string (body ++ '"' :: after) line =
      token .string ('"' :: body ++ ['"']) after (lineAfter line (body.count '\n')) := by
  have hquote : ∀ d ∈ ('"' :: after).head?, (d != '"') = false := by
    intro d hd
    cases hd
    rfl
  obtain ⟨htake, hdrop⟩ := span_of_head (inside_quotes hbody) hquote
  unfold string
  rw [htake, hdrop]

/-- A string that is never closed takes all that is left. -/
theorem string_unclosed {body : List Char} (hbody : '"' ∉ body) (line : Nat) :
    string body line = invalid "Unterminated string." [] (lineAfter line (body.count '\n')) := by
  have hinside := inside_quotes hbody
  unfold string
  rw [List.takeWhile_eq_self_iff.mpr hinside, List.dropWhile_eq_nil_iff.mpr hinside]

theorem longest_short {c second : Char} {long short : TokenKind}
    (hlong : long.spelling? = some (String.ofList [c, second]))
    (hlongest : IsLongest [c] after) (line : Nat) :
    longest c second long short after line = token short [c] after line := by
  unfold longest
  split
  · next d rest =>
    refine if_neg ?_
    rintro rfl
    have hspells : long.Spells [c, d] := String.toList_ofList (l := [c, d]) ▸ .fixed hlong
    cases hlongest long [d] ⟨rest, rfl⟩ hspells
  · rfl

/-- A symbol is taken where it is the longest one. -/
theorem tokenAt_symbol {k : TokenKind} {spelling : String} (hk : k.spelling? = some spelling)
    (hsymbol : spelling.toList ∈ symbols) (hlongest : IsLongest spelling.toList after)
    (line : Nat) :
    tokenAt (spelling.toList ++ after) line = token k spelling.toList after line := by
  cases k <;> cases hk
  case colon | bang | equal | greater | less => exact longest_short rfl hlongest line
  all_goals first
    | rfl
    | exact absurd hsymbol (by decide)

/-- A character that starts no form is taken alone. -/
theorem tokenAt_stray {c : Char}
    (hstray : ∀ (k : TokenKind) (more : List Char), ¬ k.Spells (c :: more)) (line : Nat) :
    tokenAt (c :: after) line = invalid "Unexpected character." after line := by
  have hsymbol : [c] ∉ symbols := by
    intro h
    obtain ⟨k, hk⟩ := exists_spells_of_mem_symbols h
    exact hstray k [] hk
  have hdigit : ¬ c.isDigit = true := fun hc =>
    hstray .number [] (.integer ⟨List.cons_ne_nil _ _, by simpa using hc⟩)
  have hword : ¬ startsWord c = true := by
    intro hc
    have hw : IsWord [c] := ⟨hc, nofun⟩
    obtain ⟨k, hk⟩ := hw.exists_spells
    exact hstray k [] hk
  have hquote : c ≠ '"' := by
    rintro rfl
    have hempty : '"' ∉ ([] : List Char) := List.not_mem_nil
    exact hstray .string ['"'] (.string hempty)
  rw [tokenAt, if_neg hdigit, if_neg hword]
  case x_15 => exact hquote
  all_goals
    rintro rfl
    exact absurd (by decide) hsymbol

/-- What stands at the start of what is left is found. -/
theorem tokenAt_of_covers {t : Token} {line : Nat} (h : t.Covers text after)
    (hgap : ¬ StartsGap (text ++ after)) (hline : t.line = lineAfter line (text.count '\n')) :
    tokenAt (text ++ after) line = (t, ⟨after, t.line⟩) := by
  obtain ⟨kind, lexeme, tokenLine⟩ := t
  dsimp only at hline
  cases h with
  | unexpected hkind hlexeme hstray =>
    next c =>
    dsimp only at hkind hlexeme
    have hc : c ≠ '\n' := by
      rintro rfl
      exact hgap (.inl ⟨_, after, rfl, by decide⟩)
    rw [List.singleton_append, tokenAt_stray hstray, hkind, hlexeme, hline]
    simp [invalid, hc]
  | unclosed hkind hlexeme hbody =>
    next body =>
    dsimp only at hkind hlexeme
    rw [List.append_nil]
    show string body line = _
    rw [string_unclosed hbody, hkind, hlexeme, hline]
    simp [invalid]
  | proper hspells hnonempty hlexeme hlongest =>
    dsimp only at hspells hlexeme
    subst hlexeme hline
    have hsame : ∀ {found : Token × Scanner}, '\n' ∉ text → found = token kind text after line →
        found = (⟨kind, String.ofList text, lineAfter line (text.count '\n')⟩,
          ⟨after, lineAfter line (text.count '\n')⟩) := by
      intro found hbreak hfound
      rw [hfound, List.count_eq_zero.mpr hbreak]
      rfl
    cases hspells with
    | fixed hk =>
      rcases spelling_cases hk with ⟨hmem, hword⟩ | hsymbol
      · refine hsame (break_not_mem_word hword) ?_
        rw [tokenAt_word hword hlongest, String.ofList_toList, TokenKind.keyword_spelling hmem hk]
        rfl
      · exact hsame (break_not_mem_symbol hsymbol) (tokenAt_symbol hk hsymbol hlongest line)
    | identifier hword hfree =>
      refine hsame (break_not_mem_word hword) ?_
      rw [tokenAt_word hword hlongest, keyword_of_free hfree]
      rfl
    | integer hdigits =>
      exact hsame (break_not_mem_digits hdigits.2) (tokenAt_integer hdigits hlongest line)
    | decimal hds hfs =>
      refine hsame ?_ (tokenAt_decimal hds hfs hlongest line)
      simp only [List.mem_append, List.mem_cons, not_or]
      exact ⟨break_not_mem_digits hds.2, by decide, break_not_mem_digits hfs.2⟩
    | string hbody =>
      next body =>
      show string (body ++ ['"'] ++ after) line = _
      rw [List.append_assoc, List.singleton_append, string_closed hbody]
      simp [token]

end Scanner

/-! ## Tilings -/

/-- The tokens tile what is left of a source: in front of each one there is only a gap, and
behind the last one there is a gap up to the end.  `before` is what came earlier; the lines of
the tokens are counted from there. -/
inductive Tiles : (before rest : List Char) → List Token → Prop where
  | done {before gap : List Char} (blank : IsGap [] gap) :
      Tiles before gap [.endAt (lineAtEnd (before ++ gap))]
  | token {before gap text after : List Char} {t : Token} {ts : List Token}
      (blank : IsGap (text ++ after) gap) (starts : ¬ StartsGap (text ++ after))
      (covers : t.Covers text after) (line : t.line = lineAtEnd (before ++ gap ++ text))
      (later : Tiles (before ++ gap ++ text) after ts) :
      Tiles before (gap ++ (text ++ after)) (t :: ts)

theorem Token.Covers.kind_ne_end {t : Token} {text after : List Char} (h : t.Covers text after) :
    t.kind ≠ .endOfSource := by
  intro hend
  cases h with
  | proper hspells => exact hspells.kind_ne.2 hend
  | unexpected hkind => cases hend.symm.trans hkind
  | unclosed hkind => cases hend.symm.trans hkind

namespace Scanner

/-- The line that the end of the source is on. -/
def lastLine (s : Scanner) : Nat := lineAfter s.line (s.rest.count '\n')

/-- Behind a gap the source ends, or a token stands there. -/
theorem next_cases (s : Scanner) :
    IsGap [] s.rest ∧ s.next = (.endAt s.lastLine, ⟨[], s.lastLine⟩) ∨
      ∃ gap text, s.rest = gap ++ (text ++ s.next.2.rest) ∧ IsGap (text ++ s.next.2.rest) gap ∧
        ¬ StartsGap (text ++ s.next.2.rest) ∧
        Finds s.next text (lineAfter s.line (gap.count '\n')) := by
  obtain ⟨gap, hrest, hgap, hstop, hcount⟩ := exists_gap_skipBlanks false s.rest s.line
  have hnext : s.next = tokenAt (skipBlanks false s.rest s.line).rest
      (skipBlanks false s.rest s.line).line := rfl
  rw [hcount] at hnext
  by_cases hnil : (skipBlanks false s.rest s.line).rest = []
  · rw [hnil] at hnext hrest hgap
    rw [List.append_nil] at hrest
    subst hrest
    exact .inl ⟨hgap, hnext⟩
  · obtain ⟨text, htext, hfinds⟩ := takesFrom_tokenAt hnil hstop (lineAfter s.line (gap.count '\n'))
    rw [← hnext] at htext hfinds
    rw [htext] at hrest hgap hstop
    exact .inr ⟨gap, text, hrest, hgap, hstop, hfinds⟩

/-- What is left is tiled by the tokens that are found in it. -/
theorem tiles_tokens (s : Scanner) : ∀ before : List Char, s.line = lineAtEnd before →
    Tiles before s.rest s.tokens.1 := by
  fun_induction tokens s with
  | case1 s hend =>
    intro before hline
    rcases s.next_cases with ⟨hgap, hnext⟩ | ⟨gap, text, -, -, -, hcovers, -⟩
    · have hlast : s.lastLine = lineAtEnd (before ++ s.rest) := by
        rw [lastLine, hline, lineAtEnd_append]
      rw [hnext, hlast]
      exact .done hgap
    · exact absurd hend hcovers.kind_ne_end
  | case2 s hend later ih =>
    intro before hline
    rcases s.next_cases with ⟨-, hnext⟩ | ⟨gap, text, hrest, hgap, hstop, hcovers, htoken, hscanner⟩
    · exact absurd (congrArg (fun found => found.1.kind) hnext) hend
    · have hlines : s.next.1.line = lineAtEnd (before ++ gap ++ text) := by
        rw [htoken, hline, lineAtEnd_append, lineAtEnd_append]
      rw [hrest]
      exact .token hgap hstop hcovers hlines (ih _ (hscanner.trans hlines))

/-- A tiling of what is left consists of the tokens that are found in it. -/
theorem tokens_of_tiles {before rest : List Char} {ts : List Token} (h : Tiles before rest ts) :
    (Scanner.mk rest (lineAtEnd before)).tokens.1 = ts := by
  induction h with
  | @done before gap hblank =>
    have hskip := skipBlanks_of_isGap hblank not_startsGap_nil (lineAtEnd before)
    rw [List.append_nil] at hskip
    have hnext : (Scanner.mk gap (lineAtEnd before)).next.1 =
        .endAt (lineAtEnd (before ++ gap)) := by
      unfold next
      dsimp only
      rw [hskip, lineAtEnd_append]
      rfl
    rw [tokens, dif_pos (by rw [hnext]; rfl), hnext]
  | @token before gap text after t ts hblank hstarts hcovers hline _ ih =>
    have hskip := skipBlanks_of_isGap hblank hstarts (lineAtEnd before)
    have hcount : t.line =
        lineAfter (lineAfter (lineAtEnd before) (gap.count '\n')) (text.count '\n') := by
      rw [hline, lineAtEnd_append, lineAtEnd_append]
    have hnext : (Scanner.mk (gap ++ (text ++ after)) (lineAtEnd before)).next =
        (t, ⟨after, t.line⟩) := by
      unfold next
      dsimp only
      rw [hskip]
      exact tokenAt_of_covers hcovers hstarts hcount
    rw [tokens, dif_neg (by rw [hnext]; exact hcovers.kind_ne_end)]
    dsimp only
    rw [hnext]
    dsimp only
    rw [hline, ih]

end Scanner

/-- A source is tiled by its tokens, and by no others. -/
theorem tiles_iff (source : String) (ts : List Token) :
    Tiles [] source.toList ts ↔ ts = scan source := by
  constructor
  · exact fun h => (Scanner.tokens_of_tiles h).symm
  · rintro rfl
    exact (Scanner.ofSource source).tiles_tokens [] rfl

/-! ## Lines -/

namespace Tiles

variable {before rest : List Char} {t : Token} {ts : List Token}

/-- The line of each token is the one that some start of the source ends on. -/
theorem exists_start (h : Tiles before rest ts) :
    ∀ t ∈ ts, ∃ start, before <+: start ∧ start <+: before ++ rest ∧
      t.line = lineAtEnd start := by
  induction h with
  | @done before gap =>
    intro t ht
    rw [List.mem_singleton.mp ht]
    exact ⟨before ++ gap, List.prefix_append .., List.prefix_rfl, rfl⟩
  | @token before gap text after t ts _ _ _ hline _ ih =>
    have hsource : before ++ gap ++ text ++ after = before ++ (gap ++ (text ++ after)) := by
      simp only [List.append_assoc]
    have hbefore : before <+: before ++ gap ++ text := by
      rw [List.append_assoc]
      exact List.prefix_append ..
    refine List.forall_mem_cons.mpr
      ⟨⟨_, hbefore, hsource ▸ List.prefix_append .., hline⟩, fun t' ht' => ?_⟩
    obtain ⟨start, hstart, hwhole, hline'⟩ := ih t' ht'
    exact ⟨start, hbefore.trans hstart, hsource ▸ hwhole, hline'⟩

/-- The lines go up from token to token, if there are few enough for no number to wrap. -/
theorem sorted (h : Tiles before rest ts) (hfew : (before ++ rest).count '\n' < 2 ^ 32 - 1) :
    (ts.map Token.line).Pairwise (· ≤ ·) := by
  induction h with
  | done => exact List.pairwise_singleton _ _
  | @token before gap text after t ts _ _ _ hline later ih =>
    have hsource : before ++ gap ++ text ++ after = before ++ (gap ++ (text ++ after)) := by
      simp only [List.append_assoc]
    rw [← hsource] at hfew
    refine List.pairwise_cons.mpr ⟨fun line hmem => ?_, ih hfew⟩
    obtain ⟨t', ht', rfl⟩ := List.mem_map.mp hmem
    obtain ⟨start, hstart, hwhole, hline'⟩ := later.exists_start t' ht'
    rw [hline, hline', lineAtEnd_of_prefix (hstart.trans hwhole) hfew,
      lineAtEnd_of_prefix hwhole hfew]
    exact Nat.add_le_add_left (hstart.sublist.count_le '\n') 1

end Tiles

theorem sorted_scan {source : String} (hfew : source.toList.count '\n' < 2 ^ 32 - 1) :
    ((scan source).map Token.line).Pairwise (· ≤ ·) :=
  ((tiles_iff source _).mpr rfl).sorted hfew

/-- No token is on a line that the source does not have. -/
theorem line_scan_le (source : String) :
    ∀ t ∈ scan source, t.line ≤ source.toList.count '\n' + 1 := by
  intro t ht
  obtain ⟨start, -, hstart, hline⟩ := ((tiles_iff source _).mpr rfl).exists_start t ht
  have hcount : start.count '\n' ≤ source.toList.count '\n' := hstart.sublist.count_le '\n'
  have hle : lineAtEnd start ≤ 1 + start.count '\n' := lineAfter_le_add ..
  omega

/-! ## Sources -/

end ScriptEngine
