import ScriptEngine.Proofs.Scan
set_option autoImplicit false

/-!
# Two sources on one another: tokens

The tokens of two sources with a line break between them are the tokens of the first one without
its end, and those of the second one further down (`scan_joined`).  A line break ends every token
but a string that is never closed, and it ends every comment.
-/

namespace ScriptEngine

/-- A string that is never closed. -/
def Token.IsUnclosed (t : Token) : Prop := t.kind = .invalid ∧ t.lexeme = "Unterminated string."

/-- The token some lines further down. -/
def Token.down (k : Nat) (t : Token) : Token := { t with line := lineAfter t.line k }

namespace Scanner

/-- The scanner with more of the source to come. -/
def withMore (more : List Char) (s : Scanner) : Scanner := { s with rest := s.rest ++ more }

/-- The scanner some lines further down. -/
def down (k : Nat) (s : Scanner) : Scanner := { s with line := lineAfter s.line k }

/-! ## A line break behind what is left -/

/-- Blanks at the end go on behind the line break, where no comment is open any more. -/
theorem skipBlanks_append (comment : Bool) (cs ds : List Char) (line : Nat) :
    skipBlanks comment (cs ++ '\n' :: ds) line =
      if (skipBlanks comment cs line).rest = [] then
        skipBlanks false ds (nextLine (skipBlanks comment cs line).line)
      else (skipBlanks comment cs line).withMore ('\n' :: ds) := by
  fun_induction skipBlanks comment cs line with
  | case7 comment cs line h1 h2 h3 h4 h5 h6 =>
    cases cs with
    | nil => cases comment <;> rfl
    | cons c cs =>
      rw [if_neg (List.cons_ne_nil _ _), List.cons_append, skipBlanks]
      · rfl
      · exact fun _ h => h1 cs (congrArg (· :: cs) (List.cons.inj h).1)
      · exact fun head _ hcomment _ => h2 c cs hcomment rfl
      · exact fun _ hcomment h => h3 cs hcomment (congrArg (· :: cs) (List.cons.inj h).1)
      · exact fun _ hcomment h => h4 cs hcomment (congrArg (· :: cs) (List.cons.inj h).1)
      · exact fun _ hcomment h => h5 cs hcomment (congrArg (· :: cs) (List.cons.inj h).1)
      · intro _ hcomment h
        cases cs with
        | nil => simp at h
        | cons d cs => exact h6 cs hcomment (by simp_all)
  | _ => simp_all [skipBlanks]

theorem takeWhile_append_break {p : Char → Bool} (hbreak : p '\n' = false) (cs ds : List Char) :
    (cs ++ '\n' :: ds).takeWhile p = cs.takeWhile p ∧
      (cs ++ '\n' :: ds).dropWhile p = cs.dropWhile p ++ '\n' :: ds := by
  induction cs with
  | nil => simp [hbreak]
  | cons c cs ih =>
    cases hc : p c with
    | true => simp [hc, ih]
    | false => simp [hc]

theorem fraction_append (cs ds : List Char) :
    fraction (cs ++ '\n' :: ds) = ((fraction cs).1, (fraction cs).2 ++ '\n' :: ds) := by
  fun_cases fraction cs with
  | case1 c cs hc =>
    obtain ⟨htake, hdrop⟩ := takeWhile_append_break (p := Char.isDigit) rfl cs ds
    simp [fraction, hc, htake, hdrop]
  | case2 c cs hc => simp [fraction, hc]
  | case3 cs hno =>
    match cs with
    | [] => rfl
    | [c] =>
      by_cases hc : c = '.'
      · subst hc
        rfl
      · rw [List.singleton_append, fraction]
        exact fun _ _ h => hc (List.cons.inj h).1
    | c :: d :: cs =>
      rw [List.cons_append, fraction]
      intro d' cs' h
      obtain ⟨rfl, -⟩ := List.cons.inj h
      exact hno d cs rfl

theorem string_append {cs : List Char} {line : Nat} (ds : List Char)
    (h : ¬ (string cs line).1.IsUnclosed) :
    string (cs ++ '\n' :: ds) line =
      ((string cs line).1, (string cs line).2.withMore ('\n' :: ds)) := by
  have hsplit : ∀ cs : List Char, cs.dropWhile (· != '"') ≠ [] →
      (cs ++ '\n' :: ds).takeWhile (· != '"') = cs.takeWhile (· != '"') ∧
        (cs ++ '\n' :: ds).dropWhile (· != '"') = cs.dropWhile (· != '"') ++ '\n' :: ds := by
    intro cs hcs
    induction cs with
    | nil => exact absurd rfl hcs
    | cons c cs ih =>
      cases hc : c != '"' with
      | true =>
        simp only [List.dropWhile_cons, hc, if_true] at hcs
        simp [hc, ih hcs]
      | false => simp [hc]
  unfold string at h ⊢
  dsimp only at h ⊢
  cases hdrop : cs.dropWhile (· != '"') with
  | nil =>
    rw [hdrop] at h
    exact absurd ⟨rfl, rfl⟩ h
  | cons q rest =>
    obtain ⟨htake, hdrop'⟩ := hsplit cs (by rw [hdrop]; exact List.cons_ne_nil _ _)
    rw [htake, hdrop', hdrop]
    rfl

theorem longest_append (c second : Char) (long short : TokenKind) (cs : List Char) (line : Nat)
    (ds : List Char) (hsecond : second ≠ '\n') :
    longest c second long short (cs ++ '\n' :: ds) line =
      ((longest c second long short cs line).1,
        (longest c second long short cs line).2.withMore ('\n' :: ds)) := by
  cases cs with
  | nil => exact if_neg hsecond.symm
  | cons d cs =>
    unfold longest
    dsimp only [List.cons_append]
    split <;> rfl

/-- Only a string that is never closed goes on behind a line break. -/
theorem tokenAt_append {cs : List Char} {line : Nat} (ds : List Char)
    (hend : (tokenAt cs line).1.kind ≠ .endOfSource)
    (hclosed : ¬ (tokenAt cs line).1.IsUnclosed) :
    tokenAt (cs ++ '\n' :: ds) line =
      ((tokenAt cs line).1, (tokenAt cs line).2.withMore ('\n' :: ds)) := by
  fun_cases tokenAt cs line
  case case1 => exact absurd rfl hend
  case case12 | case13 | case14 | case15 | case16 => exact longest_append _ _ _ _ _ _ _ (by decide)
  case case17 => exact string_append ds hclosed
  case case18 c cs _ _ _ _ _ _ _ _ _ _ _ _ _ _ _ _ hdigit =>
    obtain ⟨htake, hdrop⟩ := takeWhile_append_break (p := Char.isDigit) rfl cs ds
    rw [List.cons_append, tokenAt]
    · rw [if_pos hdigit]
      unfold number
      rw [htake, hdrop, fraction_append]
      rfl
    all_goals assumption
  case case19 c cs _ _ _ _ _ _ _ _ _ _ _ _ _ _ _ _ hdigit hword =>
    obtain ⟨htake, hdrop⟩ := takeWhile_append_break (p := continuesWord) rfl cs ds
    rw [List.cons_append, tokenAt]
    · rw [if_neg hdigit, if_pos hword]
      unfold word
      rw [htake, hdrop]
      rfl
    all_goals assumption
  case case20 c cs _ _ _ _ _ _ _ _ _ _ _ _ _ _ _ _ hdigit hword =>
    rw [List.cons_append, tokenAt]
    · rw [if_neg hdigit, if_neg hword]
      rfl
    all_goals assumption
  all_goals rfl

/-! ## Further down -/

theorem skipBlanks_down (comment : Bool) (cs : List Char) (line k : Nat) :
    skipBlanks comment cs (lineAfter line k) = (skipBlanks comment cs line).down k := by
  fun_induction skipBlanks comment cs line with
  | case1 _ cs line ih =>
    rw [skipBlanks, ← ih, nextLine_lineAfter, lineAfter]
  | case7 comment cs line h1 h2 h3 h4 h5 h6 =>
    rw [skipBlanks] <;> first | rfl | assumption
  | _ => simp_all [skipBlanks]

theorem tokenAt_down (cs : List Char) (line k : Nat) :
    tokenAt cs (lineAfter line k) = ((tokenAt cs line).1.down k, (tokenAt cs line).2.down k) := by
  have hlongest : ∀ (c second : Char) (long short : TokenKind) (cs : List Char),
      longest c second long short cs (lineAfter line k) =
        ((longest c second long short cs line).1.down k,
          (longest c second long short cs line).2.down k) := by
    intro c second long short cs
    fun_cases longest c second long short cs line with
    | case1 cs => exact if_pos rfl
    | case2 d cs hd => exact if_neg hd
    | case3 => rfl
  fun_cases tokenAt cs line
  case case12 | case13 | case14 | case15 | case16 => exact hlongest ..
  case case17 cs =>
    show string cs (lineAfter line k) = _
    unfold string
    dsimp only
    rw [lineAfter_comm]
    split <;> rfl
  case case18 c cs _ _ _ _ _ _ _ _ _ _ _ _ _ _ _ _ hdigit =>
    rw [tokenAt]
    · rw [if_pos hdigit]
      rfl
    all_goals assumption
  case case19 c cs _ _ _ _ _ _ _ _ _ _ _ _ _ _ _ _ hdigit hword =>
    rw [tokenAt]
    · rw [if_neg hdigit, if_pos hword]
      rfl
    all_goals assumption
  case case20 c cs _ _ _ _ _ _ _ _ _ _ _ _ _ _ _ _ hdigit hword =>
    rw [tokenAt]
    · rw [if_neg hdigit, if_neg hword]
      rfl
    all_goals assumption
  all_goals rfl

theorem next_down (s : Scanner) (k : Nat) :
    (s.down k).next = (s.next.1.down k, s.next.2.down k) := by
  unfold next down
  rw [skipBlanks_down]
  exact tokenAt_down ..

/-! ## All tokens -/

theorem tokens_congr {s s' : Scanner} (h : s.next = s'.next) : s.tokens = s'.tokens := by
  unfold tokens
  rw [h]

theorem tokens_down (s : Scanner) (k : Nat) :
    (s.down k).tokens.1 = s.tokens.1.map (Token.down k) := by
  fun_induction tokens s with
  | case1 s hend =>
    have hend' : (s.down k).next.1.kind = .endOfSource := by
      rw [next_down]
      exact hend
    rw [tokens, dif_pos hend', next_down]
    rfl
  | case2 s hend later ih =>
    have hend' : (s.down k).next.1.kind ≠ .endOfSource := by
      rw [next_down]
      exact hend
    rw [tokens, dif_neg hend']
    dsimp only
    rw [next_down, ih]
    rfl

theorem kind_longest (c second : Char) (long short : TokenKind) (cs : List Char) (line : Nat) :
    (longest c second long short cs line).1.kind = long ∨
      (longest c second long short cs line).1.kind = short := by
  unfold longest
  split
  · split
    · exact .inl rfl
    · exact .inr rfl
  · exact .inr rfl

theorem keyword_ne_end {word : String} : TokenKind.keyword? word ≠ some .endOfSource := by
  intro h
  exact absurd (List.mem_of_find?_eq_some h) (by decide)

/-- The end token stands where nothing is left. -/
theorem eq_nil_of_tokenAt {cs : List Char} {line : Nat}
    (h : (tokenAt cs line).1.kind = .endOfSource) : cs = [] := by
  have hlongest : ∀ (c second : Char) (long short : TokenKind) (cs : List Char),
      long ≠ .endOfSource → short ≠ .endOfSource →
      (longest c second long short cs line).1.kind ≠ .endOfSource := by
    intro c second long short cs hlong hshort
    rcases kind_longest c second long short cs line with hkind | hkind
    · rw [hkind]
      exact hlong
    · rw [hkind]
      exact hshort
  unfold tokenAt at h
  split at h
  case h_1 => rfl
  case h_12 | h_13 | h_14 | h_15 | h_16 => exact absurd h (hlongest _ _ _ _ _ nofun nofun)
  case h_17 =>
    unfold string at h
    dsimp only at h
    split at h <;> exact nomatch h
  case h_18 c cs _ _ _ _ _ _ _ _ _ _ _ _ _ _ _ _ =>
    split at h
    · exact nomatch h
    · split at h
      · unfold word token at h
        dsimp only at h
        cases hword : TokenKind.keyword? (String.ofList (c :: cs.takeWhile continuesWord)) with
        | none =>
          rw [hword] at h
          exact nomatch h
        | some k =>
          rw [hword] at h
          exact absurd (hword.trans (congrArg some h)) keyword_ne_end
      · exact nomatch h
  all_goals exact nomatch h

/-- At the end of the first source the second one is read as if it stood alone. -/
theorem next_append_of_end {s : Scanner} (ds : List Char)
    (hend : s.next.1.kind = .endOfSource) :
    (s.withMore ('\n' :: ds)).next = (Scanner.mk ds (nextLine s.next.2.line)).next := by
  have hblank : (skipBlanks false s.rest s.line).rest = [] := eq_nil_of_tokenAt hend
  have hnext : s.next = (.endAt (skipBlanks false s.rest s.line).line,
      ⟨[], (skipBlanks false s.rest s.line).line⟩) := by
    unfold next
    dsimp only
    rw [hblank]
    rfl
  have hskip := skipBlanks_append false s.rest ds s.line
  rw [if_pos hblank] at hskip
  rw [hnext]
  unfold next withMore
  dsimp only
  rw [hskip]

/-- A line break ends no token before it. -/
theorem next_append {s : Scanner} (ds : List Char) (hend : s.next.1.kind ≠ .endOfSource)
    (hclosed : ¬ s.next.1.IsUnclosed) :
    (s.withMore ('\n' :: ds)).next = (s.next.1, s.next.2.withMore ('\n' :: ds)) := by
  have hblank : (skipBlanks false s.rest s.line).rest ≠ [] := by
    intro hnil
    refine hend ?_
    unfold next
    dsimp only
    rw [hnil]
    rfl
  have hskip := skipBlanks_append false s.rest ds s.line
  rw [if_neg hblank] at hskip
  have htoken := tokenAt_append ds hend hclosed
  unfold next at htoken ⊢
  dsimp only [withMore] at htoken hskip ⊢
  rw [hskip]
  exact htoken

/-- A line break behind what is left ends the last token, and what comes behind it is read as
if it stood alone. -/
theorem tokens_append (s : Scanner) (ds : List Char)
    (hclosed : ∀ t ∈ s.tokens.1, ¬ t.IsUnclosed) :
    (s.withMore ('\n' :: ds)).tokens.1 =
      s.tokens.1.dropLast ++ (Scanner.mk ds (nextLine s.tokens.2.line)).tokens.1 := by
  fun_induction tokens s with
  | case1 s hend => exact congrArg Prod.fst (tokens_congr (next_append_of_end ds hend))
  | case2 s hend later ih =>
    have hnext := next_append ds hend (hclosed _ List.mem_cons_self)
    have hend' : (s.withMore ('\n' :: ds)).next.1.kind ≠ .endOfSource := by
      rw [hnext]
      exact hend
    have hne : s.next.2.tokens.1 ≠ [] := fun hnil =>
      (ended_tokens s.next.2).ne_nil (congrArg (List.map Token.kind) hnil)
    rw [tokens, dif_neg hend']
    dsimp only
    rw [hnext]
    dsimp only
    rw [ih fun t ht => hclosed t (List.mem_cons_of_mem _ ht), List.dropLast_cons_of_ne_nil hne]
    rfl

end Scanner

/-- The tokens of a source, a line break and another source. -/
theorem scan_joined {source : String} (later : String)
    (hclosed : ∀ t ∈ scan source, ¬ t.IsUnclosed) :
    scan (source ++ "\n" ++ later) =
      (scan source).dropLast ++
        (scan later).map (Token.down (Scanner.ofSource source).tokens.2.line) := by
  have happend := (Scanner.ofSource source).tokens_append later.toList hclosed
  have hsource : Scanner.ofSource (source ++ "\n" ++ later) =
      (Scanner.ofSource source).withMore ('\n' :: later.toList) := by
    unfold Scanner.ofSource Scanner.withMore
    simp
  have hlater : Scanner.mk later.toList (nextLine (Scanner.ofSource source).tokens.2.line) =
      (Scanner.ofSource later).down (Scanner.ofSource source).tokens.2.line := by
    show _ = Scanner.mk later.toList (lineAfter 1 _)
    rw [lineAfter_eq_mod (by decide), Nat.add_comm]
    rfl
  unfold scan
  rw [hsource, happend, hlater, Scanner.tokens_down]

end ScriptEngine
