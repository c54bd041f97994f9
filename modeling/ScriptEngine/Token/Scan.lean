import ScriptEngine.Token
set_option autoImplicit false

/-!
# Tokens: scanning

The scanner reads a source from left to right and takes the longest token at
each place.  Blanks and comments between tokens are skipped; a comment runs from
two slashes to the end of its line.  A character that starts no token, and a
string that is never closed, become invalid tokens, so that scanning always
reaches the end of the source.

`rest_next_lt` says that every token but the last takes at least one character;
`tokens` therefore ends, with exactly one token for the end of the source.
-/

namespace ScriptEngine

/-- What is left of a source, and the line it starts on. -/
structure Scanner where
  rest : List Char
  line : Nat
  deriving DecidableEq, Repr, Inhabited

namespace Scanner

/-- A scanner at the start of a source. -/
def ofSource (source : String) : Scanner := ⟨source.toList, 1⟩

/-! ## Blanks and comments -/

/-- Skips blanks and comments.  The flag says whether a comment is open. -/
def skipBlanks : Bool → List Char → Nat → Scanner
  | _, '\n' :: cs, line => skipBlanks false cs (nextLine line)
  | true, _ :: cs, line => skipBlanks true cs line
  | false, ' ' :: cs, line => skipBlanks false cs line
  | false, '\t' :: cs, line => skipBlanks false cs line
  | false, '\r' :: cs, line => skipBlanks false cs line
  | false, '/' :: '/' :: cs, line => skipBlanks true cs line
  | _, cs, line => ⟨cs, line⟩

/-! ## Words and numbers -/

/-- The first character of a name or keyword: an ASCII letter or an
underscore. -/
def startsWord (c : Char) : Bool := c.isAlpha || c == '_'

/-- A later character of a name or keyword. -/
def continuesWord (c : Char) : Bool := c.isAlphanum || c == '_'

/-- Splits off a fraction: a point with at least one digit after it. -/
def fraction : List Char → List Char × List Char
  | '.' :: c :: cs =>
      if c.isDigit then
        ('.' :: c :: cs.takeWhile Char.isDigit, cs.dropWhile Char.isDigit)
      else ([], '.' :: c :: cs)
  | cs => ([], cs)

/-! ## One token -/

/-- A token with the text `taken`, and the scanner after it. -/
def token (kind : TokenKind) (taken rest : List Char) (line : Nat) :
    Token × Scanner :=
  (⟨kind, String.ofList taken, line⟩, ⟨rest, line⟩)

/-- A stretch of source that is no token. -/
def invalid (complaint : String) (rest : List Char) (line : Nat) :
    Token × Scanner :=
  (⟨.invalid, complaint, line⟩, ⟨rest, line⟩)

/-- A string, with its opening quote already read.  Its text keeps both quotes,
and its line is that of the closing one. -/
def string (cs : List Char) (line : Nat) : Token × Scanner :=
  let body := cs.takeWhile (· != '"')
  let line := lineAfter line (body.count '\n')
  match cs.dropWhile (· != '"') with
  | _ :: rest => token .string ('"' :: body ++ ['"']) rest line
  | [] => invalid "Unterminated string." [] line

/-- A number that starts with the digit `c`. -/
def number (c : Char) (cs : List Char) (line : Nat) : Token × Scanner :=
  let (after, rest) := fraction (cs.dropWhile Char.isDigit)
  token .number (c :: cs.takeWhile Char.isDigit ++ after) rest line

/-- A name or keyword that starts with `c`. -/
def word (c : Char) (cs : List Char) (line : Nat) : Token × Scanner :=
  let taken := c :: cs.takeWhile continuesWord
  let kind := (TokenKind.keyword? (String.ofList taken)).getD .identifier
  token kind taken (cs.dropWhile continuesWord) line

/-- An operator of two characters if `second` follows, of one otherwise. -/
def longest (c second : Char) (long short : TokenKind) (cs : List Char)
    (line : Nat) : Token × Scanner :=
  match cs with
  | d :: rest =>
      if d = second then token long [c, d] rest line else token short [c] cs line
  | [] => token short [c] [] line

/-- The token at the start of `cs`. -/
def tokenAt (cs : List Char) (line : Nat) : Token × Scanner :=
  match cs with
  | [] => (Token.endAt line, ⟨[], line⟩)
  | '(' :: cs => token .leftParen ['('] cs line
  | ')' :: cs => token .rightParen [')'] cs line
  | '\x7b' :: cs => token .leftBrace ['\x7b'] cs line
  | '\x7d' :: cs => token .rightBrace ['\x7d'] cs line
  | ',' :: cs => token .comma [','] cs line
  | '.' :: cs => token .dot ['.'] cs line
  | '-' :: cs => token .minus ['-'] cs line
  | '+' :: cs => token .plus ['+'] cs line
  | '/' :: cs => token .slash ['/'] cs line
  | '*' :: cs => token .star ['*'] cs line
  | ':' :: cs => longest ':' ':' .doubleColon .colon cs line
  | '!' :: cs => longest '!' '=' .bangEqual .bang cs line
  | '=' :: cs => longest '=' '=' .equalEqual .equal cs line
  | '<' :: cs => longest '<' '=' .lessEqual .less cs line
  | '>' :: cs => longest '>' '=' .greaterEqual .greater cs line
  | '"' :: cs => string cs line
  | c :: cs =>
      if c.isDigit then number c cs line
      else if startsWord c then word c cs line
      else invalid "Unexpected character." cs line

/-- Skips to the next token and reads it.  At the end of the source this gives
the end token, however often it is asked for. -/
def next (s : Scanner) : Token × Scanner :=
  let s := skipBlanks false s.rest s.line
  tokenAt s.rest s.line

/-! ## Progress -/

theorem length_dropWhile_le (p : Char → Bool) (cs : List Char) :
    (cs.dropWhile p).length ≤ cs.length :=
  (List.dropWhile_sublist p).length_le

theorem length_rest_skipBlanks_le (comment : Bool) (cs : List Char) (line : Nat) :
    (skipBlanks comment cs line).rest.length ≤ cs.length := by
  fun_induction skipBlanks comment cs line <;> simp_all <;> omega

theorem length_fraction_le (cs : List Char) :
    (fraction cs).2.length ≤ cs.length := by
  unfold fraction
  split
  · next c cs =>
    split
    · have := length_dropWhile_le Char.isDigit cs
      simp only [List.length_cons]
      omega
    · simp
  · simp

theorem rest_string_le (cs : List Char) (line : Nat) :
    (string cs line).2.rest.length ≤ cs.length := by
  have hle := length_dropWhile_le (· != '"') cs
  unfold string
  split
  · next rest h =>
    rw [h, List.length_cons] at hle
    exact Nat.le_of_succ_le hle
  · exact Nat.zero_le _

theorem rest_longest_le (c second : Char) (long short : TokenKind)
    (cs : List Char) (line : Nat) :
    (longest c second long short cs line).2.rest.length ≤ cs.length := by
  unfold longest
  split
  · split <;> simp [token]
  · simp [token]

theorem rest_number_le (c : Char) (cs : List Char) (line : Nat) :
    (number c cs line).2.rest.length ≤ cs.length :=
  Nat.le_trans (length_fraction_le _) (length_dropWhile_le Char.isDigit cs)

theorem rest_word_le (c : Char) (cs : List Char) (line : Nat) :
    (word c cs line).2.rest.length ≤ cs.length :=
  length_dropWhile_le continuesWord cs

/-- Only the end token takes no character. -/
theorem rest_tokenAt_lt {cs : List Char} {line : Nat}
    (h : (tokenAt cs line).1.kind ≠ .endOfSource) :
    (tokenAt cs line).2.rest.length < cs.length := by
  unfold tokenAt at h ⊢
  split at h
  case h_1 => exact absurd rfl h
  all_goals rw [List.length_cons, Nat.lt_succ_iff]
  case h_12 | h_13 | h_14 | h_15 | h_16 => exact rest_longest_le ..
  case h_17 => exact rest_string_le ..
  case h_18 =>
    split
    · exact rest_number_le ..
    · split
      · exact rest_word_le ..
      · exact Nat.le_refl _
  all_goals exact Nat.le_refl _

theorem rest_next_lt {s : Scanner} (h : s.next.1.kind ≠ .endOfSource) :
    s.next.2.rest.length < s.rest.length :=
  Nat.lt_of_lt_of_le (rest_tokenAt_lt h) (length_rest_skipBlanks_le _ _ _)

/-! ## All tokens -/

/-- The tokens that are left, the end token last, and the scanner after them. -/
def tokens (s : Scanner) : List Token × Scanner :=
  if _h : s.next.1.kind = .endOfSource then ([s.next.1], s.next.2)
  else
    let later := s.next.2.tokens
    (s.next.1 :: later.1, later.2)
termination_by s.rest.length
decreasing_by exact rest_next_lt _h

end Scanner

/-- The tokens of a source. -/
def scan (source : String) : List Token := (Scanner.ofSource source).tokens.1

end ScriptEngine
