import ScriptEngine.Text.Column
set_option autoImplicit false

/-!
# Tokens

A token is a kind, the text it was read from and the line it ends on.  A kind
either has one spelling, as punctuation, operators and keywords do, or is a
class of spellings (names, numbers, strings).  The table of spellings is the one
place that fixes both what a keyword is and how a kind is described.

`keyword_spelling` says that a keyword is found by its own spelling.

Lines are counted from one with 32 bits, as a build without checks of its
arithmetic does it: behind line 2^32 - 1 the count goes on from zero.  As long as
a source has fewer line breaks than that, no count wraps (`lineAfter_eq_add`).
-/

namespace ScriptEngine

/-! ## Kinds -/

/-- What a token is. -/
inductive TokenKind where
  | leftParen | rightParen | leftBrace | rightBrace
  | comma | dot | minus | plus | slash | star
  | colon | doubleColon
  | bang | bangEqual | equal | equalEqual
  | greater | greaterEqual | less | lessEqual
  | identifier | string | number
  | andWord | classWord | elseWord | falseWord | forWord | fnWord | mixinWord
  | ifWord | nilWord | orWord | returnWord | thisWord | trueWord | varWord
  | whileWord | useWord
  /-- A stretch of source that is no token; its text says what is wrong. -/
  | invalid
  /-- The end of the source. -/
  | endOfSource
  deriving DecidableEq, Repr, Inhabited

namespace TokenKind

/-- The keywords. -/
def keywords : List TokenKind :=
  [andWord, classWord, elseWord, falseWord, forWord, fnWord, mixinWord, ifWord,
   nilWord, orWord, returnWord, thisWord, trueWord, varWord, whileWord, useWord]

/-- The only spelling of a kind, if it has just one. -/
def spelling? : TokenKind → Option String
  | leftParen => some "(" | rightParen => some ")"
  | leftBrace => some "\x7b" | rightBrace => some "\x7d"
  | comma => some "," | dot => some "."
  | minus => some "-" | plus => some "+" | slash => some "/" | star => some "*"
  | colon => some ":" | doubleColon => some "::"
  | bang => some "!" | bangEqual => some "!="
  | equal => some "=" | equalEqual => some "=="
  | greater => some ">" | greaterEqual => some ">="
  | less => some "<" | lessEqual => some "<="
  | andWord => some "and" | classWord => some "class" | elseWord => some "else"
  | falseWord => some "false" | forWord => some "for" | fnWord => some "fn"
  | mixinWord => some "mixin" | ifWord => some "if" | nilWord => some "nil"
  | orWord => some "or" | returnWord => some "return" | thisWord => some "this"
  | trueWord => some "true" | varWord => some "var" | whileWord => some "while"
  | useWord => some "use"
  | identifier | string | number | invalid | endOfSource => none

/-- The keyword that is spelled `word`. -/
def keyword? (word : String) : Option TokenKind :=
  keywords.find? fun k => k.spelling? == some word

/-- How messages speak of a kind. -/
def describe (k : TokenKind) : String :=
  match k.spelling? with
  | some text => "`" ++ text ++ "`"
  | none =>
      match k with
      | identifier => "identifier"
      | string => "string literal"
      | number => "number literal"
      | endOfSource => "end of file"
      | _ => "invalid token"

theorem keyword_spelling {k : TokenKind} {word : String} (hk : k ∈ keywords)
    (h : k.spelling? = some word) : keyword? word = some k := by
  simp only [keywords, List.mem_cons, List.not_mem_nil, or_false] at hk
  rcases hk with rfl | rfl | rfl | rfl | rfl | rfl | rfl | rfl | rfl | rfl | rfl
    | rfl | rfl | rfl | rfl | rfl <;>
  · simp only [spelling?, Option.some.injEq] at h
    subst h
    decide +kernel

end TokenKind

/-! ## Lines -/

/-- The number of the line behind a line break. -/
def nextLine (line : Nat) : Nat := (line + 1) % UInt32.size

/-- The number of the line behind `n` line breaks. -/
def lineAfter (line : Nat) : Nat → Nat
  | 0 => line
  | n + 1 => lineAfter (nextLine line) n

@[simp] theorem lineAfter_zero (line : Nat) : lineAfter line 0 = line := rfl

theorem lineAfter_add (line m n : Nat) :
    lineAfter line (m + n) = lineAfter (lineAfter line m) n := by
  induction m generalizing line with
  | zero => rw [Nat.zero_add, lineAfter]
  | succ m ih => rw [Nat.succ_add, lineAfter, ih, lineAfter]

theorem lineAfter_comm (line m n : Nat) :
    lineAfter (lineAfter line m) n = lineAfter (lineAfter line n) m := by
  rw [← lineAfter_add, Nat.add_comm, lineAfter_add]

theorem nextLine_lineAfter (line n : Nat) :
    nextLine (lineAfter line n) = lineAfter line (n + 1) := (lineAfter_add line n 1).symm

/-- Lines are counted modulo 2^32. -/
theorem lineAfter_eq_mod {line : Nat} (h : line < UInt32.size) (n : Nat) :
    lineAfter line n = (line + n) % UInt32.size := by
  induction n generalizing line with
  | zero => exact (Nat.mod_eq_of_lt h).symm
  | succ n ih =>
    have hnext : nextLine line < UInt32.size := Nat.mod_lt _ (by decide)
    rw [lineAfter, ih hnext, nextLine, Nat.mod_add_mod, Nat.add_assoc, Nat.add_comm 1]

/-- No count wraps that stays below 2^32. -/
theorem lineAfter_eq_add {line n : Nat} (h : line + n < UInt32.size) :
    lineAfter line n = line + n := by
  rw [lineAfter_eq_mod (Nat.lt_of_le_of_lt (Nat.le_add_right line n) h), Nat.mod_eq_of_lt h]

theorem lineAfter_le_add (line n : Nat) : lineAfter line n ≤ line + n := by
  induction n generalizing line with
  | zero => exact Nat.le_refl line
  | succ n ih =>
    have hnext : nextLine line ≤ line + 1 := Nat.mod_le ..
    exact Nat.le_trans (ih _) (by omega)

/-! ## Tokens -/

/-- A token of the source. -/
structure Token where
  kind : TokenKind
  /-- The source text; for an invalid token, what is wrong with it. -/
  lexeme : String
  /-- The line that the token ends on. -/
  line : Nat
  deriving DecidableEq, Repr, Inhabited

namespace Token

/-- The token that stands for the end of the source. -/
def endAt (line : Nat) : Token := ⟨.endOfSource, "", line⟩

/-- A token's kind and place. -/
def describe (t : Token) : String :=
  t.kind.describe ++ " at line " ++ Text.decimal t.line

end Token

end ScriptEngine
