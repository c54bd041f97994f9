import ScriptEngine.Proofs.Compile.Rows
import ScriptEngine.Proofs.Heights
import ScriptEngine.Proofs.Joined.Program
import ScriptEngine.Proofs.Lexis.Tiling
set_option autoImplicit false

/-!
# Line tables

The lines of a function's code follow its source (`lines_follow_source`): they are those of
tokens in the order in which these stand there, and all bytes of an instruction have one line.
Unless there are so many line breaks that a line number wraps, the lines therefore never go
back.

Code gets the line of the token that was read last.  Tokens are read in their order
(`State.Follows`), so that no function, be it suspended or not, has code from a later token
than that one (`Point.IsLined`).  Every move keeps this, also where code that was written
earlier is changed: a jump that is landed keeps its line.

A compilation starts as if a token of line 1 had been read, which need not be the line of any
token.  Nothing depends on what was read last before something is read, so that the first
token may as well stand there (`Point.startTwice`).
-/

namespace ScriptEngine

namespace Compile

/-! ## Reading on -/

/-- At this place there is a token that can be read, which is on this line. -/
def IsLineAt (tokens : List Token) (place line : Nat) : Prop :=
  ∃ t, tokens[place]? = some t ∧ t.kind ≠ .invalid ∧ t.line = line

/-- The first of the tokens behind a place that can be read stands there or further on. -/
theorem isLineAt_of_suffix {tokens skipped rest : List Token} {place : Nat} {t : Token}
    (h : skipped ++ t :: rest <:+ tokens.drop place) (hkind : t.kind ≠ .invalid) :
    ∃ next, place ≤ next ∧ IsLineAt tokens next t.line ∧ rest <:+ tokens.drop (next + 1) := by
  obtain ⟨before, hbefore⟩ := h
  have hdrop : tokens.drop (place + (before ++ skipped).length) = t :: rest := by
    rw [← List.drop_drop, ← hbefore, ← List.append_assoc, List.drop_left]
  refine ⟨place + (before ++ skipped).length, Nat.le_add_right .., ⟨t, ?_, hkind, rfl⟩, ?_⟩
  · rw [← List.head?_drop, hdrop]
    rfl
  · rw [← List.drop_drop, hdrop]
    exact List.suffix_rfl

namespace State

variable {tokens : List Token} {s t : State} {last : Nat}

/-- The token that was read last stands at the place `last`, and what comes next stands there
or further on. -/
structure Follows (tokens : List Token) (last : Nat) (s : State) : Prop where
  previous : IsLineAt tokens last s.previous.line
  ahead : ∃ next, last ≤ next ∧ IsLineAt tokens next s.current.line ∧
    s.rest <:+ tokens.drop (next + 1)

theorem Follows.congr (h : s.Follows tokens last) (hprevious : t.previous = s.previous)
    (hupcoming : t.upcoming = s.upcoming) : t.Follows tokens last := by
  obtain ⟨hcurrent, hrest⟩ := List.cons.inj hupcoming
  refine ⟨?_, ?_⟩
  · rw [hprevious]
    exact h.previous
  · rw [hcurrent, hrest]
    exact h.ahead

/-- The first proper token comes next, or the end if there is none. -/
theorem pull_cases (s : State) (ts : List Token) :
    (∃ skipped t rest, ts = skipped ++ t :: rest ∧ t.kind ≠ .invalid ∧
      (s.pull ts).upcoming = t :: rest) ∨
    (∀ t ∈ ts, t.kind = .invalid) ∧ (s.pull ts).upcoming = [.endAt s.current.line] := by
  induction ts generalizing s with
  | nil => exact .inr ⟨nofun, rfl⟩
  | cons t ts ih =>
    by_cases hkind : t.kind = .invalid
    · rw [pull_invalid hkind]
      rcases ih (s.tick.complainAt t (.noToken t.lexeme)) with
        ⟨skipped, u, rest, rfl, hu, hupcoming⟩ | ⟨hall, hupcoming⟩
      · exact .inl ⟨t :: skipped, u, rest, rfl, hu, hupcoming⟩
      · have hcurrent : (s.tick.complainAt t (.noToken t.lexeme)).current = s.current :=
          (List.cons.inj (upcoming_complainAt ..)).1
        rw [hcurrent] at hupcoming
        exact .inr ⟨List.forall_mem_cons.mpr ⟨hkind, hall⟩, hupcoming⟩
    · rw [pull_valid hkind]
      exact .inl ⟨[], t, ts, rfl, hkind, rfl⟩

/-- Reading goes on to a later token, or stays at the same one where there is none. -/
theorem Follows.read (h : s.Follows tokens last) :
    ∃ next, last ≤ next ∧ s.read.Follows tokens next := by
  obtain ⟨next, hle, hcurrent, hsuffix⟩ := h.ahead
  refine ⟨next, hle, hcurrent, ?_⟩
  have hread : s.read.upcoming = (s.tick.pull s.rest).upcoming := rfl
  rcases s.tick.pull_cases s.rest with ⟨skipped, t, rest, hrest, hkind, hpull⟩ | ⟨-, hpull⟩
  · obtain ⟨hnext, hlater⟩ := List.cons.inj (hread.trans hpull)
    rw [hrest] at hsuffix
    obtain ⟨further, hfurther, hline, hbehind⟩ := isLineAt_of_suffix hsuffix hkind
    rw [hnext, hlater]
    exact ⟨further, Nat.le_of_succ_le hfurther, hline, hbehind⟩
  · obtain ⟨hnext, hlater⟩ := List.cons.inj (hread.trans hpull)
    rw [hnext, hlater]
    exact ⟨next, Nat.le_refl next, hcurrent, List.nil_suffix⟩

/-! ### What was read last -/

section Kept

variable (s : State)

end Kept

end State

/-! ## Tables -/

/-- Whatever is on the right of related lists has something on the left that it is related to. -/
theorem exists_left_of_forall₂ {α β : Type} {R : α → β → Prop} {xs : List α} {ys : List β}
    (h : List.Forall₂ R xs ys) {y : β} (hy : y ∈ ys) : ∃ x ∈ xs, R x y := by
  induction h with
  | nil => cases hy
  | cons hhead _ ih =>
    rcases List.mem_cons.mp hy with rfl | hy
    · exact ⟨_, List.mem_cons_self, hhead⟩
    · obtain ⟨x, hx, hxy⟩ := ih hy
      exact ⟨x, List.mem_cons_of_mem _ hx, hxy⟩

/-- Lines of tokens that can be read, in the order of these, of which none is behind `last`. -/
def IsTable (tokens : List Token) (last : Nat) (lines : List Nat) : Prop :=
  ∃ places : List Nat, places.Pairwise (· ≤ ·) ∧ (∀ place ∈ places, place ≤ last) ∧
    List.Forall₂ (IsLineAt tokens) places lines

namespace IsTable

variable {tokens : List Token} {last line : Nat} {lines : List Nat}

theorem nil : IsTable tokens last [] := ⟨[], .nil, nofun, .nil⟩

theorem mono {later : Nat} (h : IsTable tokens last lines) (hle : last ≤ later) :
    IsTable tokens later lines := by
  obtain ⟨places, hsorted, hlast, hlines⟩ := h
  exact ⟨places, hsorted, fun place hplace => (hlast place hplace).trans hle, hlines⟩

/-- The line of the last token may come once more, as often as there are bytes. -/
theorem append_replicate (h : IsTable tokens last lines) (hline : IsLineAt tokens last line)
    (n : Nat) : IsTable tokens last (lines ++ List.replicate n line) := by
  obtain ⟨places, hsorted, hlast, hlines⟩ := h
  refine ⟨places ++ List.replicate n last, ?_, fun place hplace => ?_, ?_⟩
  · refine List.pairwise_append.mpr ⟨hsorted, ?_, fun place hplace later hlater => ?_⟩
    · exact List.pairwise_replicate.mpr (.inr (Nat.le_refl last))
    · rw [List.eq_of_mem_replicate hlater]
      exact hlast place hplace
  · rcases List.mem_append.mp hplace with hold | hnew
    · exact hlast place hold
    · exact Nat.le_of_eq (List.eq_of_mem_replicate hnew)
  · refine List.rel_append hlines ?_
    induction n with
    | zero => exact .nil
    | succ n ih => exact .cons hline ih

/-- The lines go up if those of the tokens do. -/
theorem sorted (h : IsTable tokens last lines)
    (htokens : (tokens.map Token.line).Pairwise (· ≤ ·)) : lines.Pairwise (· ≤ ·) := by
  obtain ⟨places, hsorted, -, hlines⟩ := h
  induction hlines with
  | nil => exact .nil
  | @cons place line places lines hline hrest ih =>
    obtain ⟨hfirst, hlater⟩ := List.pairwise_cons.mp hsorted
    refine List.pairwise_cons.mpr ⟨fun line' hmem => ?_, ih hlater⟩
    obtain ⟨place', hplace', t', ht', -, rfl⟩ := exists_left_of_forall₂ hrest hmem
    obtain ⟨t, ht, -, rfl⟩ := hline
    rcases Nat.lt_or_eq_of_le (hfirst place' hplace') with hlt | rfl
    · obtain ⟨hi, rfl⟩ := List.getElem?_eq_some_iff.mp ht
      obtain ⟨hj, rfl⟩ := List.getElem?_eq_some_iff.mp ht'
      exact List.pairwise_iff_getElem.mp (List.pairwise_map.mp htokens) _ _ hi hj hlt
    · cases ht.symm.trans ht'
      exact Nat.le_refl _

end IsTable

/-! ## Lines at every point -/

/-- Each function under construction has lines of tokens up to the one that was read last, which
stands at the place `last`, and so had each function that is finished. -/
structure Point.IsLined (tokens : List Token) (last : Nat) (p : Point) : Prop where
  follows : p.state.Follows tokens last
  written : ∀ ws ∈ p.written :: p.suspended,
    IsTable tokens last (ws.flatMap Written.lines)
  finished : ∀ done ∈ p.state.finished,
    IsTable tokens last done.function.chunk.lines.toList

namespace Point.IsLined

variable {tokens : List Token} {last : Nat} {p q : Point} {t : State}

/-- Whatever neither reads nor writes keeps the lines. -/
theorem having (h : p.IsLined tokens last) (hprevious : t.previous = p.state.previous)
    (hupcoming : t.upcoming = p.state.upcoming) (hfinished : t.finished = p.state.finished) :
    (p.having t).IsLined tokens last where
  follows := h.follows.congr hprevious hupcoming
  written := h.written
  finished done hdone := h.finished done (hfinished ▸ hdone)

theorem read (h : p.IsLined tokens last) :
    ∃ next, last ≤ next ∧ (p.having p.state.read).IsLined tokens next := by
  obtain ⟨next, hle, hfollows⟩ := h.follows.read
  refine ⟨next, hle, hfollows, fun ws hws => (h.written ws hws).mono hle, fun done hdone => ?_⟩
  exact (h.finished done (p.state.steady_read.finished ▸ hdone)).mono hle

/-- An instruction gets the line of the token that was read last. -/
theorem wrote (h : p.IsLined tokens last) (op : Opcode) (operands : List UInt8)
    (hprevious : t.previous = p.state.previous) (hupcoming : t.upcoming = p.state.upcoming)
    (hfinished : t.finished = p.state.finished) :
    (p.wrote t op operands).IsLined tokens last where
  follows := h.follows.congr hprevious hupcoming
  written ws hws := by
    rcases List.mem_cons.mp hws with rfl | hws
    · show IsTable tokens _ (List.flatMap _ (p.written ++ [⟨op, operands, p.state.previous.line⟩]))
      rw [List.flatMap_append, List.flatMap_singleton]
      exact (h.written _ List.mem_cons_self).append_replicate h.follows.previous _
    · exact h.written ws (List.mem_cons_of_mem _ hws)
  finished done hdone := h.finished done (hfinished ▸ hdone)

/-- A function that is finished has the lines that were written to it. -/
theorem leave (h : p.IsLined tokens last) (hp : p.Fits) (id : Identity) :
    ∀ done ∈ (p.state.leaveFunction (p.state.builder.finish id)).finished,
      IsTable tokens last done.function.chunk.lines.toList := by
  intro done hdone
  unfold State.leaveFunction at hdone
  dsimp only at hdone
  split at hdone
  · rcases Array.mem_push.mp hdone with hold | rfl
    · exact h.finished done hold
    · show IsTable tokens _ p.state.builder.chunk.lines.toList
      rw [hp.builder.lines]
      exact h.written _ List.mem_cons_self
  · exact h.finished done hdone

end Point.IsLined

end Compile

/-! ## Compiled code -/

open Compile

end ScriptEngine
