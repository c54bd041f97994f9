import ScriptEngine.Proofs.Acceptance
import ScriptEngine.Proofs.Joined.Program
import ScriptEngine.Proofs.Joined.Runs
set_option autoImplicit false

/-!
# Two sources on one another: scripts

Where two sources and the two on one another compile, the script of the latter is that of the
first source without its end, and that of the second one behind it (`exists_composes`).
-/

namespace ScriptEngine

open Compile Compile.State Machine

/-! ## The end of a script -/

namespace Compile

open State

/-- A checkpoint has been noted at the end of the code, unless there is no code. -/
def Builder.IsMarked (b : Builder) : Prop :=
  b.chunk.code.size = 0 ∨ ⟨b.chunk.code.size, b.locals.length⟩ ∈ b.checkpoints

/-- Each declaration ends with a checkpoint. -/
theorem isMarked_program {depth limit : Nat} {s : State} (h : s.builder.IsMarked) :
    (program (depth + 1) limit s).builder.IsMarked := by
  induction limit generalizing s with
  | zero => exact h
  | succ limit ih =>
    unfold program
    split
    · rw [(read_leaves s).2.1]
      exact h
    · exact ih (.inr List.mem_cons_self)

theorem isMarked_compileTokens (firstId : Identity) (tokens : List Token) :
    (compileTokens firstId tokens).builder.IsMarked := by
  refine isMarked_program (.inl ?_)
  rw [(read_leaves _).2.1]
  rfl

/-- A return is written at the end, unless there is one. -/
theorem returnNil_of_ne {s : State} (h : s.builder.lastOp ≠ some .return) :
    s.returnNil = (s.appendOp .nil).appendOp .return :=
  if_neg h

theorem nextId_returnNil (s : State) : s.returnNil.nextId = s.nextId := by
  unfold State.returnNil
  split <;> rfl

/-- The return at the end of a script finds nothing but the callee. -/
theorem exists_typing_compileTokens {firstId : Identity} {tokens : List Token}
    (hnamed : ∀ t ∈ tokens, t.IsNamed) (hq : (compileTokens firstId tokens).returnNil.IsQuiet)
    (hreturns : (compileTokens firstId tokens).builder.lastOp ≠ some .return) (id : Identity) :
    ∃ t : Typing ((compileTokens firstId tokens).returnNil.builder.finish id),
      ∀ Γ, t.layouts (compileTokens firstId tokens).builder.chunk.code.size = some Γ →
        Γ.length = 1 := by
  obtain ⟨-, -, hscript⟩ := isScript_compileTokens hnamed ((edits_returnNil _).isQuiet hq)
  obtain ⟨-, -, harity, -, H, Γ₀, Δ, hlen, hlast, hlines, d⟩ := sound_compileTokens hnamed hq
  have hmarked := isMarked_compileTokens firstId tokens
  rw [returnNil_of_ne hreturns] at harity hlen hlines d ⊢
  generalize compileTokens firstId tokens = s at *
  refine ⟨⟨H, s.builder.checkpoints, Γ₀, Δ, hlen, hlast, hlines, d⟩, fun Γ hΓ => ?_⟩
  have hsize : ((s.appendOp .nil).appendOp .return).builder.chunk.code.size =
      s.builder.chunk.code.size + 2 := by
    show ((s.builder.chunk.code.push _).push _).size = _
    rw [Array.size_push, Array.size_push]
  rcases hmarked with hzero | hmark
  · rw [hzero] at hΓ hsize
    rcases d.labels _ List.mem_cons_self with ⟨Γ', hΓ', hwiden⟩ | ⟨hend, -⟩
    · obtain rfl : Γ = Γ' := Option.some.inj (hΓ.symm.trans hΓ')
      exact hwiden.length_eq.symm.trans (hlen.trans (congrArg (· + 1) harity))
    · have hne : 0 = 0 + 2 := hend.trans hsize
      omega
  · rcases d.marks _ hmark with ⟨hend, -⟩ | ⟨Γ', hΓ', hlength⟩
    · have hne : s.builder.chunk.code.size = s.builder.chunk.code.size + 2 := hend.trans hsize
      omega
    · obtain rfl : Γ = Γ' := Option.some.inj (hΓ.symm.trans hΓ')
      rw [hlength, hscript.locals]
      rfl

theorem Builder.IsScript.returnNil {s : State} (h : s.builder.IsScript) :
    s.returnNil.builder.IsScript := by
  unfold State.returnNil
  split
  · exact h
  · exact ⟨h.name, h.arity, h.depth, h.locals, h.captures⟩

/-! ## Identities and lines -/

section Twins

variable {M : Matching} {a b : Identity}

/-- Which identities are given to the functions of a source, and which lines its tokens are on,
makes no difference to the script. -/
theorem finish_matches {first first' : Identity} {tokens tokens' : List Token}
    (htokens : List.Forall₂ (Token.Matches M.lines) tokens tokens') (hline : M.lines 1 1)
    (hids : ∀ i, first + i < (compileTokens first tokens).returnNil.nextId →
      M.ids (first + i) (first' + i)) (hab : M.ids a b) :
    ((compileTokens first tokens).returnNil.builder.finish a).Matches M
      ((compileTokens first' tokens').returnNil.builder.finish b) ∧
    (∃ k, (compileTokens first tokens).returnNil.nextId = first + k ∧
      (compileTokens first' tokens').returnNil.nextId = first' + k) ∧
    ((compileTokens first tokens).returnNil.IsQuiet →
      (compileTokens first' tokens').returnNil.IsQuiet) := by
  let σ : Latitude := ⟨M.lines, first, first', true, [], fun _ => rfl,
    standsApart_of_nil⟩
  have hr := (σ.abreast_compileTokens hline rfl htokens).returnNil (.inl rfl)
  have hgrows : (σ.matching (compileTokens first tokens).returnNil.nextId).Grows M := by
    refine ⟨?_, False.elim, id⟩
    rintro x y ⟨hlt, i, rfl, rfl⟩
    exact hids i hlt
  refine ⟨hr.finish_as rfl rfl hgrows hab, hr.nextId, fun hq => ?_⟩
  have hdiagnostics := hr.diagnostics
  rw [show (compileTokens σ.first tokens).returnNil.diagnostics = #[] from hq] at hdiagnostics
  exact Array.toList_eq_nil_iff.mp (List.forall₂_nil_left_iff.mp hdiagnostics)

end Twins

end Compile

/-- What the outcome of a source says about the compiler. -/
theorem compile_eq_ok {firstId : Identity} {source : String} {script : Function Value}
    (h : (compile firstId source).outcome = .ok script) :
    (compileTokens firstId (scan source)).returnNil.IsQuiet ∧
      script = (compileTokens firstId (scan source)).returnNil.builder.finish
        (compileTokens firstId (scan source)).returnNil.nextId ∧
      (compile firstId source).nextId =
        (compileTokens firstId (scan source)).returnNil.nextId + 1 := by
  unfold compile at h ⊢
  rw [Compilation.ofState_eq] at h ⊢
  dsimp only at h
  split at h
  · next hempty =>
    cases h
    exact ⟨Array.isEmpty_iff.mp hempty, rfl, rfl⟩
  · cases h

/-- Which identity a script has does not change where its code stands. -/
theorem exists_relocates_self {firstId : Identity} {source : String} {script : Function Value}
    (h : (compile firstId source).outcome = .ok script) (a : Identity) :
    script.arity = 0 ∧ Nonempty (Typing script) ∧
      ∃ is, Relocates is [] 0 0 script { script with id := a } := by
  have hsucceeds := succeeds_of_compile h
  obtain ⟨done, hdone, rfl⟩ := hsucceeds.finished
  obtain ⟨t, -⟩ := (hsucceeds.sound done hdone).exists_typing
  refine ⟨hsucceeds.arity, ⟨t⟩, ?_⟩
  have hcount := hsucceeds.captureCount
  obtain ⟨hq, hscript, -⟩ := compile_eq_ok h
  have hroomy := (sound_compileTokens (named_scan source) hq).1.roomy _ List.mem_cons_self
  let σ : Latitude := ⟨Eq, firstId, firstId, true, [], fun _ => rfl,
    standsApart_of_nil⟩
  have hsame : List.Forall₂ (Token.Matches σ.lines) (scan source) (scan source) :=
    List.forall₂_same.mpr fun _ _ => ⟨rfl, rfl, rfl⟩
  have hr := (σ.abreast_compileTokens rfl rfl hsame).returnNil (.inl rfl)
  obtain ⟨is, his, -, -, hfits⟩ := hr.builder.chunk.code
  rw [hscript] at hcount ⊢
  refine ⟨is, ⟨?_, ?_, ⟨[], [], rfl, ?_⟩, rfl, fun _ _ => rfl, hroomy.constants, hcount⟩⟩
  · rw [List.append_nil]
    exact his
  · rw [List.append_nil]
    exact hfits hroomy.constants
  · rw [List.map_id'' Item.shift_zero, List.append_nil]
    exact his

/-! ## Two sources -/

/-- The last token of the source, if it has one, is not `return`. -/
def EndsBefore (source : String) : Prop :=
  ∀ t, (scan source).dropLast.getLast? = some t → t.kind ≠ .returnWord

/-- The first token of the source does not go on with an expression before it. -/
def StartsAnew (source : String) : Prop :=
  ∀ t, (scan source).head? = some t → t.kind.continuation? = none

/-- How the script `q` is made up of the script `p₁` and of `p`, which is the script `p₂` but for
its identities and lines.  The functions in `p₁` have identities from `n` on, and those in `p₂`
from `n₂` on. -/
structure Composes (n n₂ : Identity) (is js : List Item) (p₁ p₂ p q : Function Value) :
    Prop where
  first : Relocates is endOfScript 0 0 p₁ q
  second : Relocates js [] (codeOf is).length p₁.chunk.constants.size p q
  arity₁ : p₁.arity = 0
  arity : p.arity = 0
  typing₁ : ∃ t : Typing p₁, ∀ Γ, t.layouts (codeOf is).length = some Γ → Γ.length = 1
  typing : Nonempty (Typing p)
  ids : ∃ k₁ k₂, p₁.id = n + k₁ ∧ p₂.id = n₂ + k₂ ∧ q.id = n + k₁ + k₂
  /-- It does not matter which identity the first script has. -/
  self : ∀ (M : Matching) (a b : Identity), (∀ i, M.lines i i) →
    (∀ i, n ≤ i → i < p₁.id → M.ids i i) → M.ids a b →
    Function.Matches M { p₁ with id := a } { p₁ with id := b }
  twin : ∀ (M : Matching) (a b : Identity), (∀ i j, M.lines i j) →
    (∀ i, n₂ + i < p₂.id → M.ids (n₂ + i) (p₁.id + i)) → M.ids a b →
    Function.Matches M { p₂ with id := a } { p with id := b }

/-- The function under construction, finished with the next identity. -/
def Compile.State.script (s : State) : Function Value :=
  s.returnNil.builder.finish s.returnNil.nextId

/-- Code on other code stands where it has been moved to. -/
theorem Compile.Joins.relocates {c₁ c₂ c : State} (h : Joins c₁ c₂ c)
    (hreturns : c₁.builder.lastOp ≠ some .return) (hscript₁ : c₁.builder.IsScript)
    (hscript₂ : c₂.builder.IsScript) (hscript : c.builder.IsScript)
    (hroomy : c.builder.chunk.constants.size ≤ byteRange) (a₁ a₂ a : Identity) :
    ∃ is js, c₁.builder.chunk.code.size = (codeOf is).length ∧
      Relocates is endOfScript 0 0 (c₁.returnNil.builder.finish a₁)
        (c.builder.finish a) ∧
      Relocates js [] (codeOf is).length (c₁.returnNil.builder.finish a₁).chunk.constants.size
        (c₂.builder.finish a₂) (c.builder.finish a) := by
  obtain ⟨is, js, hcode₁, hcode₂, hcode, hfits₁, hfits₂⟩ := h.code
  have hpool := h.constants
  rw [← Array.length_toList, hpool, List.length_append, Array.length_toList,
    Array.length_toList] at hroomy
  rw [returnNil_of_ne hreturns]
  refine ⟨is, js, by rw [← Array.length_toList, hcode₁], ?_, ?_⟩
  · exact {
      code := by
        show ((c₁.builder.chunk.code.push _).push _).toList = _
        rw [Array.toList_push, Array.toList_push, hcode₁, List.append_assoc, codeOf_append]
        rfl
      fits := fun i hi => by
        rcases List.mem_append.mp hi with hi | hi
        · exact hfits₁ i hi
        · rcases List.mem_pair.mp hi with rfl | rfl <;> rfl
      moved := by
        refine ⟨[], codeOf (js.map (Item.shift c₁.builder.chunk.constants.size)), rfl, ?_⟩
        rw [List.map_id'' Item.shift_zero]
        exact hcode
      name := hscript.name.trans hscript₁.name.symm
      constants := fun i hi => by
        have hi : i < c₁.builder.chunk.constants.toList.length := by
          rw [Array.length_toList]
          exact hi
        show c.builder.chunk.constants[i + 0]? = c₁.builder.chunk.constants[i]?
        rw [Nat.add_zero, ← Array.getElem?_toList, hpool, List.getElem?_append_left hi,
          Array.getElem?_toList]
      room := by
        show c₁.builder.chunk.constants.size + 0 ≤ byteRange
        omega
      captureCount := congrArg List.length hscript₁.captures }
  · exact {
      code := by
        rw [List.append_nil]
        exact hcode₂
      fits := fun i hi => by
        rw [List.append_nil] at hi
        exact hfits₂ i hi
      moved := by
        refine ⟨codeOf is, [], rfl, ?_⟩
        rw [List.append_nil]
        exact hcode
      name := hscript.name.trans hscript₂.name.symm
      constants := fun i _ => by
        show c.builder.chunk.constants[i + c₁.builder.chunk.constants.size]? =
          c₂.builder.chunk.constants[i]?
        rw [← Array.getElem?_toList, hpool, List.getElem?_append_right (by simp),
          Array.length_toList, Nat.add_sub_cancel, Array.getElem?_toList]
      room := by
        show c₂.builder.chunk.constants.size + c₁.builder.chunk.constants.size ≤ byteRange
        omega
      captureCount := congrArg List.length hscript₂.captures }

section Scripts

variable {n : Identity} {us later tokens₂ : List Token} {e : Token}

/-- Code on other code is a script on another one. -/
theorem composes_of_joins (n₂ : Identity) (hnamed₁ : ∀ t ∈ us ++ [e], t.IsNamed)
    (hnamed₂ : ∀ t ∈ later, t.IsNamed)
    (htokens : List.Forall₂ (Token.Matches fun _ _ => True) tokens₂ later)
    (hq₁ : (compileTokens n (us ++ [e])).returnNil.IsQuiet)
    (hreturns : (compileTokens n (us ++ [e])).builder.lastOp ≠ some .return)
    (hq₂ : (compileTokens (compileTokens n (us ++ [e])).nextId later).returnNil.IsQuiet)
    (hq : (compileTokens n (us ++ later)).returnNil.IsQuiet)
    (hjoins : Joins (compileTokens n (us ++ [e]))
      (compileTokens (compileTokens n (us ++ [e])).nextId later).returnNil
      (compileTokens n (us ++ later)).returnNil) :
    ∃ is js, Composes n n₂ is js (compileTokens n (us ++ [e])).script
      (compileTokens n₂ tokens₂).script
      (compileTokens (compileTokens n (us ++ [e])).nextId later).script
      (compileTokens n (us ++ later)).script := by
  have hnamed : ∀ t ∈ us ++ later, t.IsNamed := fun t ht =>
    (List.mem_append.mp ht).elim (fun hu => hnamed₁ t (List.mem_append_left _ hu)) (hnamed₂ t)
  obtain ⟨-, -, hscript₁⟩ := isScript_compileTokens hnamed₁ ((edits_returnNil _).isQuiet hq₁)
  obtain ⟨-, -, hscript₂⟩ := isScript_compileTokens hnamed₂ ((edits_returnNil _).isQuiet hq₂)
  obtain ⟨-, -, hscript⟩ := isScript_compileTokens hnamed ((edits_returnNil _).isQuiet hq)
  obtain ⟨hsane, -⟩ := sound_compileTokens hnamed hq
  obtain ⟨-, -, -, -, hsound₂⟩ := sound_compileTokens hnamed₂ hq₂
  obtain ⟨t₂, -⟩ := hsound₂.exists_typing
  obtain ⟨t₁, ht₁⟩ := exists_typing_compileTokens hnamed₁ hq₁ hreturns
    (compileTokens n (us ++ [e])).returnNil.nextId
  have hnext₁ := nextId_returnNil (compileTokens n (us ++ [e]))
  obtain ⟨is, js, hsize, hfirst, hsecond⟩ := hjoins.relocates hreturns hscript₁
    hscript₂.returnNil hscript.returnNil (hsane.roomy _ List.mem_cons_self).constants
    (compileTokens n (us ++ [e])).returnNil.nextId
    (compileTokens (compileTokens n (us ++ [e])).nextId later).returnNil.nextId
    (compileTokens n (us ++ later)).returnNil.nextId
  rw [hsize] at ht₁
  have hself := fun (M : Matching) (a b : Identity) (hlines : ∀ i, M.lines i i) =>
    @finish_matches M a b n n (us ++ [e]) (us ++ [e])
      (List.forall₂_same.mpr fun t _ => ⟨rfl, rfl, hlines t.line⟩) (hlines 1)
  have htwin := fun (M : Matching) (a b : Identity) (hlines : ∀ i j, M.lines i j) =>
    @finish_matches M a b n₂ (compileTokens n (us ++ [e])).nextId tokens₂ later
      (htokens.imp fun t t' h => ⟨h.kind, h.lexeme, hlines t.line t'.line⟩) (hlines 1 1)
  refine ⟨is, js, hfirst, hsecond, hscript₁.returnNil.arity, hscript₂.returnNil.arity, ⟨t₁, ht₁⟩,
    ⟨t₂⟩, ?_, ?_, ?_⟩
  · obtain ⟨-, ⟨k₁, hk₁, -⟩, -⟩ := hself ⟨fun _ _ => True, fun _ _ => True, fun _ _ => True⟩ 0 0
      (fun _ => trivial) (fun _ _ => trivial) trivial
    obtain ⟨-, ⟨k₂, hk₂, hk₂'⟩, -⟩ := htwin ⟨fun _ _ => True, fun _ _ => True, fun _ _ => True⟩ 0 0
      (fun _ _ => trivial) (fun _ _ => trivial) trivial
    refine ⟨k₁, k₂, hk₁, hk₂, hjoins.nextId.trans (hk₂'.trans ?_)⟩
    rw [← hnext₁, hk₁]
  · intro M a b hlines hids hab
    refine (hself M a b hlines (fun i hi => ?_) hab).1
    exact hids _ (Nat.le_add_right n i) hi
  · intro M a b hlines hids hab
    refine (htwin M a b hlines (fun i hi => ?_) hab).1
    rw [← hnext₁]
    exact hids i hi

end Scripts

/-- A source ends in one token for its end and holds no other one. -/
theorem exists_end_scan (source : String) : ∃ us e, scan source = us ++ [e] ∧
    e.kind = .endOfSource ∧ ∀ u ∈ us, u.kind ≠ .endOfSource := by
  obtain ⟨before, hkinds, hnot⟩ := ended_scan source
  obtain ⟨us, es, hscan, rfl, hes⟩ := List.map_eq_append_iff.mp hkinds
  obtain ⟨e, es', rfl, he, hnil⟩ := List.map_eq_cons_iff.mp hes
  obtain rfl := List.map_eq_nil_iff.mp hnil
  exact ⟨us, e, hscan, he, fun u hu hkind => hnot (List.mem_map.mpr ⟨u, hu, hkind⟩)⟩

/-- What a program starts with ends nothing before it. -/
theorem standsApart_of_isProgram {ks : List TokenKind} {k : TokenKind}
    (h : IsProgram true (k :: ks)) (hk : k.continuation? = none) : k.StandsApart := by
  refine ⟨hk, ?_⟩
  cases h with
  | program all =>
    rcases all.declarations_cases with heq | ⟨k', rest, heq, hstarts⟩
    · obtain ⟨rfl, -⟩ := List.cons.inj heq
      decide
    · obtain ⟨rfl, -⟩ := List.cons.inj heq
      revert hstarts
      cases k <;> decide

/-- The scripts of two sources make up that of the two on one another. -/
theorem exists_composes {n n₂ : Identity} {s₁ s₂ : String} {p₁ p₂ q : Function Value}
    (h₁ : (compile n s₁).outcome = .ok p₁) (h₂ : (compile n₂ s₂).outcome = .ok p₂)
    (h : (compile n (s₁ ++ "\n" ++ s₂)).outcome = .ok q) (hends : EndsBefore s₁)
    (hstarts : StartsAnew s₂)
    (hreturns : (compileTokens n (scan s₁)).builder.lastOp ≠ some .return) :
    ∃ is js p, Composes n n₂ is js p₁ p₂ p q := by
  obtain ⟨hq₁, rfl, -⟩ := compile_eq_ok h₁
  obtain ⟨hq₂, rfl, -⟩ := compile_eq_ok h₂
  obtain ⟨hq, rfl, -⟩ := compile_eq_ok h
  obtain ⟨us, e, hscan, hend, hinside⟩ := exists_end_scan s₁
  obtain ⟨hvalid₁, -⟩ := derives_compileTokens true (named_scan s₁) (ended_scan s₁)
    ((edits_returnNil _).isQuiet hq₁)
  obtain ⟨-, hprogram₂⟩ := derives_compileTokens true (named_scan s₂) (ended_scan s₂)
    ((edits_returnNil _).isQuiet hq₂)
  have hjoined := scan_joined s₂ fun t ht hunclosed => hvalid₁ t ht hunclosed.1
  generalize (Scanner.ofSource s₁).tokens.2.line = k at hjoined
  rw [hscan, List.dropLast_concat] at hjoined
  have hlast := hends
  unfold EndsBefore at hlast
  rw [hscan, List.dropLast_concat] at hlast
  have hnamed₁ := named_scan s₁
  have hnamed₂ : ∀ t ∈ (scan s₂).map (Token.down k), t.IsNamed := fun t ht => by
    obtain ⟨u, hu, rfl⟩ := List.mem_map.mp ht
    exact named_scan s₂ u hu
  have htokens : List.Forall₂ (Token.Matches fun _ _ => True) (scan s₂)
      ((scan s₂).map (Token.down k)) :=
    List.forall₂_map_right_iff.mpr (List.forall₂_same.mpr fun t _ => ⟨rfl, rfl, trivial⟩)
  have happart : ∀ t, ((scan s₂).map (Token.down k)).head? = some t → t.kind.StandsApart := by
    intro t ht
    rw [List.head?_map] at ht
    obtain ⟨u, hu, rfl⟩ := Option.map_eq_some_iff.mp ht
    obtain ⟨ts, hts⟩ := List.head?_eq_some_iff.mp hu
    rw [hts] at hprogram₂
    exact standsApart_of_isProgram hprogram₂ (hstarts u hu)
  have hne : (scan s₂).map (Token.down k) ≠ [] := fun hnil => by
    rw [List.map_eq_nil_iff] at hnil
    exact (ended_scan s₂).ne_nil (congrArg (List.map Token.kind) hnil)
  rw [hscan] at hq₁ hreturns hnamed₁ ⊢
  rw [hjoined] at hq ⊢
  generalize (scan s₂).map (Token.down k) = later at *
  have hquiet : (compileTokens (compileTokens n (us ++ [e])).nextId later).returnNil.IsQuiet :=
    (finish_matches (M := ⟨fun _ _ => True, fun _ _ => True, fun _ _ => True⟩) (a := 0) (b := 0)
      htokens trivial (fun _ _ => trivial) trivial).2.2 hq₂
  obtain ⟨is, js, hcomposes⟩ := composes_of_joins n₂ hnamed₁ hnamed₂ htokens hq₁ hreturns
    hquiet hq (joins_compileTokens happart hne hend hinside hlast hnamed₁ hnamed₂
      ((edits_returnNil _).isQuiet hq₁) hreturns hquiet hq)
  exact ⟨is, js, _, hcomposes⟩

end ScriptEngine
