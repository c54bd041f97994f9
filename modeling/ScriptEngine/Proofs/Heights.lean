import ScriptEngine.Proofs.Machine.Mixed
set_option autoImplicit false

/-!
# Heights: how many slots a frame has

The number of slots that a frame has at an instruction does not depend on how it
got there (`heights_static`).  It is the length of the layout at that offset, so
it is one more than the number of arguments at the start, and the number of locals
in scope between two declarations.
-/

namespace ScriptEngine

open Machine Compile

/-! ## Heights of layouts -/

namespace Typing

variable {f : Function Value}

/-- From an instruction on, the code is a row of instructions, and these are all
that have layouts. -/
theorem instructionsFrom (t : Typing f) {o : Nat} {Γ : Layout} (h : t.layouts o = some Γ) :
    ∃ is, f.chunk.instructionsFrom o = .ok is ∧
      (∀ i ∈ is, ∃ Δ next after, t.layouts i.offset = some Δ ∧
        Effect f.chunk.constants f.captureCount next i.op i.operands Δ after) ∧
      ∀ p Δ, o ≤ p → t.layouts p = some Δ → ∃ i ∈ is, i.offset = p := by
  obtain ⟨op, operands, hst, hor⟩ := t.draft.step o Γ h
  have hclosed := hor.resolve_right fun ⟨_, hmem⟩ => List.not_mem_nil hmem
  obtain ⟨⟨after, heff, -⟩, -⟩ := hclosed
  obtain ⟨line, hdecode⟩ := Chunk.decode_eq t.size_lines hst.holds heff
  have hinside : o < f.chunk.code.size := t.draft.inside o Γ h
  have hfirst : ∃ Δ next after, t.layouts o = some Δ ∧
      Effect f.chunk.constants f.captureCount next op operands Δ after := ⟨Γ, _, _, h, heff⟩
  -- no offset within the instruction has a layout
  have hbetween : ∀ p Δ, o ≤ p → t.layouts p = some Δ → p = o ∨ o + 1 + operands.length ≤ p := by
    intro p Δ hle hp
    by_contra hne
    have hnone := hst.apart (p - o) (by omega) (by omega)
    rw [show o + (p - o) = p by omega, hp] at hnone
    cases hnone
  have hsize : o + (Instruction.mk o line op operands).size = o + 1 + operands.length := by
    unfold Instruction.size
    dsimp only
    omega
  unfold Chunk.instructionsFrom
  rw [dif_pos hinside, hdecode]
  dsimp only
  rw [hsize]
  rcases hst.tight with hend | hnext
  · have hstop : ¬ o + 1 + operands.length < f.chunk.code.size := by
      rw [hend]
      exact Nat.lt_irrefl _
    refine ⟨[⟨o, line, op, operands⟩], ?_, fun i hi => ?_, fun p Δ hle hp => ?_⟩
    · unfold Chunk.instructionsFrom
      rw [dif_neg hstop]
    · rw [List.mem_singleton.mp hi]
      exact hfirst
    · rcases hbetween p Δ hle hp with rfl | hbehind
      · exact ⟨_, List.mem_cons_self, rfl⟩
      · have hlt : p < f.chunk.code.size := t.draft.inside p Δ hp
        omega
  · obtain ⟨Δ, hΔ⟩ := Option.isSome_iff_exists.mp hnext
    obtain ⟨is, his, heach, hall⟩ := t.instructionsFrom hΔ
    refine ⟨⟨o, line, op, operands⟩ :: is, ?_, ?_, fun p Θ hle hp => ?_⟩
    · rw [his]
    · exact List.forall_mem_cons.mpr ⟨hfirst, heach⟩
    · rcases hbetween p Θ hle hp with rfl | hbehind
      · exact ⟨_, List.mem_cons_self, rfl⟩
      · obtain ⟨i, hi, hoff⟩ := hall p Θ hbehind hp
        exact ⟨i, List.mem_cons_of_mem _ hi, hoff⟩
termination_by f.chunk.code.size - o

/-- The height of a frame at an offset. -/
def height (t : Typing f) (o : Nat) : Nat :=
  match t.layouts o with
  | some Γ => Γ.length
  | none => t.last.length

theorem height_eq {t : Typing f} {o : Nat} {Γ : Layout} (h : t.layouts o = some Γ) :
    t.height o = Γ.length := by
  unfold height
  rw [h]

theorem height_zero (t : Typing f) : t.height 0 = 1 + f.arity := by
  obtain ⟨Γ, hΓ, hlen⟩ := t.start
  rw [height_eq hΓ, hlen, Nat.add_comm]

/-- At a checkpoint there are the locals in scope and nothing else. -/
theorem height_marks (t : Typing f) {m : Checkpoint} (hm : m ∈ t.marks) :
    t.height m.offset = m.locals := by
  rcases t.draft.marks m hm with ⟨hoff, hlen⟩ | ⟨Γ, hΓ, hlen⟩
  · have hnone : t.layouts m.offset = none := by
      cases hcase : t.layouts m.offset with
      | none => rfl
      | some Γ =>
        have hlt := t.draft.inside _ _ hcase
        omega
    unfold height
    rw [hnone]
    exact hlen
  · rw [height_eq hΓ, hlen]

/-- An instruction that reads or writes a slot does so within the frame, and never
to the callee. -/
theorem operand_lt_height {t : Typing f} {i : Instruction} {Δ : Layout} {next : Nat}
    {after : List (Nat × Layout)} (h : t.layouts i.offset = some Δ)
    (heff : Effect f.chunk.constants f.captureCount next i.op i.operands Δ after)
    (hop : i.op = .getLocal ∨ i.op = .setLocal) :
    ∃ k, i.operands = [k] ∧ 1 ≤ k.toNat ∧ k.toNat < t.height i.offset := by
  rw [height_eq h]
  obtain ⟨offset, line, op, operands⟩ := i
  dsimp only at heff hop ⊢
  rcases hop with rfl | rfl
  · cases heff with
    | @getLocal k b _ hpos hk => exact ⟨k, rfl, hpos, lt_of_fromOldest hk⟩
    | literal hop => cases hop
    | binary hop => cases hop
    | unary hop => cases hop
  · cases heff with
    | @setLocal k b Γ hpos hk =>
      exact ⟨k, rfl, hpos, Nat.lt_succ_of_lt (lt_of_fromOldest hk)⟩
    | literal hop => cases hop
    | binary hop => cases hop
    | unary hop => cases hop

end Typing

/-! ## Function trees -/

/-- A function is another one, or one of those in its pool, or in theirs. -/
inductive Function.Within (g : Function Value) : Function Value → Prop where
  | self : Function.Within g g
  | pooled {f inner : Function Value} (h : .function inner ∈ f.chunk.constants)
      (hg : Function.Within g inner) : Function.Within g f

/-- All functions in a script are finished when it is. -/
theorem exists_finished {c : Compilation} {script g : Function Value}
    (hc : c.Succeeds script) (hg : g.Within script) :
    ∃ done ∈ c.finished, done.function = g := by
  have hall : ∀ f, g.Within f → (∃ done ∈ c.finished, done.function = f) →
      ∃ done ∈ c.finished, done.function = g := by
    intro f hf
    induction hf with
    | self => exact fun h => h
    | pooled hpool _ ih =>
      rintro ⟨done, hdone, rfl⟩
      exact ih (hc.closed done hdone _ hpool)
  exact hall script hg hc.finished

/-! ## Heights -/

/-- The heights of a function's frames: what `h` says of it at each offset. -/
structure HeightsOf (done : Finished) (h : Nat → Nat) (is : List Instruction) : Prop where
  instructions : done.function.chunk.instructions = .ok is
  start : h 0 = 1 + done.function.arity
  /-- Between two declarations there are the locals in scope. -/
  boundaries : ∀ m ∈ done.checkpoints, h m.offset = m.locals
  locals : ∀ i ∈ is, i.op = .getLocal ∨ i.op = .setLocal →
    ∃ k, i.operands = [k] ∧ 1 ≤ k.toNat ∧ k.toNat < h i.offset
  /-- Whatever is there when a script starts, whatever code the script and its natives bring with
  them, and however the function comes to be called. -/
  frames : ∀ {World : Type} (host : Host World) (start : Machine World), start.callers = [] →
    ∀ script : Function Value, script.arity = 0 → ∀ (n : Nat) (f : Frame) (m : Machine World),
      ending host n start (scriptFrame script) = .unfinished f m →
      f.function = done.function → (∃ i ∈ is, i.offset = f.ip) ∧ f.slots.size = h f.ip

/-- The height of a frame depends on nothing but the place in the code. -/
theorem heights_static {firstId : Identity} {source : String} {script g : Function Value}
    (hok : (compile firstId source).outcome = .ok script) (hg : g.Within script) :
    ∃ done ∈ (compile firstId source).finished, done.function = g ∧
      ∃ h is, HeightsOf done h is := by
  have hsucceeds := succeeds_of_compile hok
  obtain ⟨done, hdone, hf⟩ := exists_finished hsucceeds hg
  refine ⟨done, hdone, hf, ?_⟩
  obtain ⟨t, ht⟩ := (hsucceeds.sound done hdone).exists_typing
  obtain ⟨Γ, hΓ, -⟩ := t.start
  obtain ⟨is, his, heach, hall⟩ := t.instructionsFrom hΓ
  refine ⟨t.height, is, his, t.height_zero, ?_, ?_, ?_⟩
  · intro m hm
    exact t.height_marks (ht ▸ hm)
  · intro i hi hop
    obtain ⟨Δ, next, after, hΔ, heff⟩ := heach i hi
    exact Typing.operand_lt_height hΔ heff hop
  · intro World host start hidle script' harity n f m hrun hsame
    have hstart : (scriptFrame script').MayRun (Library.compiled t).amongAll :=
      .start _ rfl (congrArg (· + 1) harity.symm)
    have hsound : start.IsSound (Library.compiled t).amongAll host :=
      isSound_amongAll host fun c hc => absurd (hidle ▸ hc) List.not_mem_nil
    have hhas : (Library.compiled t).Has f.function :=
      ⟨done, ⟨firstId, source, script, hok, hdone⟩, hsame.symm⟩
    obtain ⟨Θ, hframe⟩ := (mayRun_of_unfinished hstart hsound hrun).1.runs hhas
    have hlayout : t.layouts f.ip = some Θ := by
      obtain ⟨⟨hhas, hlayout, -, -⟩, -⟩ := hframe
      generalize f.function = f' at hsame hhas hlayout
      subst hsame
      have htyping : (Library.compiled t).amongAll.typing _ hhas = t :=
        Library.typing_compiled t hhas
      rwa [htyping] at hlayout
    exact ⟨hall f.ip Θ (Nat.zero_le _) hlayout, by rw [hframe.size, Typing.height_eq hlayout]⟩

/-- A function that gives its argument back. -/
def identity : Function Value :=
  ⟨0, some "f", 1, 0, ⟨#[5, 1, 27], #[1, 1, 1], #[]⟩⟩

/-- The script that declares it. -/
def declaringIdentity : Function Value :=
  ⟨1, none, 0, 0,
    ⟨#[26, 1, 8, 0, 1, 27], #[1, 1, 1, 1, 1, 1], #[.string "f", .function identity]⟩⟩

theorem compile_declaringIdentity :
    (compile 0 "fn f(a) \x7b return a \x7d").outcome = .ok declaringIdentity := by
  have hscan : scan "fn f(a) \x7b return a \x7d" =
      [⟨.fnWord, "fn", 1⟩, ⟨.identifier, "f", 1⟩, ⟨.leftParen, "(", 1⟩,
        ⟨.identifier, "a", 1⟩, ⟨.rightParen, ")", 1⟩, ⟨.leftBrace, "\x7b", 1⟩,
        ⟨.returnWord, "return", 1⟩, ⟨.identifier, "a", 1⟩, ⟨.rightBrace, "\x7d", 1⟩,
        .endAt 1] := by decide +kernel
  unfold compile
  rw [hscan]
  rfl

/-- The heights of a function inside a script. -/
theorem heights_identity :
    ∃ done ∈ (compile 0 "fn f(a) \x7b return a \x7d").finished, done.function = identity ∧
      ∃ h is, HeightsOf done h is :=
  heights_static compile_declaringIdentity
    (.pooled (Array.mem_of_getElem? (i := 1) rfl) .self)

end ScriptEngine
