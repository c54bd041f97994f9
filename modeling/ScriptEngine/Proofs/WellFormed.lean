import ScriptEngine.Proofs.Heights
set_option autoImplicit false

/-!
# Well-formed bytecode

Everything that a compiled function says about itself is true of it: its line table
is as long as its code, its code decodes from the first byte to the last and ends in
a return, its jumps lead to instructions, and its operands name constants of the
right kind and cells that it has (`isWellFormed_of_compile`).

All of it is read off the typing that comes with a compiled function: an instruction
has an effect, and the effect says what its operands must be.
-/

namespace ScriptEngine

open Compile

/-! ## Well-formedness -/

/-- The operands of an instruction refer to something.  `is` are all instructions of
the function `f`. -/
structure Instruction.IsWellFormed (f : Function Value) (is : List Instruction)
    (i : Instruction) : Prop where
  target : i.op = .jump ∨ i.op = .jumpIfFalse ∨ i.op = .loop →
    ∃ j ∈ is, i.target? = some j.offset ∧ j.offset < f.chunk.code.size
  constant : i.op.namesConstant = true →
    ∃ k, i.constant? = some k ∧ k < f.chunk.constants.size
  variableName : i.op = .getGlobal ∨ i.op = .defineGlobal ∨ i.op = .setGlobal →
    ∃ k name, i.constant? = some k ∧ f.chunk.constants[k]? = some (.string name)
  closed : i.op = .closure →
    ∃ k g, i.constant? = some k ∧ f.chunk.constants[k]? = some (.function g)
  literal : i.op = .constant →
    ∃ k v, i.constant? = some k ∧ f.chunk.constants[k]? = some v ∧ v.isLiteral = true
  cell : i.op = .getUpvalue ∨ i.op = .setUpvalue →
    ∃ k, i.operands = [k] ∧ k.toNat < f.captureCount
  captures : ∀ c ∈ i.captures, c.isLocal = false → c.index < f.captureCount

/-- The code of a function is a row of instructions with all that they refer to. -/
structure Function.IsWellFormed (f : Function Value) (is : List Instruction) : Prop where
  lines : f.chunk.lines.size = f.chunk.code.size
  instructions : f.chunk.instructions = .ok is
  ends : ∃ i, is.getLast? = some i ∧ i.op = .return
  each : ∀ i ∈ is, i.IsWellFormed f is

/-! ## Operands of instructions with effects -/

section Effects

variable {pool : Array Value} {captureCount : Nat} {i : Instruction} {Γ : Layout}
  {after : List (Nat × Layout)}

/-- What an instruction means to a frame. -/
abbrev Instruction.HasEffect (pool : Array Value) (captureCount : Nat) (i : Instruction)
    (Γ : Layout) (after : List (Nat × Layout)) : Prop :=
  Effect pool captureCount (i.offset + i.size) i.op i.operands Γ after

namespace Instruction.HasEffect

/-- A jump leads to its target. -/
theorem target (h : i.HasEffect pool captureCount Γ after)
    (hop : i.op = .jump ∨ i.op = .jumpIfFalse ∨ i.op = .loop) :
    ∃ x ∈ after, i.target? = some x.1 := by
  obtain ⟨offset, line, op, operands⟩ := i
  dsimp only [Instruction.HasEffect] at h hop
  rcases hop with rfl | rfl | rfl
  · cases h with
    | jump => exact ⟨_, List.mem_cons_self, rfl⟩
    | literal hop => cases hop
    | binary hop => cases hop
    | unary hop => cases hop
  · cases h with
    | jumpIfFalse => exact ⟨_, List.mem_cons_of_mem _ List.mem_cons_self, rfl⟩
    | literal hop => cases hop
    | binary hop => cases hop
    | unary hop => cases hop
  · cases h with
    | loop hd => exact ⟨_, List.mem_cons_self, if_pos hd⟩
    | literal hop => cases hop
    | binary hop => cases hop
    | unary hop => cases hop

theorem variableName (h : i.HasEffect pool captureCount Γ after)
    (hop : i.op = .getGlobal ∨ i.op = .defineGlobal ∨ i.op = .setGlobal) :
    ∃ k name, i.constant? = some k ∧ pool[k]? = some (.string name) := by
  obtain ⟨offset, line, op, operands⟩ := i
  dsimp only [Instruction.HasEffect] at h hop
  rcases hop with rfl | rfl | rfl
  · cases h with
    | getGlobal hk => exact ⟨_, _, rfl, hk⟩
    | literal hop => cases hop
    | binary hop => cases hop
    | unary hop => cases hop
  · cases h with
    | defineGlobal hk => exact ⟨_, _, rfl, hk⟩
    | literal hop => cases hop
    | binary hop => cases hop
    | unary hop => cases hop
  · cases h with
    | setGlobal hk => exact ⟨_, _, rfl, hk⟩
    | literal hop => cases hop
    | binary hop => cases hop
    | unary hop => cases hop

/-- A closure is made of a function, and takes no cell that its maker lacks. -/
theorem closed (h : i.HasEffect pool captureCount Γ after) (hop : i.op = .closure) :
    (∃ k g, i.constant? = some k ∧ pool[k]? = some (.function g)) ∧
      ∀ c ∈ i.captures, c.isLocal = false → c.index < captureCount := by
  obtain ⟨offset, line, op, operands⟩ := i
  dsimp only [Instruction.HasEffect] at h hop
  subst hop
  cases h with
  | closure hk hsize _ hpairs =>
    refine ⟨⟨_, _, rfl, hk⟩, fun c hc hlocal => ?_⟩
    have hallowed := hpairs c hc
    rwa [Capture.Allowed, if_neg (by simp [hlocal])] at hallowed
  | literal hop => cases hop
  | binary hop => cases hop
  | unary hop => cases hop

theorem literal (h : i.HasEffect pool captureCount Γ after) (hop : i.op = .constant) :
    ∃ k v, i.constant? = some k ∧ pool[k]? = some v ∧ v.isLiteral = true := by
  obtain ⟨offset, line, op, operands⟩ := i
  dsimp only [Instruction.HasEffect] at h hop
  subst hop
  cases h with
  | constant hk hv => exact ⟨_, _, rfl, hk, hv⟩
  | literal hop => cases hop
  | binary hop => cases hop
  | unary hop => cases hop

theorem cell (h : i.HasEffect pool captureCount Γ after)
    (hop : i.op = .getUpvalue ∨ i.op = .setUpvalue) :
    ∃ k, i.operands = [k] ∧ k.toNat < captureCount := by
  obtain ⟨offset, line, op, operands⟩ := i
  dsimp only [Instruction.HasEffect] at h hop
  rcases hop with rfl | rfl
  · cases h with
    | getUpvalue hk => exact ⟨_, rfl, hk⟩
    | literal hop => cases hop
    | binary hop => cases hop
    | unary hop => cases hop
  · cases h with
    | setUpvalue hk => exact ⟨_, rfl, hk⟩
    | literal hop => cases hop
    | binary hop => cases hop
    | unary hop => cases hop

/-- Every constant that is named is there. -/
theorem constant (h : i.HasEffect pool captureCount Γ after)
    (hop : i.op.namesConstant = true) :
    ∃ k, i.constant? = some k ∧ k < pool.size := by
  have hsome : ∃ k v, i.constant? = some k ∧ pool[k]? = some v := by
    cases hcase : i.op with
    | constant =>
      obtain ⟨k, v, hk, hv, -⟩ := h.literal hcase
      exact ⟨k, v, hk, hv⟩
    | getGlobal =>
      obtain ⟨k, name, hk, hv⟩ := h.variableName (.inl hcase)
      exact ⟨k, _, hk, hv⟩
    | defineGlobal =>
      obtain ⟨k, name, hk, hv⟩ := h.variableName (.inr (.inl hcase))
      exact ⟨k, _, hk, hv⟩
    | setGlobal =>
      obtain ⟨k, name, hk, hv⟩ := h.variableName (.inr (.inr hcase))
      exact ⟨k, _, hk, hv⟩
    | closure =>
      obtain ⟨⟨k, g, hk, hv⟩, -⟩ := h.closed hcase
      exact ⟨k, _, hk, hv⟩
    | _ =>
      rw [hcase] at hop
      cases hop
  obtain ⟨k, v, hk, hv⟩ := hsome
  exact ⟨k, hk, (Array.getElem?_eq_some_iff.mp hv).1⟩

end Instruction.HasEffect

end Effects

/-! ## Typed code -/

namespace Typing

variable {f : Function Value} {is : List Instruction}

/-- Each instruction of typed code has an effect and leads to instructions. -/
theorem hasEffect (t : Typing f) (his : f.chunk.instructions = .ok is) {i : Instruction}
    (hi : i ∈ is) : ∃ Γ after, i.HasEffect f.chunk.constants f.captureCount Γ after ∧
      ∀ x ∈ after, ∃ j ∈ is, j.offset = x.1 := by
  obtain ⟨Γ₀, hΓ₀, -⟩ := t.start
  obtain ⟨is', his', heach, hall⟩ := t.instructionsFrom hΓ₀
  obtain rfl : is' = is := Except.ok.inj (his'.symm.trans his)
  obtain ⟨Γ, _, _, hΓ, -⟩ := heach i hi
  obtain ⟨op, operands, after, hholds, heff, hafter⟩ := t.instruction hΓ
  obtain ⟨line, hdecode⟩ := Chunk.decode_eq t.size_lines hholds heff
  have hsame := Chunk.decode_of_mem his hi
  have hread := Except.ok.inj (hdecode.symm.trans hsame)
  obtain rfl : op = i.op := congrArg Instruction.op hread
  obtain rfl : operands = i.operands := congrArg Instruction.operands hread
  refine ⟨Γ, after, ?_, fun x hx => ?_⟩
  · rwa [Instruction.HasEffect, Instruction.size, Nat.add_comm i.operands.length, ← Nat.add_assoc]
  · obtain ⟨Δ, hΔ, -⟩ := hafter x hx
    exact hall x.1 Δ (Nat.zero_le _) hΔ

theorem isWellFormed_of_mem (t : Typing f) (his : f.chunk.instructions = .ok is)
    {i : Instruction} (hi : i ∈ is) : i.IsWellFormed f is := by
  obtain ⟨Γ, after, heff, hafter⟩ := t.hasEffect his hi
  refine ⟨fun hop => ?_, heff.constant, heff.variableName, fun hop => (heff.closed hop).1,
    heff.literal, heff.cell, fun c hc => ?_⟩
  · obtain ⟨x, hx, htarget⟩ := heff.target hop
    obtain ⟨j, hj, hoff⟩ := hafter x hx
    exact ⟨j, hj, hoff ▸ htarget, Chunk.offset_lt_of_mem his hj⟩
  · by_cases hop : i.op = .closure
    · exact (heff.closed hop).2 c hc
    · rw [i.captures_of_ne hop] at hc
      exact absurd hc List.not_mem_nil

/-- The return at the end of the code is the last instruction. -/
theorem exists_getLast (t : Typing f) (his : f.chunk.instructions = .ok is) :
    ∃ i, is.getLast? = some i ∧ i.op = .return := by
  obtain ⟨Γ₀, hΓ₀, -⟩ := t.start
  obtain ⟨is', his', -, hall⟩ := t.instructionsFrom hΓ₀
  obtain rfl : is' = is := Except.ok.inj (his'.symm.trans his)
  obtain ⟨o, Γ, hΓ, hend, hbyte⟩ := t.ends
  obtain ⟨i, hi, rfl⟩ := hall o Γ (Nat.zero_le _) hΓ
  have hreturn : Effect f.chunk.constants 0 0 .return [] [.temporary] [] := .return
  obtain ⟨line, hdecode⟩ := Chunk.decode_eq t.size_lines hbyte hreturn
  have hread := Except.ok.inj (hdecode.symm.trans (Chunk.decode_of_mem his hi))
  have hop : i.op = .return := (congrArg Instruction.op hread).symm
  have hsize : i.size = 1 := (congrArg Instruction.size hread).symm
  refine ⟨i, Chunk.getLast_of_mem his hi ?_, hop⟩
  rw [hsize, hend]

theorem isWellFormed (t : Typing f) : ∃ is, f.IsWellFormed is := by
  obtain ⟨Γ, hΓ, -⟩ := t.start
  obtain ⟨is, his, -⟩ := t.instructionsFrom hΓ
  exact ⟨is, t.size_lines, his, t.exists_getLast his, fun _ hi => t.isWellFormed_of_mem his hi⟩

end Typing

/-! ## Compiled code -/

/-- A script that compiles and all functions inside it are well-formed, and the
script captures nothing. -/
theorem isWellFormed_of_compile {firstId : Identity} {source : String}
    {script : Function Value} (hok : (compile firstId source).outcome = .ok script) :
    script.captureCount = 0 ∧ ∀ g : Function Value, g.Within script → ∃ is, g.IsWellFormed is := by
  have hsucceeds := succeeds_of_compile hok
  refine ⟨hsucceeds.captureCount, fun g hg => ?_⟩
  obtain ⟨done, hdone, rfl⟩ := exists_finished hsucceeds hg
  obtain ⟨t, -⟩ := (hsucceeds.sound done hdone).exists_typing
  exact t.isWellFormed

/-- A script with a function inside. -/
theorem isWellFormed_declaringIdentity :
    declaringIdentity.captureCount = 0 ∧
      ∀ g : Function Value, g.Within declaringIdentity → ∃ is, g.IsWellFormed is :=
  isWellFormed_of_compile compile_declaringIdentity

end ScriptEngine
