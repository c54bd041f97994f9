import ScriptEngine.Proofs.Tree.ProgramWriting
import ScriptEngine.Proofs.Tree.StatementRun
set_option autoImplicit false

/-!
# Runs of programs

The script of a program tree runs as the tree is interpreted.  If the interpretation
comes to an end, so does the run, with the same result and the same memory
(`ending_of_interpret`); if the interpretation gives up after `fuel` rounds of a loop,
the run goes on for as many steps (`unfinished_of_interpret`).
-/

namespace ScriptEngine.Tree

open Machine Compile

variable {World : Type}

/-! ## Returns -/

theorem isError_bind {α β : Type} {first : Run World α} {next : α → Run World β}
    {σ : Memory World}
    (h : ∀ a σ', first.run σ = (.ok a, σ') → ∃ stop σ'', (next a).run σ' = (.error stop, σ'')) :
    ∃ stop σ'', (first >>= next).run σ = (.error stop, σ'') := by
  rw [run_bind]
  rcases heq : first.run σ with ⟨stop | a, σ'⟩
  · exact ⟨stop, σ', rfl⟩
  · exact h a σ' heq

theorem isError_bind_left {α β : Type} {first : Run World α} {next : α → Run World β}
    {σ : Memory World} (h : ∃ stop σ', first.run σ = (.error stop, σ')) :
    ∃ stop σ', (first >>= next).run σ = (.error stop, σ') := by
  obtain ⟨stop, σ', h⟩ := h
  refine isError_bind fun a σ'' hok => ?_
  rw [h] at hok
  cases hok

mutual

theorem isError_exec (host : Host World) (fuel : Nat) (s : Statement) (h : s.returns = true)
    (σ : Memory World) : ∃ stop σ', (s.exec host fuel).run σ = (.error stop, σ') := by
  cases s with
  | block body =>
    exact isError_bind fun _ σ' _ => isError_bind_left (isError_execAll host fuel body h σ')
  | result e => exact isError_bind fun v σ' _ => ⟨.returned v, σ', rfl⟩
  | _ => cases h
termination_by structural s

/-- Nothing is interpreted behind a return. -/
theorem isError_execAll (host : Host World) (fuel : Nat) (body : List Statement)
    (h : bodyReturns body = true) (σ : Memory World) :
    ∃ stop σ', (execAll host fuel body).run σ = (.error stop, σ') := by
  cases body with
  | nil => cases h
  | cons s body =>
    rw [bodyReturns, Bool.or_eq_true] at h
    rcases h with h | h
    · exact isError_bind_left (isError_exec host fuel s h σ)
    · exact isError_bind fun _ σ' _ => isError_execAll host fuel body h σ'
termination_by structural body

end

/-! ## Scripts -/

variable {host : Host World} {script : Function Value} {p : List Statement}
  {code last : List UInt8} {fuel : Nat} {σ σ' : Memory World}

/-- A run of the script ends as the interpretation of the program does. -/
theorem endsAs_script (fuel : Nat) (hhost : host.GivesData) (hdata : σ.IsData)
    (hscopes : σ.scopes = []) (hcode : BodyCode script.chunk.constants [] p code)
    (hlast : endCode p last) (hall : script.chunk.code.toList = code ++ last) :
    match (execAll host fuel p).run σ with
    | (.ok _, σ') => EndsAs host fuel σ.machine (scriptFrame script) (.returned .nil) σ'
    | (.error stop, σ') => EndsAs host fuel σ.machine (scriptFrame script) stop σ' := by
  have hholds := Chunk.Holds.of_code hall
  have hadmits : Spot.Admits ⟨[], 0, []⟩ σ :=
    ⟨by rw [Memory.names, hscopes]; rfl, hdata, fun v hv => nomatch hv⟩
  have hframe : Spot.frame ⟨[], 0, []⟩ script σ = scriptFrame script := by
    rw [Spot.frame, Memory.locals, hscopes]
    rfl
  have hexecutes : Executes host script fuel ⟨[], 0, []⟩ (execAll host fuel p) _ :=
    executes_execAll hhost p hcode hholds.left
  have hrun := hexecutes σ hadmits
  rw [hframe] at hrun
  split
  · next σ' heq =>
    rw [heq] at hrun
    obtain ⟨hthere, n, hn⟩ := hrun
    rcases hlast with ⟨hreturns, -⟩ | rfl
    · obtain ⟨stop, σ'', herror⟩ := isError_execAll host fuel p hreturns σ
      rw [heq] at herror
      cases herror
    · have hend : (Statement.result (.literal .nil)).IsCode script.chunk.constants []
          [Opcode.nil.toByte, Opcode.return.toByte] := ⟨[Opcode.nil.toByte], rfl, rfl⟩
      have hreturns : Executes host script fuel ⟨[], 0 + code.length, []⟩
          ((Statement.result (.literal .nil)).exec host fuel) _ :=
        executes_exec hhost _ hend hholds.right
      have hreturn := hreturns σ' hthere
      rw [Nat.zero_add] at hn hreturn
      exact EndsAs.mono (Nat.le_add_left _ _) (EndsAs.after hn hreturn)
  · next stop σ' heq =>
    rw [heq] at hrun
    exact hrun

/-- A run has ended with a result, or with the fault that there is none, and has left a
memory. -/
def Gives (σ : Memory World) : Ending World → Except Fault Value → Prop
  | .returned v m, .ok w => v = w ∧ m = σ.machine
  | .raised e m, .error fault => e.fault = fault ∧ m = σ.machine
  | _, _ => False

/-- When the interpretation ends, so does the run. -/
theorem ending_of_interpret (hhost : host.GivesData) (hdata : σ.IsData) (hscopes : σ.scopes = [])
    (hcode : BodyCode script.chunk.constants [] p code) (hlast : endCode p last)
    (hall : script.chunk.code.toList = code ++ last) {result : Except Fault Value}
    (h : interpret host fuel p σ = some (result, σ')) :
    ∃ n, Gives σ' (ending host n σ.machine (scriptFrame script)) result := by
  have hends := endsAs_script fuel hhost hdata hscopes hcode hlast hall
  unfold interpret at h
  rcases heq : (execAll host fuel p).run σ with ⟨stop | u, σ''⟩
  · rw [heq] at h hends
    cases stop with
    | returned v =>
      obtain ⟨rfl, rfl⟩ := Prod.mk.inj (Option.some.inj h)
      obtain ⟨n, hn⟩ := hends
      exact ⟨n, by rw [hn]; exact ⟨rfl, rfl⟩⟩
    | raised fault =>
      obtain ⟨rfl, rfl⟩ := Prod.mk.inj (Option.some.inj h)
      obtain ⟨n, e, hn, he⟩ := hends
      exact ⟨n, by rw [hn]; exact ⟨he, rfl⟩⟩
    | exhausted => cases h
  · rw [heq] at h hends
    obtain ⟨rfl, rfl⟩ := Prod.mk.inj (Option.some.inj h)
    obtain ⟨n, hn⟩ := hends
    exact ⟨n, by rw [hn]; exact ⟨rfl, rfl⟩⟩

/-- When the interpretation is given up, the run goes on for long. -/
theorem unfinished_of_interpret (hhost : host.GivesData) (hdata : σ.IsData)
    (hscopes : σ.scopes = []) (hcode : BodyCode script.chunk.constants [] p code)
    (hlast : endCode p last) (hall : script.chunk.code.toList = code ++ last)
    (h : interpret host fuel p σ = none) :
    ∃ n g m, fuel ≤ n ∧ ending host n σ.machine (scriptFrame script) = .unfinished g m := by
  have hends := endsAs_script fuel hhost hdata hscopes hcode hlast hall
  unfold interpret at h
  rcases heq : (execAll host fuel p).run σ with ⟨stop | u, σ''⟩
  · rw [heq] at h hends
    cases stop with
    | returned v => cases h
    | raised fault => cases h
    | exhausted => exact hends
  · rw [heq] at h
    cases h

end ScriptEngine.Tree
