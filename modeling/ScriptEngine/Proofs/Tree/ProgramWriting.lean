import ScriptEngine.Proofs.Tree.StatementWriting
set_option autoImplicit false

/-!
# Compiling program trees

A source that is written as a program tree says and that compiles gives a script with the
code of the tree (`script_of_writes`).  Behind it stands a return of `nil`, unless the
tree ends with a return anyway.
-/

namespace ScriptEngine.Compile

open State ScriptEngine.Tree

theorem follows_endOfSource : Follows (mark .endOfSource) := ⟨⟨rfl, nofun⟩, nofun⟩

/-- Statements are written up to the end of the source. -/
theorem wrote_program {p : List Statement} {depth limit : Nat} {s : State}
    (hdepth : 2 * (bodyWords p).length + 1 ≤ depth) (hlimit : p.length < limit)
    (hs : Faces (inside []) (bodyWords p ++ [mark .endOfSource]) s)
    (hq : (program depth limit s).IsQuiet) :
    ∃ t, Wrote (bodyReturns p = true) (inside []) (fun pool => BodyCode pool [] p)
      [mark .endOfSource] s t ∧ program depth limit s = t.read := by
  induction p generalizing limit s with
  | nil =>
    obtain ⟨limit, rfl⟩ : ∃ k, limit = k + 1 := ⟨limit - 1, by omega⟩
    have hend : s.sees .endOfSource = true := hs.sees _
    refine ⟨s, (wrote_nil hs).imp fun _ _ hcode => hcode, ?_⟩
    rw [program, hend, if_pos rfl]
  | cons st p ih =>
    obtain ⟨limit, rfl⟩ : ∃ k, limit = k + 1 := ⟨limit - 1, by omega⟩
    obtain ⟨w, ws, hwords, -, -, hsource⟩ := exists_start st
    obtain ⟨next, later, hlater, hnext⟩ := exists_follows p follows_endOfSource []
    rw [bodyWords, List.length_append] at hdepth
    rw [bodyWords, List.append_assoc] at hs
    have hmore : s.sees .endOfSource = false := by
      rw [hwords] at hs
      rw [hs.sees]
      exact beq_eq_false_iff_ne.mpr hsource
    rw [program, hmore, if_neg Bool.false_ne_true] at hq ⊢
    have hq₁ := (actions_program _ _ _).isQuiet hq
    have htick : Adds (bodyReturns (st :: p) = true) s s.tick [] := adds_nil rfl rfl
    rw [hlater] at hs
    have hfirst := compiles st _ _ _ _ hnext (by omega) s.tick hs.tick hq₁
    rw [← hlater] at hfirst
    obtain ⟨t, hrest, heq⟩ := ih (by omega) (by simpa using hlimit) hfirst.faces hq
    refine ⟨t, ?_, heq⟩
    exact ((hfirst.mono fun h => by simp [bodyReturns, h]).after htick).append
      (hrest.mono fun h => by simp [bodyReturns, h])

/-- A program has at least as many words as statements. -/
theorem length_le_bodyWords (p : List Statement) : p.length ≤ (bodyWords p).length := by
  induction p with
  | nil => exact Nat.le_refl 0
  | cons st p ih =>
    obtain ⟨w, ws, hwords, -⟩ := exists_start st
    rw [bodyWords, hwords, List.length_append, List.length_cons, List.length_cons]
    omega

/-- The compiler starts before the first word of the source. -/
theorem faces_start {firstId : Identity} {source : String} {p : List Statement}
    (hwrites : Writes source p) (hq : (initial firstId (scan source)).read.IsQuiet) :
    Faces (inside []) (bodyWords p ++ [mark .endOfSource])
        (initial firstId (scan source)).read ∧
      (initial firstId (scan source)).read.builder = .start none := by
  have hs := sane_initial firstId (named_scan source)
  obtain ⟨hupcoming, horder⟩ := upcoming_start (named_scan source) (ended_scan source) hq
  have hbuilder := builder_read hs hq
  obtain ⟨t, rest, heq, -⟩ := read_eq hs hq
  refine ⟨⟨horder, by rw [heq]; rfl, by rw [hbuilder]; rfl, by rw [hbuilder]; rfl, ?_⟩, hbuilder⟩
  unfold State.spelled
  rw [hupcoming]
  exact hwrites

/-- What is behind the code of a program. -/
def endCode (p : List Statement) (code : List UInt8) : Prop :=
  (bodyReturns p = true ∧ code = []) ∨ code = [Opcode.nil.toByte, Opcode.return.toByte]

/-- The end of a script is a return. -/
theorem adds_returnNil {p : List Statement} {t : State}
    (h : t.builder.lastOp = some .return → bodyReturns p = true) :
    ∃ last, endCode p last ∧ Adds True t t.returnNil last := by
  unfold returnNil
  split
  · next hlast => exact ⟨[], .inl ⟨h hlast, rfl⟩, adds_nil rfl rfl⟩
  · have hnil : Adds True t (t.appendOp .nil) _ := adds_appendOp t fun _ => trivial
    exact ⟨_, .inr rfl, hnil.trans (adds_appendOp _ fun _ => trivial)⟩

/-- The script of a source that a program tree is written as has the code of the tree. -/
theorem script_of_writes {firstId : Identity} {source : String} {p : List Statement}
    {script : Function Value} (hwrites : Writes source p)
    (h : (compile firstId source).outcome = .ok script) :
    ∃ code last, BodyCode script.chunk.constants [] p code ∧ endCode p last ∧
      script.chunk.code.toList = code ++ last := by
  unfold compile at h
  rw [Compilation.ofState_eq] at h
  dsimp only at h
  split at h
  · next hempty =>
    cases h
    have hq : (compileTokens firstId (scan source)).returnNil.IsQuiet := Array.isEmpty_iff.mp hempty
    have hq₂ := (edits_returnNil _).isQuiet hq
    obtain ⟨hstart, hbuilder⟩ := faces_start hwrites ((actions_program _ _ _).isQuiet hq₂)
    have hlen : (scan source).length = (bodyWords p).length + 1 := by
      rw [← List.length_map (f := wordOf), hwrites]
      exact List.length_append
    obtain ⟨t, hwrote, heq⟩ := wrote_program (by unfold depthFor; omega)
      (by have := length_le_bodyWords p; omega) hstart hq₂
    have heq : compileTokens firstId (scan source) = t.read := heq
    rw [heq] at hq hq₂ ⊢
    obtain ⟨code, hadds, hcode⟩ := hwrote.code
    have hread := hadds.trans (adds_read hwrote.faces.inOrder hq₂)
    rw [List.append_nil] at hread
    obtain ⟨last, hlast, hend⟩ := adds_returnNil fun hreturn => by
      refine (hread.last hreturn).resolve_left fun hnone => ?_
      rw [hbuilder] at hnone
      cases hnone
    have hpool := (includes_refl t.read.returnNil).of_adds hend
    refine ⟨code, last, hcode _ fun k v hv => hpool k v ?_, hlast, ?_⟩
    · rwa [builder_read hwrote.faces.inOrder.toSane hq₂]
    · have hbytes := ((hread.mono fun _ => trivial).trans hend).code
      rw [hbuilder] at hbytes
      exact hbytes
  · cases h

end ScriptEngine.Compile
