import ScriptEngine.Proofs.Abreast.Code
set_option autoImplicit false

/-!
# Two compilations abreast: scopes and names

Both sides have the same locals in scope and the same captures, so that a name means the
same place on both, but for where the constant of a global stands.
-/

namespace ScriptEngine.Compile

open State

/-! ## Captures -/

section Captures

variable {M : Matching} {l : Ledger} {ls : List Ledger} {b b' : Builder}
  {bs bs' : List Builder}

/-- The outcomes of looking for a name in the functions around are the same. -/
structure Captured.Matches (M : Matching) (ls : List Ledger) (found found' : Captured) :
    Prop where
  index : found'.index = found.index
  isFull : found'.isFull = found.isFull
  builders : Ledger.RelatesAll M ls (found.inner :: found.around) (found'.inner :: found'.around)

theorem captureIn_matches (h : l.Relates M b b') (hs : Ledger.RelatesAll M ls bs bs')
    (c : Capture) (isFull : Bool) :
    (captureIn b bs c isFull).Matches M (l :: ls) (captureIn b' bs' c isFull) := by
  unfold captureIn Builder.addCapture?
  rw [h.captures]
  cases b.captures.idxOf? c with
  | some i => exact ⟨rfl, rfl, .cons h hs⟩
  | none =>
    by_cases hfull : b.captures.length = byteRange
    · simp only [if_pos hfull]
      exact ⟨rfl, rfl, .cons h hs⟩
    · simp only [if_neg hfull]
      exact ⟨rfl, rfl, .cons { h with captures := rfl } hs⟩

theorem captureFrom_matches (name : String) (h : l.Relates M b b')
    (hs : Ledger.RelatesAll M ls bs bs') :
    Option.Rel (Captured.Matches M (l :: ls)) (captureFrom name b bs)
      (captureFrom name b' bs') := by
  induction hs generalizing l b b' with
  | nil => exact .none
  | @cons l₁ ls outer outer' bs bs' head tail ih =>
    unfold captureFrom
    rw [head.locals]
    cases slotOf? name outer.locals with
    | some found =>
      refine .some (captureIn_matches h (.cons ?_ tail) _ _)
      exact { head with locals := rfl }
    | none =>
      have hrest := ih head
      dsimp only
      generalize captureFrom name outer bs = found, captureFrom name outer' bs' = found' at hrest
      cases hrest with
      | none => exact .none
      | some hfound =>
        refine .some ?_
        dsimp only
        rw [hfound.index, hfound.isFull]
        exact captureIn_matches h hfound.builders _ _

end Captures

/-- What the end of a scope does, whether it was begun or not. -/
theorem State.closeScope_eq_foldl (s : State) :
    ∃ defects, s.closeScope =
      ((s.builder.locals.takeWhile fun l => !l.outlives (s.builder.depth - 1)).foldl
        (fun s l => s.appendOp l.retirement)
        (s.withBuilder { s.builder with
          depth := s.builder.depth - 1
          locals := s.builder.locals.dropWhile fun l => !l.outlives (s.builder.depth - 1) }
          s.work defects)).checkpoint := by
  unfold closeScope
  dsimp only
  simp only [builder_guarantee]
  obtain ⟨defects, hd⟩ := guarantee_eq s (0 < s.builder.depth) .scopeUnderflow
  rw [hd]
  obtain ⟨defects', hd'⟩ := guarantee_eq (s.withBuilder s.builder s.work defects)
    (!(s.builder.locals.dropWhile fun l => !l.outlives (s.builder.depth - 1)).isEmpty)
    .calleeRetired
  rw [hd']
  exact ⟨defects', rfl⟩

/-- A name that is looked up without a complaint was looked up after none. -/
theorem State.isQuiet_of_resolve {s : State} {name : String}
    (h : (s.resolve name).2.IsQuiet) : s.IsQuiet := by
  unfold resolve resolveAround at h
  split at h
  · dsimp only at h
    split at h
    · exact isQuiet_of_complainAt h
    · exact h
  · cases hfound : captureFrom name s.builder s.around with
    | none =>
      rw [hfound] at h
      exact isQuiet_of_poolConstant h
    | some found =>
      rw [hfound] at h
      dsimp only [Option.map_some] at h
      split at h
      · have hbefore := isQuiet_of_complainAt h
        exact hbefore
      · exact h

section Scopes

variable {σ : Latitude} {n : Nat} {l : Ledger} {ls : List Ledger} {s s' : State}

/-- The scope is the same on both sides. -/
theorem Latitude.Corresponds.withScope (h : σ.Corresponds n (l :: ls) s s') {k d d' : Nat}
    {scope scope' : List Local} (hd : d = k) (hd' : d' = k) (hscope : scope' = scope)
    (work work' : Nat) (defects defects' : List Defect) :
    σ.Corresponds n ({ l with depth := k } :: ls)
      (s.withBuilder { s.builder with depth := d, locals := scope } work defects)
      (s'.withBuilder { s'.builder with depth := d', locals := scope' } work' defects') := by
  have hb := h.builder
  have hrelates : { l with depth := k }.Relates (σ.matching s.nextId)
      { s.builder with depth := d, locals := scope }
      { s'.builder with depth := d', locals := scope' } :=
    ⟨hb.name, hb.arity, hscope, hd, hd', hb.captures, hb.returns,
      ⟨hb.chunk.code, hb.chunk.lines, hb.chunk.constants⟩⟩
  exact h.withBuilder hrelates rfl rfl ..

namespace Latitude.Abreast

theorem checkpoint (h : σ.Abreast n (l :: ls) s s') :
    σ.Abreast n (l :: ls) s.checkpoint s'.checkpoint := fun hc => by
  have hr := h hc
  have hb := hr.builder
  have hrelates : l.Relates (σ.matching s.nextId) s.builder.checkpoint s'.builder.checkpoint :=
    ⟨hb.name, hb.arity, hb.locals, hb.depth, hb.depth', hb.captures, hb.returns, hb.chunk⟩
  exact hr.withBuilder hrelates rfl rfl s.work s'.work s.defects s'.defects

/-! ## Scopes -/

theorem openScope (h : σ.Abreast n (l :: ls) s s') :
    σ.Abreast n ({ l with depth := l.depth + 1 } :: ls) s.openScope s'.openScope := fun hc => by
  have hr := h hc
  have hb := hr.builder
  exact hr.withScope (congrArg (· + 1) hb.depth) (congrArg (· + 1) hb.depth') hb.locals
    s.work s'.work s.defects s'.defects

theorem foldl {α : Type} {f f' : State → α → State}
    (as : List α) (hf : ∀ s s', ∀ a ∈ as, σ.Abreast n (l :: ls) s s' →
      σ.Abreast n (l :: ls) (f s a) (f' s' a)) (h : σ.Abreast n (l :: ls) s s') :
    σ.Abreast n (l :: ls) (as.foldl f s) (as.foldl f' s') := by
  induction as generalizing s s' with
  | nil => exact h
  | cons a as ih =>
    exact ih (fun s s' b hb => hf s s' b (List.mem_cons_of_mem a hb))
      (hf s s' a List.mem_cons_self h)

theorem closeScope (h : σ.Abreast n ({ l with depth := l.depth + 1 } :: ls) s s') :
    σ.Abreast n (l :: ls) s.closeScope s'.closeScope := by
  refine h.branch (actions_closeScope s) (actions_closeScope s') fun hr => ?_
  have hb := hr.builder
  have hdepth : s.builder.depth - 1 = l.depth := by rw [hb.depth]; rfl
  have hdepth' : s'.builder.depth - 1 = l.depth := by rw [hb.depth']; rfl
  obtain ⟨defects, heq⟩ := s.closeScope_eq_foldl
  obtain ⟨defects', heq'⟩ := s'.closeScope_eq_foldl
  rw [heq, heq', hb.locals, hdepth, hdepth']
  have hnone : ∀ x : Local, x.retirement.operandBytes = 0 := fun x => by
    unfold Local.retirement
    split <;> rfl
  refine (foldl _ (fun _ _ (x : Local) _ h => h.appendOp x.retirement (hnone x)) fun _ =>
    ?_).checkpoint
  exact hr.withScope rfl rfl rfl ..

theorem inScope (h : σ.Abreast n (l :: ls) s s') {inside inside' : Pass}
    (hinside : PassAbreast σ n inside inside') :
    σ.Abreast n (l :: ls) (s.inScope inside) (s'.inScope inside') :=
  (hinside.keeps h.openScope).closeScope

/-! ## Declarations -/

theorem pushLocal (h : σ.Abreast n (l :: ls) s s') {name name' : String}
    (hname : σ.Corresponds n (l :: ls) s s' → name' = name) :
    σ.Abreast n (l :: ls) (s.pushLocal name) (s'.pushLocal name') := by
  refine h.branch (actions_pushLocal ..) (actions_pushLocal ..) fun hr => ?_
  have hb := hr.builder
  rw [hname hr]
  unfold State.pushLocal
  rw [hb.locals]
  split
  · exact h.complain _
  · exact fun _ => hr.withScope hb.depth hb.depth' rfl s.work s'.work s.defects s'.defects

theorem declareLocal (h : σ.Abreast n (l :: ls) s s') :
    σ.Abreast n (l :: ls) s.declareLocal s'.declareLocal := by
  refine h.branch (actions_declareLocal s) (actions_declareLocal s') fun hr => ?_
  have hb := hr.builder
  have hdeclares : s'.declaresHere s'.previous.lexeme = s.declaresHere s.previous.lexeme := by
    unfold declaresHere
    rw [hb.locals, hb.depth, hb.depth', hr.previous.lexeme]
  unfold State.declareLocal
  dsimp only
  rw [hb.depth, hb.depth', hdeclares]
  split
  · exact h
  · split
    · exact (h.complain _).pushLocal fun _ => hr.previous.lexeme
    · exact h.pushLocal fun _ => hr.previous.lexeme

/-- A name is declared on both sides, and its constant is pinned if it is global. -/
theorem declareName (h : σ.Abreast n (l :: ls) s s') (what : Expected) :
    σ.Abreast n (l.bind (s.declareName what).1 (s'.declareName what).1 :: ls)
      (s.declareName what).2 (s'.declareName what).2 := by
  have hdeclared := (h.require (k := .identifier) (by simp) what).declareLocal
  refine hdeclared.after isQuiet_of_declareName isQuiet_of_declareName fun hr => ?_
  have hb := hr.builder
  unfold Ledger.bind State.declareName
  dsimp only
  rw [hb.depth, hb.depth']
  split
  · refine hdeclared.poolConstant fun hr => ?_
    rw [hr.previous.lexeme]
    exact .string _
  · exact hdeclared

theorem unbind {c c' : Nat} (h : σ.Abreast n (l.bind c c' :: ls) s s') :
    σ.Abreast n (l :: ls) s s' := by
  unfold Ledger.bind at h
  split at h
  · exact h.unpin
  · exact h

theorem makeReadable (h : σ.Abreast n (l :: ls) s s') :
    σ.Abreast n (l :: ls) s.makeReadable s'.makeReadable := by
  refine h.branch (actions_makeReadable s) (actions_makeReadable s') fun hr => ?_
  have hb := hr.builder
  unfold State.makeReadable
  rw [hb.depth, hb.depth', hb.locals]
  split
  · exact h
  · exact h
  · exact fun _ => hr.withScope hb.depth hb.depth' rfl s.work s'.work s.defects s'.defects

/-- The variable that was declared gets its value on both sides. -/
theorem bindName {c c' : Nat} (h : σ.Abreast n (l.bind c c' :: ls) s s') :
    σ.Abreast n (l :: ls) (s.bindName c) (s'.bindName c') := by
  refine h.branch (actions_bindName ..) (actions_bindName ..) fun hr => ?_
  have hb := hr.builder
  unfold State.bindName
  rw [hb.depth, hb.depth', l.depth_bind]
  split
  · next hglobal =>
    rw [Ledger.bind, if_pos hglobal] at h
    exact (h.appendConstant .defineGlobal (by decide) rfl List.mem_cons_self).unpin
  · exact h.unbind.makeReadable

/-! ## Uses -/

theorem resolve (h : σ.Abreast n (l :: ls) s s') {name name' : String}
    (hname : σ.Corresponds n (l :: ls) s s' → name' = name) :
    σ.Abreast n (l.pin (.place (s.resolve name).1 (s'.resolve name').1) :: ls)
      (s.resolve name).2 (s'.resolve name').2 := by
  refine h.after isQuiet_of_resolve isQuiet_of_resolve fun hr => ?_
  have hb := hr.builder
  have hfound := captureFrom_matches name hb hr.around
  rw [hname hr]
  unfold State.resolve resolveAround
  rw [hb.locals]
  cases slotOf? name s.builder.locals with
  | some found =>
    have hpinned := h.pin (p := .place (.slot found.1) (.slot found.1)) fun _ _ _ => rfl
    dsimp only
    split
    · exact hpinned.complain _
    · exact hpinned
  | none =>
    dsimp only
    generalize captureFrom name s.builder s.around = found,
      captureFrom name s'.builder s'.around = found' at hfound
    cases hfound with
    | none =>
      exact h.poolConstant fun _ => .string _
    | @some found found' hfound =>
      dsimp only [Option.map_some]
      rw [hfound.index, hfound.isFull]
      have hcaptured : σ.Abreast n (l :: ls)
          { s with builder := found.inner, around := found.around }
          { s' with builder := found'.inner, around := found'.around } :=
        fun _ => { hr with builders := hfound.builders }
      have hpinned := hcaptured.pin (p := .place (.captured found.index) (.captured found.index))
        fun _ _ _ => rfl
      split
      · exact hpinned.complain _
      · exact hpinned

end Latitude.Abreast

end Scopes

end ScriptEngine.Compile
