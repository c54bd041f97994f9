import ScriptEngine.Proofs.Tree.ExpressionRun
set_option autoImplicit false

/-!
# Runs of statements

The machine that runs the code of a statement does what the interpreter of trees does
with the statement (`executes_exec`).  The induction is over the tree; a loop is an
induction over the rounds that are left (`executes_repeated`), each of which ends with a
step of the machine, so that a loop that is given up has taken as many steps as rounds.
-/

namespace ScriptEngine.Tree

open Machine

variable {World : Type}

section Parts

variable {host : Host World} {script : Function Value} {fuel : Nat}
  {scopes : List (List String)} {ip : Nat} {bytes : List UInt8}

/-! ## Parts of statements -/

theorem executes_declareWith (hhost : host.GivesData) {x : String}
    {value : Option Expression} (hvar : VarCode script.chunk.constants scopes x value bytes)
    (hcode : script.chunk.Holds ip bytes) :
    Executes host script fuel ⟨scopes, ip, []⟩ (declareWith host x value)
      fun _ => ⟨bind [x] scopes, ip + bytes.length, []⟩ := by
  obtain ⟨first, rest, hfirst, hrest, rfl⟩ := hvar
  rw [List.length_append, ← Nat.add_assoc]
  cases value with
  | none =>
    obtain rfl : first = [Opcode.nil.toByte] := hfirst
    exact (executes_declare hrest hcode.right).after (moves_literal rfl hcode.left)
  | some e =>
    exact (executes_eval hhost e hfirst hcode.left).bind fun v =>
      executes_declare hrest hcode.right

theorem executes_perform (hhost : host.GivesData) {e : Expression}
    (he : e.IsCode script.chunk.constants scopes.flatten bytes)
    (hcode : script.chunk.Holds ip (bytes ++ [Opcode.pop.toByte])) :
    Executes host script fuel ⟨scopes, ip, []⟩ (perform host e)
      fun _ => ⟨scopes, ip + (bytes ++ [Opcode.pop.toByte]).length, []⟩ := by
  rw [List.length_append, ← Nat.add_assoc]
  exact (executes_eval hhost e he hcode.left).bind fun v =>
    .pure (moves_pop hcode.right)

theorem executes_initializer (hhost : host.GivesData) {first : Initializer}
    (hfirst : first.IsCode script.chunk.constants scopes bytes)
    (hcode : script.chunk.Holds ip bytes) :
    Executes host script fuel ⟨scopes, ip, []⟩ (first.exec host)
      fun _ => ⟨bind first.declares scopes, ip + bytes.length, []⟩ := by
  cases first with
  | none =>
    obtain rfl : bytes = [] := hfirst
    rw [show Initializer.none.declares = [] from rfl, bind_nil]
    exact .pure (.refl _)
  | var x value => exact executes_declareWith hhost hfirst hcode
  | expression e =>
    obtain ⟨value, he, rfl⟩ := hfirst
    rw [show (Initializer.expression e).declares = [] from rfl, bind_nil]
    exact executes_perform hhost he hcode

theorem executes_return {v : Value} {α : Type} {finish : α → Spot}
    (hcode : script.chunk.Holds ip [Opcode.return.toByte]) :
    Executes host script fuel ⟨scopes, ip, [v]⟩ (throw (.returned v) : Run World α) finish := by
  intro σ hσ
  refine ⟨1, ?_⟩
  rw [ending_succ]
  have hstep : σ.machine.step host (Spot.frame ⟨scopes, ip, [v]⟩ script σ) = _ :=
    step_return hcode (slotsOf_back _ v)
  rw [hstep]
  rfl

/-- Statements in a block of their own. -/
theorem executes_block {body : List Statement} {run : Run World Unit}
    {inside : List UInt8 → Prop} (hblock : Retiring inside (declared body).length bytes)
    (h : ∀ code, inside code → script.chunk.Holds ip code →
      Executes host script fuel ⟨[] :: scopes, ip, []⟩ run
        fun _ => ⟨bind (declared body) ([] :: scopes), ip + code.length, []⟩)
    (hcode : script.chunk.Holds ip bytes) :
    Executes host script fuel ⟨scopes, ip, []⟩ (inBlock run)
      fun _ => ⟨scopes, ip + bytes.length, []⟩ := by
  obtain ⟨code, hinside, rfl⟩ := hblock
  have hrun := h code hinside hcode.left
  rw [bind, List.append_nil] at hrun
  rw [List.length_append, ← Nat.add_assoc,
    show (pops (declared body).length).length = (declared body).length from
      List.length_replicate]
  exact executes_inBlock hrun hcode.right

/-- A branch leads over the code of the part that is not run. -/
theorem executes_branch (hhost : host.GivesData) {c : Expression}
    {condition inside alternative : List UInt8} {past out : UInt8} {run other : Run World Unit}
    (hc : c.IsCode script.chunk.constants scopes.flatten condition)
    (hover : past.toNat = inside.length + 3) (hout : out.toNat = alternative.length + 1)
    (hbytes : bytes = condition ++ [Opcode.jumpIfFalse.toByte, past, Opcode.pop.toByte] ++
      inside ++ [Opcode.jump.toByte, out, Opcode.pop.toByte] ++ alternative)
    (hinside : ∀ ip, script.chunk.Holds ip inside →
      Executes host script fuel ⟨scopes, ip, []⟩ run fun _ => ⟨scopes, ip + inside.length, []⟩)
    (hother : ∀ ip, script.chunk.Holds ip alternative →
      Executes host script fuel ⟨scopes, ip, []⟩ other
        fun _ => ⟨scopes, ip + alternative.length, []⟩)
    (hcode : script.chunk.Holds ip bytes) :
    Executes host script fuel ⟨scopes, ip, []⟩
      (do
        let v ← c.eval host
        if ← test v then run else other)
      fun _ => ⟨scopes, ip + bytes.length, []⟩ := by
  subst hbytes
  have hjump := hcode.left.left.left.right
  have hin := hcode.left.left.right
  have hskip := hcode.left.right
  have hout' := hcode.right
  simp only [List.length_append, List.length_cons, List.length_nil, Nat.zero_add, Nat.reduceAdd,
    ← Nat.add_assoc] at hin hskip hout' ⊢
  refine (executes_eval hhost c hc hcode.left.left.left.left).bind fun v =>
    (executes_test (hjump.left (a := [_, _])) v).bind fun b => ?_
  cases b with
  | true =>
    have hpop : Moves World host script ⟨scopes, ip + condition.length + 2, [v]⟩ _ :=
      moves_pop (hjump.right (a := [_, _]))
    refine ((hinside _ hin).after hpop).before fun _ => ?_
    rw [show ip + condition.length + 3 + inside.length + 3 + alternative.length =
      ip + condition.length + 3 + inside.length + 2 + out.toNat by omega]
    exact moves_jump (hskip.left (a := [_, _]))
  | false =>
    have hpop := hskip.right (a := [_, _])
    refine (hother _ hout').after ?_
    rw [show ip + condition.length + 3 + inside.length + [Opcode.jump.toByte, out].length =
      ip + condition.length + 2 + past.toNat by
        rw [List.length_cons, List.length_singleton]; omega] at hpop
    rw [show ip + condition.length + 3 + inside.length + 3 =
      ip + condition.length + 2 + past.toNat + 1 by omega]
    exact moves_pop hpop

/-! ## Loops -/

/-- A loop goes on from `next` with one step back to its start. -/
theorem executes_repeated {start next finish : Spot} {once : Run World Bool}
    (h : Executes host script fuel start once fun b => if b then next else finish)
    (hback : ∀ σ : Memory World, next.Admits σ → start.Admits σ ∧
      σ.machine.step host (next.frame script σ) = .running (start.frame script σ) σ.machine)
    (rounds : Nat) (hrounds : rounds ≤ fuel) :
    Executes host script rounds start (repeated once rounds) fun _ => finish := by
  induction rounds with
  | zero => exact fun σ _ => ⟨0, _, _, Nat.le_refl 0, rfl⟩
  | succ rounds ih =>
    intro σ hσ
    have honce := h σ hσ
    rw [repeated, run_bind]
    rcases heq : once.run σ with ⟨stop | b, σ'⟩
    · rw [heq] at honce
      exact EndsAs.mono hrounds honce
    · rw [heq] at honce
      obtain ⟨hadmits, n, hn⟩ := honce
      cases b with
      | false => exact ⟨hadmits, n, hn⟩
      | true =>
        obtain ⟨hstart, hstep⟩ := hback σ' hadmits
        obtain hstarted : ending host (n + 1) σ.machine (start.frame script σ) =
            .unfinished (start.frame script σ') σ'.machine :=
          ending_succ_eq_unfinished_iff.mpr ⟨_, _, hn, hstep⟩
        have hagain := ih (Nat.le_of_succ_le hrounds) σ' hstart
        dsimp only
        rw [if_pos rfl]
        rcases hrest : (repeated once rounds).run σ' with ⟨stop | u, σ''⟩
        · rw [hrest] at hagain
          have hends := EndsAs.after hstarted hagain
          exact EndsAs.mono (by omega) hends
        · rw [hrest] at hagain
          obtain ⟨hfinish, l, hl⟩ := hagain
          exact ⟨hfinish, n + 1 + l, (ending_add hstarted l).trans hl⟩

/-- The head of a loop leads into a round, or out of the loop. -/
theorem executes_head (hhost : host.GivesData) {c : Option Expression} {exit : Nat}
    (hhead : HeadCode script.chunk.constants scopes.flatten exit c bytes)
    (hcode : script.chunk.Holds ip bytes)
    (hleave : script.chunk.Holds (ip + bytes.length + exit) (leaveCode c)) :
    Executes host script fuel ⟨scopes, ip, []⟩ (testOption host c)
      fun b => if b then ⟨scopes, ip + bytes.length, []⟩
        else ⟨scopes, ip + bytes.length + exit + (leaveCode c).length, []⟩ := by
  cases c with
  | none =>
    obtain rfl : bytes = [] := hhead
    exact .pure (.refl _)
  | some c =>
    obtain ⟨condition, d, hc, hd, rfl⟩ := hhead
    have hlen : ip + (condition ++ [Opcode.jumpIfFalse.toByte, d, Opcode.pop.toByte]).length =
        ip + condition.length + 2 + 1 := by
      simp
      omega
    rw [hlen] at hleave ⊢
    refine (executes_eval hhost c hc hcode.left).bind fun v => ?_
    refine (executes_test (hcode.right.left (a := [_, _])) v).before fun b => ?_
    cases b with
    | true => exact moves_pop (hcode.right.right (a := [_, _]))
    | false =>
      have hexit : ip + condition.length + 2 + 1 + exit =
          ip + condition.length + 2 + d.toNat := by omega
      rw [hexit] at hleave ⊢
      exact moves_pop hleave

theorem step_back {d : UInt8} {start : Nat}
    (hcode : script.chunk.Holds ip [Opcode.loop.toByte, d]) (hd : ip + 2 = start + d.toNat)
    (σ : Memory World) :
    σ.machine.step host (Spot.frame ⟨scopes, ip, []⟩ script σ) =
      .running (Spot.frame ⟨scopes, start, []⟩ script σ) σ.machine := by
  have hstep : σ.machine.step host (Spot.frame ⟨scopes, ip, []⟩ script σ) = _ :=
    step_loop hcode (by show d.toNat ≤ ip + 2; omega)
  rwa [show (Spot.frame ⟨scopes, ip, []⟩ script σ).ip + 2 - d.toNat = start by
    show ip + 2 - d.toNat = start; omega] at hstep

/-- Behind the body of a loop stands the step back, before which the increment is made. -/
theorem executes_increment (fuel : Nat) (hhost : host.GivesData) {increment : Option Expression}
    {head body : Nat} {d : UInt8}
    (hstep : StepCode script.chunk.constants scopes.flatten head increment bytes)
    (hd : d.toNat = backDistance head bytes.length body increment)
    (hcode : script.chunk.Holds (ip + head) bytes)
    (hloop : script.chunk.Holds (ip + head + bytes.length + body) [Opcode.loop.toByte, d]) :
    ∃ next : Spot,
      Executes host script fuel ⟨scopes, ip + head + bytes.length + body, []⟩
        (performOption host increment) (fun _ => next) ∧
      ∀ σ : Memory World, next.Admits σ → Spot.Admits ⟨scopes, ip, []⟩ σ ∧
        σ.machine.step host (next.frame script σ) =
          .running (Spot.frame ⟨scopes, ip, []⟩ script σ) σ.machine := by
  cases increment with
  | none =>
    obtain rfl : bytes = [] := hstep
    refine ⟨_, .pure (.refl _), fun σ hσ => ⟨hσ.goTo ip, step_back hloop ?_ σ⟩⟩
    rw [hd, backDistance, List.length_nil]
    omega
  | some e =>
    obtain ⟨code, past, back, he, -, hback, rfl⟩ := hstep
    have hlen : ([Opcode.jump.toByte, past] ++ code ++
        [Opcode.pop.toByte, Opcode.loop.toByte, back]).length = code.length + 5 := by
      simp
    rw [hlen] at hloop hd ⊢
    rw [show [Opcode.jump.toByte, past] ++ code ++
        [Opcode.pop.toByte, Opcode.loop.toByte, back] = [Opcode.jump.toByte, past] ++
        (code ++ [Opcode.pop.toByte]) ++ [Opcode.loop.toByte, back] by simp] at hcode
    have hexpression : script.chunk.Holds (ip + head + 2) (code ++ [Opcode.pop.toByte]) :=
      hcode.left.right
    have hagain := hcode.right
    rw [List.length_append, ← Nat.add_assoc] at hagain
    refine ⟨_, (executes_perform hhost he hexpression).after ?_,
      fun σ hσ => ⟨hσ.goTo ip, step_back (d := back) ?_ ?_ σ⟩⟩
    · refine .step fun σ hσ => ⟨hσ.goTo _, step_back hloop ?_ σ⟩
      rw [hd, backDistance]
      omega
    · exact hagain
    · rw [hback, List.length_append, List.length_singleton]
      omega

/-- The increment is jumped over on the way into a round. -/
theorem moves_over {increment : Option Expression} {head : Nat}
    (hstep : StepCode script.chunk.constants scopes.flatten head increment bytes)
    (hcode : script.chunk.Holds ip bytes) :
    Moves World host script ⟨scopes, ip, []⟩ ⟨scopes, ip + bytes.length, []⟩ := by
  cases increment with
  | none =>
    obtain rfl : bytes = [] := hstep
    exact .refl _
  | some e =>
    obtain ⟨code, past, back, -, hover, -, rfl⟩ := hstep
    have hend : ip + ([Opcode.jump.toByte, past] ++ code ++
        [Opcode.pop.toByte, Opcode.loop.toByte, back]).length = ip + 2 + past.toNat := by
      simp
      omega
    rw [hend]
    exact moves_jump hcode.left.left

theorem executes_loop (fuel : Nat) (hhost : host.GivesData) {c increment : Option Expression}
    {body : List UInt8} {run : Run World Unit}
    (hloop : LoopCode script.chunk.constants scopes.flatten c increment body bytes)
    (hcode : script.chunk.Holds ip bytes)
    (hbody : ∀ ip, script.chunk.Holds ip body →
      Executes host script fuel ⟨scopes, ip, []⟩ run fun _ => ⟨scopes, ip + body.length, []⟩) :
    Executes host script fuel ⟨scopes, ip, []⟩
      (repeated (round (testOption host c) do run; performOption host increment) fuel)
      fun _ => ⟨scopes, ip + bytes.length, []⟩ := by
  obtain ⟨head, step, d, hhead, hstep, hd, rfl⟩ := hloop
  have hinside := hcode.left.left.right
  have hback := hcode.left.right
  have hleave := hcode.right
  simp only [List.length_append, List.length_cons, List.length_nil, ← Nat.add_assoc]
    at hinside hback hleave ⊢
  have hexit : ip + head.length + step.length + body.length + 2 =
      ip + head.length + (step.length + body.length + 2) := by omega
  rw [show ip + head.length + step.length + body.length + 0 + 1 + 1 =
    ip + head.length + (step.length + body.length + 2) by omega] at hleave ⊢
  obtain ⟨next, hincrement, hnext⟩ := executes_increment fuel hhost hstep hd
    hcode.left.left.left.right hback
  refine executes_repeated ?_ hnext fuel (Nat.le_refl fuel)
  refine (executes_head hhost hhead hcode.left.left.left.left hleave).bind fun b => ?_
  cases b with
  | true =>
    have hround := ((hbody _ hinside).after (moves_over hstep hcode.left.left.left.right)).bind
      fun _ => hincrement
    exact hround.bind fun _ => .pure (.refl _)
  | false => exact .pure (.refl _)

end Parts

/-! ## Statements -/

section Statements

variable {host : Host World} {script : Function Value} {fuel : Nat}

mutual

/-- The code of a statement does what the statement means. -/
theorem executes_exec (hhost : host.GivesData) (s : Statement) {scopes : List (List String)}
    {ip : Nat} {bytes : List UInt8} (hs : s.IsCode script.chunk.constants scopes bytes)
    (hcode : script.chunk.Holds ip bytes) :
    Executes host script fuel ⟨scopes, ip, []⟩ (s.exec host fuel)
      fun _ => ⟨bind s.declares scopes, ip + bytes.length, []⟩ := by
  cases s with
  | var x value => exact executes_declareWith hhost hs hcode
  | block body =>
    rw [show (Statement.block body).declares = [] from rfl, bind_nil]
    exact executes_block hs (fun code h hat => executes_execAll hhost body h hat) hcode
  | branch c body alternative =>
    rw [show (Statement.branch c body alternative).declares = [] from rfl, bind_nil]
    cases alternative with
    | none =>
      obtain ⟨condition, inside, past, out, hc, hinside, hover, hout, hbytes⟩ := hs
      have hnone : out.toNat = ([] : List UInt8).length + 1 := hout
      exact executes_branch hhost hc hover hnone (hbytes.trans (List.append_nil _).symm)
        (fun ip hat => executes_block hinside
          (fun code h hat => executes_execAll hhost body h hat) hat)
        (fun ip _ => .pure (.refl _)) hcode
    | some other =>
      obtain ⟨condition, inside, alternative, past, out, hc, hinside, hother, hover, hout,
        hbytes⟩ := hs
      exact executes_branch hhost hc hover hout hbytes
        (fun ip hat => executes_block hinside
          (fun code h hat => executes_execAll hhost body h hat) hat)
        (fun ip hat => executes_block hother
          (fun code h hat => executes_execAll hhost other h hat) hat) hcode
  | loop c body =>
    rw [show (Statement.loop c body).declares = [] from rfl, bind_nil]
    obtain ⟨inside, hinside, hloop⟩ := hs
    have h := executes_loop fuel hhost hloop hcode fun ip hat =>
      executes_block hinside (fun code h hat => executes_execAll hhost body h hat) hat
    rw [show performOption host none = pure () from rfl, bind_pure_unit] at h
    exact h
  | count first c increment body =>
    rw [show (Statement.count first c increment body).declares = [] from rfl, bind_nil]
    obtain ⟨start, inside, loop, hfirst, hinside, hloop, rfl⟩ := hs
    have hstart : Executes host script fuel ⟨[] :: scopes, ip, []⟩ (first.exec host) _ :=
      executes_initializer hhost hfirst hcode.left.left
    have hrun := hstart.bind fun _ =>
      executes_loop fuel hhost hloop hcode.left.right fun ip hat =>
        executes_block hinside (fun code h hat => executes_execAll hhost body h hat) hat
    have hretired := hcode.right
    simp only [bind, List.append_nil] at hrun
    rw [List.length_append, ← Nat.add_assoc] at hretired
    rw [List.length_append, List.length_append, ← Nat.add_assoc, ← Nat.add_assoc,
      show (pops first.declares.length).length = first.declares.length from
        List.length_replicate]
    exact executes_inBlock hrun hretired
  | result e =>
    obtain ⟨value, he, rfl⟩ := hs
    exact (executes_eval hhost e he hcode.left).bind fun v => executes_return hcode.right
  | expression e =>
    rw [show (Statement.expression e).declares = [] from rfl, bind_nil]
    obtain ⟨value, he, rfl⟩ := hs
    have h : Executes host script fuel ⟨[] :: scopes, ip, []⟩ (perform host e) _ :=
      executes_perform hhost he hcode
    exact executes_inBlock h (fun i b hb => nomatch hb)
termination_by structural s

/-- So does the code of statements in a row. -/
theorem executes_execAll (hhost : host.GivesData) (body : List Statement)
    {scopes : List (List String)} {ip : Nat} {bytes : List UInt8}
    (hbody : BodyCode script.chunk.constants scopes body bytes)
    (hcode : script.chunk.Holds ip bytes) :
    Executes host script fuel ⟨scopes, ip, []⟩ (execAll host fuel body)
      fun _ => ⟨bind (declared body) scopes, ip + bytes.length, []⟩ := by
  cases body with
  | nil =>
    obtain rfl : bytes = [] := hbody
    rw [show declared [] = [] from rfl, bind_nil]
    exact .pure (.refl _)
  | cons s body =>
    obtain ⟨first, rest, hs, hbody, rfl⟩ := hbody
    rw [show declared (s :: body) = declared body ++ s.declares from rfl, bind_append,
      List.length_append, ← Nat.add_assoc]
    exact (executes_exec hhost s hs hcode.left).bind fun _ =>
      executes_execAll hhost body hbody hcode.right
termination_by structural body

end

end Statements

end ScriptEngine.Tree
