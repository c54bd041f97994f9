import ScriptEngine.Proofs.Tree.Variables
set_option autoImplicit false

/-!
# Runs of expressions

The machine that runs the code of an expression does what the interpreter of trees does
with the expression, and pushes its value (`executes_eval`).  The induction is over the
tree; operators, calls and conditions have a rule each.

A native that is given data gives data (`Host.GivesData`), so that a program without
functions only ever calls natives.
-/

namespace ScriptEngine

open Machine

variable {World : Type}

/-- A native that is given data gives data. -/
def Host.GivesData (host : Host World) : Prop :=
  ∀ n arguments store world v, (∀ a ∈ arguments, a.isData = true) →
    (host.call n arguments store world).result = .ok v → v.isData = true

namespace Tree

/-! ## Operators -/

theorem unary_code (op : UnaryOperator) (v : Value) :
    op.code.unary v = unaryValue op v := by
  cases op <;> cases v <;> rfl

/-- An operator has one opcode, or it negates what another one gives. -/
theorem binary_code (op : BinaryOperator) (v w : Value) :
    ∃ c : Opcode, c.isBinary = true ∧
      ((op.code = [c] ∧ binaryValue op v w = c.binary v w) ∨
        (op.code = [c, .not] ∧ binaryValue op v w = c.binary v w >>= Opcode.not.unary)) := by
  cases op with
  | add =>
    refine ⟨.add, rfl, .inl ⟨rfl, ?_⟩⟩
    cases v <;> cases w <;> rfl
  | subtract =>
    refine ⟨.subtract, rfl, .inl ⟨rfl, ?_⟩⟩
    cases v <;> cases w <;> rfl
  | multiply =>
    refine ⟨.multiply, rfl, .inl ⟨rfl, ?_⟩⟩
    cases v <;> cases w <;> rfl
  | divide =>
    refine ⟨.divide, rfl, .inl ⟨rfl, ?_⟩⟩
    cases v <;> cases w <;> rfl
  | equal => exact ⟨.equal, rfl, .inl ⟨rfl, rfl⟩⟩
  | unequal => exact ⟨.equal, rfl, .inr ⟨rfl, rfl⟩⟩
  | greater =>
    refine ⟨.greater, rfl, .inl ⟨rfl, ?_⟩⟩
    cases v <;> cases w <;> rfl
  | greaterEqual =>
    refine ⟨.less, rfl, .inr ⟨rfl, ?_⟩⟩
    cases v <;> cases w <;> rfl
  | less =>
    refine ⟨.less, rfl, .inl ⟨rfl, ?_⟩⟩
    cases v <;> cases w <;> rfl
  | lessEqual =>
    refine ⟨.greater, rfl, .inr ⟨rfl, ?_⟩⟩
    cases v <;> cases w <;> rfl

theorem data_unary {op : Opcode} {v u : Value} (h : op.unary v = .ok u) :
    u.isData = true := by
  unfold Opcode.unary at h
  split at h
  · split at h <;> cases h
    rfl
  · split at h <;> cases h
    rfl

theorem data_binary {op : Opcode} {v w u : Value} (h : op.binary v w = .ok u) :
    u.isData = true := by
  unfold Opcode.binary at h
  split at h
  case h_7 =>
    split at h
    · next hsum =>
      cases h
      unfold sum? at hsum
      split at hsum <;> cases hsum <;> rfl
    · cases h
  all_goals cases h
  all_goals rfl

theorem settle_bind (x : Except Fault Value) (f : Value → Except Fault Value) :
    (settle (x >>= f) : Run World Value) = settle x >>= fun v => settle (f v) := by
  cases x <;> rfl

section Rules

variable {host : Host World} {script : Function Value} {fuel : Nat}
  {scopes : List (List String)} {ip : Nat} {ts : List Value}

/-- An operator replaces the values on top by its outcome. -/
theorem executes_outcome (used : List Value) {outcome : Except Fault Value}
    (hdata : ∀ v, outcome = .ok v → v.isData = true)
    (h : ∀ (m : Machine World) (below : List Value),
      m.step host (frameOf script ip (used ++ below)) =
        m.afterOperator (frameOf script ip (used ++ below)) (slotsOf below) outcome) :
    Executes host script fuel ⟨scopes, ip, used ++ ts⟩ (settle outcome)
      fun v => ⟨scopes, ip + 1, v :: ts⟩ := by
  intro σ hσ
  have hstep := h σ.machine (ts ++ (σ.locals ++ [.function script]))
  rw [← List.append_assoc] at hstep
  cases outcome with
  | ok v =>
    refine ⟨⟨hσ.names, hσ.data, List.forall_mem_cons.mpr ⟨hdata v rfl, fun w hw => ?_⟩⟩, ?_⟩
    · exact hσ.temps w (List.mem_append_right _ hw)
    · refine exists_ending_of_step (hstep.trans ?_)
      exact congrArg (Progress.running · σ.machine)
        (congrArg (Frame.mk script #[] (ip + 1)) (slotsOf_push _ v))
  | error fault => exact EndsAs.of_failed hstep

theorem executes_unary {op : Opcode} (hop : op.isUnary = true)
    (hcode : script.chunk.Holds ip [op.toByte]) (v : Value) :
    Executes host script fuel ⟨scopes, ip, v :: ts⟩ (settle (op.unary v))
      fun w => ⟨scopes, ip + 1, w :: ts⟩ :=
  executes_outcome [v] (fun _ h => data_unary h) fun _ below =>
    step_unary (f := frameOf script ip (v :: below)) hop hcode (slotsOf_push below v).symm

theorem executes_binary {op : Opcode} (hop : op.isBinary = true)
    (hcode : script.chunk.Holds ip [op.toByte]) (v w : Value) :
    Executes host script fuel ⟨scopes, ip, w :: v :: ts⟩ (settle (op.binary v w))
      fun u => ⟨scopes, ip + 1, u :: ts⟩ := by
  refine executes_outcome [w, v] (fun _ h => data_binary h) fun _ below => ?_
  refine step_binary (f := frameOf script ip (w :: v :: below)) hop hcode ?_
  rw [slotsOf_push, slotsOf_push]
  rfl

theorem executes_operator (op : BinaryOperator)
    (hcode : script.chunk.Holds ip (op.code.map Opcode.toByte)) (v w : Value) :
    Executes host script fuel ⟨scopes, ip, w :: v :: ts⟩ (settle (binaryValue op v w))
      fun u => ⟨scopes, ip + (op.code.map Opcode.toByte).length, u :: ts⟩ := by
  obtain ⟨c, hc, ⟨hop, hvalue⟩ | ⟨hop, hvalue⟩⟩ := binary_code op v w
  · rw [hvalue, hop]
    rw [hop] at hcode
    exact executes_binary hc hcode v w
  · rw [hvalue, hop, settle_bind]
    rw [hop] at hcode
    exact (executes_binary hc (hcode.left (a := [c.toByte])) v w).bind fun u =>
      executes_unary rfl (hcode.right (a := [c.toByte])) u

/-- A conditional jump asks whether the value on top holds. -/
theorem executes_test {d : UInt8} (hcode : script.chunk.Holds ip [Opcode.jumpIfFalse.toByte, d])
    (v : Value) :
    Executes host script fuel ⟨scopes, ip, v :: ts⟩ (test v)
      fun b => ⟨scopes, if b then ip + 2 else ip + 2 + d.toNat, v :: ts⟩ := by
  unfold test
  cases hb : v.truth? with
  | some b => exact .pure (moves_jumpIfFalse hb hcode)
  | none =>
    refine .raise fun σ _ => ⟨ip + 2, ?_⟩
    refine (step_jumpIfFalse (f := frameOf script ip _) hcode (slotsOf_back _ v)).trans ?_
    rw [hb]
    rfl

/-! ## Calls -/

theorem run_invoke (n : Native) (vs : List Value) (σ : Memory World) :
    (invoke host n vs).run σ =
      (match (host.call n vs σ.store σ.world).result with
        | .ok v => .ok v
        | .error message => .error (.raised (.native message)),
      { σ with
        store := (host.call n vs σ.store σ.world).store
        world := (host.call n vs σ.store σ.world).world }) := by
  show (match (host.call n vs σ.store σ.world).result with
    | .ok v => (pure v : Run World Value)
    | .error message => raise (.native message)).run _ = _
  cases (host.call n vs σ.store σ.world).result <;> rfl

/-- The step of a call whose callee and arguments are on top. -/
theorem step_apply (host : Host World) (m : Machine World) (f : Value) {vs : List Value}
    (below : List Value) {n : UInt8} (hn : n.toNat = vs.length)
    (hcode : script.chunk.Holds ip [Opcode.call.toByte, n]) :
    m.step host (frameOf script ip (vs.reverse ++ f :: below)) =
      m.invoke host (frameOf script (ip + 2) (vs.reverse ++ f :: below)) below.length f := by
  have hsize : (frameOf script ip (vs.reverse ++ f :: below)).slots.size =
      vs.length + 1 + below.length := by
    refine (slotsOf_size _).trans ?_
    rw [List.length_append, List.length_reverse, List.length_cons]
    omega
  have hstep : m.step host (frameOf script ip (vs.reverse ++ f :: below)) = _ :=
    step_call hcode (by omega)
  have hcallee : (frameOf script ip (vs.reverse ++ f :: below)).slots[below.length]? = some f :=
    slotsOf_get ..
  rw [show (frameOf script ip (vs.reverse ++ f :: below)).slots.size - (n.toNat + 1) =
    below.length by omega, hcallee] at hstep
  exact hstep

theorem argumentCount_apply {f : Value} (vs below : List Value) :
    argumentCount (frameOf script ip (vs.reverse ++ f :: below)) below.length = vs.length := by
  show (slotsOf (vs.reverse ++ f :: below)).size - (below.length + 1) = vs.length
  rw [slotsOf_size, List.length_append, List.length_reverse, List.length_cons]
  omega

/-- A call of a native replaces the native and its arguments by what the host gives. -/
theorem executes_invoke (hhost : host.GivesData) {n : UInt8} {nat : Native}
    {vs : List Value} (hn : n.toNat = vs.length)
    (hcode : script.chunk.Holds ip [Opcode.call.toByte, n])
    (harity : nat.arity.getD vs.length = vs.length) :
    Executes host script fuel ⟨scopes, ip, vs.reverse ++ .native nat :: ts⟩
      (invoke host nat vs) fun v => ⟨scopes, ip + 2, v :: ts⟩ := by
  intro σ hσ
  have hstep := step_apply host σ.machine (.native nat)
    (ts ++ (σ.locals ++ [Value.function script])) hn hcode
  have hframe : Spot.frame ⟨scopes, ip, vs.reverse ++ .native nat :: ts⟩ script σ =
      frameOf script ip (vs.reverse ++
        .native nat :: (ts ++ (σ.locals ++ [Value.function script]))) :=
    congrArg (frameOf script ip) (List.append_assoc ..)
  unfold Machine.invoke at hstep
  dsimp only at hstep
  rw [argumentCount_apply, if_pos harity, ← hframe] at hstep
  unfold invokeNative at hstep
  dsimp only at hstep
  have harguments : ((frameOf script (ip + 2) (vs.reverse ++
      .native nat :: (ts ++ (σ.locals ++ [Value.function script])))).slots.extract
        ((ts ++ (σ.locals ++ [Value.function script])).length + 1)
        (frameOf script (ip + 2) (vs.reverse ++
          .native nat :: (ts ++ (σ.locals ++ [Value.function script])))).slots.size).toList =
      vs :=
    (slotsOf_extract ..).trans (List.reverse_reverse vs)
  rw [harguments] at hstep
  rw [run_invoke]
  have hdata : ∀ a ∈ vs, a.isData = true := fun a ha =>
    hσ.temps a (List.mem_append_left _ (List.mem_reverse.mpr ha))
  cases hresult : (host.call nat vs σ.store σ.world).result with
  | ok v =>
    rw [show (host.call nat vs σ.machine.store σ.machine.world).result = .ok v from hresult]
      at hstep
    have hv : v.isData = true := hhost _ _ _ _ _ hdata hresult
    refine ⟨⟨hσ.names, ⟨hσ.data.locals, hσ.data.globals⟩,
      List.forall_mem_cons.mpr ⟨hv, fun w hw => ?_⟩⟩, exists_ending_of_step (hstep.trans ?_)⟩
    · exact hσ.temps w (List.mem_append_right _ (List.mem_cons_of_mem _ hw))
    · have htake := slotsOf_take (vs.reverse ++ [.native nat])
        (ts ++ (σ.locals ++ [Value.function script]))
      rw [List.append_assoc, List.singleton_append] at htake
      have hslots := (congrArg (·.push v) htake).trans (slotsOf_push _ v)
      exact congrArg (Progress.running · _) (congrArg (Frame.mk script #[] (ip + 2)) hslots)
  | error message =>
    rw [show (host.call nat vs σ.machine.store σ.machine.world).result = .error message
      from hresult] at hstep
    exact EndsAs.of_failed hstep

/-- A call is the call of a native, or it is refused. -/
theorem executes_apply (hhost : host.GivesData) {n : UInt8} {f : Value} {vs : List Value}
    (hn : n.toNat = vs.length) (hcode : script.chunk.Holds ip [Opcode.call.toByte, n]) :
    Executes host script fuel ⟨scopes, ip, vs.reverse ++ f :: ts⟩ (apply host f vs)
      fun v => ⟨scopes, ip + 2, v :: ts⟩ := by
  have hfails : ∀ fault : Fault, (∀ (m : Machine World) (below : List Value),
      m.invoke host (frameOf script (ip + 2) (vs.reverse ++ f :: below)) below.length f =
        .failed ⟨fault, ip + 2⟩ m) →
      Executes host script fuel ⟨scopes, ip, vs.reverse ++ f :: ts⟩
        (raise fault : Run World Value) fun v => ⟨scopes, ip + 2, v :: ts⟩ := by
    intro fault h
    refine .raise fun σ _ => ⟨ip + 2, ?_⟩
    have hstep := step_apply host σ.machine f
      (ts ++ (σ.locals ++ [Value.function script])) hn hcode
    rw [h] at hstep
    refine (congrArg (σ.machine.step host ·) ?_).trans hstep
    exact congrArg (frameOf script ip) (List.append_assoc ..)
  have hdata : ∀ σ : Memory World, Spot.Admits ⟨scopes, ip, vs.reverse ++ f :: ts⟩ σ →
      f.isData = true := fun σ hσ => hσ.temps f (by simp)
  unfold apply
  cases f with
  | function g => exact fun σ hσ => nomatch hdata σ hσ
  | closure c => exact fun σ hσ => nomatch hdata σ hσ
  | native nat =>
    dsimp only
    split
    · next harity => exact executes_invoke hhost hn hcode harity
    · next harity =>
      refine hfails _ fun m below => ?_
      unfold Machine.invoke
      dsimp only
      rw [argumentCount_apply, if_neg harity]
      unfold wrongCount
      rw [argumentCount_apply]
      rfl
  | _ => exact hfails _ fun _ _ => rfl

/-! ## Expressions -/

theorem executes_literal {l : Literal} {bytes : List UInt8}
    (hl : l.IsCode script.chunk.constants bytes) (hcode : script.chunk.Holds ip bytes) :
    Executes host script fuel ⟨scopes, ip, ts⟩ (pure l.value)
      fun v => ⟨scopes, ip + bytes.length, v :: ts⟩ := by
  refine .pure ?_
  cases l with
  | boolean b =>
    cases b with
    | true =>
      obtain rfl : bytes = [Opcode.true.toByte] := hl
      exact moves_literal rfl hcode
    | false =>
      obtain rfl : bytes = [Opcode.false.toByte] := hl
      exact moves_literal rfl hcode
  | nil =>
    obtain rfl : bytes = [Opcode.nil.toByte] := hl
    exact moves_literal rfl hcode
  | number digits =>
    obtain ⟨k, hk, rfl⟩ := hl
    exact moves_constant rfl hk hcode
  | string text =>
    obtain ⟨k, hk, rfl⟩ := hl
    exact moves_constant rfl hk hcode

end Rules

/-- The values of some expressions are as many. -/
theorem length_evalAll {host : Host World} {es : List Expression} {vs : List Value}
    {σ σ' : Memory World} (h : (evalAll host es).run σ = (.ok vs, σ')) :
    vs.length = es.length := by
  induction es generalizing vs σ σ' with
  | nil =>
    cases h
    rfl
  | cons e es ih =>
    rw [evalAll, run_bind] at h
    split at h
    · rw [run_bind] at h
      split at h
      · next hrest =>
        cases h
        exact congrArg (· + 1) (ih hrest)
      · cases h
    · cases h

section Expressions

variable {host : Host World} {script : Function Value} {fuel : Nat}
  {scopes : List (List String)}

mutual

/-- The code of an expression pushes its value. -/
theorem executes_eval (hhost : host.GivesData) (e : Expression) {ip : Nat} {ts : List Value}
    {bytes : List UInt8} (he : e.IsCode script.chunk.constants scopes.flatten bytes)
    (hcode : script.chunk.Holds ip bytes) :
    Executes host script fuel ⟨scopes, ip, ts⟩ (e.eval host)
      fun v => ⟨scopes, ip + bytes.length, v :: ts⟩ := by
  cases e with
  | literal l => exact executes_literal he hcode
  | name x => exact executes_look he hcode
  | assign x e =>
    obtain ⟨value, access, he, haccess, rfl⟩ := he
    rw [List.length_append, ← Nat.add_assoc]
    exact (executes_eval hhost e he hcode.left).bind fun v =>
      (executes_assign haccess hcode.right).bind fun _ => .pure (.refl _)
  | unary op e =>
    obtain ⟨operand, he, rfl⟩ := he
    rw [List.length_append, ← Nat.add_assoc]
    refine (executes_eval hhost e he hcode.left).bind fun v => ?_
    rw [← unary_code]
    exact executes_unary (by cases op <;> rfl) hcode.right v
  | binary op l r =>
    obtain ⟨left, right, hl, hr, rfl⟩ := he
    have hop := hcode.right
    rw [List.length_append, ← Nat.add_assoc] at hop
    rw [List.length_append, List.length_append, ← Nat.add_assoc, ← Nat.add_assoc]
    exact (executes_eval hhost l hl hcode.left.left).bind fun v =>
      (executes_eval hhost r hr hcode.left.right).bind fun w => executes_operator op hop v w
  | and l r =>
    obtain ⟨left, right, d, hl, hr, hd, rfl⟩ := he
    have hjump := hcode.left.right
    have hright : script.chunk.Holds (ip + left.length + 3) right := by
      simpa [Nat.add_assoc] using hcode.right
    have hend : ip + (left ++ [Opcode.jumpIfFalse.toByte, d, Opcode.pop.toByte] ++ right).length =
        ip + left.length + 3 + right.length := by
      simp
      omega
    rw [hend]
    refine (executes_eval hhost l hl hcode.left.left).bind fun v =>
      (executes_test (hjump.left (a := [_, _])) v).bind fun b => ?_
    cases b with
    | true =>
      exact (executes_eval hhost r hr hright).after
        (moves_pop (hjump.right (a := [_, _])))
    | false =>
      refine .pure ?_
      rw [show ip + left.length + 3 + right.length = ip + left.length + 2 + d.toNat by omega]
      exact .refl _
  | or l r =>
    obtain ⟨left, right, d, hl, hr, hd, rfl⟩ := he
    have hjump := hcode.left.right
    have hright : script.chunk.Holds (ip + left.length + 5) right := by
      simpa [Nat.add_assoc] using hcode.right
    have hend : ip + (left ++ [Opcode.jumpIfFalse.toByte, 2, Opcode.jump.toByte, d,
        Opcode.pop.toByte] ++ right).length = ip + left.length + 5 + right.length := by
      simp
      omega
    rw [hend]
    refine (executes_eval hhost l hl hcode.left.left).bind fun v =>
      (executes_test (hjump.left (a := [_, _])) v).bind fun b => ?_
    cases b with
    | true =>
      refine .pure ?_
      rw [show ip + left.length + 5 + right.length = ip + left.length + 2 + 2 + d.toNat by omega]
      exact moves_jump ((hjump.right (a := [_, _])).left (a := [_, _]))
    | false =>
      exact (executes_eval hhost r hr hright).after
        (moves_pop (hjump.right (a := [_, _, _, _])))
  | call callee es =>
    obtain ⟨first, rest, n, hfirst, hrest, hn, rfl⟩ := he
    have hcall := hcode.right
    rw [List.length_append, ← Nat.add_assoc] at hcall
    rw [List.length_append, List.length_append, ← Nat.add_assoc, ← Nat.add_assoc]
    refine (executes_eval hhost callee hfirst hcode.left.left).bind fun f =>
      (executes_evalAll hhost es hrest hcode.left.right).bind_of fun vs hvs => ?_
    obtain ⟨σ, σ', hvs⟩ := hvs
    exact executes_apply hhost (hn.trans (length_evalAll hvs).symm) hcall
termination_by structural e

/-- The code of arguments pushes their values. -/
theorem executes_evalAll (hhost : host.GivesData) (es : List Expression) {ip : Nat}
    {ts : List Value} {bytes : List UInt8}
    (hes : ArgumentsCode script.chunk.constants scopes.flatten es bytes)
    (hcode : script.chunk.Holds ip bytes) :
    Executes host script fuel ⟨scopes, ip, ts⟩ (evalAll host es)
      fun vs => ⟨scopes, ip + bytes.length, vs.reverse ++ ts⟩ := by
  cases es with
  | nil =>
    obtain rfl : bytes = [] := hes
    exact .pure (.refl _)
  | cons e es =>
    obtain ⟨first, rest, he, hrest, rfl⟩ := hes
    rw [List.length_append, ← Nat.add_assoc]
    refine (executes_eval hhost e he hcode.left).bind fun v =>
      (executes_evalAll hhost es hrest hcode.right).bind fun vs => .pure ?_
    rw [List.reverse_cons, List.append_assoc]
    exact .refl _
termination_by structural es

end

end Expressions

end Tree

end ScriptEngine
