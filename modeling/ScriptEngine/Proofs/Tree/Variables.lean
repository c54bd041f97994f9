import ScriptEngine.Proofs.Tree.Run
set_option autoImplicit false

/-!
# Variables and slots

The machine finds a local variable in the slot that its name has among the names in
scope, and a global by its name.  Reading, assigning and declaring a variable are
executed by the code for it (`executes_look`, `executes_assign`, `executes_declare`).
-/

namespace ScriptEngine.Tree

open Machine

variable {World : Type}

/-! ## Variables in a row -/

/-- The newest variable of a name, with what is newer and what is older. -/
theorem exists_of_slotIn {x : String} {slot : Nat} {vars : Scope}
    (h : slotIn? x (vars.map Prod.fst) = some slot) :
    ∃ newer v older, vars = newer ++ (x, v) :: older ∧ older.length + 1 = slot ∧
      Globals.lookup x vars = some v ∧
      ∀ w, Globals.update x w vars = newer ++ (x, w) :: older := by
  induction vars with
  | nil => cases h
  | cons var older ih =>
    obtain ⟨y, w⟩ := var
    rw [List.map_cons, slotIn?] at h
    split at h
    · next hxy =>
      obtain rfl : y = x := hxy
      refine ⟨[], w, older, rfl, ?_, if_pos rfl, fun v => if_pos rfl⟩
      rw [← Option.some.inj h, List.length_map]
    · next hxy =>
      obtain ⟨newer, v, older', heq, hslot, hlookup, hupdate⟩ := ih h
      refine ⟨(y, w) :: newer, v, older', by rw [heq]; rfl, hslot,
        (if_neg hxy).trans hlookup, fun v' => (if_neg hxy).trans ?_⟩
      rw [hupdate v']
      rfl

theorem lookup_of_slotIn {x : String} {vars : Scope}
    (h : slotIn? x (vars.map Prod.fst) = none) : Globals.lookup x vars = none := by
  induction vars with
  | nil => rfl
  | cons var older ih =>
    obtain ⟨y, w⟩ := var
    rw [List.map_cons, slotIn?] at h
    split at h
    · cases h
    · next hxy => exact (if_neg hxy).trans (ih h)

theorem lookup_append (x : String) (scope outer : Scope) :
    Globals.lookup x (scope ++ outer) =
      (Globals.lookup x scope).or (Globals.lookup x outer) := by
  induction scope with
  | nil => rfl
  | cons var older ih =>
    rw [List.cons_append, Globals.lookup, Globals.lookup]
    split
    · rfl
    · exact ih

theorem update_append {x : String} (v : Value) (scope outer : Scope) :
    Globals.update x v (scope ++ outer) =
      if (Globals.lookup x scope).isSome then Globals.update x v scope ++ outer
      else scope ++ Globals.update x v outer := by
  induction scope with
  | nil => rfl
  | cons var older ih =>
    rw [List.cons_append, Globals.lookup, Globals.update, Globals.update]
    split
    · rfl
    · rw [ih]
      split <;> rfl

/-- Names in scopes are looked up as they stand in a row. -/
theorem find_eq (x : String) (scopes : List Scope) :
    find? x scopes = Globals.lookup x scopes.flatten := by
  induction scopes with
  | nil => rfl
  | cons scope outer ih => rw [find?, List.flatten_cons, lookup_append, ih]

/-- So are they given other values. -/
theorem flatten_assignIn {x : String} (v : Value) {scopes : List Scope}
    (h : (find? x scopes).isSome) :
    (assignIn x v scopes).flatten = Globals.update x v scopes.flatten := by
  induction scopes with
  | nil => cases h
  | cons scope outer ih =>
    rw [assignIn, List.flatten_cons, update_append]
    split
    · rfl
    · next hnone =>
      rw [List.flatten_cons, ih]
      rw [find?] at h
      rwa [Option.not_isSome_iff_eq_none.mp hnone, Option.none_or] at h

theorem names_update {x : String} (v : Value) {scope : Scope}
    (h : (Globals.lookup x scope).isSome) :
    (Globals.update x v scope).map Prod.fst = scope.map Prod.fst := by
  induction scope with
  | nil => cases h
  | cons var older ih =>
    rw [Globals.lookup] at h
    rw [Globals.update]
    split
    · rfl
    · next hne =>
      rw [if_neg hne] at h
      rw [List.map_cons, ih h, List.map_cons]

/-- An assignment declares nothing. -/
theorem names_assignIn (x : String) (v : Value) (scopes : List Scope) :
    (assignIn x v scopes).map (fun s => s.map Prod.fst) =
      scopes.map fun s => s.map Prod.fst := by
  induction scopes with
  | nil => rfl
  | cons scope outer ih =>
    rw [assignIn]
    split
    · next hsome => rw [List.map_cons, names_update v hsome, List.map_cons]
    · rw [List.map_cons, ih, List.map_cons]

/-! ## Locals in the memory -/

namespace Memory

variable {σ : Memory World} {x : String}

theorem names_flatten (σ : Memory World) :
    σ.names.flatten = σ.scopes.flatten.map Prod.fst :=
  List.map_flatten.symm

/-- A name that has a slot is a local, whose value is in that slot. -/
theorem exists_local {slot : Nat} (h : slotIn? x σ.names.flatten = some slot) :
    ∃ newer v older, σ.locals = newer ++ v :: older ∧ older.length + 1 = slot ∧
      find? x σ.scopes = some v ∧
      ∀ w, Memory.locals { σ with scopes := assignIn x w σ.scopes } = newer ++ w :: older := by
  rw [names_flatten] at h
  obtain ⟨newer, v, older, heq, hslot, hlookup, hupdate⟩ := exists_of_slotIn h
  have hfind : find? x σ.scopes = some v := (find_eq x σ.scopes).trans hlookup
  refine ⟨newer.map Prod.snd, v, older.map Prod.snd, ?_, by rwa [List.length_map], hfind, ?_⟩
  · rw [locals, heq, List.map_append, List.map_cons]
  · intro w
    rw [locals, flatten_assignIn w (by rw [hfind]; rfl), hupdate w, List.map_append,
      List.map_cons]

theorem find_of_slotIn (h : slotIn? x σ.names.flatten = none) : find? x σ.scopes = none := by
  rw [names_flatten] at h
  rw [find_eq, lookup_of_slotIn h]

/-- A global that is given data leaves data. -/
theorem IsData.define (h : σ.IsData) (x : String) {v : Value} (hv : v.isData = true) :
    IsData { σ with globals := σ.globals.define x v } := by
  refine ⟨h.locals, fun y w hw => ?_⟩
  rcases Globals.eq_or_get_of_get_define hw with rfl | hw
  · exact hv
  · exact h.globals y w hw

end Memory

/-! ## Moves of the machine -/

section Moves

variable {host : Host World} {script : Function Value} {fuel : Nat}
  {scopes : List (List String)} {ip : Nat} {ts : List Value} {σ : Memory World}

theorem Spot.Admits.goTo (h : Spot.Admits ⟨scopes, ip, ts⟩ σ) (ip' : Nat) :
    Spot.Admits ⟨scopes, ip', ts⟩ σ :=
  ⟨h.names, h.data, h.temps⟩

theorem Spot.Admits.push (h : Spot.Admits ⟨scopes, ip, ts⟩ σ) {v : Value}
    (hv : v.isData = true) (ip' : Nat) : Spot.Admits ⟨scopes, ip', v :: ts⟩ σ :=
  ⟨h.names, h.data, List.forall_mem_cons.mpr ⟨hv, h.temps⟩⟩

theorem Spot.Admits.top {v : Value} (h : Spot.Admits ⟨scopes, ip, v :: ts⟩ σ) :
    v.isData = true :=
  (List.forall_mem_cons.mp h.temps).1

/-- A move by one instruction that has nothing to do with variables. -/
theorem moves_step {ip' : Nat} {ts' : List Value}
    (hdata : (∀ v ∈ ts, v.isData = true) → ∀ v ∈ ts', v.isData = true)
    (h : ∀ (m : Machine World) (below : List Value),
      m.step host (frameOf script ip (ts ++ below)) =
        .running (frameOf script ip' (ts' ++ below)) m) :
    Moves World host script ⟨scopes, ip, ts⟩ ⟨scopes, ip', ts'⟩ :=
  .step fun _ hσ => ⟨⟨hσ.names, hσ.data, hdata hσ.temps⟩, h _ _⟩

theorem data_of_isLiteral {op : Opcode} (h : op.isLiteral = true) :
    op.literal.isData = true := by
  cases op <;> rfl

theorem moves_literal {op : Opcode} (hop : op.isLiteral = true)
    (hcode : script.chunk.Holds ip [op.toByte]) :
    Moves World host script ⟨scopes, ip, ts⟩ ⟨scopes, ip + 1, op.literal :: ts⟩ := by
  refine moves_step (fun h => List.forall_mem_cons.mpr ⟨data_of_isLiteral hop, h⟩) ?_
  intro m below
  rw [step_literal (f := frameOf script ip (ts ++ below)) hop hcode, frameOf_push]
  rfl

theorem moves_constant {k : UInt8} {v : Value} (hv : v.isData = true)
    (hk : script.chunk.constants[k.toNat]? = some v)
    (hcode : script.chunk.Holds ip [Opcode.constant.toByte, k]) :
    Moves World host script ⟨scopes, ip, ts⟩ ⟨scopes, ip + 2, v :: ts⟩ := by
  refine moves_step (fun h => List.forall_mem_cons.mpr ⟨hv, h⟩) ?_
  intro m below
  rw [step_constant (f := frameOf script ip (ts ++ below)) hcode hk, frameOf_push]
  rfl

theorem moves_pop {v : Value} (hcode : script.chunk.Holds ip [Opcode.pop.toByte]) :
    Moves World host script ⟨scopes, ip, v :: ts⟩ ⟨scopes, ip + 1, ts⟩ := by
  refine moves_step (fun h => (List.forall_mem_cons.mp h).2) ?_
  intro m below
  rw [step_pop (f := frameOf script ip (v :: ts ++ below)) hcode (slotsOf_back _ v)]
  exact congrArg (Progress.running · m) (frameOf_pop ..)

theorem moves_jump {d : UInt8} (hcode : script.chunk.Holds ip [Opcode.jump.toByte, d]) :
    Moves World host script ⟨scopes, ip, ts⟩ ⟨scopes, ip + 2 + d.toNat, ts⟩ := by
  refine moves_step id ?_
  intro m below
  rw [step_jump (f := frameOf script ip (ts ++ below)) hcode]
  rfl

theorem moves_jumpIfFalse {d : UInt8} {v : Value} {b : Bool} (hb : v.truth? = some b)
    (hcode : script.chunk.Holds ip [Opcode.jumpIfFalse.toByte, d]) :
    Moves World host script ⟨scopes, ip, v :: ts⟩
      ⟨scopes, if b then ip + 2 else ip + 2 + d.toNat, v :: ts⟩ := by
  refine moves_step id ?_
  intro m below
  rw [step_jumpIfFalse (f := frameOf script ip (v :: ts ++ below)) hcode (slotsOf_back _ v), hb]
  rfl

end Moves

/-! ## Uses of variables -/

section Uses

variable {host : Host World} {script : Function Value} {fuel : Nat}
  {scopes : List (List String)} {ip : Nat} {ts : List Value} {x : String}
  {bytes : List UInt8}

theorem run_look (x : String) (σ : Memory World) :
    (look x).run σ =
      match (find? x σ.scopes).or (σ.globals.get? x) with
      | some v => (.ok v, σ)
      | none => (.error (.raised (.undefinedVariable x)), σ) := by
  show (match (find? x σ.scopes).or (σ.globals.get? x) with
    | some v => (pure v : Run World Value)
    | none => raise (.undefinedVariable x)).run σ = _
  cases (find? x σ.scopes).or (σ.globals.get? x) <;> rfl

theorem executes_look
    (haccess : AccessCode script.chunk.constants scopes.flatten .getLocal .getGlobal x bytes)
    (hcode : script.chunk.Holds ip bytes) :
    Executes host script fuel ⟨scopes, ip, ts⟩ (look x)
      fun v => ⟨scopes, ip + bytes.length, v :: ts⟩ := by
  intro σ hσ
  obtain rfl : σ.names = scopes := hσ.names
  rw [run_look]
  unfold AccessCode at haccess
  split at haccess
  · next slot hslot =>
    obtain ⟨k, rfl, rfl⟩ := haccess
    obtain ⟨newer, v, older, hlocals, hlen, hfind, -⟩ := Memory.exists_local hslot
    rw [hfind, Option.some_or]
    have hv : v.isData = true := hσ.data.locals v (by rw [hlocals]; simp)
    have hget : (slotsOf (ts ++ (σ.locals ++ [.function script])))[k.toNat]? = some v := by
      have h := slotsOf_get (ts ++ newer) (older ++ [.function script]) v
      rw [List.length_append, List.length_singleton, hlen] at h
      rw [← h, hlocals]
      simp
    refine ⟨hσ.push hv _, exists_ending_of_step ?_⟩
    refine (step_getLocal (f := frameOf script ip _) hcode hget).trans ?_
    exact congrArg (Progress.running · σ.machine) (frameOf_push ..)
  · next hnone =>
    obtain ⟨k, hk, rfl⟩ := haccess
    rw [Memory.find_of_slotIn hnone, Option.none_or]
    have hstep : σ.machine.step host
        (frameOf script ip (ts ++ (σ.locals ++ [.function script]))) = _ :=
      step_getGlobal hcode hk
    cases hget : σ.globals.get? x with
    | some v =>
      refine ⟨hσ.push (hσ.data.globals x v hget) _, exists_ending_of_step ?_⟩
      rw [show σ.machine.globals.get? x = some v from hget] at hstep
      exact hstep.trans (congrArg (Progress.running · σ.machine) (frameOf_push ..))
    | none =>
      rw [show σ.machine.globals.get? x = none from hget] at hstep
      exact EndsAs.of_failed hstep

theorem run_assign (x : String) (v : Value) (σ : Memory World) :
    (assign x v).run σ =
      if (find? x σ.scopes).isSome then (.ok (), { σ with scopes := assignIn x v σ.scopes })
      else
        match σ.globals.assign? x v with
        | some globals => (.ok (), { σ with globals })
        | none => (.error (.raised (.undefinedVariable x)), σ) := by
  show (if (find? x σ.scopes).isSome then
      (set { σ with scopes := assignIn x v σ.scopes } : Run World Unit)
    else
      match σ.globals.assign? x v with
      | some globals => set { σ with globals }
      | none => raise (.undefinedVariable x)).run σ = _
  split
  · rfl
  · cases σ.globals.assign? x v <;> rfl

theorem executes_assign {v : Value}
    (haccess : AccessCode script.chunk.constants scopes.flatten .setLocal .setGlobal x bytes)
    (hcode : script.chunk.Holds ip bytes) :
    Executes host script fuel ⟨scopes, ip, v :: ts⟩ (assign x v)
      fun _ => ⟨scopes, ip + bytes.length, v :: ts⟩ := by
  intro σ hσ
  obtain rfl : σ.names = scopes := hσ.names
  rw [run_assign]
  unfold AccessCode at haccess
  split at haccess
  · next slot hslot =>
    obtain ⟨k, rfl, rfl⟩ := haccess
    obtain ⟨newer, w, older, hlocals, hlen, hfind, hassign⟩ := Memory.exists_local hslot
    rw [hfind, Option.isSome_some, if_pos rfl]
    have hadmits : Spot.Admits ⟨σ.names, ip + 2, v :: ts⟩
        { σ with scopes := assignIn x v σ.scopes } := by
      refine ⟨names_assignIn x v σ.scopes, ⟨fun u hu => ?_, hσ.data.globals⟩, hσ.temps⟩
      rw [hassign v] at hu
      rcases List.mem_append.mp hu with hu | hu
      · exact hσ.data.locals u (by rw [hlocals]; exact List.mem_append_left _ hu)
      · rcases List.mem_cons.mp hu with rfl | hu
        · exact hσ.top
        · exact hσ.data.locals u (by rw [hlocals]; simp [hu])
    have hindex : (older ++ [Value.function script]).length = k.toNat := by
      rw [List.length_append, List.length_singleton, hlen]
    have hset : (slotsOf (v :: ts ++ (σ.locals ++ [.function script]))).setIfInBounds k.toNat v =
        slotsOf (v :: ts ++ (newer ++ v :: older ++ [.function script])) := by
      have h := slotsOf_set (v :: ts ++ newer) (older ++ [.function script]) w v
      rw [hindex] at h
      simpa [hlocals] using h
    have hlt : k.toNat < (slotsOf (v :: ts ++ (σ.locals ++ [.function script]))).size := by
      rw [slotsOf_size, hlocals, ← hindex]
      simp
      omega
    refine ⟨hadmits, exists_ending_of_step ?_⟩
    refine (step_setLocal (f := frameOf script ip _) hcode hlt (slotsOf_back _ v)).trans ?_
    have hframe := congrArg (Frame.mk script #[] (ip + 2)) hset
    rw [← hassign v] at hframe
    exact congrArg (Progress.running · σ.machine) hframe
  · next hnone =>
    obtain ⟨k, hk, rfl⟩ := haccess
    rw [Memory.find_of_slotIn hnone, Option.isSome_none, if_neg Bool.false_ne_true]
    have hstep : σ.machine.step host
        (frameOf script ip (v :: ts ++ (σ.locals ++ [.function script]))) = _ :=
      step_setGlobal hcode hk (slotsOf_back _ v)
    cases hassign : σ.globals.assign? x v with
    | some globals =>
      rw [show σ.machine.globals.assign? x v = some globals from hassign] at hstep
      refine ⟨⟨hσ.names, ?_, hσ.temps⟩, exists_ending_of_step hstep⟩
      unfold Globals.assign? at hassign
      split at hassign
      · cases hassign
        exact hσ.data.define x hσ.top
      · cases hassign
    | none =>
      rw [show σ.machine.globals.assign? x v = none from hassign] at hstep
      exact EndsAs.of_failed hstep

/-! ## Declarations and blocks -/

theorem executes_declare {v : Value} (hbind : BindCode script.chunk.constants scopes x bytes)
    (hcode : script.chunk.Holds ip bytes) :
    Executes host script fuel ⟨scopes, ip, [v]⟩ (declare x v)
      fun _ => ⟨bind [x] scopes, ip + bytes.length, []⟩ := by
  intro σ hσ
  obtain rfl : σ.names = scopes := hσ.names
  unfold BindCode at hbind
  cases hscopes : σ.scopes with
  | nil =>
    have hnames : σ.names = [] := by rw [Memory.names, hscopes]; rfl
    rw [hnames] at hbind
    obtain ⟨k, hk, rfl⟩ := hbind
    have hrun : (declare x v).run σ = (.ok (), { σ with globals := σ.globals.define x v }) := by
      refine congrArg (Prod.mk (Except.ok ())) ?_
      dsimp only
      rw [hscopes]
    rw [hrun]
    refine ⟨⟨?_, hσ.data.define x hσ.top, nofun⟩, exists_ending_of_step ?_⟩
    · show σ.names = bind [x] σ.names
      rw [hnames]
      rfl
    · refine (step_defineGlobal (f := frameOf script ip _) hcode hk (slotsOf_back _ v)).trans ?_
      exact congrArg (Progress.running · _) (frameOf_pop ..)
  | cons scope outer =>
    have hnames : σ.names = scope.map Prod.fst :: outer.map fun s => s.map Prod.fst := by
      rw [Memory.names, hscopes]; rfl
    rw [hnames] at hbind
    obtain rfl : bytes = [] := hbind
    have hrun : (declare x v).run σ =
        (.ok (), { σ with scopes := ((x, v) :: scope) :: outer }) := by
      refine congrArg (Prod.mk (Except.ok ())) ?_
      dsimp only
      rw [hscopes]
    have hlocals : Memory.locals { σ with scopes := ((x, v) :: scope) :: outer } =
        v :: σ.locals := by
      show List.map _ _ = v :: List.map _ _
      rw [hscopes]
      rfl
    rw [hrun]
    refine ⟨⟨?_, ⟨fun u hu => ?_, hσ.data.globals⟩, nofun⟩, 0, ?_⟩
    · show _ = bind [x] σ.names
      rw [hnames]
      rfl
    · rw [hlocals] at hu
      rcases List.mem_cons.mp hu with rfl | hu
      · exact hσ.top
      · exact hσ.data.locals u hu
    · show Ending.unfinished (frameOf _ _ _) _ = .unfinished (frameOf _ _ _) _
      rw [hlocals]
      rfl

theorem exists_ending_pops (host : Host World) (m : Machine World) (vs below : List Value)
    (hcode : script.chunk.Holds ip (pops vs.length)) :
    ∃ n, ending host n m (frameOf script ip (vs ++ below)) =
      .unfinished (frameOf script (ip + vs.length) below) m := by
  induction vs generalizing ip with
  | nil => exact ⟨0, rfl⟩
  | cons v vs ih =>
    have hrest : script.chunk.Holds (ip + 1) (pops vs.length) :=
      hcode.right (a := [Opcode.pop.toByte])
    obtain ⟨n, hn⟩ := ih hrest
    have hstep : m.step host (frameOf script ip (v :: vs ++ below)) = _ :=
      step_pop (hcode.left (a := [Opcode.pop.toByte])) (slotsOf_back _ v)
    refine ⟨n + 1, ?_⟩
    rw [ending_succ, hstep]
    refine (congrArg (ending host n m) (frameOf_pop ..)).trans (hn.trans ?_)
    rw [List.length_cons, Nat.add_right_comm, Nat.add_assoc]

/-- The locals of a block are taken away behind it. -/
theorem executes_inBlock {inside : Run World Unit} {names : List String} {ip' : Nat}
    (h : Executes host script fuel ⟨[] :: scopes, ip, []⟩ inside
      fun _ => ⟨names :: scopes, ip', []⟩)
    (hcode : script.chunk.Holds ip' (pops names.length)) :
    Executes host script fuel ⟨scopes, ip, []⟩ (inBlock inside)
      fun _ => ⟨scopes, ip' + names.length, []⟩ := by
  have hopen : Executes host script fuel ⟨scopes, ip, []⟩
      (modify fun σ => { σ with scopes := [] :: σ.scopes } : Run World Unit)
      fun _ => ⟨[] :: scopes, ip, []⟩ := fun σ hσ =>
    ⟨⟨congrArg ([] :: ·) hσ.names, ⟨hσ.data.locals, hσ.data.globals⟩, nofun⟩, 0, rfl⟩
  refine hopen.bind fun _ => h.bind fun _ => ?_
  intro σ hσ
  have hnames : σ.names = names :: scopes := hσ.names
  obtain ⟨scope, outer, hscopes⟩ : ∃ scope outer, σ.scopes = scope :: outer := by
    cases hscopes : σ.scopes with
    | nil =>
      rw [Memory.names, hscopes] at hnames
      cases hnames
    | cons scope outer => exact ⟨scope, outer, rfl⟩
  rw [Memory.names, hscopes, List.map_cons] at hnames
  obtain ⟨hscope, houter⟩ := List.cons.inj hnames
  have hlocals : σ.locals =
      scope.map Prod.snd ++ Memory.locals { σ with scopes := σ.scopes.tail } := by
    simp [Memory.locals, hscopes]
  have hlen : (scope.map Prod.snd).length = names.length := by
    rw [← hscope, List.length_map, List.length_map]
  show Spot.Admits _ { σ with scopes := σ.scopes.tail } ∧ _
  refine ⟨⟨?_, ⟨fun v hv => hσ.data.locals v ?_, hσ.data.globals⟩, nofun⟩, ?_⟩
  · rw [Memory.names, hscopes]
    exact houter
  · rw [hlocals]
    exact List.mem_append_right _ hv
  · rw [← hlen] at hcode ⊢
    obtain ⟨n, hn⟩ := exists_ending_pops host σ.machine _
      (Memory.locals { σ with scopes := σ.scopes.tail } ++ [.function script]) hcode
    refine ⟨n, ?_⟩
    rw [← List.append_assoc, ← hlocals] at hn
    exact hn

end Uses

end ScriptEngine.Tree
