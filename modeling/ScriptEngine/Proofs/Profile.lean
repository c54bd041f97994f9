import Mathlib
import ScriptEngine.Proofs.Isolation
import ScriptEngine.Proofs.Machine.Reading
set_option autoImplicit false

/-!
# Profiles: what was carried out

A profile that was made by recording one step after the other accounts for them: its counts are
those of the steps, and its table has each opcode that occurs once, the one that took longest
first (`Profile.accounts_recordAll`).

A session that counts records the steps that succeed, and no others.  So at any point between two
operations its profile accounts for what was carried out since the last reset, however the
programs ended in which it was (`profile_accounts`).
-/

namespace ScriptEngine

open Machine

/-! ## Recorded steps -/

namespace OpcodeStats

variable {s t u : OpcodeStats}

/-- Longer in all, or as long and at least as often. -/
theorem weighsMore_iff : s.weighsMore t ↔ t.total.nanoseconds < s.total.nanoseconds ∨
    t.total.nanoseconds = s.total.nanoseconds ∧ t.count ≤ s.count := by
  simp [weighsMore]

theorem weighsMore_total (s t : OpcodeStats) : (s.weighsMore t || t.weighsMore s) = true := by
  rw [Bool.or_eq_true, weighsMore_iff, weighsMore_iff]
  omega

theorem weighsMore_trans (hst : s.weighsMore t) (htu : t.weighsMore u) : s.weighsMore u := by
  rw [weighsMore_iff] at hst htu ⊢
  omega

end OpcodeStats

namespace Profile

/-- The profile with steps added that were carried out one after the other, each in some time. -/
def recordAll (p : Profile) (steps : List (Opcode × Duration)) : Profile :=
  steps.foldl (fun p step => p.record step.1 step.2) p

/-- How often an opcode was carried out. -/
def count (p : Profile) (op : Opcode) : Nat := ((p.get? op).getD {}).count

/-- The profile tells of each of these opcodes just how often it occurs, and its table has one
entry for each of them, sorted by the time that it took and then by its count. -/
structure Accounts (p : Profile) (executed : List Opcode) : Prop where
  counts : ∀ op, p.count op = executed.count op
  entries : ∀ op, (p.get? op).isSome ↔ 0 < executed.count op
  total : p.instructions = (Opcode.all.toList.map p.count).sum
  listed : ∀ op stats, (op, stats) ∈ p.sorted ↔ p.get? op = some stats
  once : (p.sorted.map Prod.fst).Nodup
  ordered : p.sorted.Pairwise fun e f => f.2.total.nanoseconds < e.2.total.nanoseconds ∨
    f.2.total.nanoseconds = e.2.total.nanoseconds ∧ f.2.count ≤ e.2.count

variable {entries : List (Opcode × OpcodeStats)} {op : Opcode} {stats : OpcodeStats}

theorem mem_keys_recordIn {elapsed : Duration} {o : Opcode} :
    o ∈ (recordIn op elapsed entries).map Prod.fst ↔ o = op ∨ o ∈ entries.map Prod.fst := by
  induction entries with
  | nil => simp [recordIn]
  | cons e later ih =>
    unfold recordIn
    split
    · next h =>
      simp only [List.map_cons, List.mem_cons, h]
      tauto
    · simp only [List.map_cons, List.mem_cons, ih]
      tauto

/-- No opcode gets a second entry. -/
theorem nodup_recordIn (h : (entries.map Prod.fst).Nodup) (elapsed : Duration) :
    ((recordIn op elapsed entries).map Prod.fst).Nodup := by
  induction entries with
  | nil => exact List.pairwise_singleton _ op
  | cons e later ih =>
    obtain ⟨hfresh, hlater⟩ := List.nodup_cons.mp h
    unfold recordIn
    split
    · exact h
    · next hne =>
      refine List.nodup_cons.mpr ⟨fun hmem => ?_, ih hlater⟩
      rcases mem_keys_recordIn.mp hmem with heq | hmem
      · exact hne heq
      · exact hfresh hmem

theorem lookup_eq_some_iff (h : (entries.map Prod.fst).Nodup) :
    lookup op entries = some stats ↔ (op, stats) ∈ entries := by
  induction entries with
  | nil => simp [lookup]
  | cons e later ih =>
    obtain ⟨o, s⟩ := e
    obtain ⟨hfresh, hlater⟩ := List.nodup_cons.mp h
    unfold lookup
    split
    · next ho =>
      subst ho
      have hnone : (o, stats) ∉ later := fun hmem =>
        hfresh (List.mem_map.mpr ⟨_, hmem, rfl⟩)
      simp [hnone, eq_comm]
    · next hne =>
      have hne' : (op, stats) ≠ (o, s) := fun heq => hne (congrArg Prod.fst heq).symm
      rw [ih hlater, List.mem_cons]
      simp only [hne', false_or]

section RecordAll

variable (p : Profile) (steps : List (Opcode × Duration)) (op : Opcode)

theorem count_record (o : Opcode) (elapsed : Duration) :
    (p.record o elapsed).count op = p.count op + if o = op then 1 else 0 := by
  unfold count
  by_cases h : o = op
  · subst h
    rw [get_record_self, if_pos rfl]
    rfl
  · rw [get_record_of_ne h, if_neg h, Nat.add_zero]

theorem isSome_get_record (o : Opcode) (elapsed : Duration) :
    ((p.record o elapsed).get? op).isSome ↔ o = op ∨ (p.get? op).isSome := by
  by_cases h : o = op
  · subst h
    rw [get_record_self]
    simp
  · rw [get_record_of_ne h]
    simp [h]

theorem count_recordAll : (p.recordAll steps).count op =
    p.count op + (steps.map Prod.fst).count op := by
  unfold recordAll
  induction steps generalizing p with
  | nil => rfl
  | cons step steps ih =>
    rw [List.foldl_cons, ih, count_record, List.map_cons, List.count_cons]
    simp only [beq_iff_eq]
    omega

theorem isSome_get_recordAll : ((p.recordAll steps).get? op).isSome ↔
    (p.get? op).isSome ∨ 0 < (steps.map Prod.fst).count op := by
  unfold recordAll
  induction steps generalizing p with
  | nil => simp
  | cons step steps ih =>
    rw [List.foldl_cons, ih, isSome_get_record, List.map_cons, List.count_cons]
    by_cases h : step.1 = op
    · simp [h]
    · simp [h]

theorem instructions_recordAll :
    (p.recordAll steps).instructions = p.instructions + steps.length := by
  unfold recordAll
  induction steps generalizing p with
  | nil => rfl
  | cons step steps ih =>
    rw [List.foldl_cons, ih, instructions_record, List.length_cons]
    omega

theorem nodup_recordAll (h : (p.entries.map Prod.fst).Nodup) :
    ((p.recordAll steps).entries.map Prod.fst).Nodup := by
  unfold recordAll
  induction steps generalizing p with
  | nil => exact h
  | cons step steps ih => exact ih _ (nodup_recordIn h _)

end RecordAll

/-- Each opcode is counted once when all of them are counted. -/
theorem sum_count_all (executed : List Opcode) :
    (Opcode.all.toList.map fun op => executed.count op).sum = executed.length := by
  induction executed with
  | nil => rfl
  | cons op executed ih =>
    have hone : (Opcode.all.toList.map fun o => if op == o then 1 else 0).sum = 1 := by
      cases op <;> rfl
    simp only [List.count_cons, List.sum_map_add, ih, hone, List.length_cons]

/-- The profile of steps accounts for them, however long each of them took. -/
theorem accounts_recordAll (steps : List (Opcode × Duration)) :
    (recordAll {} steps).Accounts (steps.map Prod.fst) := by
  have hcount : ∀ op, (recordAll {} steps).count op = (steps.map Prod.fst).count op :=
    fun op => (count_recordAll {} steps op).trans (Nat.zero_add _)
  have hnodup : ((recordAll {} steps).entries.map Prod.fst).Nodup :=
    nodup_recordAll {} steps List.nodup_nil
  have hperm : (recordAll {} steps).sorted.Perm (recordAll {} steps).entries :=
    List.mergeSort_perm ..
  refine ⟨hcount, fun op => ?_, ?_, fun op stats => ?_, ?_, ?_⟩
  · rw [isSome_get_recordAll]
    exact or_iff_right nofun
  · rw [instructions_recordAll, List.map_congr_left fun op _ => hcount op, sum_count_all,
      List.length_map]
    exact Nat.zero_add _
  · rw [hperm.mem_iff]
    exact (lookup_eq_some_iff hnodup).symm
  · exact (hperm.map Prod.fst).nodup_iff.mpr hnodup
  · have hsorted : (recordAll {} steps).sorted.Pairwise fun e f => e.2.weighsMore f.2 :=
      @List.pairwise_mergeSort (Opcode × OpcodeStats) (fun e f => e.2.weighsMore f.2)
        (fun _ _ _ => OpcodeStats.weighsMore_trans)
        (fun e f => OpcodeStats.weighsMore_total e.2 f.2) _
    exact hsorted.imp OpcodeStats.weighsMore_iff.mp

end Profile

/-! ## Steps of a run -/

variable {World : Type}

namespace Machine

/-- The opcodes of the steps that succeed, out of the first `limit` steps of a run. -/
def carriedOut (host : Host World) : Nat → Machine World → Frame → List Opcode
  | 0, _, _ => []
  | limit + 1, m, f =>
      match m.step host f, f.nextOpcode? with
      | .running g n, some op => op :: carriedOut host limit n g
      | .finished _ _, some op => [op]
      | _, _ => []

/-- A step that succeeds carries out an opcode. -/
theorem exists_nextOpcode {host : Host World} {m : Machine World} {f : Frame}
    (h : ¬ (m.step host f).HasFailed) : ∃ op, f.nextOpcode? = some op := by
  obtain ⟨op, hop⟩ := exists_opcode h
  refine ⟨op, ?_⟩
  unfold Frame.nextOpcode?
  rw [hop]
  exact Opcode.ofByte_toByte op

end Machine

namespace Session

/-- The steps with the times that a clock gives from its `k`-th one on. -/
def timed (clock : Nat → Duration) : Nat → List Opcode → List (Opcode × Duration)
  | _, [] => []
  | k, op :: ops => (op, clock k) :: timed clock (k + 1) ops

theorem map_fst_timed (clock : Nat → Duration) (k : Nat) (ops : List Opcode) :
    (timed clock k ops).map Prod.fst = ops := by
  induction ops generalizing k with
  | nil => rfl
  | cons op ops ih => exact congrArg (op :: ·) (ih (k + 1))

theorem timed_append (clock : Nat → Duration) (k : Nat) (ops ops' : List Opcode) :
    timed clock k (ops ++ ops') = timed clock k ops ++ timed clock (k + ops.length) ops' := by
  induction ops generalizing k with
  | nil => rfl
  | cons op ops ih =>
    have hplace : k + 1 + ops.length = k + (op :: ops).length := by
      rw [List.length_cons]
      omega
    exact congrArg ((op, clock k) :: ·) (hplace ▸ ih (k + 1))

/-- Steps have been recorded since `k` steps had been counted, with the times that they took. -/
structure Recorded (clock : Nat → Duration) (k : Nat) (ops : List Opcode)
    (profile : Option Profile) (ticks : Nat) : Prop where
  profile : profile = some (Profile.recordAll {} (timed clock k ops))
  ticks : ticks = k + ops.length

theorem Recorded.record {clock : Nat → Duration} {k ticks : Nat} {ops : List Opcode} {p : Profile}
    (h : Recorded clock k ops (some p) ticks) (op : Opcode) :
    Recorded clock k (ops ++ [op]) (some (p.record op (clock ticks))) (ticks + 1) := by
  obtain ⟨hprofile, rfl⟩ := h
  obtain rfl := Option.some.inj hprofile
  refine ⟨?_, by rw [List.length_append, ← Nat.add_assoc]; rfl⟩
  rw [timed_append]
  unfold Profile.recordAll
  rw [List.foldl_append]
  rfl

section Watching

variable {s : Session World} {n : Notes} {k : Nat} {ops : List Opcode}

theorem Recorded.noteBefore (h : Recorded s.clock k ops n.profile n.ticks) (f : Frame) :
    Recorded s.clock k ops (s.noteBefore f n).profile (s.noteBefore f n).ticks := by
  unfold Session.noteBefore
  split <;> exact h

theorem Recorded.noteAfter (h : Recorded s.clock k ops n.profile n.ticks) (op : Opcode) :
    Recorded s.clock k (ops ++ [op]) (s.noteAfter (some op) n).profile
      (s.noteAfter (some op) n).ticks := by
  unfold Session.noteAfter
  rw [h.profile]
  exact (h.profile ▸ h).record op

/-- A run that is watched records the steps that succeed. -/
theorem Recorded.runFor (h : Recorded s.clock k ops n.profile n.ticks) (host : Host World)
    (limit : Nat) (m : Machine World) (f : Frame) :
    Recorded s.clock k (ops ++ carriedOut host limit m f)
      (runFor host s.watch limit m f n).2.profile (runFor host s.watch limit m f n).2.ticks := by
  induction limit generalizing m f n ops with
  | zero =>
    rw [carriedOut, List.append_nil]
    exact h
  | succ limit ih =>
    cases hstep : m.step host f with
    | failed failure k =>
      simp only [Machine.runFor, carriedOut, hstep, List.append_nil]
      exact h.noteBefore f
    | finished v k =>
      have hok : ¬ (m.step host f).HasFailed := by
        rw [hstep]
        rintro ⟨failure, k', hfailed⟩
        cases hfailed
      obtain ⟨op, hop⟩ := exists_nextOpcode hok
      simp only [Machine.runFor, carriedOut, hstep, hop]
      exact (h.noteBefore f).noteAfter op
    | running g k =>
      obtain ⟨op, hop⟩ := exists_nextOpcode (Progress.not_hasFailed hstep)
      simp only [Machine.runFor, carriedOut, hstep, hop]
      rw [List.append_cons]
      exact ih ((h.noteBefore f).noteAfter op) k g

end Watching

/-! ## Sessions that count -/

/-- The opcodes that an operation carries out. -/
def carriedOutBy (s : Session World) : Operation → List Opcode
  | .interpret limit source =>
      let compilation := compile s.machine.store.nextId source
      let store := { s.machine.store with nextId := compilation.nextId }
      match compilation.outcome with
      | .error _ => []
      | .ok script => carriedOut s.host limit { s.machine with store } (scriptFrame script)
  | .run limit load =>
      let (script, store) := load s.machine.store
      carriedOut s.host limit { s.machine with store } (scriptFrame script)
  | .defineNative _ | .reset => []

/-- The opcodes that were carried out since the last reset, if those in `before` were carried out
since then already. -/
def carriedOutSince (s : Session World) (before : List Opcode) : List Operation → List Opcode
  | [] => before
  | .reset :: ops => s.reset.carriedOutSince [] ops
  | op :: ops => (s.perform op).2.carriedOutSince (before ++ s.carriedOutBy op) ops

/-- The session has recorded steps since it had counted `k` of them. -/
def HasRecorded (s : Session World) (clock : Nat → Duration) (k : Nat) (ops : List Opcode) : Prop :=
  s.clock = clock ∧ Recorded clock k ops s.profile s.ticks

section Recording

variable {s : Session World} {clock : Nat → Duration} {k : Nat} {ops : List Opcode}

theorem HasRecorded.run (h : s.HasRecorded clock k ops) (limit : Nat) (script : Function Value) :
    (s.run limit script).2.HasRecorded clock k
      (ops ++ carriedOut s.host limit s.machine (scriptFrame script)) := by
  obtain ⟨rfl, hrecorded⟩ := h
  have hstart : Recorded s.clock k ops (Notes.profile { profile := s.profile, ticks := s.ticks })
      (Notes.ticks { profile := s.profile, ticks := s.ticks }) := hrecorded
  exact ⟨rfl, hstart.runFor s.host limit s.machine (scriptFrame script)⟩

/-- One operation records what it carries out, unless it is a reset. -/
theorem HasRecorded.perform (h : s.HasRecorded clock k ops) {op : Operation} (hop : op ≠ .reset) :
    (s.perform op).2.HasRecorded clock k (ops ++ s.carriedOutBy op) := by
  cases op with
  | interpret limit source =>
    unfold Session.perform interpret carriedOutBy
    dsimp only
    generalize compile s.machine.store.nextId source = compilation
    obtain ⟨outcome, finished, nextId⟩ := compilation
    cases outcome with
    | error diagnostics =>
      rw [List.append_nil]
      exact h
    | ok script =>
      have hloaded : HasRecorded { s with machine := { s.machine with
          store := { s.machine.store with nextId } } } clock k ops := h
      exact hloaded.run limit script
  | run limit load =>
    have hloaded : HasRecorded { s with machine := { s.machine with
        store := (load s.machine.store).2 } } clock k ops := h
    exact hloaded.run limit _
  | defineNative n =>
    unfold carriedOutBy
    rw [List.append_nil]
    exact h
  | reset => exact absurd rfl hop

/-- A reset starts over, at what the clock shows then. -/
theorem HasRecorded.reset (h : s.HasRecorded clock k ops) :
    s.reset.HasRecorded clock s.ticks [] := by
  refine ⟨h.1, ?_, rfl⟩
  unfold Session.reset
  rw [h.2.profile]
  rfl

/-- Any number of operations add what they carry out, and a reset starts over. -/
theorem HasRecorded.performAll (h : s.HasRecorded clock k ops) (todo : List Operation) :
    ∃ k', (s.performAll todo).2.HasRecorded clock k' (s.carriedOutSince ops todo) := by
  induction todo generalizing s k ops with
  | nil => exact ⟨k, h⟩
  | cons op todo ih =>
    by_cases hop : op = .reset
    · subst hop
      exact ih h.reset
    · have hsince : s.carriedOutSince ops (op :: todo) =
          (s.perform op).2.carriedOutSince (ops ++ s.carriedOutBy op) todo := by
        cases op with
        | reset => exact absurd rfl hop
        | _ => rfl
      rw [hsince]
      exact ih (h.perform hop)

end Recording

end Session

/-- A session that counts opcodes, at any point between two operations: programs and any bytecode
have been run, some of them to their end, some into an error and some cut short, sources have been
refused, natives defined, and everything reset any number of times.  Its profile is what comes of
recording just the steps that succeeded since the last reset, each with the time that it took; and
whatever times these are, the profile that comes of them accounts for the steps. -/
theorem profile_accounts (host : Host World) (world : World) (clock : Nat → Duration)
    {switches : Switches} (hcounting : switches.countOpcodes = true) (level : LogLevel)
    (ops : List Operation) :
    let s := Session.start host world switches level clock
    let executed := s.carriedOutSince [] ops
    (∃ p, (s.performAll ops).2.profile = some p ∧ p.Accounts executed ∧
      ∃ k, p = Profile.recordAll {} (Session.timed clock k executed) ∧
        (s.performAll ops).2.ticks = k + executed.length) ∧
    ∀ timed : List (Opcode × Duration), timed.map Prod.fst = executed →
      (Profile.recordAll {} timed).Accounts executed := by
  intro s executed
  have hstart : s.HasRecorded clock 0 [] := ⟨rfl, if_pos hcounting, rfl⟩
  obtain ⟨k, -, hrecorded⟩ := hstart.performAll ops
  have haccounts := Profile.accounts_recordAll (Session.timed clock k executed)
  rw [Session.map_fst_timed] at haccounts
  refine ⟨⟨_, hrecorded.profile, haccounts, k, rfl, hrecorded.ticks⟩, ?_⟩
  rintro timed htimed
  rw [← htimed]
  exact Profile.accounts_recordAll timed

/-- Code without constants. -/
def bytecode (code : Array UInt8) : Loader := fun store =>
  (⟨store.nextId, none, 0, 0, ⟨code, code.map fun _ => 1, #[]⟩⟩,
    { store with nextId := store.nextId + 1 })

/-- A program that ends, a reset, a program that adds `nil` to `nil`, a source that is refused and
one that is not. -/
def mixedFortunes : List Operation :=
  [.run 9 (bytecode #[2, 27]), .reset, .run 9 (bytecode #[1, 1, 16, 27]),
    .interpret 9 "return (", .interpret 9 "return true"]

/-- A session whose clock shows that each step takes longer than the one before it. -/
def slowingSession : Session Console :=
  .start Console.host {} { countOpcodes := true } .off fun k => ⟨k⟩

theorem carriedOutSince_mixedFortunes :
    slowingSession.carriedOutSince [] mixedFortunes = [.nil, .nil, .true, .return] := by
  decide +kernel

/-- What was before the reset is not counted, nor is the addition that failed. -/
theorem profile_accounts_mixedFortunes :
    ∃ p, (slowingSession.performAll mixedFortunes).2.profile = some p ∧
      p.count .nil = 2 ∧ p.count .true = 1 ∧ p.get? .add = none ∧ p.instructions = 4 ∧
      p.get? .nil = some ⟨2, ⟨2 + 3⟩⟩ := by
  have hcounting : Switches.countOpcodes { countOpcodes := true } = true := rfl
  have hticks : (slowingSession.performAll mixedFortunes).2.ticks = 6 := by decide +kernel
  obtain ⟨⟨p, hp, haccounts, k, hrecorded, hk⟩, -⟩ :=
    profile_accounts Console.host {} (fun k => ⟨k⟩) hcounting .off mixedFortunes
  have hsteps := carriedOutSince_mixedFortunes
  unfold slowingSession at hticks hsteps
  rw [hsteps] at haccounts hrecorded hk
  rw [hticks] at hk
  obtain rfl : k = 2 := Nat.add_right_cancel hk.symm
  refine ⟨p, hp, haccounts.counts .nil, haccounts.counts .true, ?_, ?_, ?_⟩
  · have hadd := haccounts.entries .add
    rw [← Option.not_isSome_iff_eq_none, hadd]
    decide
  · rw [haccounts.total, List.map_congr_left fun op _ => haccounts.counts op]
    rfl
  · rw [hrecorded]
    rfl

end ScriptEngine
