import ScriptEngine.Proofs.Isolation
import ScriptEngine.Proofs.Joined.Script
import ScriptEngine.Proofs.Loops.ProgramEmitting
import ScriptEngine.Proofs.Loops.Runs
set_option autoImplicit false

/-!
# Loops and what they stand for

A counted loop does what a block does that declares the variable and repeats the body and the
increment while the condition holds.
-/

namespace ScriptEngine

open Machine ScriptEngine.Tree

variable {World : Type}

/-! ## Lines -/

/-- Which lines the code comes from does not matter. -/
theorem Flow.IsCode.of_matches {pool pool' : Array Value} {level : Nat} {homes : List Home}
    {a : Flow} {bytes : List UInt8} (h : a.IsCode pool level homes bytes)
    (hpool : ∀ i : Nat, Option.Rel (Value.Matches .upToLines) pool[i]? pool'[i]?) :
    a.IsCode pool' level homes bytes := by
  induction h generalizing pool' with
  | nil => exact .nil
  | seq _ _ ih ih' => exact .seq (ih hpool) (ih' hpool)
  | direct kind count => exact .direct kind count
  | @pooled _ _ _ _ v k kind literal constant =>
    refine .pooled kind literal ?_
    have hv := hpool k.toNat
    rw [constant] at hv
    generalize pool'[k.toNat]? = w at hv
    cases hv with
    | some hvw =>
      cases hvw with
      | number x => rfl
      | string text => rfl
      | _ => cases literal
  | captured kind index => exact .captured kind index
  | @closure _ _ _ _ k _ g _ _ constant title count word within captures ends _ ih =>
    have hg := hpool k.toNat
    rw [constant] at hg
    generalize hw : pool'[k.toNat]? = w at hg
    cases hg with
    | some hgw =>
      have hmatch : Value.Matches .upToLines (.function g) _ := hgw
      cases hgw with
      | @function _ g' id name arity captureCount code _ _ _ =>
        have hid : g.id = g'.id := id
        rw [hid, arity]
        refine .closure hw (name ▸ title) (captureCount ▸ count) word within captures ends ?_
        rw [← code]
        exact ih (Function.Matches.constants hmatch)
  | split _ _ pastYes pastNo ih ih' => exact .split (ih hpool) (ih' hpool) pastYes pastNo
  | skip _ pastYes ih => exact .skip (ih hpool) pastYes
  | loop _ _ pastBody toStart ih ih' => exact .loop (ih hpool) (ih' hpool) pastBody toStart
  | loopAround _ _ _ pastBody overStep toStart toStep ih ih' ih'' =>
    exact .loopAround (ih hpool) (ih' hpool) (ih'' hpool) pastBody overStep toStart toStep
  | forever _ toStart ih => exact .forever (ih hpool) toStart
  | foreverAround _ _ overStep toStart toStep ih ih' =>
    exact .foreverAround (ih hpool) (ih' hpool) overStep toStart toStep

/-- The same token on the first line. -/
def Token.onFirstLine (t : Token) : Token := { t with line := 1 }

theorem Token.matches_onFirstLine (t : Token) : t.Matches (fun _ _ => True) t.onFirstLine :=
  ⟨rfl, rfl, trivial⟩

theorem Token.onFirstLine_matches (t : Token) : t.onFirstLine.Matches (fun _ _ => True) t :=
  ⟨rfl, rfl, trivial⟩

/-- The lines of the tokens make no difference to the script but for its lines. -/
theorem Compile.finish_upToLines (firstId : Identity) {tokens tokens' : List Token}
    (h : List.Forall₂ (Token.Matches fun _ _ => True) tokens tokens') :
    ((compileTokens firstId tokens).returnNil.builder.finish 0).Matches .upToLines
        ((compileTokens firstId tokens').returnNil.builder.finish 0) ∧
      (compileTokens firstId tokens').returnNil.nextId =
        (compileTokens firstId tokens).returnNil.nextId ∧
      ((compileTokens firstId tokens).returnNil.IsQuiet →
        (compileTokens firstId tokens').returnNil.IsQuiet) := by
  have hids : ∀ i, firstId + i < (compileTokens firstId tokens).returnNil.nextId →
      Matching.upToLines.ids (firstId + i) (firstId + i) := fun _ _ => rfl
  have hline : Matching.upToLines.lines 1 1 := trivial
  have hzero : Matching.upToLines.ids 0 0 := rfl
  obtain ⟨hmatch, ⟨k, hk, hk'⟩, hquiet⟩ := finish_matches h hline hids hzero
  exact ⟨hmatch, hk'.trans hk.symm, hquiet⟩

/-! ## Scripts -/

/-- The source consists of the words of a spelling of some declarations. -/
def Tree.Spelled (source : String) (ds : List Declaration) : Prop :=
  ∃ ws, SpellsAll (mark .endOfSource) ds ws ∧ (scan source).map wordOf = ws ++ [mark .endOfSource]

/-- The source compiles to code of the flow of the declarations that it spells. -/
theorem isCode_of_compile {firstId : Identity} {source : String} {ds : List Declaration}
    {script : Function Value} (hspelled : Spelled source ds)
    (hok : (compile firstId source).outcome = .ok script) :
    (Compile.scriptFlow ds firstId).IsCode script.chunk.constants 0 [] script.chunk.code.toList ∧
      script.id + 1 = firstId + Compile.scriptCount ds firstId := by
  obtain ⟨ws, hspells, hwords⟩ := hspelled
  obtain ⟨hq, rfl, -⟩ := compile_eq_ok hok
  obtain ⟨-, -, hquiet⟩ := Compile.finish_upToLines firstId
    (List.forall₂_map_right_iff.mpr (List.forall₂_same.mpr fun t _ => t.matches_onFirstLine))
  obtain ⟨hmatch, hnextId, -⟩ := Compile.finish_upToLines firstId
    (List.forall₂_map_left_iff.mpr (List.forall₂_same.mpr fun t _ => t.onFirstLine_matches))
  have hlines : ∀ t ∈ (scan source).map Token.onFirstLine, t.line = 1 :=
    List.forall_mem_map.mpr fun _ _ => rfl
  have hnamed : ∀ t ∈ (scan source).map Token.onFirstLine, t.IsNamed :=
    List.forall_mem_map.mpr (named_scan source)
  have hended : Ended (((scan source).map Token.onFirstLine).map Token.kind) := by
    rw [List.map_map]
    exact ended_scan source
  have hwords' : ((scan source).map Token.onFirstLine).map wordOf = ws ++ [mark .endOfSource] := by
    rw [List.map_map]
    exact hwords
  obtain ⟨hcode, hid⟩ := Compile.isCode_compileTokens hwords' hspells hlines hnamed hended
    (hquiet hq)
  have hscript := hcode.of_matches hmatch.constants
  have hbytes := congrArg Array.toList hmatch.code
  exact ⟨hbytes ▸ hscript, hnextId ▸ hid⟩

section Scripts

variable {firstId : Identity} {source source' : String} {ds ds' : List Declaration}
  {script script' : Function Value}

/-- Where loops are unrolled, the script stays the same up to its code. -/
theorem twins_of_unrollsAll (hunrolls : UnrollsAll ds ds') (hspelled : Spelled source ds)
    (hspelled' : Spelled source' ds') (hok : (compile firstId source).outcome = .ok script)
    (hok' : (compile firstId source').outcome = .ok script') : script.Twins 0 [] [] script' := by
  obtain ⟨hcode, hid⟩ := isCode_of_compile hspelled hok
  obtain ⟨hcode', hid'⟩ := isCode_of_compile hspelled' hok'
  have hpiece := piece_eq_of_unrollsAll hunrolls ⟨[""], [], true⟩ firstId
  have hflow : Compile.scriptFlow ds' firstId = Compile.scriptFlow ds firstId := by
    unfold Compile.scriptFlow
    rw [hpiece]
  have hcount : Compile.scriptCount ds' firstId = Compile.scriptCount ds firstId := by
    unfold Compile.scriptCount
    rw [hpiece]
  rw [hflow] at hcode'
  rw [hcount] at hid'
  refine ⟨isCompiled_of_compile hok, Nat.succ.inj (hid'.trans hid.symm), ?_, ?_,
    fun _ => Iff.rfl, nofun, _, Flow.ends_finish _, hcode, hcode'⟩
  · rw [name_of_compile hok, name_of_compile hok']
  · rw [(succeeds_of_compile hok).arity, (succeeds_of_compile hok').arity]

/-- Twins start in twins. -/
theorem twins_scriptFrame (P : Cell → Cell → Prop) (h : script.Twins 0 [] [] script') :
    (scriptFrame script).Twins P (scriptFrame script') := by
  have hvalue : Value.Twins P (.function script) (.function script') := .function h
  obtain ⟨a, hends, hcode, hcode'⟩ := h.flow
  exact ⟨0, [], [], a.before .done, ⟨h.compiled, fun _ => Iff.rfl, nofun, ⟨rfl, rfl, nofun⟩,
    .cons hvalue .nil⟩, hends, .before hcode rfl (.of_code rfl) rfl (.done _),
    .before hcode' rfl (.of_code rfl) rfl (.done _)⟩

end Scripts

/-! ## Sessions -/

section Sessions

variable {W : Likeness World} {P : Cell → Cell → Prop} {m m' : Machine World} {host : Host World}

theorem Machine.Twins.defineNative (h : m.Twins W P m') (n : Signature) :
    (m.defineNative n).Twins W P (m'.defineNative n) where
  callers := h.callers
  openCells := h.openCells
  globals := by
    have hid := h.store.nextId
    unfold Machine.defineNative Signature.make Store.freshId
    dsimp only
    rw [hid]
    exact h.globals.define _ (.native _)
  store := h.store.freshId
  world := h.world

/-- A session that has just been started has nothing in it that could differ. -/
theorem twins_opened (host : Host World) {world : World}
    (hworld : W.Alike (fun _ _ => False) world world) (switches : Switches) (level : LogLevel)
    (natives : List Signature) :
    (Session.opened host world switches level natives []).machine.Twins W (fun _ _ => False)
      (Session.opened host world switches level natives []).machine := by
  have hstart : ({ world } : Machine World).Twins W (fun _ _ => False) { world } :=
    ⟨.nil, OpenCells.twins_empty _, fun _ => .none, ⟨rfl, False.elim, False.elim, False.elim⟩,
      hworld⟩
  exact List.foldlRecOn natives Machine.defineNative
    (motive := fun m => m.Twins W (fun _ _ => False) m) hstart fun m hm n _ => hm.defineNative n

/-- The outcomes are twins, or errors with the same message. -/
inductive Outcome.Twins (P : Cell → Cell → Prop) : Outcome → Outcome → Prop where
  | value {v v' : Value} (same : v.Twins P v') : Twins P (.value v) (.value v')
  | error {e e' : RuntimeError} (message : e'.message = e.message) :
      Twins P (.error (.runtime e)) (.error (.runtime e'))

/-- Both programs have ended in the same way, in surroundings that are alike, and have left the
same globals behind, up to the code of functions and to which cells closures share. -/
def RunsAgree (W : Likeness World) (r r' : Report × Session World) : Prop :=
  ∃ P, r.1.outcome.Twins P r'.1.outcome ∧ r.2.machine.Twins W P r'.2.machine

theorem Machine.Twins.settle (h : m.Twins W P m') : m.settle.Twins W P m'.settle :=
  { h with callers := .nil, openCells := OpenCells.twins_empty P }

theorem runsAgree_of_endings {e e' : Ending World} (h : e.Twins W e') (hover : e.IsOver)
    {r r' : Report × Session World}
    (hr : r.1.outcome = Session.outcomeOf e ∧ r.2.machine = e.machine.settle)
    (hr' : r'.1.outcome = Session.outcomeOf e' ∧ r'.2.machine = e'.machine.settle) :
    RunsAgree W r r' := by
  unfold RunsAgree
  rw [hr.1, hr.2, hr'.1, hr'.2]
  cases h with
  | returned value machine => exact ⟨_, .value value, machine.settle⟩
  | raised fault machine => exact ⟨_, .error (congrArg Fault.message fault), machine.settle⟩
  | unfinished => exact absurd rfl (hover _ _)

theorem isOver_iff_outcome {e : Ending World} : e.IsOver ↔ Session.outcomeOf e ≠ .unfinished := by
  cases e with
  | unfinished => exact iff_of_false (fun hover => hover _ _ rfl) fun hne => hne rfl
  | _ => exact iff_of_true (fun _ _ => nofun) nofun

/-- The machines that two sources find once they are compiled are twins if the sources use up as
many identities. -/
theorem twins_loaded {s : Session World} {source source' : String}
    (h : s.machine.Twins W P s.machine)
    (hid : (s.compiled source').nextId = (s.compiled source).nextId) :
    (s.loaded source).Twins W P (s.loaded source') :=
  { h with store := { h.store with nextId := hid } }

/-- A counted loop does what the loop does that it is unrolled to.  If one of two programs ends that
differ in nothing but unrolled loops, then the other one does: with the same value or the same
error, the same globals, and surroundings that are alike.  The natives may do whatever they like
as long as they do not tell twins apart. -/
theorem unrolled_loops_agree {W : Likeness World} (hfair : host.IsFair W) {world : World}
    (hworld : W.Alike (fun _ _ => False) world world) (switches : Switches) (level : LogLevel)
    (natives : List Signature) {source source' : String} {ds ds' : List Declaration}
    (hunrolls : UnrollsAll ds ds') (hspelled : Spelled source ds)
    (hspelled' : Spelled source' ds') :
    let s := Session.opened host world switches level natives []
    ∀ script script', (s.compiled source).outcome = .ok script →
      (s.compiled source').outcome = .ok script' →
      (∀ n, (s.interpret n source).1.outcome ≠ .unfinished →
        ∃ k, RunsAgree W (s.interpret n source) (s.interpret k source')) ∧
      ∀ n, (s.interpret n source').1.outcome ≠ .unfinished →
        ∃ k, RunsAgree W (s.interpret k source) (s.interpret n source') := by
  intro s script script' hok hok'
  have hself := twins_opened host hworld switches level natives
  have hhost : s.host = host := Session.host_opened ..
  obtain ⟨t, -⟩ := exists_isOfCompiled (isCompiled_of_compile hok)
  have hsession : s.IsSound (Library.compiled t).amongAll :=
    isSound_install _ natives (isSound_start
      (Host.gives_of_forall (fun v => v.isSound_amongAll _) world) switches level)
  have hsound : (s.loaded source).IsSound (Library.compiled t).amongAll host :=
    isSound_amongAll host hsession.machine.callers
  have hruns : (scriptFrame script).MayRun (Library.compiled t).amongAll :=
    .start _ rfl (congrArg (· + 1) (succeeds_of_compile hok).arity.symm)
  have hscripts := twins_of_unrollsAll hunrolls hspelled hspelled' hok hok'
  have hid : (s.compiled source').nextId = (s.compiled source).nextId := by
    obtain ⟨-, hscript, hnext⟩ := compile_eq_ok hok
    obtain ⟨-, hscript', hnext'⟩ := compile_eq_ok hok'
    have hsame := hscripts.id
    rw [hscript, hscript'] at hsame
    exact hnext'.trans ((congrArg (· + 1) hsame).trans hnext.symm)
  have heq := Session.interpret_eq hok
  have heq' := Session.interpret_eq hok'
  rw [hhost] at heq heq'
  obtain ⟨hthere, hback⟩ := ends_of_twins (L := .compiled t) (fun _ => id) hfair
    (twins_scriptFrame _ hscripts) (twins_loaded hself hid) hruns hsound
  refine ⟨fun n hn => ?_, fun n hn => ?_⟩
  · have hover := isOver_iff_outcome.mpr ((heq n).1 ▸ hn)
    obtain ⟨k, htwins⟩ := hthere n hover
    exact ⟨k, runsAgree_of_endings htwins hover (heq n) (heq' k)⟩
  · have hover := isOver_iff_outcome.mpr ((heq' n).1 ▸ hn)
    obtain ⟨k, htwins⟩ := hback n hover
    exact ⟨k, runsAgree_of_endings htwins (htwins.isOver_iff.mpr hover) (heq k) (heq' n)⟩

end Sessions

/-! ## Natives that are fair -/

section Fairness

variable {P : Cell → Cell → Prop}

/-- The natives of a console see of their arguments no more than text and type. -/
theorem answer_twins (c : Console) (name : String) {arguments arguments' : List Value}
    (h : List.Forall₂ (Value.Twins P) arguments arguments') :
    EndAlike (Value.Twins P) (c.answer name arguments).1 (c.answer name arguments').1 ∧
      (c.answer name arguments').2 = (c.answer name arguments).2 := by
  have hargument : EndAlike (Value.Twins P) (Console.argument name arguments)
      (Console.argument name arguments') := by
    cases h with
    | nil => exact .error _
    | cons hv _ => exact .ok hv
  unfold Console.answer
  split
  · generalize Console.argument "print" arguments = x, Console.argument "print" arguments' = y
      at hargument
    cases hargument with
    | ok hv =>
      dsimp only
      rw [hv.toText_eq]
      exact ⟨.ok .nil, rfl⟩
    | error message => exact ⟨.error _, rfl⟩
  · refine ⟨hargument.bind fun v w hv => ?_, rfl⟩
    cases hv with
    | boolean b =>
      cases b with
      | true => exact .ok (.boolean true)
      | false => exact .error _
    | nil => exact .error _
    | _ => exact .ok (.boolean true)
  · refine ⟨hargument.map fun v w hv => ?_, rfl⟩
    rw [hv.typeName_eq]
    exact .string _
  · exact ⟨.ok (.number _), rfl⟩
  · exact ⟨.error _, rfl⟩

/-- A console on which programs can leave a value behind, and come back for it. -/
structure Locker where
  console : Console := {}
  kept : Value := .nil

/-- The natives of a console, and `keep` and `kept`. -/
def Locker.host : Host Locker where
  call n arguments store locker :=
    if n.name = "keep" then ⟨.ok .nil, store, { locker with kept := arguments.headD .nil }⟩
    else if n.name = "kept" then ⟨.ok locker.kept, store, locker⟩
    else
      let (result, console) := locker.console.answer n.name arguments
      ⟨result, store, { locker with console }⟩

/-- The same has been written, and twins are kept. -/
def Locker.likeness : Likeness Locker where
  Alike P locker locker' := locker'.console = locker.console ∧ locker.kept.Twins P locker'.kept
  mono hPQ h := ⟨h.1, h.2.mono hPQ⟩

/-- Keeping a value and giving it back does not tell anything about it. -/
theorem isFair_locker : Locker.host.IsFair Locker.likeness := by
  rintro P n arguments arguments' s s' ⟨console, kept⟩ ⟨_, kept'⟩ harguments hs ⟨rfl, hkept⟩
  refine ⟨P, id, ?_⟩
  unfold Locker.host
  dsimp only
  split
  · refine ⟨.ok .nil, hs, rfl, ?_⟩
    cases harguments with
    | nil => exact .nil
    | cons hv _ => exact hv
  · split
    · exact ⟨.ok hkept, hs, rfl, hkept⟩
    · obtain ⟨hresult, hconsole⟩ := answer_twins _ n.name harguments
      exact ⟨hresult, hs, hconsole, hkept⟩

end Fairness

/-! ## A variable that outlives its loop -/

namespace Escape

/-- A closure that captures the variable of the loop is given away. -/
def body : List Declaration :=
  [.function "get" [] [.result (some (.name "i"))],
    .expression (.call (.name "keep") [.name "get"]),
    .expression (.call (.name "print") [.name "i"])]

def counted : List Declaration :=
  [.count (.var "i" (some (.literal (.boolean true)))) (some (.name "i"))
      (some (.assign "i" (.literal (.boolean false)))) (.block body),
    .result (some (.call (.call (.name "kept") []) []))]

def unrolled : List Declaration :=
  [.block [.var "i" (some (.literal (.boolean true))),
      .loop (.name "i") (.block [.block body,
        .expression (.assign "i" (.literal (.boolean false)))])],
    .result (some (.call (.call (.name "kept") []) []))]

def countedSource : String :=
  "for var i = true, i, i = false \x7b fn get() \x7b return i \x7d keep(get) print(i) \x7d\n" ++
    "return kept()()"

def unrolledSource : String :=
  "\x7b var i = true while i \x7b \x7b fn get() \x7b return i \x7d keep(get) print(i) \x7d" ++
    " i = false \x7d \x7d\nreturn kept()()"

/-- A console with its natives, and with those that keep a value. -/
def session : Session Locker :=
  Session.opened Locker.host {} {} .off
    (Console.natives ++ [("keep", some 1), ("kept", some 0)]) []

theorem unrolls : UnrollsAll counted unrolled :=
  .cons (.unroll (.cons (.same _) (.cons (.same _) (.cons (.same _) .nil))))
    (.cons (.same _) .nil)

theorem spells_body : SpellsAll (mark .rightBrace) body
    (mark .fnWord :: ⟨.identifier, "get"⟩ :: (parens (commas []) ++ braces
      [mark .returnWord, ⟨.identifier, "i"⟩]) ++
        (([⟨.identifier, "keep"⟩] ++ parens [⟨.identifier, "get"⟩]) ++
          ([⟨.identifier, "print"⟩] ++ parens [⟨.identifier, "i"⟩] ++ []))) :=
  .cons (.function (.cons (.result (.some (.name "i" _))) ⟨rfl, nofun⟩ .nil)) trivial
    (.cons (.expression (.call (by decide) (.name "keep" _) (.name "get" _) .noMore)) ⟨rfl, nofun⟩
      (.cons (.expression (.call (by decide) (.name "print" _) (.name "i" _) .noMore)) ⟨rfl, nofun⟩
        .nil))

theorem spells_result :
    ∃ ws, Spells (.result (some (.call (.call (.name "kept") []) []))) ws ∧
      ws = [mark .returnWord, ⟨.identifier, "kept"⟩] ++ parens [] ++ parens [] :=
  ⟨_, .result (.some (.emptyCall (by decide) (.emptyCall (by decide) (.name "kept" _)))), rfl⟩

theorem spelled_counted : Spelled countedSource counted := by
  have hloop : Spells (.count (.var "i" (some (.literal (.boolean true)))) (some (.name "i"))
      (some (.assign "i" (.literal (.boolean false)))) (.block body)) _ :=
    .count (.var (.value (.literal (.boolean true) _))) (.some (.name "i" _))
      (.some (.assign (by decide) (.literal (.boolean false) _)) (by exact ⟨rfl, nofun⟩))
      (.block spells_body)
  obtain ⟨_, hresult, rfl⟩ := spells_result
  exact ⟨_, .cons hloop trivial (.cons hresult (by exact ⟨rfl, nofun⟩) .nil), by decide +kernel⟩

theorem spelled_unrolled : Spelled unrolledSource unrolled := by
  have hstep : Spells (.expression (.assign "i" (.literal (.boolean false)))) _ :=
    .expression (.assign (by decide) (.literal (.boolean false) _))
  have hround := Spells.block (.cons (.block spells_body) trivial (.cons hstep
    (by exact ⟨rfl, nofun⟩) .nil))
  have hloop := Spells.loop (.name "i" _) (by exact ⟨rfl, nofun⟩) hround
  have hblock := Spells.block (.cons (.var (.value (x := "i") (.literal (.boolean true) _)))
    (by exact ⟨rfl, nofun⟩) (.cons hloop trivial .nil))
  obtain ⟨_, hresult, rfl⟩ := spells_result
  exact ⟨_, .cons hblock trivial (.cons hresult (by exact ⟨rfl, nofun⟩) .nil), by decide +kernel⟩

theorem exists_script (source : String) (h : (session.compiled source).outcome.isOk = true) :
    ∃ script, (session.compiled source).outcome = .ok script := by
  generalize (session.compiled source).outcome = x at h
  cases x with
  | ok script => exact ⟨script, rfl⟩
  | error => cases h

/-- The truth value that a program has come to. -/
def verdict : Outcome → Option Bool
  | .value (.boolean b) => some b
  | _ => none

theorem eq_of_verdict {o : Outcome} {b : Bool} (h : verdict o = some b) :
    o = .value (.boolean b) := by
  unfold verdict at h
  split at h
  · rw [Option.some.inj h]
  · cases h

end Escape

open Escape in
/-- What was captured is the same afterwards, when the native gives the closure back, and it has
been printed. -/
theorem unrolled_loops_agree_escape :
    UnrollsAll counted unrolled ∧ Spelled countedSource counted ∧
      Spelled unrolledSource unrolled ∧
      (session.interpret 40 countedSource).1.outcome = .value (.boolean true) ∧
      (session.interpret 40 countedSource).2.machine.world.console.written = "true\n" ∧
      ∃ k, RunsAgree Locker.likeness (session.interpret 40 countedSource)
        (session.interpret k unrolledSource) := by
  obtain ⟨script, hok⟩ := exists_script countedSource (by decide +kernel)
  obtain ⟨script', hok'⟩ := exists_script unrolledSource (by decide +kernel)
  have hvalue : (session.interpret 40 countedSource).1.outcome = .value (.boolean true) :=
    eq_of_verdict (by decide +kernel)
  have hwritten : (session.interpret 40 countedSource).2.machine.world.console.written =
      "true\n" := by decide +kernel
  have hstart : Locker.likeness.Alike (fun _ _ => False) {} {} := ⟨rfl, .nil⟩
  have hagree := unrolled_loops_agree isFair_locker hstart {} .off _ unrolls spelled_counted
    spelled_unrolled script script' hok hok'
  exact ⟨unrolls, spelled_counted, spelled_unrolled, hvalue, hwritten,
    hagree.1 40 fun h => nomatch hvalue.symm.trans h⟩

end ScriptEngine
