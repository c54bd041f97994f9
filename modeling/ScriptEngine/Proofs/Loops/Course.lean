import ScriptEngine.Proofs.Loops.Flow
import ScriptEngine.Proofs.Tree.Run
set_option autoImplicit false

/-!
# Courses of code

`Follows` says that the code from some offset on does what a course has ahead.  Code of a flow
follows all that is ahead at the start of the flow (`Follows.before`).  A jump that only leads to
where the code goes on is not part of a course, so that code of the same flow follows the same
courses; a frame gets past such jumps without changing anything but its place (`Follows.arrives`).
-/

namespace ScriptEngine

open Machine

/-! ## Code that follows a course -/

/-- The code of a function does from some offset on what a course has ahead. -/
inductive Follows (c : Chunk Value) (level : Nat) (homes : List Home) : Nat → Course → Prop where
  | done (o : Nat) : Follows c level homes o .done
  | act {o next : Nat} {a : Flow} {rest : Course} {bytes : List UInt8} (single : a.isSingle = true)
      (code : a.IsCode c.constants level homes bytes) (stands : c.Holds o bytes)
      (behind : next = o + bytes.length) (later : Follows c level homes next rest) :
      Follows c level homes o (.act a rest)
  | test {o next other : Nat} {d : UInt8} {yes no : Course}
      (stands : c.Holds o [Opcode.jumpIfFalse.toByte, d]) (behind : next = o + 2)
      (past : other = o + 2 + d.toNat) (taken : Follows c level homes next yes)
      (skipped : Follows c level homes other no) : Follows c level homes o (.test yes no)
  | again {o start next : Nat} {d : UInt8} {a : Flow} {rest : Course} {bytes : List UInt8}
      (stands : c.Holds o [Opcode.loop.toByte, d]) (target : start + d.toNat = o + 2)
      (code : a.IsCode c.constants level homes bytes) (whole : c.Holds start bytes)
      (behind : next = start + bytes.length) (later : Follows c level homes next rest) :
      Follows c level homes o (.again a rest)
  | ahead {o next : Nat} {d : UInt8} {rest : Course} (stands : c.Holds o [Opcode.jump.toByte, d])
      (target : next = o + 2 + d.toNat) (later : Follows c level homes next rest) :
      Follows c level homes o rest
  | back {o start : Nat} {d : UInt8} {rest : Course} (stands : c.Holds o [Opcode.loop.toByte, d])
      (target : start + d.toNat = o + 2) (later : Follows c level homes start rest) :
      Follows c level homes o rest

section Follows

variable {c : Chunk Value} {level : Nat} {homes : List Home} {o o' : Nat} {a b : Flow}
  {rest : Course} {bytes as bs : List UInt8}

/-- The bytes behind the first part of some others. -/
theorem Chunk.Holds.behind (h : c.Holds o (as ++ bs)) (heq : o' = o + as.length) :
    c.Holds o' bs := heq ▸ h.right

/-- Code of a flow follows what is ahead at the start of the flow. -/
theorem Follows.before {pool : Array Value} (hcode : a.IsCode pool level homes bytes)
    (hpool : pool = c.constants) (hstands : c.Holds o bytes) (hend : o' = o + bytes.length)
    (hrest : Follows c level homes o' rest) : Follows c level homes o (a.before rest) := by
  induction hcode generalizing o o' rest with
  | nil =>
    subst hend
    exact hrest
  | seq first second ih ih' =>
    exact ih hpool hstands.left rfl (ih' hpool hstands.right (by grind) hrest)
  | direct kind count => exact .act rfl (.direct kind count) hstands hend hrest
  | pooled kind literal constant =>
    exact .act rfl (.pooled kind literal (hpool ▸ constant)) hstands hend hrest
  | captured kind index => exact .act rfl (.captured kind index) hstands hend hrest
  | closure constant title count word within captures ends inside =>
    exact .act rfl (.closure (hpool ▸ constant) title count word within captures ends inside)
      hstands hend hrest
  | @split _ _ _ _ _ as bs past out yes no pastYes pastNo ih ih' =>
    have hjump : c.Holds (o + 2 + as.length) [Opcode.jump.toByte, out] :=
      hstands.left.behind (by grind)
    exact .test hstands.left.left.left rfl rfl
      (ih hpool hstands.left.left.right rfl (.ahead hjump (by grind) hrest))
      (ih' hpool (hstands.behind (by grind)) (by grind) hrest)
  | @skip _ _ _ _ as past yes pastYes ih =>
    exact .test hstands.left rfl (by grind) (ih hpool hstands.right (by grind) hrest) hrest
  | @loop _ level homes c' b' cs bs past back condition body pastBody toStart ih ih' =>
    have hwhole : (Flow.loop c' b').IsCode c.constants level homes _ :=
      .loop (hpool ▸ condition) (hpool ▸ body) pastBody toStart
    have hhead : c.Holds (o + cs.length)
        ([Opcode.jumpIfFalse.toByte, past] ++ [Opcode.pop.toByte]) :=
      hstands.left.left.right
    have htail : c.Holds (o + cs.length + 3 + bs.length)
        ([Opcode.loop.toByte, back] ++ [Opcode.pop.toByte]) := hstands.behind (by grind)
    exact ih hpool hstands.left.left.left rfl (.test hhead.left rfl rfl
      (.act rfl (.direct rfl rfl) hhead.right rfl (ih' hpool (hstands.left.behind (by grind)) rfl
        (.again htail.left (by grind) hwhole hstands hend hrest)))
      (.act rfl (.direct rfl rfl) (htail.behind (by grind)) (by grind) hrest))
  | @loopAround _ level homes c' b' i' cs bs is past beyond back again condition body step pastBody
      overStep
      toStart toStep ih ih' ih'' =>
    have hwhole : (Flow.loop c' (b' ++ i')).IsCode c.constants level homes _ :=
      .loopAround (hpool ▸ condition) (hpool ▸ body) (hpool ▸ step) pastBody overStep toStart toStep
    have hhead : c.Holds (o + cs.length) ([Opcode.jumpIfFalse.toByte, past] ++
        ([Opcode.pop.toByte] ++ [Opcode.jump.toByte, beyond])) := hstands.left.left.left.left.right
    have hstep : c.Holds (o + cs.length + 5) is := hstands.left.left.left.behind (by grind)
    have hback : c.Holds (o + cs.length + 5 + is.length) [Opcode.loop.toByte, back] :=
      hstands.left.left.behind (by grind)
    have hbody : c.Holds (o + cs.length + 7 + is.length) bs := hstands.left.behind (by grind)
    have htail : c.Holds (o + cs.length + 7 + is.length + bs.length)
        ([Opcode.loop.toByte, again] ++ [Opcode.pop.toByte]) := hstands.behind (by grind)
    have hover : o + cs.length + 2 + past.toNat = o + cs.length + 9 + is.length + bs.length := by
      omega
    have hexit : o' = o + cs.length + 9 + is.length + bs.length + 1 := by
      rw [hend]
      simp only [List.length_append, List.length_cons, List.length_nil]
      omega
    have hround : Follows c level homes (o + cs.length + 5)
        (i'.before (.again (.loop c' (b' ++ i')) rest)) :=
      ih'' hpool hstep rfl (.again hback (by grind) hwhole hstands hend hrest)
    have hinside : Follows c level homes (o + cs.length + 7 + is.length)
        ((b' ++ i').before (.again (.loop c' (b' ++ i')) rest)) := by
      rw [Flow.before_append]
      exact ih' hpool hbody rfl (.back htail.left (by grind) hround)
    exact ih hpool hstands.left.left.left.left.left rfl (.test hhead.left rfl hover.symm
      (.act rfl (.direct rfl rfl) hhead.right.left rfl
        (.ahead hhead.right.right (by grind) hinside))
      (.act rfl (.direct rfl rfl) (htail.behind (by grind)) hexit hrest))
  | @forever _ level homes b' bs back body toStart ih =>
    have hwhole : (Flow.forever b').IsCode c.constants level homes _ :=
      .forever (hpool ▸ body) toStart
    exact ih hpool hstands.left rfl (.again hstands.right (by grind) hwhole hstands hend hrest)
  | @foreverAround _ level homes b' i' bs is beyond back again body step overStep toStart toStep ih
      ih' =>
    have hwhole : (Flow.forever (b' ++ i')).IsCode c.constants level homes _ :=
      .foreverAround (hpool ▸ body) (hpool ▸ step) overStep toStart toStep
    have hback : c.Holds (o + 2 + is.length) [Opcode.loop.toByte, back] :=
      hstands.left.left.behind (by grind)
    have hbody : c.Holds (o + 4 + is.length) bs := hstands.left.behind (by grind)
    have htail : c.Holds (o + 4 + is.length + bs.length) [Opcode.loop.toByte, again] :=
      hstands.behind (by grind)
    have hround : Follows c level homes (o + 2) (i'.before (.again (.forever (b' ++ i')) rest)) :=
      ih' hpool hstands.left.left.left.right rfl (.again hback (by grind) hwhole hstands hend hrest)
    have hinside : Follows c level homes (o + 4 + is.length)
        ((b' ++ i').before (.again (.forever (b' ++ i')) rest)) := by
      rw [Flow.before_append]
      exact ih hpool hbody rfl (.back htail (by grind) hround)
    exact .ahead hstands.left.left.left.left (by grind) hinside

end Follows

/-! ## Frames on a course -/

/-- The code does at an offset the first thing that a course has ahead. -/
def Meets (c : Chunk Value) (level : Nat) (homes : List Home) (o : Nat) : Course → Prop
  | .done => True
  | .act a rest => a.isSingle = true ∧
      ∃ bytes, a.IsCode c.constants level homes bytes ∧ c.Holds o bytes ∧
      Follows c level homes (o + bytes.length) rest
  | .test yes no => ∃ d : UInt8, c.Holds o [Opcode.jumpIfFalse.toByte, d] ∧
      Follows c level homes (o + 2) yes ∧ Follows c level homes (o + 2 + d.toNat) no
  | .again a rest => ∃ (d : UInt8) (start : Nat), c.Holds o [Opcode.loop.toByte, d] ∧
      start + d.toNat = o + 2 ∧ Follows c level homes start (a.before rest)

/-- A frame gets to the first thing that its course has ahead. -/
theorem Follows.arrives {World : Type} (host : Host World) (m : Machine World) {f : Frame}
    {level : Nat} {homes : List Home} {o : Nat} {rest : Course}
    (h : Follows f.chunk level homes o rest) (slots : Array Value) :
    ∃ n next, ending host n m (f.goTo o slots) = .unfinished (f.goTo next slots) m ∧
      Meets f.chunk level homes next rest := by
  induction h with
  | done o => exact ⟨0, o, rfl, trivial⟩
  | act single code stands behind later _ =>
    exact ⟨0, _, rfl, single, _, code, stands, behind ▸ later⟩
  | test stands behind past taken skipped _ _ =>
    exact ⟨0, _, rfl, _, stands, behind ▸ taken, past ▸ skipped⟩
  | again stands target code whole behind later _ =>
    exact ⟨0, _, rfl, _, _, stands, target, .before code rfl whole behind later⟩
  | @ahead o next d rest stands target later ih =>
    obtain ⟨n, next', hrun, hmeets⟩ := ih
    refine ⟨n + 1, next', ?_, hmeets⟩
    rw [ending_succ, step_jump (f := f.goTo o slots) stands, ← hrun, target]
    rfl
  | @back o start d rest stands target later ih =>
    obtain ⟨n, next', hrun, hmeets⟩ := ih
    refine ⟨n + 1, next', ?_, hmeets⟩
    rw [ending_succ, step_loop (f := f.goTo o slots) stands (Nat.le_of_add_left_le target.le),
      ← hrun,
      show start = (f.goTo o slots).ip + 2 - d.toNat from (Nat.sub_eq_of_eq_add target.symm).symm]
    rfl

end ScriptEngine
