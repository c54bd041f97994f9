import ScriptEngine.Proofs.Compile.Input
import ScriptEngine.Proofs.LineTables
set_option autoImplicit false

/-!
# Compilation: the order of the diagnostics

A diagnostic is made about the token that was read last or about one that lies ahead.  Tokens
are read in the order of their lines, so that a diagnostic about the token that was read last
is on no earlier line than another one before it, and a diagnostic ahead on no earlier line
than anything before it (`State.Ordered`).

What this does not give is that a diagnostic about the token that was read last comes behind one
that looked ahead.  As long as the compiler recovers, it makes no other diagnostic, and once a
token was read all diagnostics lie behind that token (`State.Settled`).  Only the recovery may
end with nothing read.  The forms of the language go on by reading then, apart from those that
close a branch or a loop: whether the code between has grown too long is said about the token
that was read last, wherever the recovery has looked (`Diagnostic.MayPrecede`).
-/

namespace ScriptEngine

/-- The complaint is about a branch or a loop with too much code in it. -/
def Complaint.isTooLong : Complaint → Bool
  | jumpTooLong | loopTooLong => true
  | _ => false

/-- The complaint is about what comes after the token that was read last. -/
def Complaint.looksAhead : Complaint → Bool
  | noToken _ | tooManyParameters => true
  | expected what => what != .expression
  | _ => false

/-- The one diagnostic may come before the other: it is on no later line, or it has looked ahead
and the other one closes a branch or a loop. -/
def Diagnostic.MayPrecede (d e : Diagnostic) : Prop :=
  d.line ≤ e.line ∨ (e.complaint.isTooLong = true ∧ d.complaint.looksAhead = true)

namespace Compile

/-! ## Diagnostics up to a place -/

/-- The diagnostics are in order.  None of them lies behind a token that is `ahead`, and one that
has not looked ahead is not behind `line` either. -/
structure Reports (ds : Array Diagnostic) (line : Nat) (ahead : List Token) : Prop where
  ordered : ds.toList.Pairwise Diagnostic.MayPrecede
  ahead : ∀ d ∈ ds, ∀ t ∈ ahead, d.line ≤ t.line
  behind : ∀ d ∈ ds, d.complaint.looksAhead = false → d.line ≤ line

namespace Reports

variable {ds : Array Diagnostic} {line later : Nat} {ahead left : List Token}

theorem mono (h : Reports ds line ahead) (hline : line ≤ later) (hahead : left ⊆ ahead) :
    Reports ds later left where
  ordered := h.ordered
  ahead d hd t ht := h.ahead d hd t (hahead ht)
  behind d hd hlook := (h.behind d hd hlook).trans hline

theorem push (h : Reports ds line ahead) {t : Token} {c : Complaint}
    (hbefore : ∀ d ∈ ds, d.MayPrecede (.about t c)) (hahead : ∀ u ∈ ahead, t.line ≤ u.line)
    (hbehind : c.looksAhead = false → t.line ≤ line) :
    Reports (ds.push (.about t c)) line ahead where
  ordered := by
    rw [Array.toList_push]
    refine List.pairwise_append.mpr ⟨h.ordered, List.pairwise_singleton .., fun d hd e he => ?_⟩
    rw [List.mem_singleton.mp he]
    exact hbefore d (Array.mem_toList_iff.mp hd)
  ahead d hd u hu := by
    rcases Array.mem_push.mp hd with hold | rfl
    · exact h.ahead d hold u hu
    · exact hahead u hu
  behind d hd hlook := by
    rcases Array.mem_push.mp hd with hold | rfl
    · exact h.behind d hold hlook
    · exact hbehind hlook

end Reports

/-- Wherever the tokens are cut, a proper one comes behind. -/
def Closed (ts : List Token) : Prop :=
  ∀ later, later <:+ ts → later ≠ [] → ∃ t ∈ later, t.kind ≠ .invalid

theorem Closed.suffix {ts later : List Token} (h : Closed ts) (hlater : later <:+ ts) :
    Closed later :=
  fun last hlast => h last (hlast.trans hlater)

theorem closed_scan (source : String) : Closed (scan source) := by
  intro later hlater hne
  obtain ⟨before, hkinds, -⟩ := ended_scan source
  have hlast : (later.getLast hne).kind = .endOfSource := by
    have hsuffix : later.map Token.kind <:+ before ++ [.endOfSource] :=
      hkinds ▸ hlater.map Token.kind
    have hmap : later.map Token.kind ≠ [] := by simpa using hne
    have hsame := hsuffix.getLast hmap
    rw [List.getLast_append_singleton, List.getLast_map] at hsame
    exact hsame
  exact ⟨_, List.getLast_mem hne, by rw [hlast]; exact nofun⟩

namespace State

/-! ## The invariants -/

/-- The diagnostics follow the source as far as it was read. -/
structure Ordered (s : State) : Prop where
  sorted : (s.previous :: s.upcoming).Pairwise fun t u => t.line ≤ u.line
  closed : Closed s.rest
  reports : Reports s.diagnostics s.previous.line s.upcoming

/-- Moreover, unless the compiler recovers, no diagnostic is behind the token that was read
last. -/
structure Settled (s : State) : Prop extends Ordered s where
  settled : s.isRecovering = false → ∀ d ∈ s.diagnostics, d.line ≤ s.previous.line

/-- Whatever order there is stays. -/
structure Orderly (s t : State) : Prop where
  ordered : s.Ordered → t.Ordered
  settled : s.Settled → t.Settled

/-- Nothing was read or reported. -/
structure Unheard (s t : State) : Prop where
  previous : t.previous = s.previous
  upcoming : t.upcoming = s.upcoming
  diagnostics : t.diagnostics = s.diagnostics
  isRecovering : t.isRecovering = s.isRecovering

section Order

variable {s t u : State}

theorem Orderly.trans (h : Orderly s t) (h' : Orderly t u) : Orderly s u :=
  ⟨h'.ordered ∘ h.ordered, h'.settled ∘ h.settled⟩

theorem Unheard.rfl : Unheard s s := ⟨Eq.refl _, Eq.refl _, Eq.refl _, Eq.refl _⟩

theorem Unheard.trans (h : Unheard s t) (h' : Unheard t u) : Unheard s u where
  previous := h'.previous.trans h.previous
  upcoming := h'.upcoming.trans h.upcoming
  diagnostics := h'.diagnostics.trans h.diagnostics
  isRecovering := h'.isRecovering.trans h.isRecovering

theorem Ordered.unheard (h : s.Ordered) (hprevious : t.previous = s.previous)
    (hupcoming : t.upcoming = s.upcoming) (hdiagnostics : t.diagnostics = s.diagnostics) :
    t.Ordered where
  sorted := by
    rw [hprevious, hupcoming]
    exact h.sorted
  closed := by
    rw [(List.cons.inj hupcoming).2]
    exact h.closed
  reports := by
    rw [hprevious, hupcoming, hdiagnostics]
    exact h.reports

/-- What is not heard of changes no order. -/
theorem Unheard.orderly (h : Unheard s t) : Orderly s t where
  ordered hs := hs.unheard h.previous h.upcoming h.diagnostics
  settled hs := by
    refine ⟨hs.toOrdered.unheard h.previous h.upcoming h.diagnostics, fun hcalm d hd => ?_⟩
    rw [h.isRecovering] at hcalm
    rw [h.diagnostics] at hd
    rw [h.previous]
    exact hs.settled hcalm d hd

theorem Ordered.previous_le (h : s.Ordered) {t : Token} (ht : t ∈ s.upcoming) :
    s.previous.line ≤ t.line :=
  (List.pairwise_cons.mp h.sorted).1 t ht

/-- While the compiler recovers, everything is settled. -/
theorem Ordered.settled (h : s.Ordered) (hbusy : s.isRecovering = true) : s.Settled :=
  ⟨h, fun hcalm => absurd (hcalm.symm.trans hbusy) (by decide)⟩

/-! ## Complaints -/

theorem isRecovering_complainAt (s : State) (t : Token) (c : Complaint) :
    (s.complainAt t c).isRecovering = true := by
  unfold complainAt
  split
  · next h => exact h
  · rfl

/-- A complaint keeps the order if it may come now. -/
theorem Ordered.complainAt (h : s.Ordered) {t : Token} {c : Complaint}
    (hbefore : s.isRecovering = false → ∀ d ∈ s.diagnostics, d.MayPrecede (.about t c))
    (hahead : ∀ u ∈ s.upcoming, t.line ≤ u.line)
    (hbehind : c.looksAhead = false → t.line ≤ s.previous.line) :
    (s.complainAt t c).Settled := by
  refine Ordered.settled ?_ (isRecovering_complainAt ..)
  unfold State.complainAt
  split
  · exact h
  · next hcalm =>
    exact ⟨h.sorted, h.closed,
      h.reports.push (hbefore (Bool.eq_false_iff.mpr hcalm)) hahead hbehind⟩

/-- Once everything is settled, any complaint about the token that was read last may come. -/
theorem Settled.complain (h : s.Settled) (c : Complaint) : (s.complain c).Settled :=
  h.complainAt (fun hcalm d hd => .inl (h.settled hcalm d hd)) (fun _ hu => h.previous_le hu)
    fun _ => Nat.le_refl _

/-- A complaint about too much code may come at any time. -/
theorem Ordered.complain (h : s.Ordered) {c : Complaint} (hc : c.isTooLong = true) :
    (s.complain c).Settled := by
  refine h.complainAt (fun _ d hd => ?_) (fun _ hu => h.previous_le hu) fun _ => Nat.le_refl _
  by_cases hlook : d.complaint.looksAhead = true
  · exact .inr ⟨hc, hlook⟩
  · exact .inl (h.reports.behind d hd (Bool.eq_false_iff.mpr hlook))

/-- A complaint about the token that comes next may come at any time. -/
theorem Ordered.complainNext (h : s.Ordered) {c : Complaint} (hc : c.looksAhead = true) :
    (s.complainNext c).Settled := by
  refine h.complainAt (fun _ d hd => .inl (h.reports.ahead d hd _ List.mem_cons_self)) ?_ ?_
  · intro u hu
    rcases List.mem_cons.mp hu with rfl | hrest
    · exact Nat.le_refl _
    · exact (List.pairwise_cons.mp h.sorted.of_cons).1 u hrest
  · exact fun hnot => absurd (hnot.symm.trans hc) (by decide)

/-! ## Reading -/

/-- Reports of what is no token keep the order, and what is pulled is in it. -/
theorem reports_pull {line : Nat} {ts : List Token} {s : State}
    (hsorted : ts.Pairwise fun t u => t.line ≤ u.line) (hline : ∀ t ∈ ts, line ≤ t.line)
    (hproper : ∃ t ∈ ts, t.kind ≠ .invalid) (hr : Reports s.diagnostics line ts)
    (hsettled : s.isRecovering = false → ∀ d ∈ s.diagnostics, d.line ≤ line) :
    (s.pull ts).upcoming <:+ ts ∧
      Reports (s.pull ts).diagnostics line (s.pull ts).upcoming ∧
      ((s.pull ts).isRecovering = false →
        ∀ d ∈ (s.pull ts).diagnostics, d.line ≤ line) := by
  induction ts generalizing s with
  | nil => exact absurd hproper (by simp)
  | cons t ts ih =>
    by_cases hkind : t.kind = .invalid
    · rw [pull_invalid hkind]
      have hlater := List.pairwise_cons.mp hsorted
      have hproper' : ∃ u ∈ ts, u.kind ≠ .invalid := by
        obtain ⟨u, hu, hne⟩ := hproper
        rcases List.mem_cons.mp hu with rfl | hu
        · exact absurd hkind hne
        · exact ⟨u, hu, hne⟩
      have hr' : Reports s.diagnostics line ts := hr.mono (Nat.le_refl _) (List.subset_cons_self ..)
      have hnext : Reports (s.tick.complainAt t (.noToken t.lexeme)).diagnostics line ts := by
        unfold complainAt
        split
        · exact hr'
        · exact hr'.push (fun d hd => .inl (hr.ahead d hd t List.mem_cons_self)) hlater.1 nofun
      obtain ⟨hsuffix, hrest⟩ := ih hlater.2
        (fun u hu => hline u (List.mem_cons_of_mem _ hu)) hproper' hnext
        fun hcalm => absurd (hcalm.symm.trans (isRecovering_complainAt ..)) (by decide)
      exact ⟨hsuffix.trans (List.suffix_cons ..), hrest⟩
    · rw [pull_valid hkind]
      exact ⟨List.suffix_rfl, hr, hsettled⟩

/-- After a read everything is settled: what was reported lies behind the token that was read,
unless it was reported just now. -/
theorem Ordered.read (h : s.Ordered) : s.read.Settled := by
  have hahead := h.sorted.of_cons
  have hbefore : ∀ d ∈ s.diagnostics, d.line ≤ s.current.line :=
    fun d hd => h.reports.ahead d hd _ List.mem_cons_self
  by_cases hrest : s.rest = []
  · have hread : s.read.upcoming = [.endAt s.current.line] := by
      unfold State.read
      rw [hrest]
      rfl
    have hdiagnostics : s.read.diagnostics = s.diagnostics := by
      unfold State.read
      rw [hrest]
      rfl
    refine ⟨⟨?_, ?_, ?_⟩, fun _ d hd => hbefore d (hdiagnostics ▸ hd)⟩
    · rw [hread]
      exact List.pairwise_pair.mpr (Nat.le_refl s.current.line)
    · rw [(List.cons.inj hread).2]
      exact hrest ▸ h.closed
    · rw [hread, hdiagnostics]
      refine ⟨h.reports.ordered, fun d hd t ht => ?_, fun d hd _ => hbefore d hd⟩
      rw [List.mem_singleton.mp ht]
      exact hbefore d hd
  · obtain ⟨hfirst, hlater⟩ := List.pairwise_cons.mp hahead
    have hstart : Reports s.tick.diagnostics s.current.line s.rest :=
      h.reports.mono (h.previous_le List.mem_cons_self) (List.subset_cons_self ..)
    have hread : s.read.upcoming = (s.tick.pull s.rest).upcoming := rfl
    obtain ⟨hsuffix, hreports, hsettled⟩ := reports_pull hlater hfirst
      (h.closed s.rest List.suffix_rfl hrest) hstart fun _ => hbefore
    rw [← hread] at hsuffix hreports
    refine ⟨⟨?_, ?_, hreports⟩, hsettled⟩
    · exact hahead.sublist (hsuffix.sublist.cons_cons s.current)
    · exact h.closed.suffix ((List.suffix_cons ..).trans hsuffix)

/-- A token that is needed is read, or else missed. -/
theorem Ordered.require (h : s.Ordered) {k : TokenKind} {w : Expected}
    (hw : w ≠ .expression) : (s.require k w).Settled := by
  unfold State.require
  split
  · exact h.read
  · exact h.complainNext (bne_iff_ne.mpr hw)

theorem ordered_skipToDeclaration (limit : Nat) (h : s.Ordered) :
    (s.skipToDeclaration limit).Ordered := by
  induction limit generalizing s with
  | zero => exact h.unheard rfl rfl rfl
  | succ limit ih =>
    unfold skipToDeclaration
    split
    · exact h
    · exact ih h.read.toOrdered

/-- A recovery keeps the order, but nothing need be settled after it. -/
theorem Ordered.recover (h : s.Ordered) : s.recover.Ordered := by
  unfold State.recover
  split
  · exact ordered_skipToDeclaration _ (h.unheard rfl rfl rfl)
  · exact h

end Order

/-! ## Unheard -/

section Unheard

variable (s : State)

theorem unheard_withBuilder (b : Builder) : Unheard s { s with builder := b } :=
  ⟨rfl, rfl, rfl, rfl⟩

theorem unheard_tick : Unheard s s.tick := ⟨rfl, rfl, rfl, rfl⟩

theorem unheard_checkpoint : Unheard s s.checkpoint := unheard_withBuilder ..

theorem unheard_openScope : Unheard s s.openScope := unheard_withBuilder ..

theorem unheard_enterFunction (name : String) : Unheard s (s.enterFunction name) :=
  ⟨rfl, rfl, rfl, rfl⟩

theorem unheard_noteDefect (d : Defect) : Unheard s (s.noteDefect d) := ⟨rfl, rfl, rfl, rfl⟩

theorem unheard_guarantee (holds : Bool) (d : Defect) : Unheard s (s.guarantee holds d) := by
  unfold guarantee
  split
  · exact .rfl
  · exact unheard_noteDefect s d

theorem unheard_appendByte (byte : UInt8) : Unheard s (s.appendByte byte) :=
  unheard_withBuilder ..

theorem unheard_appendOp (op : Opcode) : Unheard s (s.appendOp op) := unheard_withBuilder ..

theorem unheard_appendNumber (n : Nat) : Unheard s (s.appendNumber n) :=
  (unheard_guarantee ..).trans (unheard_appendByte ..)

theorem unheard_appendWith (op : Opcode) (n : Nat) : Unheard s (s.appendWith op n) :=
  (unheard_appendOp s op).trans (unheard_appendNumber ..)

theorem unheard_openJump (op : Opcode) : Unheard s (s.openJump op).2 := unheard_withBuilder ..

theorem unheard_foldl {α : Type} {f : State → α → State} (hf : ∀ s a, Unheard s (f s a))
    (as : List α) : Unheard s (as.foldl f s) := by
  induction as generalizing s with
  | nil => exact .rfl
  | cons a as ih => exact (hf s a).trans (ih (f s a))

theorem unheard_closeScope : Unheard s s.closeScope := by
  unfold closeScope
  dsimp only
  exact (unheard_guarantee s _ .scopeUnderflow).trans <|
    (unheard_guarantee _ _ .calleeRetired).trans <| (unheard_withBuilder ..).trans <|
      (unheard_foldl _ (fun s (l : Local) => unheard_appendOp s l.retirement) _).trans
        (unheard_withBuilder ..)

theorem unheard_makeReadable : Unheard s s.makeReadable := by
  unfold makeReadable
  split
  · exact .rfl
  · exact .rfl
  · exact unheard_withBuilder ..

theorem unheard_bindName (global : Nat) : Unheard s (s.bindName global) := by
  unfold bindName
  split
  · exact unheard_appendWith ..
  · exact unheard_makeReadable s

theorem unheard_returnNil : Unheard s s.returnNil := by
  unfold returnNil
  split
  · exact .rfl
  · exact (unheard_appendOp ..).trans (unheard_appendOp ..)

theorem unheard_finishFunction : Unheard s s.finishFunction.2.2 :=
  (unheard_returnNil s).trans ⟨rfl, rfl, rfl, rfl⟩

theorem unheard_appendCaptures (captures : List Capture) :
    Unheard s (s.appendCaptures captures) :=
  unheard_foldl s
    (fun s (c : Capture) => (unheard_appendByte s (if c.isLocal then 1 else 0)).trans
      (unheard_appendNumber _ c.index)) captures

end Unheard

section Order

variable {s t : State}

theorem Ordered.after (h : s.Ordered) (hu : Unheard s t) : t.Ordered := hu.orderly.ordered h

theorem Settled.after (h : s.Settled) (hu : Unheard s t) : t.Settled := hu.orderly.settled h

/-! ## Jumps and constants -/

theorem orderly_complain (s : State) {c : Complaint} (hc : c.isTooLong = true) :
    Orderly s (s.complain c) :=
  ⟨fun h => (h.complain hc).toOrdered, fun h => h.complain c⟩

theorem orderly_landJump (s : State) (operand : Nat) : Orderly s (s.landJump operand) := by
  unfold landJump
  dsimp only
  have hstart := (unheard_guarantee s (operand < s.codeSize) .landedNoJump).orderly
  split
  · exact hstart.trans (unheard_withBuilder ..).orderly
  · exact hstart.trans ((orderly_complain _ rfl).trans (unheard_withBuilder ..).orderly)

theorem orderly_loopBack (s : State) (start : Nat) : Orderly s (s.loopBack start) := by
  unfold loopBack
  dsimp only
  have hstart := (unheard_guarantee s (start ≤ s.codeSize) .loopStartsLate).orderly
  split
  · exact hstart.trans (unheard_withBuilder ..).orderly
  · exact (hstart.trans (unheard_withBuilder ..).orderly).trans (orderly_complain _ rfl)

theorem Settled.poolConstant (h : s.Settled) (v : Value) : (s.poolConstant v).2.Settled := by
  have hpool := h.after (t := s.withChunk (s.builder.chunk.pushConstant v).2)
    (unheard_withBuilder ..)
  unfold State.poolConstant
  dsimp only
  split
  · exact hpool
  · exact hpool.complain _

theorem Settled.pushLiteral (h : s.Settled) (v : Value) : (s.pushLiteral v).Settled :=
  (h.poolConstant v).after (unheard_appendWith ..)

/-! ## Names -/

theorem Settled.pushLocal (h : s.Settled) (name : String) : (s.pushLocal name).Settled := by
  unfold State.pushLocal
  split
  · exact h.complain _
  · exact h.after (unheard_withBuilder ..)

theorem Settled.declareLocal (h : s.Settled) : s.declareLocal.Settled := by
  unfold State.declareLocal
  split
  · exact h
  · dsimp only
    split
    · exact (h.complain _).pushLocal _
    · exact h.pushLocal _

theorem Ordered.declareName (h : s.Ordered) {w : Expected} (hw : w ≠ .expression) :
    (s.declareName w).2.Settled := by
  have hlocal := (h.require (k := .identifier) hw).declareLocal
  unfold State.declareName
  dsimp only
  split
  · exact hlocal.poolConstant _
  · exact hlocal

theorem Settled.resolve (h : s.Settled) (name : String) : (s.resolve name).2.Settled := by
  unfold State.resolve resolveAround
  split
  · dsimp only
    split
    · exact h.complain _
    · exact h
  · cases captureFrom name s.builder s.around with
    | some found =>
      have hfound := h.after (t := { s with builder := found.inner, around := found.around })
        ⟨rfl, rfl, rfl, rfl⟩
      dsimp only [Option.map_some]
      split
      · exact hfound.complain _
      · exact hfound
    | none => exact h.poolConstant _

/-! ## Expressions -/

section Expressions

variable {operand : Precedence → Pass} {arguments : State → Nat × State}

theorem Settled.nameForm {expression : Pass}
    (he : ∀ s : State, s.Settled → (expression s).Settled) (mayAssign : Bool) (h : s.Settled) :
    (s.nameForm expression mayAssign).Settled := by
  have hresolve := h.resolve s.previous.lexeme
  unfold State.nameForm
  dsimp only
  split
  · exact (he _ hresolve.toOrdered.read).after (unheard_appendWith ..)
  · exact hresolve.after (unheard_appendWith ..)

theorem Settled.numberForm (h : s.Settled) : s.numberForm.Settled := by
  unfold State.numberForm
  split
  · exact h.pushLiteral _
  · exact h.complain _

theorem Settled.openExpression
    (ho : ∀ p, ∀ s : State, s.Settled → (operand p s).Settled) (mayAssign : Bool)
    (opening : Opening) (h : s.Settled) :
    (s.openExpression operand mayAssign opening).Settled := by
  cases opening with
  | group => exact (ho _ s h).toOrdered.require (by decide)
  | unary op => exact (ho _ s h).after (unheard_appendOp ..)
  | name => exact h.nameForm (ho .assignment) mayAssign
  | string => exact h.pushLiteral _
  | number => exact h.numberForm
  | literal op => exact h.after (unheard_appendOp ..)

theorem Settled.callForm (ha : ∀ s : State, s.Settled → (arguments s).2.Settled)
    (h : s.Settled) : (s.callForm arguments).Settled := by
  have hclose : ∀ (s : State) (count : Nat), s.Settled →
      ((s.require .rightParen .closingOfArguments).appendWith .call count).Settled :=
    fun s count hs => (hs.toOrdered.require (by decide)).after (unheard_appendWith ..)
  unfold State.callForm
  dsimp only
  split
  · exact hclose _ _ h
  · exact hclose _ _ (ha s h)

theorem Settled.andForm (ho : ∀ p, ∀ s : State, s.Settled → (operand p s).Settled)
    (h : s.Settled) : (s.andForm operand).Settled := by
  have hleft := (h.after (unheard_openJump s .jumpIfFalse)).after (unheard_appendOp _ .pop)
  exact (orderly_landJump ..).settled (ho _ _ hleft)

theorem Settled.orForm (ho : ∀ p, ∀ s : State, s.Settled → (operand p s).Settled)
    (h : s.Settled) : (s.orForm operand).Settled := by
  have hjumps := (h.after (unheard_openJump s .jumpIfFalse)).after (unheard_openJump _ .jump)
  have hleft := ((orderly_landJump _ (s.openJump .jumpIfFalse).1).settled hjumps).after
    (unheard_appendOp _ .pop)
  exact (orderly_landJump ..).settled (ho _ _ hleft)

theorem Settled.continueExpression (ho : ∀ p, ∀ s : State, s.Settled → (operand p s).Settled)
    (ha : ∀ s : State, s.Settled → (arguments s).2.Settled) (c : Continuation) (h : s.Settled) :
    (s.continueExpression operand arguments c).Settled := by
  cases c with
  | call => exact h.callForm ha
  | binary op => exact (ho _ s h).after (unheard_foldl _ unheard_appendOp _)
  | and => exact h.andForm ho
  | or => exact h.orForm ho

theorem Settled.refuseAssignment (mayAssign : Bool) (h : s.Settled) :
    (s.refuseAssignment mayAssign).Settled := by
  unfold State.refuseAssignment
  split
  · exact h.toOrdered.read.complain _
  · exact h

theorem Settled.countArgument (count : Nat) (h : s.Settled) :
    (s.countArgument count).2.Settled := by
  unfold State.countArgument
  split
  · exact h.complain _
  · exact h

end Expressions

/-! ## Statements -/

section Statements

variable {expression declaration declarations : Pass}

theorem Settled.varForm (he : ∀ s, Orderly s (expression s)) (h : s.Settled) :
    (s.varForm expression).Settled := by
  have hname := h.toOrdered.declareName (w := .variableName) (by decide)
  unfold State.varForm
  dsimp only
  split
  · exact ((he _).settled hname.toOrdered.read).after (unheard_bindName ..)
  · exact (hname.after (unheard_appendOp ..)).after (unheard_bindName ..)

theorem Settled.parameter (h : s.Settled) : s.parameter.Settled := by
  have hname : ∀ s : State, s.Ordered →
      ((s.declareName .parameterName).2.bindName (s.declareName .parameterName).1).Settled :=
    fun s hs => (hs.declareName (by decide)).after (unheard_bindName ..)
  have htick := h.after (unheard_tick s)
  unfold State.parameter
  dsimp only
  split
  · exact hname _ (htick.toOrdered.complainNext rfl).toOrdered
  · exact hname _ (htick.toOrdered.after (unheard_withBuilder ..))

theorem Settled.parameters (limit : Nat) (h : s.Settled) : (s.parameters limit).Settled := by
  induction limit generalizing s with
  | zero => exact h.after (unheard_noteDefect ..)
  | succ limit ih =>
    unfold State.parameters
    dsimp only
    split
    · exact ih h.parameter.toOrdered.read
    · exact h.parameter

theorem Ordered.parameterList (h : s.Ordered) : s.parameterList.Settled := by
  have hopen := h.require (k := .leftParen) (w := .openingOfParameters) (by decide)
  unfold State.parameterList
  dsimp only
  split
  · exact hopen.toOrdered.require (by decide)
  · exact (hopen.parameters _).toOrdered.require (by decide)

/-- A block that ends is settled: its brace is read or missed. -/
theorem Ordered.blockForm (hd : ∀ s : State, s.Ordered → (declarations s).Ordered)
    (h : s.Ordered) : (s.blockForm declarations).Settled :=
  (hd s h).require (by decide)

theorem Settled.functionForm (hd : ∀ s : State, s.Ordered → (declarations s).Ordered)
    (h : s.Settled) : (s.functionForm declarations).Settled := by
  have henter := (h.toOrdered.after (unheard_enterFunction s s.previous.lexeme)).after
    (unheard_openScope _)
  have hopen := henter.parameterList.toOrdered.require (k := .leftBrace)
    (w := .openingOfBody) (by decide)
  have hbody := (hopen.toOrdered.after (unheard_checkpoint _)).blockForm hd
  unfold State.functionForm
  dsimp only
  exact (((hbody.after (unheard_finishFunction _)).poolConstant _).after
    (unheard_appendWith ..)).after (unheard_appendCaptures ..)

theorem Settled.fnForm (hd : ∀ s : State, s.Ordered → (declarations s).Ordered)
    (h : s.Settled) : (s.fnForm declarations).Settled := by
  have hname := h.toOrdered.declareName (w := .functionName) (by decide)
  exact ((hname.after (unheard_makeReadable _)).functionForm hd).after (unheard_bindName ..)

theorem ordered_inScope {inside : Pass} (hi : ∀ s : State, s.Ordered → (inside s).Ordered)
    (h : s.Ordered) : (s.inScope inside).Ordered :=
  (hi _ (h.after (unheard_openScope s))).after (unheard_closeScope _)

theorem Settled.ifForm (he : ∀ s, Orderly s (expression s))
    (hd : ∀ s : State, s.Ordered → (declaration s).Ordered) (h : s.Settled) :
    (s.ifForm expression declaration).Ordered := by
  have hcondition := (((he s).settled h).after (unheard_openJump _ .jumpIfFalse)).after
    (unheard_appendOp _ .pop)
  have hthen := (ordered_inScope hd hcondition.toOrdered).after (unheard_openJump _ .jump)
  have helse := ((orderly_landJump _ ((expression s).openJump .jumpIfFalse).1).ordered
    hthen).after (unheard_appendOp _ .pop)
  unfold State.ifForm
  dsimp only
  refine (orderly_landJump ..).ordered ?_
  split
  · exact ordered_inScope hd helse.read.toOrdered
  · exact helse

theorem Settled.whileForm (he : ∀ s, Orderly s (expression s))
    (hd : ∀ s : State, s.Ordered → (declaration s).Ordered) (h : s.Settled) :
    (s.whileForm expression declaration).Ordered := by
  have hcondition := (((he s).settled h).after (unheard_openJump _ .jumpIfFalse)).after
    (unheard_appendOp _ .pop)
  have hbody := (orderly_loopBack _ s.codeSize).ordered
    (ordered_inScope hd hcondition.toOrdered)
  exact ((orderly_landJump _ ((expression s).openJump .jumpIfFalse).1).ordered hbody).after
    (unheard_appendOp _ .pop)

theorem Settled.loopInitializer (he : ∀ s, Orderly s (expression s)) (h : s.Settled) :
    (s.loopInitializer expression).Settled := by
  unfold State.loopInitializer
  dsimp only
  split
  · exact h.toOrdered.read
  · refine Ordered.require ?_ (by decide)
    split
    · exact (h.toOrdered.read.varForm he).toOrdered.after (unheard_checkpoint _)
    · exact ((he s).settled h).toOrdered.after (unheard_appendOp ..)

theorem Settled.loopCondition (he : ∀ s, Orderly s (expression s)) (h : s.Settled) :
    (s.loopCondition expression).2.Settled := by
  unfold State.loopCondition
  split
  · exact h.toOrdered.read
  · have hcomma := ((he s).settled h).toOrdered.require (k := .comma)
      (w := .commaAfterCondition) (by decide)
    exact (hcomma.after (unheard_openJump _ .jumpIfFalse)).after (unheard_appendOp _ .pop)

theorem Settled.loopIncrement (he : ∀ s, Orderly s (expression s)) (start : Nat)
    (h : s.Settled) : (s.loopIncrement expression start).2.Settled := by
  unfold State.loopIncrement
  split
  · exact h.toOrdered.read
  · split
    · exact h
    · have hstep := ((he _).settled (h.after (unheard_openJump s .jump))).after
        (unheard_appendOp _ .pop)
      exact (orderly_landJump ..).settled ((orderly_loopBack ..).settled hstep)

theorem Settled.countedLoop (he : ∀ s, Orderly s (expression s))
    (hd : ∀ s : State, s.Ordered → (declaration s).Ordered) (h : s.Settled) :
    (s.countedLoop expression declaration).Ordered := by
  have hhead := ((h.loopInitializer he).loopCondition he).loopIncrement he
    (s.loopInitializer expression).codeSize
  have hbody := (orderly_loopBack _ (((s.loopInitializer expression).loopCondition
    expression).2.loopIncrement expression (s.loopInitializer expression).codeSize).1).ordered
      (ordered_inScope hd hhead.toOrdered)
  unfold State.countedLoop
  dsimp only
  split
  · exact ((orderly_landJump ..).ordered hbody).after (unheard_appendOp _ .pop)
  · exact hbody

theorem Settled.forForm (he : ∀ s, Orderly s (expression s))
    (hd : ∀ s : State, s.Ordered → (declaration s).Ordered) (h : s.Settled) :
    (s.forForm expression declaration).Ordered :=
  ((h.after (unheard_openScope s)).countedLoop he hd).after (unheard_closeScope _)

theorem Settled.returnForm (he : ∀ s, Orderly s (expression s)) (h : s.Settled) :
    (s.returnForm expression).Settled := by
  unfold State.returnForm
  dsimp only
  split
  · exact (h.after (unheard_appendOp s .nil)).after (unheard_appendOp ..)
  · exact ((he s).settled h).after (unheard_appendOp ..)

theorem Ordered.anyForm (he : ∀ s, Orderly s (expression s))
    (hd : ∀ s : State, s.Ordered → (declaration s).Ordered)
    (hds : ∀ s : State, s.Ordered → (declarations s).Ordered) (h : s.Ordered) :
    (s.anyForm expression declaration declarations).Ordered := by
  have hread := h.read
  unfold State.anyForm
  split
  · exact (hread.varForm he).toOrdered
  · exact (hread.fnForm hds).toOrdered
  · exact hread.ifForm he hd
  · exact hread.whileForm he hd
  · exact hread.forForm he hd
  · exact ordered_inScope (fun _ hs => (hs.blockForm hds).toOrdered) hread.toOrdered
  · exact (hread.returnForm he).toOrdered
  · exact ((he s).ordered h).after (unheard_appendOp ..)

end Statements

end Order

end State

open State

/-! ## The mutual forms -/

/-- What is proved of all forms at once, for one bound on the depth. -/
structure FormsOrdered (depth : Nat) : Prop where
  declaration : ∀ s : State, s.Ordered → (declaration depth s).Ordered
  declarations : ∀ s : State, s.Ordered → (declarations depth s).Ordered
  expression : ∀ level s, Orderly s (expression depth level s)
  continuations : ∀ level, ∀ s : State, s.Settled → (continuations depth level s).Settled
  arguments : ∀ count, ∀ s : State, s.Settled → (arguments depth count s).2.Settled

theorem formsOrdered_zero : FormsOrdered 0 where
  declaration s h := h.after (unheard_noteDefect s _)
  declarations s h := h.after (unheard_noteDefect s _)
  expression _ s := (unheard_noteDefect s _).orderly
  continuations _ s h := h.after (unheard_noteDefect s _)
  arguments _ s h := h.after (unheard_noteDefect s _)

/-- An expression reads first, so that it leaves everything settled. -/
theorem FormsOrdered.settled_expression {depth : Nat} (h : FormsOrdered depth)
    (level : Precedence) {s : State} (hs : s.Ordered) :
    (Compile.expression (depth + 1) level s).Settled := by
  have hread := (hs.after (unheard_tick s)).read
  have hoperand : ∀ p, ∀ s : State, s.Settled → (Compile.expression depth p s).Settled :=
    fun p s => (h.expression p s).settled
  unfold Compile.expression
  dsimp only
  split
  · exact hread.complain _
  · exact (h.continuations _ _ (hread.openExpression hoperand _ _)).refuseAssignment _

theorem FormsOrdered.succ {depth : Nat} (h : FormsOrdered depth) : FormsOrdered (depth + 1) where
  declaration s hs := by
    have hform := ((hs.after (unheard_tick s)).after (unheard_checkpoint _)).anyForm
      (h.expression .assignment) h.declaration h.declarations
    unfold Compile.declaration
    exact hform.recover.after (unheard_checkpoint _)
  declarations s hs := by
    have htick := hs.after (unheard_tick s)
    unfold Compile.declarations
    split
    · exact htick
    · exact h.declarations _ (h.declaration _ htick)
  expression level s :=
    ⟨fun hs => (h.settled_expression level hs).toOrdered,
      fun hs => h.settled_expression level hs.toOrdered⟩
  continuations level s hs := by
    have htick := hs.after (unheard_tick s)
    unfold Compile.continuations
    split
    · exact htick
    · split
      · exact h.continuations _ _ (htick.toOrdered.read.continueExpression
          (fun p s => (h.expression p s).settled) (h.arguments 0) _)
      · exact htick
  arguments count s hs := by
    have hargument := ((h.expression .assignment _).settled
      (hs.after (unheard_tick s))).countArgument count
    unfold Compile.arguments
    dsimp only
    split
    · exact h.arguments _ _ hargument.toOrdered.read
    · exact hargument

theorem formsOrdered (depth : Nat) : FormsOrdered depth := by
  induction depth with
  | zero => exact formsOrdered_zero
  | succ depth ih => exact ih.succ

theorem ordered_program (depth limit : Nat) {s : State} (h : s.Ordered) :
    (program depth limit s).Ordered := by
  induction limit generalizing s with
  | zero => exact h.after (unheard_noteDefect s _)
  | succ limit ih =>
    unfold program
    split
    · exact h.read.toOrdered
    · exact ih ((formsOrdered depth).declaration _ (h.after (unheard_tick s)))

/-- Before anything is read there is nothing out of order, unless a line number wraps. -/
theorem ordered_initial (firstId : Identity) {source : String}
    (hfew : source.toList.count '\n' < 2 ^ 32 - 1) :
    (initial firstId (scan source)).Ordered where
  sorted := by
    have hone : ∀ t ∈ scan source, 1 ≤ t.line := by
      intro t ht
      obtain ⟨start, -, hstart, hline⟩ := ((tiles_iff source _).mpr rfl).exists_start t ht
      rw [hline, lineAtEnd_of_prefix hstart hfew]
      exact Nat.le_add_right ..
    refine List.pairwise_cons.mpr ⟨List.forall_mem_cons.mpr ⟨Nat.le_refl 1, hone⟩, ?_⟩
    exact List.pairwise_cons.mpr ⟨hone, List.pairwise_map.mp (sorted_scan hfew)⟩
  closed := closed_scan source
  reports := ⟨.nil, nofun, nofun⟩

/-- A whole compilation keeps the order. -/
theorem ordered_compileTokens (firstId : Identity) {source : String}
    (hfew : source.toList.count '\n' < 2 ^ 32 - 1) :
    (compileTokens firstId (scan source)).Ordered :=
  ordered_program _ _ (ordered_initial firstId hfew).read.toOrdered

end Compile

end ScriptEngine
