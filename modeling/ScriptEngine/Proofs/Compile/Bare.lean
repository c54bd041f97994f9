import ScriptEngine.Proofs.Tree.Writing
set_option autoImplicit false

/-!
# Compilation: what is written, apart from what is read

Most operations of the compiler do not look at the tokens (`Blind`): what they write depends on
what is left of a state without its tokens (`State.bare`).  `Reads` compares a state that has words
ahead with one that the same things were done to without reading.  Blind operations keep that
(`Reads.blind`), and so does reading (`Reads.read`), if all is on one line.
-/

namespace ScriptEngine.Compile

open ScriptEngine.Tree

namespace State

/-- The state without its tokens.  Of the diagnostics it is only left whether there are any. -/
def bare (s : State) : State :=
  { s with
    rest := []
    previous := ⟨.endOfSource, "", s.previous.line⟩
    current := .endAt 1
    diagnostics := if s.diagnostics.isEmpty then #[] else #[default]
    work := 0
    defects := [] }

@[simp] theorem bare_bare (s : State) : s.bare.bare = s.bare := by
  unfold bare
  split <;> rfl

end State

open State

/-! ## Operations that do not look at the tokens -/

/-- The pass reads nothing, and does the same whatever the tokens are. -/
structure Blind (f : Pass) : Prop where
  upcoming : ∀ s, (f s).upcoming = s.upcoming
  previous : ∀ s, (f s).previous = s.previous
  bare : ∀ s, (f s).bare = (f s.bare).bare

section Blind

variable {f g : Pass}

theorem Blind.same (h : Blind f) {s t : State} (hst : t.bare = s.bare) :
    (f t).bare = (f s).bare := by
  rw [h.bare t, h.bare s, hst]

theorem blind_id : Blind fun s => s := ⟨fun _ => rfl, fun _ => rfl, fun s => (bare_bare s).symm⟩

theorem Blind.comp (hg : Blind g) (hf : Blind f) : Blind fun s => g (f s) where
  upcoming s := (hg.upcoming _).trans (hf.upcoming s)
  previous s := (hg.previous _).trans (hf.previous s)
  bare s := hg.same (hf.bare s)

/-- What is done may depend on anything but the tokens. -/
theorem Blind.choose {α : Type} {d : State → α} {F : α → Pass} (h : ∀ a, Blind (F a))
    (hd : ∀ s, d s.bare = d s) : Blind fun s => F (d s) s where
  upcoming s := (h _).upcoming s
  previous s := (h _).previous s
  bare s := by
    rw [hd]
    exact (h _).bare s

/-- An operation with an answer reads nothing, and neither what it does nor its answer depends on
the tokens. -/
structure BlindWith {α : Type} (f : State → α × State) : Prop
    extends Blind (fun s => (f s).2) where
  fst : ∀ s, (f s.bare).1 = (f s).1

theorem BlindWith.choose {α β : Type} {d : State → α} {F : α → State → β × State}
    (h : ∀ a, BlindWith (F a)) (hd : ∀ s, d s.bare = d s) : BlindWith fun s => F (d s) s where
  toBlind := Blind.choose (F := fun a s => (F a s).2) (fun a => (h a).toBlind) hd
  fst s := by
    rw [hd]
    exact (h _).fst s

/-- The answer may be used in what is done next. -/
theorem BlindWith.bind {α : Type} {f : State → α × State} {g : α → Pass} (hf : BlindWith f)
    (hg : ∀ a, Blind (g a)) : Blind fun s => g (f s).1 (f s).2 :=
  Blind.choose (d := fun s => (f s).1) (F := fun a s => g a (f s).2)
    (fun a => (hg a).comp hf.toBlind) hf.fst

theorem blind_foldl {α : Type} {f : State → α → State} (h : ∀ a, Blind fun s => f s a)
    (as : List α) : Blind fun s => as.foldl f s := by
  induction as with
  | nil => exact blind_id
  | cons a as ih => exact ih.comp (h a)

/-! ## Primitives -/

theorem blind_complain (c : Complaint) : Blind fun s => s.complain c where
  upcoming s := upcoming_complainAt ..
  previous s := by
    unfold complain complainAt
    split <;> rfl
  bare s := by
    unfold complain complainAt
    cases hrecovering : s.isRecovering <;> simp [State.bare, hrecovering]

theorem blind_noteDefect (d : Defect) : Blind fun s => s.noteDefect d :=
  ⟨fun _ => rfl, fun _ => rfl, fun s => by simp [State.bare, noteDefect]⟩

theorem blind_withBuilder (b : Builder) (bs : List Builder) :
    Blind fun s => { s with builder := b, around := bs } :=
  ⟨fun _ => rfl, fun _ => rfl, fun s => by simp [State.bare]⟩

theorem blind_withChunk (c : Chunk Value) : Blind fun s => s.withChunk c :=
  ⟨fun _ => rfl, fun _ => rfl, fun s => by simp [State.bare, withChunk]⟩

theorem blind_withLastOp (op : Option Opcode) : Blind fun s => s.withLastOp op :=
  ⟨fun _ => rfl, fun _ => rfl, fun s => by simp [State.bare, withLastOp]⟩

theorem blind_appendByte (byte : UInt8) : Blind fun s => s.appendByte byte :=
  ⟨fun _ => rfl, fun _ => rfl, fun s => by simp [State.bare, appendByte]⟩

theorem blind_guarantee {holds : State → Bool} (h : ∀ s, holds s.bare = holds s) (d : Defect) :
    Blind fun s => s.guarantee (holds s) d :=
  Blind.choose (F := fun b s => s.guarantee b d)
    (fun b => by cases b; exacts [blind_noteDefect d, blind_id]) h

/-! ## Code -/

theorem blind_appendOp (op : Opcode) : Blind fun s => s.appendOp op :=
  (blind_withLastOp (some op)).comp (blind_appendByte op.toByte)

theorem blind_appendNumber (n : Nat) : Blind fun s => s.appendNumber n :=
  (blind_appendByte n.toUInt8).comp (blind_guarantee (fun _ => rfl) .byteOverflow)

theorem blind_appendWith (op : Opcode) (n : Nat) : Blind fun s => s.appendWith op n :=
  (blind_appendNumber n).comp (blind_appendOp op)

theorem blind_openJump (op : Opcode) : BlindWith fun s => s.openJump op :=
  ⟨⟨fun _ => rfl, fun _ => rfl, fun s => by simp [State.bare, openJump, withLastOp, withChunk]⟩,
    fun _ => rfl⟩

/-- The state with the code in which a jump was landed, or with the complaint that it cannot be
landed. -/
def State.landed (s : State) : Except Nat (Chunk Value) → State
  | .ok chunk => s.withChunk chunk
  | .error _ => s.complain .jumpTooLong

theorem blind_landJump (operand : Nat) : Blind fun s => s.landJump operand := by
  have hland : Blind fun s => s.landed (s.builder.chunk.landJump operand) := by
    refine Blind.choose (d := fun s => s.builder.chunk.landJump operand)
      (F := fun landing s => s.landed landing) (fun landing => ?_) fun _ => rfl
    cases landing with
    | ok chunk => exact blind_withChunk chunk
    | error e => exact blind_complain .jumpTooLong
  have hguarantee : Blind fun s => s.guarantee (operand < s.codeSize) .landedNoJump :=
    blind_guarantee (fun _ => rfl) .landedNoJump
  exact ((blind_withLastOp none).comp hland).comp hguarantee

theorem blind_poolConstant (v : Value) : BlindWith fun s => s.poolConstant v := by
  refine BlindWith.choose (d := fun s => s.builder.chunk.pushConstant v) (F := fun r s =>
    if r.1 < byteRange then (r.1, s.withChunk r.2)
    else (0, (s.withChunk r.2).complain .tooManyConstants)) (fun r => ?_) fun _ => rfl
  split
  · exact ⟨blind_withChunk r.2, fun _ => rfl⟩
  · exact ⟨(blind_complain .tooManyConstants).comp (blind_withChunk r.2), fun _ => rfl⟩

theorem blind_pushLiteral (v : Value) : Blind fun s => s.pushLiteral v :=
  (blind_poolConstant v).bind (blind_appendWith .constant)

theorem blind_countArgument (count : Nat) : BlindWith fun s => s.countArgument count := by
  unfold countArgument
  split
  · exact ⟨blind_complain .tooManyArguments, fun _ => rfl⟩
  · exact ⟨blind_id, fun _ => rfl⟩

/-- What a name refers to does not depend on the tokens. -/
theorem blind_resolve (x : String) : BlindWith fun s => s.resolve x := by
  have hcomplain : ∀ (b : Bool) (c : Complaint), Blind fun s => if b then s.complain c else s := by
    intro b c
    cases b
    exacts [blind_id, blind_complain c]
  let F : Option (Nat × Local) × Option Captured → State → Place × State
    | (some (slot, l), _), s =>
        (.slot slot, if l.depth.isNone then s.complain .readInOwnInitializer else s)
    | (none, some found), s =>
        (.captured found.index, let s := { s with builder := found.inner, around := found.around }
          if found.isFull then s.complain .tooManyCaptures else s)
    | (none, none), s =>
        (.global (s.poolConstant (.string x)).1, (s.poolConstant (.string x)).2)
  have hF : ∀ a, BlindWith (F a) := by
    rintro ⟨slot, captured⟩
    cases slot with
    | some found => exact ⟨hcomplain _ _, fun _ => rfl⟩
    | none =>
      cases captured with
      | some found =>
        exact ⟨(hcomplain _ _).comp (blind_withBuilder found.inner found.around), fun _ => rfl⟩
      | none =>
        have hpool := blind_poolConstant (.string x)
        exact ⟨hpool.toBlind, fun s => congrArg Place.global (hpool.fst s)⟩
  have hresolve : (fun s : State => s.resolve x) = fun s =>
      F (slotOf? x s.builder.locals, captureFrom x s.builder s.around) s := by
    funext s
    unfold resolve resolveAround
    cases slotOf? x s.builder.locals with
    | some found => rfl
    | none => cases captureFrom x s.builder s.around <;> rfl
  rw [hresolve]
  exact BlindWith.choose hF fun _ => rfl

end Blind

/-! ## Words ahead -/

/-- One state has words ahead, all on one line; the other one is the same but for the tokens. -/
structure Reads (line : Nat) (ws : List Word) (s t : State) : Prop where
  spelled : s.spelled = ws
  valid : ∀ token ∈ s.upcoming, token.kind ≠ .invalid
  lines : ∀ token ∈ s.previous :: s.upcoming, token.line = line
  same : t.bare = s.bare

section Reads

variable {line : Nat} {w next : Word} {ws : List Word} {s t : State}

theorem Reads.blind {f : Pass} (h : Reads line ws s t) (hf : Blind f) :
    Reads line ws (f s) (f t) where
  spelled := (spelled_of_upcoming (hf.upcoming s)).trans h.spelled
  valid := by
    rw [hf.upcoming]
    exact h.valid
  lines := by
    rw [hf.upcoming, hf.previous]
    exact h.lines
  same := hf.same h.same

/-- An operation gives the same answer with tokens and without. -/
theorem Reads.answer {α : Type} {f : State → α × State} (h : Reads line ws s t)
    (hf : BlindWith f) : (f t).1 = (f s).1 := by
  rw [← hf.fst t, ← hf.fst s, h.same]

theorem Reads.tick (h : Reads line ws s t) : Reads line ws s.tick t :=
  ⟨h.spelled, h.valid, h.lines, h.same⟩

theorem Reads.kind (h : Reads line (w :: ws) s t) : s.current.kind = w.kind := by
  have hcurrent : wordOf s.current = w := (List.cons.inj h.spelled).1
  rw [← hcurrent]
  rfl

theorem Reads.sees (h : Reads line (w :: ws) s t) (k : TokenKind) :
    s.sees k = (w.kind == k) := by
  unfold State.sees
  rw [h.kind]

/-- A word that another one follows is read. -/
theorem Reads.read (h : Reads line (w :: next :: ws) s t) :
    Reads line (next :: ws) s.read t ∧ wordOf s.read.previous = w := by
  obtain ⟨hcurrent, hrest⟩ := List.cons.inj h.spelled
  obtain ⟨token, rest, htokens, -, -⟩ := List.map_eq_cons_iff.mp hrest
  have hvalid := h.valid token (by simp [upcoming, htokens])
  have hread : s.read = { s with
      previous := s.current, current := token, rest, work := s.work + 1 } := by
    unfold State.read
    rw [htokens, pull]
    split
    · next hkind => exact absurd hkind hvalid
    · rfl
  have hupcoming : s.read.upcoming = s.rest := by
    rw [hread, htokens]
    rfl
  refine ⟨⟨?_, fun token' htoken' => ?_, fun token' htoken' => ?_, ?_⟩, hcurrent⟩
  · unfold State.spelled
    rw [hupcoming]
    exact hrest
  · rw [hupcoming] at htoken'
    exact h.valid token' (List.mem_cons_of_mem _ htoken')
  · rw [hupcoming] at htoken'
    exact h.lines token' (List.mem_cons_of_mem _ htoken')
  · have hline : s.current.line = s.previous.line :=
      (h.lines _ (by simp [upcoming])).trans (h.lines _ List.mem_cons_self).symm
    rw [h.same, hread]
    simp [bare, hline]

/-- A word that is needed is there, and another one follows. -/
theorem Reads.require {k : TokenKind} (h : Reads line (w :: next :: ws) s t) (hk : w.kind = k)
    (what : Expected) : Reads line (next :: ws) (s.require k what) t := by
  unfold State.require
  rw [if_pos (by rw [h.sees, hk]; exact beq_self_eq_true k)]
  exact h.read.1

end Reads

end ScriptEngine.Compile
