import Mathlib.Data.List.Nodup
import ScriptEngine.Proofs.Compile.Placed
import ScriptEngine.Proofs.Scan
set_option autoImplicit false

/-!
# Compilation: what names refer to

A name refers to the innermost declaration in sight (`Resolves`): to the newest local of the
function it stands in, else to the newest one of the innermost function around that has such a
local, else to a global.  A local of a function around is reached through a capture, which leads
outwards from function to function until it ends at the slot of the local (`LeadsTo`).

One action of the compiler changes little about the functions under construction (`Proceeds`).
So no function captures the same thing twice, and as long as a function is under construction its
captures keep their numbers and lead to the same locals (`names_resolve_lexically`).
-/

namespace ScriptEngine.Compile

/-! ## Declarations in sight -/

/-- No local of the function has the name. -/
def Builder.Lacks (b : Builder) (name : String) : Prop := ∀ l ∈ b.locals, l.name ≠ name

/-- The newest of the locals that have the name is the one in slot `k`. -/
structure IsNewest (name : String) (locals : List Local) (k : Nat) : Prop where
  named : ∃ l, fromOldest? locals k = some l ∧ l.name = name
  newest : ∀ i l, k < i → fromOldest? locals i = some l → l.name ≠ name

theorem isNewest_of_slotOf {name : String} {ls : List Local} {k : Nat} {l : Local}
    (h : slotOf? name ls = some (k, l)) : IsNewest name ls k := by
  induction ls with
  | nil => cases h
  | cons a older ih =>
    unfold slotOf? at h
    split at h
    · next hname =>
      cases h
      refine ⟨⟨l, fromOldest_cons_self l older, hname⟩, fun i l' hi hl' => ?_⟩
      have hlt := lt_of_fromOldest hl'
      rw [List.length_cons] at hlt
      omega
    · next hname =>
      obtain ⟨⟨l', hl', hl'name⟩, hnewest⟩ := ih h
      refine ⟨⟨l', ?_, hl'name⟩, fun i l₁ hi hl₁ => ?_⟩
      · rw [fromOldest_cons_of_lt (lt_of_fromOldest hl'), hl']
      · unfold fromOldest? at hl₁
        split at hl₁
        · cases hl₁
          exact hname
        · exact hnewest i l₁ hi hl₁

theorem lacks_of_slotOf {b : Builder} {name : String} (h : slotOf? name b.locals = none) :
    b.Lacks name := by
  unfold Builder.Lacks
  generalize b.locals = ls at h
  induction ls with
  | nil => exact fun l hl => absurd hl List.not_mem_nil
  | cons a older ih =>
    unfold slotOf? at h
    split at h
    · cases h
    · next hname => exact List.forall_mem_cons.mpr ⟨hname, ih h⟩

/-! ## Where captures lead -/

/-- Following capture `u` of the first function outwards ends at slot `k` of the first function
of `owner`.  The functions are listed innermost first. -/
inductive LeadsTo : List Builder → Nat → List Builder → Nat → Prop where
  | slot {b outer : Builder} {around : List Builder} {u k : Nat}
      (capture : b.captures[u]? = some ⟨true, k⟩) :
      LeadsTo (b :: outer :: around) u (outer :: around) k
  | capture {b : Builder} {around owner : List Builder} {u v k : Nat}
      (capture : b.captures[u]? = some ⟨false, v⟩) (rest : LeadsTo around v owner k) :
      LeadsTo (b :: around) u owner k

theorem getElem?_of_isPrefix {α : Type} {as bs : List α} (h : as <+: bs) {i : Nat} {a : α}
    (ha : as[i]? = some a) : bs[i]? = some a := by
  obtain ⟨cs, rfl⟩ := h
  rw [List.getElem?_append_left (List.getElem?_eq_some_iff.mp ha).1, ha]

/-- What is captured later changes nothing about where a capture leads. -/
theorem LeadsTo.grow {bs bs' owner : List Builder} {u k : Nat} (h : LeadsTo bs u owner k)
    (hgrown : GrownAll bs bs') : ∃ owner', LeadsTo bs' u owner' k ∧ GrownAll owner owner' := by
  induction h generalizing bs' with
  | slot hu =>
    cases hgrown with
    | cons hb haround =>
      cases haround with
      | cons houter hrest =>
        exact ⟨_, .slot (getElem?_of_isPrefix hb.captures hu), .cons houter hrest⟩
  | capture hu _ ih =>
    cases hgrown with
    | cons hb haround =>
      obtain ⟨owner', hleads, howner⟩ := ih haround
      exact ⟨owner', .capture (getElem?_of_isPrefix hb.captures hu) hleads, howner⟩

theorem Linked.of_suffix {b F : Builder} {around outer : List Builder} (h : Linked b around)
    (hF : F :: outer <:+ b :: around) : Linked F outer := by
  induction h with
  | outermost hnone =>
    rcases List.suffix_cons_iff.mp hF with heq | hnil
    · cases heq
      exact .outermost hnone
    · cases List.suffix_nil.mp hnil
  | inner hground hrest ih =>
    rcases List.suffix_cons_iff.mp hF with heq | hsuffix
    · cases heq
      exact .inner hground hrest
    · exact ih hsuffix

/-- Each capture leads to a local that is marked as captured. -/
theorem exists_leadsTo {b : Builder} {around : List Builder} (h : Linked b around) {u : Nat}
    (hu : u < b.captures.length) :
    ∃ F outer k, LeadsTo (b :: around) u (F :: outer) k ∧
      ∃ l, fromOldest? F.locals k = some l ∧ l.isCaptured = true := by
  induction h generalizing u with
  | outermost hnone =>
    rw [hnone] at hu
    exact absurd hu (Nat.not_lt_zero u)
  | @inner b outer around hground hrest ih =>
    obtain ⟨⟨isLocal, index⟩, hc⟩ : ∃ c, b.captures[u]? = some c :=
      ⟨_, List.getElem?_eq_getElem hu⟩
    have hgrounded := hground _ (List.mem_of_getElem? hc)
    cases isLocal with
    | true =>
      obtain ⟨l, hl, hcaptured, -⟩ := hgrounded
      exact ⟨outer, around, index, .slot hc, l, hl, hcaptured⟩
    | false =>
      obtain ⟨F, rest, k, hleads, hcaptured⟩ := ih hgrounded
      exact ⟨F, rest, k, .capture hc hleads, hcaptured⟩

/-! ## Captures of a name -/

/-- The position that is given for a capture is the capture's. -/
theorem getElem?_addCapture {b b' : Builder} {c : Capture} {i : Nat}
    (h : b.addCapture? c = some (i, b')) : b'.captures[i]? = some c := by
  unfold Builder.addCapture? at h
  split at h
  · next hi =>
    cases h
    obtain ⟨hlt, hc, -⟩ := List.findIdx?_eq_some_iff_getElem.mp hi
    rw [List.getElem?_eq_getElem hlt, eq_of_beq hc]
  · split at h
    · cases h
    · cases h
      exact List.getElem?_concat_length

theorem nodup_addCapture {b b' : Builder} {c : Capture} {i : Nat}
    (h : b.addCapture? c = some (i, b')) (hb : b.captures.Nodup) : b'.captures.Nodup := by
  unfold Builder.addCapture? at h
  split at h
  · cases h
    exact hb
  · next hnone =>
    split at h
    · cases h
    · cases h
      have hc : c ∉ b.captures := by simpa using hnone
      have hconcat := List.Nodup.concat hc hb
      rwa [List.concat_eq_append] at hconcat

/-- No function captures the same thing twice. -/
def Distinct (bs : List Builder) : Prop := ∀ b ∈ bs, b.captures.Nodup

theorem distinct_captureIn {inner : Builder} {around : List Builder} {c : Capture}
    {isFull : Bool} (hinner : inner.captures.Nodup) (haround : Distinct around) :
    Distinct ((captureIn inner around c isFull).inner ::
      (captureIn inner around c isFull).around) := by
  unfold captureIn
  split
  · next hadd => exact List.forall_mem_cons.mpr ⟨nodup_addCapture hadd hinner, haround⟩
  · exact List.forall_mem_cons.mpr ⟨hinner, haround⟩

theorem distinct_captureFrom {name : String} {around : List Builder} {inner : Builder}
    {found : Captured} (h : captureFrom name inner around = some found)
    (hdistinct : Distinct (inner :: around)) : Distinct (found.inner :: found.around) := by
  induction around generalizing inner found with
  | nil => cases h
  | cons outer around ih =>
    obtain ⟨hinner, haround⟩ := List.forall_mem_cons.mp hdistinct
    unfold captureFrom at h
    split at h
    · cases h
      refine distinct_captureIn hinner ?_
      exact List.forall_mem_cons.mpr (List.forall_mem_cons.mp haround)
    · obtain ⟨found', hfound', rfl⟩ := Option.map_eq_some_iff.mp h
      exact distinct_captureIn hinner (ih hfound' haround)

/-- A capture that finds room stands at the position that is given for it. -/
theorem exists_addCapture {inner : Builder} {around : List Builder} {c : Capture}
    {isFull : Bool} (h : (captureIn inner around c isFull).isFull = false) :
    isFull = false ∧ (captureIn inner around c isFull).around = around ∧
      (captureIn inner around c isFull).inner.captures[(captureIn inner around c isFull).index]? =
        some c := by
  unfold captureIn at h ⊢
  split
  · next hadd =>
    rw [hadd] at h
    exact ⟨h, rfl, getElem?_addCapture hadd⟩
  · next hadd =>
    rw [hadd] at h
    cases h

/-- The capture of a name leads to the newest local of that name in the innermost function around
that has one, and marks it. -/
theorem leadsTo_captureFrom {name : String} {around : List Builder} {inner : Builder}
    {found : Captured} (h : captureFrom name inner around = some found)
    (hroom : found.isFull = false) :
    ∃ hidden F outer k, around = hidden ++ F :: outer ∧ (∀ b ∈ hidden, b.Lacks name) ∧
      IsNewest name F.locals k ∧
      LeadsTo (found.inner :: found.around) found.index
        ({ F with locals := capture name F.locals } :: outer) k ∧
      ∃ l, fromOldest? (capture name F.locals) k = some l ∧ l.isCaptured = true := by
  induction around generalizing inner found with
  | nil => cases h
  | cons outer around ih =>
    unfold captureFrom at h
    split at h
    · next slot l hslot =>
      cases h
      obtain ⟨-, haround, hcapture⟩ := exists_addCapture hroom
      obtain ⟨l', hl', -, hcaptured⟩ := fromOldest_capture hslot
      refine ⟨[], outer, around, slot, rfl, fun b hb => absurd hb List.not_mem_nil,
        isNewest_of_slotOf hslot, ?_, l', hl', hcaptured⟩
      rw [haround]
      exact .slot hcapture
    · next hslot =>
      obtain ⟨found', hfound', rfl⟩ := Option.map_eq_some_iff.mp h
      obtain ⟨hroom', haround, hcapture⟩ := exists_addCapture hroom
      obtain ⟨hidden, F, rest, k, rfl, hlacks, hnewest, hleads, hmarked⟩ := ih hfound' hroom'
      refine ⟨outer :: hidden, F, rest, k, rfl,
        List.forall_mem_cons.mpr ⟨lacks_of_slotOf hslot, hlacks⟩, hnewest, ?_, hmarked⟩
      rw [haround]
      exact .capture hcapture hleads

/-- A name that is captured from nowhere is a local of no function around. -/
theorem lacks_of_captureFrom {name : String} {around : List Builder} {inner : Builder}
    (h : captureFrom name inner around = none) : ∀ b ∈ around, b.Lacks name := by
  induction around generalizing inner with
  | nil => exact fun b hb => absurd hb List.not_mem_nil
  | cons outer around ih =>
    unfold captureFrom at h
    split at h
    · cases h
    · next hslot =>
      exact List.forall_mem_cons.mpr ⟨lacks_of_slotOf hslot, ih (Option.map_eq_none_iff.mp h)⟩

/-! ## What one action does to the functions -/

/-- How one action changes the functions under construction, listed innermost first. -/
inductive Proceeds : List Builder → List Builder → Prop where
  | within {b b' : Builder} {around : List Builder} (captures : b'.captures = b.captures) :
      Proceeds (b :: around) (b' :: around)
  | capture {bs bs' : List Builder} (grown : GrownAll bs bs')
      (distinct : Distinct bs → Distinct bs') : Proceeds bs bs'
  | enter {b : Builder} {bs : List Builder} (none : b.captures = []) : Proceeds bs (b :: bs)
  | leave {b : Builder} {bs : List Builder} : Proceeds (b :: bs) bs

theorem Proceeds.distinct {bs bs' : List Builder} (h : Proceeds bs bs') (hbs : Distinct bs) :
    Distinct bs' := by
  cases h with
  | within hcaptures =>
    obtain ⟨hb, haround⟩ := List.forall_mem_cons.mp hbs
    exact List.forall_mem_cons.mpr ⟨hcaptures ▸ hb, haround⟩
  | capture _ hdistinct => exact hdistinct hbs
  | enter hnone => exact List.forall_mem_cons.mpr ⟨hnone ▸ List.nodup_nil, hbs⟩
  | leave => exact (List.forall_mem_cons.mp hbs).2

namespace State

/-- The functions under construction, innermost first. -/
def functions (s : State) : List Builder := s.builder :: s.around

theorem Edit.proceeds {s t : State} (h : Edit s t) (hs : s.Sane) (ht : t.IsQuiet) :
    Proceeds s.functions t.functions := by
  cases h with
  | tick => exact .within rfl
  | read =>
    obtain ⟨t, rest, heq, -⟩ := read_eq hs ht
    rw [heq]
    exact .within rfl
  | complain => exact absurd ht (not_isQuiet_complainAt hs _ _)
  | note => exact .within rfl
  | append => exact .within rfl
  | setLastOp => exact .within rfl
  | openJump => exact .within rfl
  | landJump =>
    obtain ⟨byte, defects, -, heq⟩ := landJump_eq hs ht
    rw [heq]
    exact .within rfl
  | loopBack =>
    obtain ⟨byte, defects, -, heq⟩ := loopBack_eq hs ht
    rw [heq]
    exact .within rfl
  | pool =>
    rw [(poolConstant_eq hs ht).2]
    exact .within rfl
  | capture found hname hfound =>
    have hf := found_captureFrom (hs.named _ List.mem_cons_self hname) hfound hs.roomy hs.linked
    exact .capture (.cons hf.inner hf.around) (distinct_captureFrom hfound)

theorem Action.proceeds {s t : State} (h : Action s t) (hs : s.Sane) (ht : t.IsQuiet) :
    Proceeds s.functions t.functions := by
  cases h with
  | edit h => exact h.proceeds hs ht
  | enter => exact .enter rfl
  | leave =>
    unfold functions leaveFunction
    cases haround : s.around with
    | nil =>
      have hlinked := hs.linked
      rw [haround] at hlinked
      cases hlinked with
      | outermost hnone => exact .within hnone.symm
    | cons b bs => exact .leave
  | _ => exact .within rfl

/-- No action lets a function capture the same thing twice. -/
theorem Actions.distinct {s t : State} (h : Actions s t) (hs : s.Sane) (ht : t.IsQuiet)
    (hdistinct : Distinct s.functions) : Distinct t.functions := by
  induction h with
  | refl => exact hdistinct
  | tail hacts hact ih =>
    have hq := hact.isQuiet ht
    exact (hact.proceeds (Actions.sane hacts hs hq) ht).distinct (ih hq)

end State

/-! ## As long as a function is under construction -/

/-- A function and those around it, as they are at a later time. -/
structure Later (b : Builder) (around : List Builder) (bs' : List Builder) (b' : Builder)
    (around' : List Builder) : Prop where
  there : b' :: around' <:+ bs'
  captures : b.captures <+: b'.captures
  around : GrownAll around around'

/-- Where a capture of the function leads at a later time. -/
theorem Later.leadsTo {b b' : Builder} {around around' bs' owner : List Builder} {u k : Nat}
    (h : Later b around bs' b' around') (hleads : LeadsTo (b :: around) u owner k) :
    ∃ owner', LeadsTo (b' :: around') u owner' k ∧ GrownAll owner owner' := by
  cases hleads with
  | slot hu =>
    have haround := h.around
    cases haround with
    | cons houter hrest =>
      exact ⟨_, .slot (getElem?_of_isPrefix h.captures hu), .cons houter hrest⟩
  | capture hu hrest =>
    obtain ⟨owner', hleads', howner⟩ := hrest.grow h.around
    exact ⟨owner', .capture (getElem?_of_isPrefix h.captures hu) hleads', howner⟩

theorem Proceeds.later {b : Builder} {around bs bs' : List Builder} (h : Proceeds bs bs')
    (hb : b :: around <:+ bs) (hstays : around.length < bs'.length) :
    ∃ b' around', Later b around bs' b' around' := by
  obtain ⟨inner, rfl⟩ := hb
  have hsame : ∀ {bs' : List Builder}, b :: around <:+ bs' → ∃ b' around',
      Later b around bs' b' around' := fun hmem =>
    ⟨b, around, hmem, List.prefix_refl _, GrownAll.refl _⟩
  generalize hbs : inner ++ b :: around = bs at h
  cases h with
  | @within c c' rest hcaptures =>
    cases inner with
    | nil =>
      cases hbs
      exact ⟨c', around, List.suffix_refl _, hcaptures ▸ List.prefix_refl _, GrownAll.refl _⟩
    | cons a inner =>
      cases hbs
      exact hsame ((List.suffix_append ..).trans (List.suffix_cons ..))
  | capture hgrown _ =>
    subst hbs
    have hdrop := List.forall₂_drop_append bs' inner (b :: around) (List.Forall₂.flip hgrown)
    generalize hbs' : bs'.drop inner.length = there at hdrop
    cases hdrop with
    | cons hb haround =>
      exact ⟨_, _, hbs' ▸ List.drop_suffix .., hb.captures, List.Forall₂.flip haround⟩
  | enter _ =>
    subst hbs
    exact hsame ((List.suffix_append ..).trans (List.suffix_cons ..))
  | leave =>
    cases inner with
    | nil =>
      cases hbs
      exact absurd hstays (Nat.lt_irrefl _)
    | cons a inner =>
      cases hbs
      exact hsame (List.suffix_append ..)

namespace State

/-- Any number of actions during which a function with `n` others around it stays under
construction. -/
abbrev ActionsWithin (n : Nat) : State → State → Prop :=
  Relation.ReflTransGen fun s t => Action s t ∧ n ≤ t.around.length

theorem ActionsWithin.actions {n : Nat} {s t : State} (h : ActionsWithin n s t) : Actions s t :=
  Relation.ReflTransGen.lift id (fun _ _ => And.left) _ _ h

theorem ActionsWithin.later {b : Builder} {around : List Builder} {s t : State}
    (h : ActionsWithin around.length s t) (hs : s.Sane) (ht : t.IsQuiet)
    (hb : b :: around <:+ s.functions) : ∃ b' around', Later b around t.functions b' around' := by
  induction h with
  | refl => exact ⟨b, around, hb, List.prefix_refl _, GrownAll.refl _⟩
  | @tail t₁ t₂ hacts hact ih =>
    have hq := hact.1.isQuiet ht
    obtain ⟨b₁, around₁, hthere, hcaptures, haround⟩ := ih hq
    have hproceeds := hact.1.proceeds (Actions.sane (ActionsWithin.actions hacts) hs hq) ht
    have hlength : around₁.length < t₂.functions.length := by
      rw [← haround.length_eq]
      exact Nat.lt_succ_of_le hact.2
    obtain ⟨b₂, around₂, hthere₂, hcaptures₂, haround₂⟩ := hproceeds.later hthere hlength
    exact ⟨b₂, around₂, hthere₂, hcaptures.trans hcaptures₂, haround.trans haround₂⟩

/-! ## Looking names up -/

/-- What a name refers to by the declarations in sight, where `t` is the state after `s` in which
it was looked up. -/
inductive Resolves (name : String) (s t : State) : Place → Prop where
  | slot {k : Nat} (newest : IsNewest name s.builder.locals k) : Resolves name s t (.slot k)
  | captured {hidden outer outer' : List Builder} {F F' : Builder} {u k : Nat}
      (lacks : s.builder.Lacks name) (around : s.around = hidden ++ F :: outer)
      (hidden : ∀ b ∈ hidden, b.Lacks name) (newest : IsNewest name F.locals k)
      (leads : LeadsTo t.functions u (F' :: outer') k)
      (same : GrownAll (F :: outer) (F' :: outer'))
      (marked : ∃ l, fromOldest? F'.locals k = some l ∧ l.isCaptured = true) :
      Resolves name s t (.captured u)
  | global {c : Nat} (lacks : ∀ b ∈ s.functions, b.Lacks name)
      (constant : t.builder.chunk.constants[c]? = some (.string name)) :
      Resolves name s t (.global c)

theorem resolves_resolve {s : State} {name : String} (hname : name ≠ "") (hs : s.Sane)
    (hq : (s.resolve name).2.IsQuiet) :
    Resolves name s (s.resolve name).2 (s.resolve name).1 ∧
      (s.resolve name).1.operand < byteRange := by
  obtain ⟨hroomy, -⟩ := List.forall_mem_cons.mp hs.roomy
  unfold resolve at hq ⊢
  cases hslot : slotOf? name s.builder.locals with
  | some found =>
    exact ⟨.slot (isNewest_of_slotOf hslot), Nat.lt_of_lt_of_le (slotOf_lt hslot) hroomy.locals⟩
  | none =>
    have hlacks := lacks_of_slotOf hslot
    rw [hslot] at hq
    unfold resolveAround at hq ⊢
    cases hfound : captureFrom name s.builder s.around with
    | some found =>
      rw [hfound] at hq
      have hf := found_captureFrom hname hfound hs.roomy hs.linked
      have hroom : found.isFull = false := by
        cases hfull : found.isFull with
        | false => rfl
        | true => simp [hfull, complain, complainAt, hs.calm, IsQuiet] at hq
      obtain ⟨hidden, F, outer, k, haround, hhidden, hnewest, hleads, hmarked⟩ :=
        leadsTo_captureFrom hfound hroom
      have hcaptured :
          GrownAll (F :: outer) ({ F with locals := capture name F.locals } :: outer) :=
        .cons ⟨rfl, raisedAll_capture hname _, List.prefix_refl _⟩ (GrownAll.refl _)
      have hindex : found.index < byteRange :=
        Nat.lt_of_lt_of_le hf.index (hf.roomy _ List.mem_cons_self).captures
      dsimp only [Option.map_some]
      rw [hroom]
      exact ⟨.captured hlacks haround hhidden hnewest hleads hcaptured hmarked, hindex⟩
    | none =>
      rw [hfound] at hq
      obtain ⟨hindex, heq⟩ := poolConstant_eq hs hq
      have haround := lacks_of_captureFrom hfound
      dsimp only [Option.map_none]
      rw [heq]
      exact ⟨.global (List.forall_mem_cons.mpr ⟨hlacks, haround⟩) Array.getElem?_push_size, hindex⟩

/-- Which opcodes read and write a place, and with which index. -/
inductive Uses : Place → Opcode → Opcode → Nat → Prop where
  | slot (k : Nat) : Uses (.slot k) .getLocal .setLocal k
  | captured (u : Nat) : Uses (.captured u) .getUpvalue .setUpvalue u
  | global (c : Nat) : Uses (.global c) .getGlobal .setGlobal c

theorem uses_place (p : Place) : Uses p p.getOp p.setOp p.operand := by
  cases p with
  | slot k => exact .slot k
  | captured u => exact .captured u
  | global c => exact .global c

/-- An instruction is written behind the code: its opcode and one operand byte. -/
structure Appends (t : State) (op : Opcode) (index : Nat) (s : State) : Prop where
  state : s = t.appendWith op index
  code : s.builder.chunk.code = t.builder.chunk.code ++ #[op.toByte, index.toUInt8]

theorem appends_appendWith (t : State) (op : Opcode) (index : Nat) :
    Appends t op index (t.appendWith op index) := by
  refine ⟨rfl, ?_⟩
  rw [builder_appendWith]
  exact code_appendWith ..

/-- Each name refers to the innermost declaration in sight, and the instruction that reads or
writes it says so.  No function captures the same thing twice.  As long as a function is under
construction, what it captures keeps its number and leads to the same local. -/
theorem names_resolve_lexically (firstId : Identity) (source : String) (s : State)
    (hreach : Actions (initial firstId (scan source)) s) (hquiet : s.IsQuiet) :
    (∀ b ∈ s.functions, b.captures.Nodup) ∧
    (∀ (depth : Nat) (mayAssign : Bool), s.previous.kind = .identifier →
      (s.nameForm (expression depth .assignment) mayAssign).IsQuiet →
        ∃ place get set index t t', Resolves s.previous.lexeme s t place ∧
          Uses place get set index ∧ index < byteRange ∧ Edits t t' ∧
          (Appends t get index (s.nameForm (expression depth .assignment) mayAssign) ∨
            Appends t' set index (s.nameForm (expression depth .assignment) mayAssign))) ∧
    (∀ (F : Builder) (outer : List Builder) (t : State), F :: outer <:+ s.functions →
      ActionsWithin outer.length s t → t.IsQuiet →
        ∃ F' outer', Later F outer t.functions F' outer' ∧
          ∀ u < F.captures.length, ∃ owner owner' k, LeadsTo (F :: outer) u owner k ∧
            LeadsTo (F' :: outer') u owner' k ∧ GrownAll owner owner') := by
  have hstart := sane_initial firstId (named_scan source)
  have hs := Actions.sane hreach hstart hquiet
  refine ⟨?_, fun depth mayAssign hkind hq => ?_, fun F outer t hF hacts ht => ?_⟩
  · refine Actions.distinct hreach hstart hquiet ?_
    exact List.forall_mem_singleton.mpr List.nodup_nil
  · have hname := hs.named _ List.mem_cons_self hkind
    have hexpression := (formsAct depth).expression .assignment
    unfold nameForm at hq ⊢
    dsimp only at hq ⊢
    split at hq
    · next hassigns =>
      have hresolved := Edits.isQuiet ((Edit.read _).edits.trans
        ((hexpression _).trans (edits_appendWith ..))) hq
      obtain ⟨hresolves, hroom⟩ := resolves_resolve hname hs hresolved
      refine ⟨_, _, _, _, _, _, hresolves, uses_place _, hroom,
        (Edit.read _).edits.trans (hexpression _), .inr ?_⟩
      rw [if_pos hassigns]
      exact appends_appendWith ..
    · next hreads =>
      obtain ⟨hresolves, hroom⟩ := resolves_resolve hname hs ((edits_appendWith ..).isQuiet hq)
      refine ⟨_, _, _, _, _, _, hresolves, uses_place _, hroom, .refl, .inl ?_⟩
      rw [if_neg hreads]
      exact appends_appendWith ..
  · obtain ⟨F', outer', hlater⟩ := hacts.later hs ht hF
    refine ⟨F', outer', hlater, fun u hu => ?_⟩
    obtain ⟨G, rest, k, hleads, -⟩ := exists_leadsTo (hs.linked.of_suffix hF) hu
    obtain ⟨owner', hleads', howner⟩ := hlater.leadsTo hleads
    exact ⟨G :: rest, owner', k, hleads, hleads', howner⟩

/-! ## A name that is captured through a function in between -/

/-- The head of a function declaration, up to the declarations in the function's body. -/
def enterBody (s : State) : State :=
  let s := (s.read.declareName .functionName).2.makeReadable
  ((s.enterFunction s.previous.lexeme).openScope.parameterList.require .leftBrace
    .openingOfBody).checkpoint

theorem actions_enterBody (s : State) : Actions s s.enterBody := by
  have hname := (Edit.read s).edits.actions.trans
    ((actions_declareName _ .functionName).trans (actions_makeReadable _))
  refine hname.trans ?_
  generalize hs : (s.read.declareName .functionName).2.makeReadable = s₁
  unfold enterBody
  rw [hs]
  refine .head (Action.enter s₁ s₁.previous.lexeme) ?_
  exact (actions_openScope _).trans <| (actions_parameterList _).trans <|
    (edits_require _ .leftBrace .openingOfBody).actions.trans (Action.checkpoint _).actions

/-- The function in the middle does not use the parameter itself. -/
def nestedSource : String :=
  "fn f(a) \x7b fn g() \x7b fn h() \x7b return a \x7d \x7d \x7d"

/-- The compiler at the use of the parameter. -/
def nestedUse : State :=
  (initial 0 (scan nestedSource)).read.enterBody.enterBody.enterBody.read.read

/-- The compiler after it has looked the parameter up. -/
def nestedUsed : State := (nestedUse.resolve nestedUse.previous.lexeme).2

theorem scan_nestedSource : scan nestedSource =
    [⟨.fnWord, "fn", 1⟩, ⟨.identifier, "f", 1⟩, ⟨.leftParen, "(", 1⟩, ⟨.identifier, "a", 1⟩,
      ⟨.rightParen, ")", 1⟩, ⟨.leftBrace, "\x7b", 1⟩, ⟨.fnWord, "fn", 1⟩, ⟨.identifier, "g", 1⟩,
      ⟨.leftParen, "(", 1⟩, ⟨.rightParen, ")", 1⟩, ⟨.leftBrace, "\x7b", 1⟩, ⟨.fnWord, "fn", 1⟩,
      ⟨.identifier, "h", 1⟩, ⟨.leftParen, "(", 1⟩, ⟨.rightParen, ")", 1⟩, ⟨.leftBrace, "\x7b", 1⟩,
      ⟨.returnWord, "return", 1⟩, ⟨.identifier, "a", 1⟩, ⟨.rightBrace, "\x7d", 1⟩,
      ⟨.rightBrace, "\x7d", 1⟩, ⟨.rightBrace, "\x7d", 1⟩, .endAt 1] := by
  decide +kernel

set_option maxRecDepth 8000 in
theorem kind_nestedUse : nestedUse.previous.kind = .identifier := by
  unfold nestedUse
  rw [scan_nestedSource]
  rfl

theorem actions_nestedUsed : Actions (initial 0 (scan nestedSource)) nestedUsed := by
  have huse : Actions (initial 0 (scan nestedSource)) nestedUse :=
    (Edit.read _).edits.actions.trans <| (actions_enterBody _).trans <|
      (actions_enterBody _).trans <| (actions_enterBody _).trans <|
        (Edit.read _).edits.actions.trans (Edit.read _).edits.actions
  exact huse.trans (edits_resolve kind_nestedUse).actions

set_option maxRecDepth 8000 in
/-- The innermost function captures what the one in the middle captures, and looking the parameter
up again gives the same capture. -/
theorem names_resolve_lexically_nested :
    nestedUsed.builder.captures = [⟨false, 0⟩] ∧
      (nestedUsed.resolve nestedUsed.previous.lexeme).1 = .captured 0 ∧
      (∃ place get set index t t', Resolves nestedUsed.previous.lexeme nestedUsed t place ∧
        Uses place get set index ∧ index < byteRange ∧ Edits t t' ∧
        (Appends t get index (nestedUsed.nameForm (expression 4 .assignment) true) ∨
          Appends t' set index (nestedUsed.nameForm (expression 4 .assignment) true))) ∧
      ∃ F' outer', Later nestedUsed.builder nestedUsed.around nestedUsed.read.functions F' outer' ∧
        ∀ u < nestedUsed.builder.captures.length, ∃ owner owner' k,
          LeadsTo nestedUsed.functions u owner k ∧ LeadsTo (F' :: outer') u owner' k ∧
            GrownAll owner owner' := by
  have hfacts : nestedUsed.IsQuiet ∧ nestedUsed.read.IsQuiet ∧
      nestedUsed.previous.kind = .identifier ∧
      (nestedUsed.nameForm (expression 4 .assignment) true).IsQuiet ∧
      nestedUsed.builder.captures = [⟨false, 0⟩] ∧
      (nestedUsed.resolve nestedUsed.previous.lexeme).1 = .captured 0 ∧
      nestedUsed.around.length ≤ nestedUsed.read.around.length := by
    unfold nestedUsed nestedUse
    rw [scan_nestedSource]
    exact ⟨rfl, rfl, rfl, rfl, rfl, rfl, Nat.le_refl _⟩
  obtain ⟨hquiet, hread, hkind, huse, hcaptures, hplace, hstays⟩ := hfacts
  obtain ⟨-, hresolves, hkeeps⟩ :=
    names_resolve_lexically 0 nestedSource nestedUsed actions_nestedUsed hquiet
  exact ⟨hcaptures, hplace, hresolves 4 true hkind huse,
    hkeeps nestedUsed.builder nestedUsed.around nestedUsed.read (List.suffix_refl _)
      (.single ⟨.edit (.read _), hstays⟩) hread⟩

end State

end ScriptEngine.Compile
