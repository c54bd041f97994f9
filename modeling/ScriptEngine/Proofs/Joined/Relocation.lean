import ScriptEngine.Proofs.Abreast.Builder
import ScriptEngine.Proofs.Machine.Calls
set_option autoImplicit false

/-!
# Two sources on one another: moved code
-/

namespace ScriptEngine

open Compile Machine

/-! ## Instructions and items -/

theorem Effect.fits {pool : Array Value} {count next : Nat} {op : Opcode} {operands : List UInt8}
    {Γ : Layout} {after : List (Nat × Layout)}
    (h : Effect pool count next op operands Γ after) : Item.Fits pool ⟨op, operands⟩ := by
  cases h with
  | closure hk hsize _ _ => exact ⟨_, _, _, rfl, hk, hsize⟩
  | literal hop => cases op <;> first | exact rfl | cases hop
  | binary hop => cases op <;> first | exact rfl | cases hop
  | unary hop => cases op <;> first | exact rfl | cases hop
  | _ => exact rfl

/-- The bytes at an offset tell which instruction stands there. -/
theorem Compile.Item.Fits.eq {c : Chunk Value} {i j : Item} (hi : i.Fits c.constants)
    (hj : j.Fits c.constants) {o : Nat} (hio : c.Holds o i.bytes) (hjo : c.Holds o j.bytes) :
    i = j := by
  have hbyte : ∀ n : Nat, ∀ b b' : UInt8, i.bytes[n]? = some b → j.bytes[n]? = some b' → b = b' :=
    fun n b b' hb hb' => Option.some.inj ((hio n b hb).symm.trans (hjo n b' hb'))
  have hop : i.op = j.op := by
    have htoByte := hbyte 0 _ _ rfl rfl
    have hofByte := congrArg Opcode.ofByte? htoByte
    rw [Opcode.ofByte_toByte, Opcode.ofByte_toByte] at hofByte
    exact Option.some.inj hofByte
  have hlength : i.operands.length = j.operands.length := by
    unfold Item.Fits at hi hj
    rw [← hop] at hj
    split at hi
    · next hclosure =>
      rw [if_pos hclosure] at hj
      obtain ⟨k, pairs, f, hoperands, hk, hlen⟩ := hi
      obtain ⟨k', pairs', f', hoperands', hk', hlen'⟩ := hj
      obtain rfl : k = k' := hbyte 1 _ _ (by rw [Item.bytes, hoperands]; rfl)
        (by rw [Item.bytes, hoperands']; rfl)
      obtain rfl : f = f' := Value.function.inj (Option.some.inj (hk.symm.trans hk'))
      rw [hoperands, hoperands', List.length_cons, List.length_cons, hlen, hlen']
    · next hclosure =>
      rw [if_neg hclosure] at hj
      rw [hi, hj]
  have hoperands : i.operands = j.operands := by
    refine List.ext_getElem hlength fun n hn hn' => ?_
    exact hbyte (n + 1) _ _ (List.getElem?_eq_getElem hn) (List.getElem?_eq_getElem hn')
  cases i
  cases j
  exact congrArg₂ _ hop hoperands

/-- The offsets of items, up to the end of the code. -/
theorem holds_of_codeOf {c : Chunk Value} {before after : List UInt8} {is : List Item}
    (hcode : c.code.toList = before ++ codeOf is ++ after) {n : Nat} {i : Item}
    (hi : is[n]? = some i) : c.Holds (before.length + (codeOf (is.take n)).length) i.bytes := by
  obtain ⟨hn, rfl⟩ := List.getElem?_eq_some_iff.mp hi
  have hsplit : codeOf is = codeOf (is.take n) ++ (is[n].bytes ++ codeOf (is.drop (n + 1))) := by
    conv_lhs => rw [← List.take_append_drop n is, ← List.getElem_cons_drop hn]
    rw [codeOf_append]
    rfl
  intro k b hb
  have hk := (List.getElem?_eq_some_iff.mp hb).1
  rw [← Array.getElem?_toList, hcode, hsplit]
  simp only [List.append_assoc]
  rw [Nat.add_assoc, List.getElem?_append_right (Nat.le_add_right _ _), Nat.add_sub_cancel_left,
    List.getElem?_append_right (Nat.le_add_right _ _), Nat.add_sub_cancel_left,
    List.getElem?_append_left hk, hb]

theorem length_codeOf_take_succ {is : List Item} {n : Nat} {i : Item} (hi : is[n]? = some i) :
    (codeOf (is.take (n + 1))).length = (codeOf (is.take n)).length + i.bytes.length := by
  rw [List.take_add_one, hi, codeOf_append, List.length_append]
  simp [codeOf]

/-- Each offset in the code is within an item. -/
theorem exists_item_around {is : List Item} {o : Nat} (ho : o < (codeOf is).length) :
    ∃ n i, is[n]? = some i ∧ (codeOf (is.take n)).length ≤ o ∧
      o < (codeOf (is.take n)).length + i.bytes.length := by
  induction is generalizing o with
  | nil => exact absurd ho (Nat.not_lt_zero o)
  | cons j is ih =>
    have hcons : ∀ js : List Item,
        (codeOf (j :: js)).length = j.bytes.length + (codeOf js).length :=
      fun js => List.length_append
    rw [hcons] at ho
    by_cases hlt : o < j.bytes.length
    · exact ⟨0, j, rfl, Nat.zero_le _, Nat.lt_of_lt_of_le hlt (Nat.le_add_left _ _)⟩
    · obtain ⟨n, i, hi, hle, hlt'⟩ := ih (o := o - j.bytes.length) (by omega)
      refine ⟨n + 1, i, hi, ?_, ?_⟩ <;>
      · rw [List.take_succ_cons, hcons]
        omega

namespace Typing

variable {p : Function Value} {is : List Item}

/-- An item that has a layout is the instruction that the layout is for. -/
theorem stands (t : Typing p) (hcode : p.chunk.code.toList = codeOf is)
    (hfits : ∀ i ∈ is, i.Fits p.chunk.constants) {n : Nat} {i : Item} (hi : is[n]? = some i)
    {Γ : Layout} (hΓ : t.layouts (codeOf (is.take n)).length = some Γ) :
    Stands ⟨p.chunk, p.captureCount, t.marks⟩ t.layouts (codeOf (is.take n)).length i.op
      i.operands ∧
    ∃ after, Effect p.chunk.constants p.captureCount
      ((codeOf (is.take n)).length + i.bytes.length) i.op i.operands Γ after ∧
      ∀ x ∈ after, t.layouts.Admits x := by
  have hitem := holds_of_codeOf (show _ = [] ++ codeOf is ++ [] by simpa using hcode) hi
  rw [List.length_nil, Nat.zero_add] at hitem
  obtain ⟨op, operands, hst, hor⟩ := t.draft.step _ Γ hΓ
  rcases hor with ⟨⟨after, heff, hafter⟩, -⟩ | ⟨-, hmem⟩
  · obtain rfl : ⟨op, operands⟩ = i :=
      heff.fits.eq (hfits i (List.mem_of_getElem? hi)) hst.holds hitem
    refine ⟨hst, after, ?_, fun x hx => ?_⟩
    · rwa [Item.bytes, List.length_cons, Nat.add_comm operands.length, ← Nat.add_assoc]
    · refine (hafter x hx).resolve_right fun hpending => ?_
      obtain ⟨-, -, hopen⟩ := hpending
      exact hopen trivial
  · exact absurd hmem List.not_mem_nil

/-- Each item has a layout. -/
theorem exists_layout (t : Typing p) (hcode : p.chunk.code.toList = codeOf is)
    (hfits : ∀ i ∈ is, i.Fits p.chunk.constants) {n : Nat} (hn : n < is.length) :
    ∃ Γ, t.layouts (codeOf (is.take n)).length = some Γ := by
  induction n with
  | zero =>
    obtain ⟨Γ, hΓ, -⟩ := t.start
    exact ⟨Γ, hΓ⟩
  | succ n ih =>
    obtain ⟨Γ, hΓ⟩ := ih (by omega)
    have hi := List.getElem?_eq_getElem (Nat.lt_of_succ_lt hn)
    have hstands := (t.stands hcode hfits hi hΓ).1
    have hnext := length_codeOf_take_succ hi
    rw [Item.bytes, List.length_cons] at hnext
    rcases hstands.tight with hend | htyped
    · -- another item stands behind this one
      have hlater := holds_of_codeOf (show _ = [] ++ codeOf is ++ [] by simpa using hcode)
        (List.getElem?_eq_getElem hn)
      have hlt := hlater.lt_size (i := 0) (by simp [Item.bytes])
      rw [List.length_nil, hnext] at hlt
      dsimp only [Code.size] at hend
      omega
    · rw [hnext, Nat.add_comm _ 1, ← Nat.add_assoc]
      exact Option.isSome_iff_exists.mp htyped

/-- What has a layout is an item. -/
theorem exists_item (t : Typing p) (hcode : p.chunk.code.toList = codeOf is)
    (hfits : ∀ i ∈ is, i.Fits p.chunk.constants) {o : Nat} {Γ : Layout}
    (hΓ : t.layouts o = some Γ) :
    ∃ n i after, is[n]? = some i ∧ o = (codeOf (is.take n)).length ∧
      p.chunk.Holds o i.bytes ∧
      Effect p.chunk.constants p.captureCount (o + i.bytes.length) i.op i.operands Γ after ∧
      ∀ x ∈ after, t.layouts.Admits x := by
  have ho : o < (codeOf is).length := by
    rw [← hcode, Array.length_toList]
    exact t.draft.inside o Γ hΓ
  obtain ⟨n, i, hi, hle, hlt⟩ := exists_item_around ho
  obtain ⟨Δ, hΔ⟩ := t.exists_layout hcode hfits (List.getElem?_eq_some_iff.mp hi).1
  obtain ⟨hstands, -⟩ := t.stands hcode hfits hi hΔ
  have heq : o = (codeOf (is.take n)).length := by
    by_contra hne
    have hnone := hstands.apart (o - (codeOf (is.take n)).length) (by omega) (by
      rw [Item.bytes, List.length_cons] at hlt
      omega)
    rw [Nat.add_sub_cancel' hle, hΓ] at hnone
    cases hnone
  subst heq
  obtain ⟨-, after, heff, hafter⟩ := t.stands hcode hfits hi hΓ
  exact ⟨n, i, after, hi, rfl, hstands.holds, heff, hafter⟩

end Typing

/-! ## Slots above the callee -/

/-- The slots are the same, except for the callee's. -/
def SameAbove (s s' : Array Value) : Prop :=
  ∃ x x' rest, s = #[x] ++ rest ∧ s' = #[x'] ++ rest

namespace SameAbove

variable {s s' : Array Value} {i : Nat}

theorem size_eq (h : SameAbove s s') : s'.size = s.size := by
  obtain ⟨x, x', rest, rfl, rfl⟩ := h
  simp

theorem push (h : SameAbove s s') (v : Value) : SameAbove (s.push v) (s'.push v) := by
  obtain ⟨x, x', rest, rfl, rfl⟩ := h
  exact ⟨x, x', rest.push v, by simp, by simp⟩

theorem exists_push (h : SameAbove s s') (hsize : 1 < s.size) :
    ∃ below below' v, s = below.push v ∧ s' = below'.push v ∧ SameAbove below below' := by
  obtain ⟨x, x', rest, rfl, rfl⟩ := h
  obtain ⟨rest, v, rfl⟩ := @Array.eq_push_of_size_ne_zero _ rest (by simp at hsize; omega)
  exact ⟨_, _, v, Array.append_push, Array.append_push, x, x', rest, rfl, rfl⟩

/-- What has a layout above the callee has a value on top. -/
theorem exists_top {κ : SlotKind} {Γ : Layout} (h : SameAbove s s')
    (hsize : s.size = (κ :: Γ).length) (hlast : (κ :: Γ).getLast? = some .callee)
    (hκ : κ ≠ .callee) :
    ∃ below below' v, s = below.push v ∧ s' = below'.push v ∧ SameAbove below below' ∧
      below.size = Γ.length ∧ Γ.getLast? = some .callee := by
  cases Γ with
  | nil =>
    cases hlast
    exact absurd rfl hκ
  | cons κ' Γ =>
    rw [List.getLast?_cons_cons] at hlast
    obtain ⟨below, below', v, hs, hs', hbelow⟩ := h.exists_push (by simp [hsize])
    refine ⟨below, below', v, hs, hs', hbelow, ?_, hlast⟩
    rw [hs, Array.size_push] at hsize
    simpa using hsize

theorem getElem?_eq (h : SameAbove s s') (hi : 0 < i) : s'[i]? = s[i]? := by
  obtain ⟨x, x', rest, rfl, rfl⟩ := h
  rw [Array.getElem?_append_right hi, Array.getElem?_append_right hi]
  rfl

theorem set (h : SameAbove s s') (hi : 0 < i) (v : Value) :
    SameAbove (s.setIfInBounds i v) (s'.setIfInBounds i v) := by
  obtain ⟨x, x', rest, rfl, rfl⟩ := h
  refine ⟨x, x', rest.setIfInBounds (i - 1) v, ?_, ?_⟩ <;>
  · rw [Array.setIfInBounds_append_right hi]
    rfl

theorem take (h : SameAbove s s') (hi : 0 < i) : SameAbove (s.take i) (s'.take i) := by
  obtain ⟨x, x', rest, rfl, rfl⟩ := h
  obtain ⟨n, rfl⟩ : ∃ n, i = n + 1 := ⟨i - 1, by omega⟩
  refine ⟨x, x', rest.take n, ?_, ?_⟩ <;> simp [Array.extract_append]

theorem extract_eq (h : SameAbove s s') (hi : 0 < i) (j : Nat) :
    s'.extract i j = s.extract i j := by
  obtain ⟨x, x', rest, rfl, rfl⟩ := h
  obtain ⟨n, rfl⟩ : ∃ n, i = n + 1 := ⟨i - 1, by omega⟩
  simp [Array.extract_append]

end SameAbove

/-! ## Code in another place -/

/-- From offset `k` on, `q` has the items `is` that the code of `p` starts with.  It finds the
constants of `p` behind `c` others. -/
structure Relocates (is js : List Item) (k c : Nat) (p q : Function Value) : Prop where
  code : p.chunk.code.toList = codeOf (is ++ js)
  fits : ∀ i ∈ is ++ js, i.Fits p.chunk.constants
  moved : ∃ before after, before.length = k ∧
    q.chunk.code.toList = before ++ codeOf (is.map (Item.shift c)) ++ after
  name : q.name = p.name
  constants : ∀ i < p.chunk.constants.size, q.chunk.constants[i + c]? = p.chunk.constants[i]?
  room : p.chunk.constants.size + c ≤ byteRange
  captureCount : p.captureCount = 0

/-! ## Open cells of the outermost frame -/

/-- In the outermost frame only variables have open cells, and they are marked as captured. -/
structure OpenCells.Suits (o : OpenCells) (Γ : Layout) : Prop where
  sorted : o.Sorted
  captured : ∀ e ∈ o, e.place.depth = 0 → fromOldest? Γ e.place.slot = some (.variable true)

namespace OpenCells.Suits

variable {o : OpenCells} {Γ Δ : Layout}

theorem mono (h : o.Suits Γ) (hkeeps : Γ.Keeps Δ) : o.Suits Δ :=
  ⟨h.sorted, fun e he hdepth => hkeeps _ (h.captured e he hdepth)⟩

/-- The cell of the last slot is given up with the slot. -/
theorem erase {κ : SlotKind} (h : o.Suits (κ :: Γ)) : (o.erase ⟨0, Γ.length⟩).Suits Γ where
  sorted := h.sorted.erase _
  captured e he hdepth := by
    obtain ⟨hmem, hne⟩ := (OpenCells.mem_erase h.sorted).mp he
    have hslot := h.captured e hmem hdepth
    rwa [fromOldest?, if_neg fun hlast => hne ?_] at hslot
    obtain ⟨⟨depth, slot⟩, cell⟩ := e
    exact (SlotPlace.mk.injEq ..).mpr ⟨hdepth, hlast⟩

end OpenCells.Suits

/-- Cells are only opened for slots that are captured. -/
theorem suits_takeAll {World : Type} {f : Frame} {Γ : Layout} {cs : List Capture}
    (hcs : ∀ c ∈ cs, c.isLocal = true → fromOldest? Γ c.index = some (.variable true))
    (taken : Taken) {m : Machine World} (h : m.openCells.Suits Γ) :
    (takeAll f cs taken m).2.openCells.Suits Γ ∧ (takeAll f cs taken m).2.callers = m.callers := by
  induction cs generalizing taken m with
  | nil => exact ⟨h, rfl⟩
  | cons c cs ih =>
    obtain ⟨hc, hrest⟩ := List.forall_mem_cons.mp hcs
    have hone : (takeOne f c taken m).2.openCells.Suits Γ ∧
        (takeOne f c taken m).2.callers = m.callers := by
      unfold takeOne
      split
      · next hlocal =>
        dsimp only
        unfold cellFor
        dsimp only
        split
        · exact ⟨h, rfl⟩
        · next hfind =>
          have hnone := (OpenCells.find_eq_none_iff h.sorted).mp hfind
          refine ⟨⟨h.sorted.insert hnone _, fun e he hdepth => ?_⟩, rfl⟩
          rcases (OpenCells.mem_insert hnone).mp he with rfl | hold
          · exact hc hlocal
          · exact h.captured e hold hdepth
      · exact ⟨h, rfl⟩
    obtain ⟨hsuits, hcallers⟩ := ih hrest (takeOne f c taken m).1 hone.1
    exact ⟨hsuits, hcallers.trans hone.2⟩

section Relocated

variable {World : Type} {is js : List Item} {k c : Nat} {p q : Function Value}

/-- An instruction of `p` is one of `q` as well. -/
theorem Relocates.exists_item (h : Relocates is js k c p q) (t : Typing p) {o : Nat} {Γ : Layout}
    (hΓ : t.layouts o = some Γ) (ho : o < (codeOf is).length) :
    ∃ (i : Item) (after : List (Nat × Layout)), p.chunk.Holds o i.bytes ∧
      q.chunk.Holds (o + k) (i.shift c).bytes ∧
      Effect p.chunk.constants 0 (o + i.bytes.length) i.op i.operands Γ after ∧
      ∀ x ∈ after, t.layouts.Admits x := by
  obtain ⟨n, i, after, hi, rfl, hholds, heff, hafter⟩ := t.exists_item h.code h.fits hΓ
  obtain ⟨before, rest, rfl, hcode⟩ := h.moved
  have hn : n < is.length := by
    by_contra hle
    rw [List.take_append, List.take_of_length_le (Nat.not_lt.mp hle), codeOf_append,
      List.length_append] at ho
    omega
  rw [List.getElem?_append_left hn] at hi
  have hmoved := holds_of_codeOf hcode (n := n) (i := i.shift c)
    (by rw [List.getElem?_map, hi]; rfl)
  rw [← List.map_take, length_codeOf_shift, Nat.add_comm,
    ← @List.take_append_of_le_length _ _ js _ (Nat.le_of_lt hn)] at hmoved
  exact ⟨i, after, hholds, hmoved, h.captureCount ▸ heff, hafter⟩

/-- A constant of `p` is found in `q` behind the constants before it. -/
theorem Relocates.constant (h : Relocates is js k c p q) {b : UInt8} {v : Value}
    (hv : p.chunk.constants[b.toNat]? = some v) :
    q.chunk.constants[(b + c.toUInt8).toNat]? = some v := by
  have hb := (Array.getElem?_eq_some_iff.mp hv).1
  have hroom := h.room
  have hsum : (b + c.toUInt8).toNat = b.toNat + c := by
    unfold byteRange at hroom
    rw [UInt8.toNat_add]
    simp only [Nat.toUInt8_eq, UInt8.toNat_ofNat']
    omega
  rw [hsum, h.constants _ hb, hv]

/-- The frame `f` runs `p` and `f'` runs `q`, at the same instruction.  `missing` values are
still to come before it is carried out. -/
structure Frame.Moved (t : Typing p) (q : Function Value) (k missing : Nat) (o : OpenCells)
    (f f' : Frame) : Prop where
  function : f.function = p
  function' : f'.function = q
  ip : f'.ip = f.ip + k
  layout : ∃ Γ, t.layouts f.ip = some Γ ∧ Γ.getLast? = some .callee ∧
    f.slots.size + missing = Γ.length ∧ o.Suits Γ
  slots : SameAbove f.slots f'.slots

/-- Both steps lead to the same place, within the code that was moved or out of it. -/
inductive Progress.Moved (t : Typing p) (q : Function Value) (k : Nat) :
    Progress World → Progress World → Prop where
  | within {f f' : Frame} {m : Machine World} (frame : f.Moved t q k 0 m.openCells f')
      (callers : m.callers = []) : Moved t q k (.running f m) (.running f' m)
  | enters {g b b' : Frame} {m : Machine World} (caller : b.Moved t q k 1 m.openCells b')
      (callers : m.callers = []) :
      Moved t q k (.running g { m with callers := [b] }) (.running g { m with callers := [b'] })
  | finished (v : Value) (m : Machine World) : Moved t q k (.finished v m) (.finished v m)
  | failed (fault : Fault) (ip : Nat) {m : Machine World} (callers : m.callers = []) :
      Moved t q k (.failed ⟨fault, ip⟩ m) (.failed ⟨fault, ip + k⟩ m)

theorem Layout.Widens.getLast {Γ Δ : Layout} (h : Γ.Widens Δ) (hΓ : Γ.getLast? = some .callee) :
    Δ.getLast? = some .callee := by
  induction h with
  | nil => exact hΓ
  | @cons κ κ' Γ Δ hκ hrest ih =>
    cases hrest with
    | nil =>
      cases hΓ
      rcases hκ with hκ | hκ
      · cases hκ
      · rw [← hκ]
        rfl
    | cons =>
      rw [List.getLast?_cons_cons] at hΓ ⊢
      exact ih hΓ

namespace Frame.Moved

variable {t : Typing p} {f f' : Frame} {m : Machine World} {ip missing : Nat} {Δ : Layout}
  {s s' : Array Value} {o o' : OpenCells}

/-- Both frames go on at the same place. -/
theorem goTo (h : f.Moved t q k missing o f') {missing' : Nat}
    (hadmits : t.layouts.Admits (ip, Δ)) (hlast : Δ.getLast? = some .callee)
    (hsize : s.size + missing' = Δ.length) (hopen : o'.Suits Δ) (hslots : SameAbove s s') :
    (f.goTo ip s).Moved t q k missing' o' (f'.goTo (ip + k) s') := by
  obtain ⟨Γ, hΓ, hwiden⟩ := hadmits
  exact ⟨h.function, h.function', rfl,
    ⟨Γ, hΓ, hwiden.getLast hlast, hsize.trans hwiden.length_eq, hopen.mono hwiden.keeps⟩, hslots⟩

end Frame.Moved

theorem bytes_shift_nil (c : Nat) (op : Opcode) : (Item.shift c ⟨op, []⟩).bytes = [op.toByte] := by
  unfold Item.shift
  split <;> rfl

theorem getLast_cons {κ : SlotKind} {Γ : Layout} (h : Γ.getLast? = some .callee) :
    (κ :: Γ).getLast? = some .callee := by
  rw [List.getLast?_cons, h]
  rfl

theorem getLast_of_replicate {n : Nat} {Γ : Layout}
    (h : (List.replicate n SlotKind.temporary ++ Γ).getLast? = some .callee) :
    Γ.getLast? = some .callee := by
  induction n with
  | zero => exact h
  | succ n ih =>
    refine ih ?_
    rw [List.replicate_succ, List.cons_append] at h
    generalize List.replicate n SlotKind.temporary ++ Γ = Δ at h
    cases Δ with
    | nil => cases h
    | cons κ Δ => rwa [List.getLast?_cons_cons] at h

theorem fromOldest_zero {κ : SlotKind} {Γ : Layout} (h : Γ.getLast? = some κ) :
    fromOldest? Γ 0 = some κ := by
  induction Γ with
  | nil => cases h
  | cons κ' Γ ih =>
    cases Γ with
    | nil => exact h
    | cons κ'' Γ =>
      rw [List.getLast?_cons_cons] at h
      rw [fromOldest_cons_of_lt (Nat.succ_pos _)]
      exact ih h

/-- Slots above the callee are captured alike. -/
theorem takeAll_sameAbove {f f' : Frame} (h : SameAbove f.slots f'.slots) {cs : List Capture}
    (hcs : ∀ c ∈ cs, c.isLocal = true ∧ 0 < c.index) (taken : Taken) (m : Machine World) :
    takeAll f' cs taken m = takeAll f cs taken m := by
  induction cs generalizing taken m with
  | nil => rfl
  | cons c cs ih =>
    obtain ⟨⟨hlocal, hpos⟩, hrest⟩ := List.forall_mem_cons.mp hcs
    have hone : takeOne f' c taken m = takeOne f c taken m := by
      unfold takeOne
      rw [if_pos hlocal, if_pos hlocal, h.getElem?_eq hpos, h.size_eq]
    unfold takeAll
    rw [hone]
    exact ih hrest _ _

/-- Both frames call the same value with the same arguments. -/
theorem Frame.Moved.invoked {t : Typing p} {f f' : Frame} {host : Host World} {m : Machine World}
    {Δ : Layout} (hf : f.Moved t q k 0 m.openCells f') (hm : m.callers = [])
    (hpos : 0 < Δ.length) (hlt : Δ.length < f.slots.size)
    (hadmits : t.layouts.Admits (f.ip + 2, .temporary :: Δ))
    (hlast : Δ.getLast? = some .callee) (hopen : m.openCells.Suits Δ) (callee : Value) :
    (m.invoke host (f.goTo (f.ip + 2) f.slots) Δ.length callee).Moved t q k
      (m.invoke host (f'.goTo (f'.ip + 2) f'.slots) Δ.length callee) := by
  have hsize' : f'.slots.size = f.slots.size := hf.slots.size_eq
  have hcount : argumentCount (f'.goTo (f'.ip + 2) f'.slots) Δ.length =
      argumentCount (f.goTo (f.ip + 2) f.slots) Δ.length :=
    congrArg (· - (Δ.length + 1)) hsize'
  have hip : f'.ip + 2 = f.ip + 2 + k := by
    rw [hf.ip, Nat.add_right_comm]
  have htake : (f.slots.take Δ.length).size = Δ.length := by
    simp
    omega
  have hfail : ∀ fault : Fault, Progress.Moved t q k (.failed ⟨fault, f.ip + 2⟩ m)
      (.failed ⟨fault, f'.ip + 2⟩ m) := fun fault => hip ▸ .failed _ _ hm
  have henter : ∀ (g : Function Value) (cells : Array Cell),
      (m.enter (f.goTo (f.ip + 2) f.slots) Δ.length g cells).Moved t q k
        (m.enter (f'.goTo (f'.ip + 2) f'.slots) Δ.length g cells) := by
    intro g cells
    unfold enter wrongCount
    rw [hcount]
    split
    · show Progress.Moved t q k
        (.running ⟨g, cells, 0, f.slots.extract Δ.length f.slots.size⟩
          { m with callers := f.goTo (f.ip + 2) (f.slots.take Δ.length) :: m.callers })
        (.running ⟨g, cells, 0, f'.slots.extract Δ.length f'.slots.size⟩
          { m with callers := f'.goTo (f'.ip + 2) (f'.slots.take Δ.length) :: m.callers })
      rw [hm, hsize', hf.slots.extract_eq hpos, hip]
      refine .enters (hf.goTo hadmits (getLast_cons hlast) ?_ (hopen.mono (Layout.keeps_cons _ _))
        (hf.slots.take hpos)) hm
      rw [htake]
      rfl
    · exact hfail _
  cases callee with
  | closure c => exact henter _ _
  | function g => exact henter _ _
  | native n =>
    unfold Machine.invoke
    dsimp only
    rw [hcount]
    split
    · have hargs : f'.slots.extract (Δ.length + 1) f'.slots.size =
          f.slots.extract (Δ.length + 1) f.slots.size := by
        rw [hsize', hf.slots.extract_eq (Nat.succ_pos _)]
      have hreply : host.call n ((f'.goTo (f'.ip + 2) f'.slots).slots.extract (Δ.length + 1)
          (f'.goTo (f'.ip + 2) f'.slots).slots.size).toList m.store m.world =
          host.call n ((f.goTo (f.ip + 2) f.slots).slots.extract (Δ.length + 1)
            (f.goTo (f.ip + 2) f.slots).slots.size).toList m.store m.world :=
        congrArg (fun a : Array Value => host.call n a.toList m.store m.world) hargs
      unfold invokeNative
      dsimp only
      rw [hreply]
      split
      · next v _ =>
        have hback : ((f.goTo (f.ip + 2) (f.slots.take Δ.length)).push v).Moved t q k 0 m.openCells
            ((f'.goTo (f.ip + 2 + k) (f'.slots.take Δ.length)).push v) := by
          refine hf.goTo hadmits (getLast_cons hlast) ?_ (hopen.mono (Layout.keeps_cons _ _))
            ((hf.slots.take hpos).push v)
          rw [Array.size_push, Frame.goTo, htake]
          rfl
        rw [hip]
        exact .within hback hm
      · exact hip ▸ .failed _ _ hm
    · unfold wrongCount
      rw [hcount]
      exact hfail _
  | _ => exact hfail _

/-- A step of the moved code leads to the same place as one of the original. -/
theorem Relocates.step {t : Typing p} {f f' : Frame} {m : Machine World}
    (h : Relocates is js k c p q) (host : Host World) (hf : f.Moved t q k 0 m.openCells f')
    (hin : f.ip < (codeOf is).length) (hm : m.callers = []) :
    (m.step host f).Moved t q k (m.step host f') := by
  obtain ⟨Γ, hΓ, hlast, hsize, hopen⟩ := hf.layout
  obtain ⟨⟨op, operands⟩, after, hholds, hmoved, heff, hafter⟩ := h.exists_item t hΓ hin
  rw [Nat.add_zero] at hsize
  have hholds : f.chunk.Holds f.ip (op.toByte :: operands) := by
    rw [Frame.chunk, hf.function]
    exact hholds
  rw [← hf.ip] at hmoved
  have hmoved : f'.chunk.Holds f'.ip (Item.shift c ⟨op, operands⟩).bytes := by
    rw [Frame.chunk, hf.function']
    exact hmoved
  have hconstant : ∀ {b : UInt8} {v : Value}, p.chunk.constants[b.toNat]? = some v →
      f.chunk.constants[b.toNat]? = some v ∧
        f'.chunk.constants[(b + c.toUInt8).toNat]? = some v := by
    intro b v hv
    rw [Frame.chunk, Frame.chunk, hf.function, hf.function']
    exact ⟨hv, h.constant hv⟩
  have hgo : ∀ {m' : Machine World} {n : Nat} {Δ : Layout} {s s' : Array Value},
      t.layouts.Admits (f.ip + n, Δ) → Δ.getLast? = some .callee → s.size = Δ.length →
      m'.openCells.Suits Δ → SameAbove s s' → m'.callers = [] →
      Progress.Moved t q k (.running (f.goTo (f.ip + n) s) m')
        (.running (f'.goTo (f'.ip + n) s') m') := by
    intro m' n Δ s s' hadmits hΔ hs hsuits hsame hm'
    rw [hf.ip, Nat.add_right_comm]
    exact .within (hf.goTo hadmits hΔ hs hsuits hsame) hm'
  have hfail : ∀ {fault : Fault} {n : Nat}, Progress.Moved t q k
      (.failed ⟨fault, f.ip + n⟩ m) (.failed ⟨fault, f'.ip + n⟩ m) := by
    intro fault n
    rw [hf.ip, Nat.add_right_comm]
    exact .failed _ _ hm
  have hsize' : f'.slots.size = f.slots.size := hf.slots.size_eq
  have hpush : ∀ v, (f.slots.push v).size = (SlotKind.temporary :: Γ).length := fun v => by
    rw [Array.size_push, hsize]
    rfl
  cases heff with
  | literal hop =>
    rw [bytes_shift_nil] at hmoved
    rw [step_literal hop hholds, step_literal hop hmoved]
    exact hgo (hafter _ List.mem_cons_self) (getLast_cons hlast) (hpush _)
      (hopen.mono (Layout.keeps_cons _ _)) (hf.slots.push _) hm
  | constant hk hv =>
    rw [step_constant hholds (hconstant hk).1, step_constant hmoved (hconstant hk).2]
    exact hgo (hafter _ List.mem_cons_self) (getLast_cons hlast) (hpush _)
      (hopen.mono (Layout.keeps_cons _ _)) (hf.slots.push _) hm
  | pop hκ hcallee =>
    obtain ⟨below, below', v, hs, hs', hbelow, hcount, hlast'⟩ :=
      hf.slots.exists_top hsize hlast hcallee
    rw [step_pop hholds (by rw [hs, Array.back?_push]),
      step_pop hmoved (by rw [hs', Array.back?_push]), hs, hs', Array.pop_push, Array.pop_push]
    exact hgo (hafter _ List.mem_cons_self) hlast' hcount (hopen.mono (Layout.keeps_of_cons _ hκ))
      hbelow hm
  | closeUpvalue =>
    obtain ⟨below, below', v, hs, hs', hbelow, hcount, hlast'⟩ :=
      hf.slots.exists_top hsize hlast nofun
    rw [step_closeUpvalue hholds (by rw [hs, Array.back?_push]),
      step_closeUpvalue hmoved (by rw [hs', Array.back?_push]), hs, hs', Array.pop_push,
      Array.pop_push, hbelow.size_eq, show m.depth = 0 from congrArg List.length hm, hcount]
    exact hgo (hafter _ List.mem_cons_self) hlast' hcount hopen.erase hbelow hm
  | @getLocal b _ _ hpos hk =>
    have hlt : b.toNat < f.slots.size := hsize ▸ lt_of_fromOldest hk
    have hv := Array.getElem?_eq_getElem hlt
    rw [step_getLocal hholds hv, step_getLocal hmoved ((hf.slots.getElem?_eq hpos).trans hv)]
    exact hgo (hafter _ List.mem_cons_self) (getLast_cons hlast) (hpush _)
      (hopen.mono (Layout.keeps_cons _ _)) (hf.slots.push _) hm
  | @setLocal b _ Δ hpos hk =>
    obtain ⟨below, below', v, hs, hs', -⟩ := hf.slots.exists_top hsize hlast nofun
    have hlt : b.toNat < f.slots.size := by
      have := lt_of_fromOldest hk
      rw [hsize, List.length_cons]
      omega
    rw [step_setLocal hholds hlt (by rw [hs, Array.back?_push]),
      step_setLocal hmoved (hsize'.symm ▸ hlt) (by rw [hs', Array.back?_push])]
    refine hgo (hafter _ List.mem_cons_self) hlast ?_ hopen (hf.slots.set hpos v) hm
    rw [Array.size_setIfInBounds, hsize]
  | getGlobal hk =>
    rw [step_getGlobal hholds (hconstant hk).1, step_getGlobal hmoved (hconstant hk).2]
    split
    · exact hgo (hafter _ List.mem_cons_self) (getLast_cons hlast) (hpush _)
        (hopen.mono (Layout.keeps_cons _ _)) (hf.slots.push _) hm
    · exact hfail
  | defineGlobal hk =>
    obtain ⟨below, below', v, hs, hs', hbelow, hcount, hlast'⟩ :=
      hf.slots.exists_top hsize hlast nofun
    rw [step_defineGlobal hholds (hconstant hk).1 (by rw [hs, Array.back?_push]),
      step_defineGlobal hmoved (hconstant hk).2 (by rw [hs', Array.back?_push]), hs, hs',
      Array.pop_push, Array.pop_push]
    exact hgo (hafter _ List.mem_cons_self) hlast' hcount
      (hopen.mono (Layout.keeps_of_temporary _)) hbelow hm
  | setGlobal hk =>
    obtain ⟨below, below', v, hs, hs', -⟩ := hf.slots.exists_top hsize hlast nofun
    rw [step_setGlobal hholds (hconstant hk).1 (by rw [hs, Array.back?_push]),
      step_setGlobal hmoved (hconstant hk).2 (by rw [hs', Array.back?_push])]
    split
    · exact hgo (hafter _ List.mem_cons_self) hlast hsize hopen hf.slots hm
    · exact hfail
  | getUpvalue hk => exact absurd hk (Nat.not_lt_zero _)
  | setUpvalue hk => exact absurd hk (Nat.not_lt_zero _)
  | binary hop =>
    obtain ⟨upper, upper', y, hs, hs', hupper, hcount, hlast'⟩ :=
      hf.slots.exists_top hsize hlast nofun
    obtain ⟨below, below', x, rfl, rfl, hbelow, hcount', hlast''⟩ :=
      hupper.exists_top hcount hlast' nofun
    rw [bytes_shift_nil] at hmoved
    rw [step_binary hop hholds hs, step_binary hop hmoved hs']
    unfold afterOperator
    split
    · exact hgo (hafter _ List.mem_cons_self) hlast' (by simpa using hcount')
        (hopen.mono (Layout.keeps_of_temporary _)) (hbelow.push _) hm
    · exact hfail
  | unary hop =>
    obtain ⟨below, below', x, hs, hs', hbelow, hcount, -⟩ :=
      hf.slots.exists_top hsize hlast nofun
    rw [bytes_shift_nil] at hmoved
    rw [step_unary hop hholds hs, step_unary hop hmoved hs']
    unfold afterOperator
    split
    · exact hgo (hafter _ List.mem_cons_self) hlast (by simpa using hcount) hopen (hbelow.push _) hm
    · exact hfail
  | @jump d =>
    rw [step_jump hholds, step_jump hmoved, Nat.add_assoc, Nat.add_assoc]
    refine hgo ?_ hlast hsize hopen hf.slots hm
    rw [← Nat.add_assoc]
    exact hafter _ List.mem_cons_self
  | @jumpIfFalse d Δ =>
    obtain ⟨below, below', v, hs, hs', -⟩ := hf.slots.exists_top hsize hlast nofun
    rw [step_jumpIfFalse hholds (by rw [hs, Array.back?_push]),
      step_jumpIfFalse hmoved (by rw [hs', Array.back?_push])]
    split
    · next b _ =>
      cases b with
      | true => exact hgo (hafter _ List.mem_cons_self) hlast hsize hopen hf.slots hm
      | false =>
        simp only [Bool.false_eq_true, if_false]
        rw [Nat.add_assoc, Nat.add_assoc]
        refine hgo ?_ hlast hsize hopen hf.slots hm
        rw [← Nat.add_assoc]
        exact hafter _ (List.mem_cons_of_mem _ List.mem_cons_self)
    · exact hfail
  | @loop d _ hd =>
    have hd : d.toNat ≤ f.ip + 2 := hd
    have hip := hf.ip
    have hback : f'.ip + 2 - d.toNat = f.ip + 2 - d.toNat + k := by omega
    rw [step_loop hholds hd, step_loop hmoved (by omega), hback]
    exact .within (hf.goTo (hafter _ List.mem_cons_self) hlast hsize hopen hf.slots) hm
  | @call n Δ =>
    have hlast' := getLast_of_replicate hlast
    have hpos : 0 < Δ.length := List.length_pos_iff.mpr fun hnil => by
      rw [hnil] at hlast'
      cases hlast'
    have hcount : f.slots.size = n.toNat + 1 + Δ.length := by
      rw [hsize, List.length_append, List.length_replicate]
    have hbase : f.slots.size - (n.toNat + 1) = Δ.length := by omega
    rw [step_call hholds (by omega), step_call hmoved (by omega), hsize', hbase,
      hf.slots.getElem?_eq hpos]
    exact hf.invoked hm hpos (by omega) (hafter _ List.mem_cons_self) hlast'
      (hopen.mono (Layout.keeps_of_replicate _ _)) _
  | @closure b pairs g κ _ hk hpairs _ hallowed =>
    have hlast' := getLast_cons (κ := κ) hlast
    have hlocals : ∀ c ∈ Instruction.capturesOf pairs,
        c.isLocal = true ∧ 0 < c.index ∧ c.index ≤ f.slots.size := by
      intro c hc
      have hc := hallowed c hc
      unfold Capture.Allowed at hc
      split at hc
      · next hlocal =>
        refine ⟨hlocal, Nat.pos_of_ne_zero fun hzero => ?_, ?_⟩
        · rw [hzero, fromOldest_zero hlast'] at hc
          cases hc
        · have := lt_of_fromOldest hc
          rw [List.length_cons] at this
          omega
      · exact absurd hc (Nat.not_lt_zero _)
    have hoffers : ∀ c ∈ Instruction.capturesOf pairs, Offers f c ∧ Offers f' c := by
      intro c hc
      obtain ⟨hlocal, -, hle⟩ := hlocals c hc
      unfold Offers
      rw [if_pos hlocal, if_pos hlocal, hsize']
      exact ⟨hle, hle⟩
    have htake := takeAll_sameAbove hf.slots (fun c hc => ⟨(hlocals c hc).1, (hlocals c hc).2.1⟩)
      {} m
    obtain ⟨hsuits, hcallers⟩ := suits_takeAll (f := f) (m := m) (fun c hc hlocal => by
      have hc := hallowed c hc
      rwa [Capture.Allowed, if_pos hlocal] at hc) {} (hopen.mono (Layout.keeps_cons κ Γ))
    rw [step_closure hholds (hconstant hk).1 hpairs (fun c hc => (hoffers c hc).1) rfl,
      step_closure hmoved (hconstant hk).2 hpairs (fun c hc => (hoffers c hc).2) htake,
      Nat.add_assoc, Nat.add_assoc]
    refine hgo ?_ hlast' ?_ hsuits (hf.slots.push _) (hcallers.trans hm)
    · have hnext := hafter _ List.mem_cons_self
      rwa [Item.bytes, List.length_cons, List.length_cons,
        show f.ip + (pairs.length + 1 + 1) = f.ip + (2 + pairs.length) by omega] at hnext
    · rw [Array.size_push, hsize]
      rfl
  | «return» =>
    obtain ⟨below, below', v, hs, hs', -⟩ := hf.slots.exists_top hsize hlast nofun
    rw [step_return hholds (by rw [hs, Array.back?_push]),
      step_return hmoved (by rw [hs', Array.back?_push]), hm]
    exact .finished v _

end Relocated

end ScriptEngine
