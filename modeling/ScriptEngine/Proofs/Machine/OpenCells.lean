import ScriptEngine.Machine.OpenCells
import Mathlib.Data.List.Sort
set_option autoImplicit false

/-!
# Machine: open cells as a table

The open cells are in the order of their places (`Sorted`), so that bisection finds
the entry for a place if there is one (`find_eq_some_iff`).  Everything else about
the table is then said by which entries it has: `mem_insert`, `mem_erase` and
`mem_below`.
-/

namespace ScriptEngine

namespace SlotPlace

theorem before_or_eq_or_before (p q : SlotPlace) : p.Before q ∨ p = q ∨ q.Before p := by
  obtain ⟨d, i⟩ := p
  obtain ⟨e, j⟩ := q
  simp only [Before, SlotPlace.mk.injEq]
  omega

theorem Before.ne {p q : SlotPlace} (h : p.Before q) : p ≠ q := by
  rintro rfl
  exact p.not_before_self h

end SlotPlace

namespace OpenCells

/-- Each entry's place comes before those of the entries behind it. -/
def Sorted (o : OpenCells) : Prop :=
  o.toList.Pairwise fun a b => a.place.Before b.place

variable {o : OpenCells} {p : SlotPlace} {e : OpenCell}

theorem sorted_empty : Sorted #[] := List.Pairwise.nil

/-! ## Bisection -/

theorem Sorted.before (h : o.Sorted) {i j : Nat} {a b : OpenCell} (hij : i < j)
    (ha : o[i]? = some a) (hb : o[j]? = some b) : a.place.Before b.place := by
  obtain ⟨hi, rfl⟩ := Array.getElem?_eq_some_iff.mp ha
  obtain ⟨hj, rfl⟩ := Array.getElem?_eq_some_iff.mp hb
  exact List.pairwise_iff_getElem.mp h i j hi hj hij

/-- Bisection keeps in mind that the entries below `low` come before the place, and
those from `high` on do not. -/
theorem lt_bisect_iff (h : o.Sorted) (p : SlotPlace) {low high : Nat} (hhigh : high ≤ o.size)
    (hlow : ∀ i e, o[i]? = some e → i < low → e.place.Before p)
    (hup : ∀ i e, o[i]? = some e → high ≤ i → ¬ e.place.Before p) {i : Nat} {e : OpenCell}
    (he : o[i]? = some e) : i < o.bisect p low high ↔ e.place.Before p := by
  fun_induction bisect o p low high with
  | case1 low high _ middle entry hentry hbefore ih =>
    refine ih hhigh (fun j a ha hj => ?_) hup
    rcases Nat.lt_or_eq_of_le (Nat.le_of_lt_succ hj) with hlt | rfl
    · exact (h.before hlt ha hentry).trans hbefore
    · rw [hentry] at ha
      cases ha
      exact hbefore
  | case2 low high _ middle entry hentry hnot ih =>
    refine ih (by omega) hlow (fun j a ha hj hbefore => hnot ?_)
    rcases Nat.lt_or_eq_of_le hj with hlt | rfl
    · exact (h.before hlt hentry ha).trans hbefore
    · rw [hentry] at ha
      cases ha
      exact hbefore
  | case3 low high _ middle hnone ih =>
    have hsize := Array.getElem?_eq_none_iff.mp hnone
    omega
  | case4 low high hdone =>
    refine ⟨hlow i e he, fun hbefore => ?_⟩
    by_contra hge
    exact hup i e he (by omega) hbefore

theorem lt_lowerBound_iff (h : o.Sorted) (p : SlotPlace) {i : Nat} {e : OpenCell}
    (he : o[i]? = some e) : i < o.lowerBound p ↔ e.place.Before p := by
  refine lt_bisect_iff h p (Nat.le_refl _) (fun _ _ _ hi => absurd hi (Nat.not_lt_zero _))
    (fun j a ha hj => ?_) he
  have hlt := (Array.getElem?_eq_some_iff.mp ha).1
  omega

/-! ## Looking up -/

theorem Sorted.eq_of_place (h : o.Sorted) {a b : OpenCell} (ha : a ∈ o) (hb : b ∈ o)
    (hplace : a.place = b.place) : a = b := by
  obtain ⟨i, hi⟩ := Array.mem_iff_getElem?.mp ha
  obtain ⟨j, hj⟩ := Array.mem_iff_getElem?.mp hb
  rcases Nat.lt_trichotomy i j with hlt | rfl | hlt
  · exact absurd hplace (h.before hlt hi hj).ne
  · exact Option.some.inj (hi.symm.trans hj)
  · exact absurd hplace.symm (h.before hlt hj hi).ne

theorem locate_of_mem (h : o.Sorted) (he : e ∈ o) :
    o.locate e.place = .ok (o.lowerBound e.place) ∧ o[o.lowerBound e.place]? = some e := by
  obtain ⟨i, hi⟩ := Array.mem_iff_getElem?.mp he
  have hge : ¬ i < o.lowerBound e.place := fun hlt =>
    e.place.not_before_self ((lt_lowerBound_iff h _ hi).mp hlt)
  have hle : o.lowerBound e.place ≤ i := Nat.not_lt.mp hge
  have hat : o[o.lowerBound e.place]? = some e := by
    rcases Nat.lt_or_eq_of_le hle with hlt | heq
    · have hbound : o.lowerBound e.place < o.size :=
        Nat.lt_trans hlt (Array.getElem?_eq_some_iff.mp hi).1
      have hsome := Array.getElem?_eq_getElem hbound
      exact absurd ((lt_lowerBound_iff h _ hsome).mpr (h.before hlt hsome hi)) (Nat.lt_irrefl _)
    · rw [heq, hi]
  unfold locate
  dsimp only
  rw [hat]
  exact ⟨if_pos rfl, rfl⟩

theorem locate_of_not_mem (hnone : ∀ e ∈ o, e.place ≠ p) :
    o.locate p = .error (o.lowerBound p) := by
  unfold locate
  dsimp only
  split
  · next entry hentry => exact if_neg (hnone entry (Array.mem_of_getElem? hentry))
  · rfl

/-- An entry is found by its place. -/
theorem find_of_mem (h : o.Sorted) (he : e ∈ o) : o.find? e.place = some e.cell := by
  obtain ⟨hlocate, hat⟩ := locate_of_mem h he
  unfold find?
  rw [hlocate]
  dsimp only
  rw [hat]
  rfl

theorem find_eq_some_iff (h : o.Sorted) {c : Cell} : o.find? p = some c ↔ ⟨p, c⟩ ∈ o := by
  constructor
  · intro hfind
    by_cases hnone : ∀ e ∈ o, e.place ≠ p
    · unfold find? at hfind
      rw [locate_of_not_mem hnone] at hfind
      cases hfind
    · simp only [not_forall, not_not] at hnone
      obtain ⟨e, he, rfl⟩ := hnone
      rw [find_of_mem h he] at hfind
      cases hfind
      exact he
  · intro hmem
    exact find_of_mem h hmem

theorem find_eq_none_iff (h : o.Sorted) : o.find? p = none ↔ ∀ e ∈ o, e.place ≠ p := by
  constructor
  · intro hfind e he hplace
    subst hplace
    rw [find_of_mem h he] at hfind
    cases hfind
  · intro hnone
    unfold find?
    rw [locate_of_not_mem hnone]

/-! ## Changes -/

theorem insert_eq (hnone : ∀ e ∈ o, e.place ≠ p) (c : Cell) :
    (o.insert p c).toList = o.toList.take (o.lowerBound p) ++
      ⟨p, c⟩ :: o.toList.drop (o.lowerBound p) := by
  unfold insert
  rw [locate_of_not_mem hnone]
  dsimp only
  unfold Array.insertIdxIfInBounds
  have hle := o.lowerBound_le p
  rw [dif_pos hle, Array.toList_insertIdx]
  obtain ⟨before, after, hsplit, hlen, heq⟩ :=
    List.exists_of_modifyTailIdx (List.cons ⟨p, c⟩) (l := o.toList) hle
  refine Eq.trans heq ?_
  rw [hsplit, ← hlen, List.take_left, List.drop_left]

theorem mem_insert (hnone : ∀ e ∈ o, e.place ≠ p) {c : Cell} :
    e ∈ o.insert p c ↔ e = ⟨p, c⟩ ∨ e ∈ o := by
  rw [← Array.mem_toList_iff, insert_eq hnone c, List.mem_append, List.mem_cons,
    ← Array.mem_toList_iff, or_left_comm, ← List.mem_append, List.take_append_drop]

theorem mem_take_lowerBound (h : o.Sorted) (p : SlotPlace) :
    e ∈ o.toList.take (o.lowerBound p) ↔ e ∈ o ∧ e.place.Before p := by
  rw [List.mem_take_iff_getElem]
  constructor
  · rintro ⟨i, hi, rfl⟩
    have hlt : i < o.size := by
      rw [Array.length_toList] at hi
      omega
    have hat : o[i]? = some o.toList[i] := by
      rw [Array.getElem?_eq_getElem hlt, Array.getElem_toList]
    exact ⟨Array.mem_of_getElem? hat, (lt_lowerBound_iff h p hat).mp (by omega)⟩
  · rintro ⟨he, hbefore⟩
    obtain ⟨i, hi⟩ := Array.mem_iff_getElem?.mp he
    obtain ⟨hlt, rfl⟩ := Array.getElem?_eq_some_iff.mp hi
    have hbound := (lt_lowerBound_iff h p hi).mpr hbefore
    exact ⟨i, by rw [Array.length_toList]; omega, Array.getElem_toList ..⟩

theorem before_of_mem_drop (h : o.Sorted) (hnone : ∀ e ∈ o, e.place ≠ p)
    (he : e ∈ o.toList.drop (o.lowerBound p)) : p.Before e.place := by
  obtain ⟨i, hi, rfl⟩ := List.mem_drop_iff_getElem.mp he
  have hlt : o.lowerBound p + i < o.size := by
    rw [Array.length_toList] at hi
    omega
  have hat : o[o.lowerBound p + i]? = some o.toList[o.lowerBound p + i] := by
    rw [Array.getElem?_eq_getElem hlt, Array.getElem_toList]
  have hnot : ¬ (o.toList[o.lowerBound p + i]).place.Before p := fun hbefore => by
    have hlt := (lt_lowerBound_iff h p hat).mpr hbefore
    exact absurd hlt (Nat.not_lt.mpr (Nat.le_add_right _ _))
  rcases SlotPlace.before_or_eq_or_before p (o.toList[o.lowerBound p + i]).place with
    hbefore | heq | hbefore
  · exact hbefore
  · exact absurd heq.symm (hnone _ (Array.mem_of_getElem? hat))
  · exact absurd hbefore hnot

theorem Sorted.insert (h : o.Sorted) (hnone : ∀ e ∈ o, e.place ≠ p) (c : Cell) :
    (o.insert p c).Sorted := by
  unfold Sorted
  rw [insert_eq hnone c, List.pairwise_append, List.pairwise_cons]
  refine ⟨List.Pairwise.take h, ⟨fun e he => before_of_mem_drop h hnone he,
    List.Pairwise.drop h⟩, fun a ha b hb => ?_⟩
  have hbefore := ((mem_take_lowerBound h p).mp ha).2
  rcases List.mem_cons.mp hb with rfl | hb
  · exact hbefore
  · exact hbefore.trans (before_of_mem_drop h hnone hb)

/-- Removing an entry leaves the ones for other places. -/
theorem mem_erase (h : o.Sorted) : e ∈ o.erase p ↔ e ∈ o ∧ e.place ≠ p := by
  by_cases hnone : ∀ a ∈ o, a.place ≠ p
  · unfold erase
    rw [locate_of_not_mem hnone]
    exact ⟨fun he => ⟨he, hnone e he⟩, And.left⟩
  · simp only [not_forall, not_not] at hnone
    obtain ⟨a, ha, rfl⟩ := hnone
    obtain ⟨hlocate, hat⟩ := locate_of_mem h ha
    obtain ⟨hlt, heq⟩ := Array.getElem?_eq_some_iff.mp hat
    have hplace : e ∈ o → (e.place ≠ a.place ↔ e ≠ a) := fun he =>
      not_congr ⟨h.eq_of_place he ha, congrArg OpenCell.place⟩
    have hnodup : o.toList.Nodup := h.imp fun hbefore heq =>
      hbefore.ne (congrArg OpenCell.place heq)
    unfold erase
    rw [hlocate]
    dsimp only
    unfold Array.eraseIdxIfInBounds
    rw [dif_pos hlt, ← Array.mem_toList_iff, Array.toList_eraseIdx,
      ← List.Nodup.erase_getElem hnodup _ hlt, hnodup.mem_erase_iff, Array.mem_toList_iff,
      Array.getElem_toList, heq]
    exact ⟨fun ⟨hne, he⟩ => ⟨he, (hplace he).mpr hne⟩, fun ⟨he, hne⟩ => ⟨(hplace he).mp hne, he⟩⟩

theorem Sorted.erase (h : o.Sorted) (p : SlotPlace) : (o.erase p).Sorted := by
  unfold OpenCells.erase
  split
  · unfold Array.eraseIdxIfInBounds
    split
    · unfold Sorted
      rw [Array.toList_eraseIdx]
      exact List.Pairwise.sublist (List.eraseIdx_sublist _ _) h
    · exact h
  · exact h

theorem toList_below (o : OpenCells) (depth : Nat) :
    (o.below depth).toList = o.toList.take (o.lowerBound ⟨depth, 0⟩) := by
  unfold below
  rw [Array.take_eq_extract, Array.toList_extract, List.extract_eq_take_drop]
  rfl

/-- The entries of the outer calls are kept. -/
theorem mem_below (h : o.Sorted) {depth : Nat} :
    e ∈ o.below depth ↔ e ∈ o ∧ e.place.depth < depth := by
  rw [← Array.mem_toList_iff, toList_below, mem_take_lowerBound h]
  unfold SlotPlace.Before
  simp only [Nat.not_lt_zero, and_false, or_false]

theorem Sorted.below (h : o.Sorted) (depth : Nat) : (o.below depth).Sorted := by
  unfold Sorted
  rw [toList_below]
  exact List.Pairwise.take h

end OpenCells

end ScriptEngine
