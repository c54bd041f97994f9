import ScriptEngine.Proofs.Compile.Sane
import ScriptEngine.Proofs.Loops.Flow
set_option autoImplicit false

/-!
# Capturing variables while code is written

A function that captures a variable of one further out makes all functions in between capture it,
and the owner note that it is captured.  `Spread` says which variables this has happened to: it does
not say in which order, so that two compilations which come across the same names in different
orders end up with the same variables captured.  Looking for a name in the functions around spreads
the one variable that the name means (`spread_captureFrom`).
-/

namespace ScriptEngine.Compile

/-! ## What is captured so far -/

/-- The variables that the innermost one of some functions captures, in the order of its
captures. -/
def homesOf : List Builder → List Home
  | [] => []
  | b :: around => b.captures.map (Capture.home (around.length - 1) (homesOf around))

/-- The local in a slot is captured. -/
def Marked (ls : List Local) (slot : Nat) : Prop :=
  ∃ l, fromOldest? ls slot = some l ∧ l.isCaptured = true

/-- Some variables have become captured in the meantime, by all functions between the innermost one
and their owners. -/
inductive Spread (homes : List Home) : List Builder → List Builder → Prop where
  | nil : Spread homes [] []
  | cons {b b' : Builder} {bs bs' : List Builder} (kept : homesOf (b :: bs) <+: homesOf (b' :: bs'))
      (marked : ∀ slot, Marked b'.locals slot ↔ Marked b.locals slot ∨ ⟨bs.length, slot⟩ ∈ homes)
      (captured : ∀ h : Home, h.level < bs.length →
        (h ∈ homesOf (b' :: bs') ↔ h ∈ homesOf (b :: bs) ∨ h ∈ homes))
      (around : Spread homes bs bs') : Spread homes (b :: bs) (b' :: bs')

section Spread

variable {homes homes' : List Home} {b b' : Builder} {bs bs' bs'' : List Builder} {h : Home}

theorem Spread.length_eq (hs : Spread homes bs bs') : bs'.length = bs.length := by
  induction hs with
  | nil => rfl
  | cons _ _ _ _ ih => exact congrArg (· + 1) ih

theorem Spread.longer (hs : Spread homes bs bs') : homesOf bs <+: homesOf bs' := by
  cases hs with
  | nil => exact List.prefix_refl _
  | cons kept => exact kept

/-- Variables of functions that are not among these do not matter. -/
theorem spread_refl (hhomes : ∀ h ∈ homes, bs.length ≤ h.level) : Spread homes bs bs := by
  induction bs with
  | nil => exact .nil
  | cons b bs ih =>
    have houtside : ∀ {h : Home}, h.level ≤ bs.length → h ∉ homes := fun hlevel hmem =>
      Nat.not_lt.mpr hlevel (hhomes _ hmem)
    refine .cons (List.prefix_refl _) (fun slot => ?_) (fun h hlevel => ?_)
      (ih fun h hmem => Nat.le_of_succ_le (hhomes h hmem))
    · rw [or_iff_left (houtside (Nat.le_refl _))]
    · rw [or_iff_left (houtside (Nat.le_of_lt hlevel))]

theorem Spread.trans (hs : Spread homes bs bs') (ks : Spread homes' bs' bs'') :
    Spread (homes ++ homes') bs bs'' := by
  induction hs generalizing bs'' with
  | nil =>
    cases ks
    exact .nil
  | cons kept marked captured around ih =>
    cases ks with
    | cons kept' marked' captured' around' =>
      refine .cons (List.IsPrefix.trans kept kept') (fun slot => ?_) (fun h hlevel => ?_)
        (ih around')
      · rw [marked', marked, around.length_eq, List.mem_append, or_assoc]
      · rw [captured' h (around.length_eq ▸ hlevel), captured h hlevel, List.mem_append, or_assoc]

/-- Only the variables of these functions matter, in any order. -/
theorem Spread.congr (hs : Spread homes bs bs')
    (hhomes : ∀ h : Home, h.level < bs.length → (h ∈ homes ↔ h ∈ homes')) :
    Spread homes' bs bs' := by
  induction hs with
  | nil => exact .nil
  | cons kept marked captured around ih =>
    refine .cons kept (fun slot => ?_) (fun h hlevel => ?_)
      (ih fun h hlevel => hhomes h (Nat.lt_succ_of_lt hlevel))
    · rw [marked, hhomes _ (Nat.lt_succ_self _)]
    · rw [captured h hlevel, hhomes h (Nat.lt_succ_of_lt hlevel)]

end Spread

/-! ## Grounded captures -/

section Linked

variable {b outer : Builder} {bs around : List Builder} {c : Capture} {h : Home}

theorem length_homesOf (b : Builder) (bs : List Builder) :
    (homesOf (b :: bs)).length = b.captures.length := List.length_map ..

/-- A capture that is no local of the function around is one of its captures. -/
theorem Grounded.within (hc : Grounded outer c) (hlocal : c.isLocal = false) :
    c.index < (homesOf (outer :: around)).length := by
  unfold Grounded at hc
  rw [if_neg (by simp [hlocal])] at hc
  rwa [length_homesOf]

/-- A function only captures variables of functions around it. -/
theorem Linked.level_lt (hlinked : Linked b bs) (hmem : h ∈ homesOf (b :: bs)) :
    h.level < bs.length := by
  induction hlinked generalizing h with
  | outermost hnone =>
    rw [homesOf, hnone] at hmem
    cases hmem
  | @inner b outer around grounded rest ih =>
    obtain ⟨c, hc, rfl⟩ := List.mem_map.mp hmem
    unfold Capture.home
    split
    · exact Nat.lt_succ_self around.length
    · next hlocal =>
      have hlt : c.index < (homesOf (outer :: around)).length :=
        (grounded c hc).within (by simpa using hlocal)
      rw [List.getElem?_eq_getElem hlt]
      exact Nat.lt_succ_of_lt (ih (List.getElem_mem hlt))

end Linked

/-! ## Names -/

/-- The slot of the newest local with a name. -/
def position? (x : String) : List String → Option Nat
  | [] => none
  | y :: older => if y = x then some older.length else position? x older

/-- The variable that a name means in the functions around, where the names of their locals are
given, innermost function first. -/
def homeIn? (x : String) : List (List String) → Option Home
  | [] => none
  | names :: around =>
      match position? x names with
      | some slot => some ⟨around.length, slot⟩
      | none => homeIn? x around

theorem position_map_name (x : String) (ls : List Local) :
    position? x (ls.map Local.name) = (slotOf? x ls).map Prod.fst := by
  induction ls with
  | nil => rfl
  | cons l ls ih =>
    rw [List.map_cons, position?, slotOf?]
    split
    · rw [List.length_map]
      rfl
    · exact ih

theorem level_of_homeIn {x : String} {around : List (List String)} {h : Home}
    (hx : homeIn? x around = some h) : h.level < around.length := by
  induction around with
  | nil => cases hx
  | cons names around ih =>
    unfold homeIn? at hx
    split at hx
    · cases hx
      exact Nat.lt_succ_self _
    · exact Nat.lt_succ_of_lt (ih hx)

/-! ## Looking for a name -/

/-- The local that a name means becomes captured, and no other one. -/
theorem marked_capture {x : String} {ls : List Local} {slot : Nat} {l : Local}
    (hslot : slotOf? x ls = some (slot, l)) (other : Nat) :
    Marked (capture x ls) other ↔ Marked ls other ∨ other = slot := by
  induction ls with
  | nil => cases hslot
  | cons a ls ih =>
    unfold slotOf? at hslot
    unfold capture Marked
    split at hslot
    · next hname =>
      cases hslot
      rw [if_pos hname]
      by_cases hother : other = ls.length
      · subst hother
        simp [fromOldest_cons_self]
      · simp [fromOldest?, hother]
    · next hname =>
      rw [if_neg hname]
      have hlt := slotOf_lt hslot
      by_cases hother : other = ls.length
      · subst hother
        rw [or_iff_left (Nat.ne_of_gt hlt)]
        simp [fromOldest?, length_locals_capture]
      · have hrest := ih hslot
        unfold Marked at hrest
        simpa [fromOldest?, hother, length_locals_capture] using hrest

section Search

variable {inner : Builder} {bs bs' around : List Builder} {c : Capture} {isFull : Bool} {h : Home}
  {x : String}

/-- A function captures what has become captured around it. -/
theorem spread_captureIn (hspread : Spread [h] bs bs') (hlevel : h.level < bs.length)
    (hwithin : ∀ c ∈ inner.captures, c.isLocal = false → c.index < (homesOf bs).length)
    (hc : c.home (bs.length - 1) (homesOf bs') = h)
    (hroom : (captureIn inner bs' c isFull).isFull = false) :
    Spread [h] (inner :: bs)
        ((captureIn inner bs' c isFull).inner :: (captureIn inner bs' c isFull).around) ∧
      (homesOf ((captureIn inner bs' c isFull).inner :: (captureIn inner bs' c isFull).around))[
        (captureIn inner bs' c isFull).index]? = some h := by
  have hlength := hspread.length_eq
  have hkept : homesOf (inner :: bs) = inner.captures.map (Capture.home (bs'.length - 1)
      (homesOf bs')) := by
    rw [homesOf, hlength]
    exact List.map_congr_left fun c hc =>
      (Capture.home_of_longer hspread.longer (hwithin c hc)).symm
  have houtside : ∀ slot, (⟨bs.length, slot⟩ : Home) ∉ [h] := fun slot hmem => by
    rw [← List.mem_singleton.mp hmem] at hlevel
    exact Nat.lt_irrefl _ hlevel
  rw [← hlength] at hc
  unfold captureIn Builder.addCapture? at hroom ⊢
  cases hindex : inner.captures.idxOf? c with
  | some i =>
    have hi : inner.captures[i]? = some c := by
      obtain ⟨hlt, hbeq, -⟩ := List.findIdx?_eq_some_iff_getElem.mp hindex
      rw [List.getElem?_eq_getElem hlt, eq_of_beq hbeq]
    have hhome : (homesOf (inner :: bs'))[i]? = some h := by
      rw [homesOf, List.getElem?_map, hi, Option.map_some, hc]
    refine ⟨.cons (hkept ▸ List.prefix_refl _) (fun slot => ?_) (fun k _ => ?_) hspread, hhome⟩
    · rw [or_iff_left (houtside slot)]
    · rw [hkept]
      refine ⟨.inl, fun hor => hor.elim id fun hmem => ?_⟩
      rw [List.mem_singleton.mp hmem]
      exact List.mem_of_getElem? hhome
  | none =>
    rw [hindex] at hroom
    dsimp only at hroom ⊢
    by_cases hfull : inner.captures.length = byteRange
    · rw [if_pos hfull] at hroom
      cases hroom
    · rw [if_neg hfull]
      have hadded : homesOf ({ inner with captures := inner.captures ++ [c] } :: bs') =
          homesOf (inner :: bs) ++ [h] := by
        rw [homesOf, hkept, List.map_append, List.map_singleton, hc]
      dsimp only
      rw [hadded]
      refine ⟨.cons (hadded ▸ List.prefix_append _ _) (fun slot => ?_) (fun k _ => ?_) hspread, ?_⟩
      · rw [or_iff_left (houtside slot)]
      · rw [hadded, List.mem_append]
      · rw [← length_homesOf inner bs, List.getElem?_concat_length]

/-- Looking for a name in the functions around makes the variable that it means captured, and gives
its position among the captures. -/
theorem spread_captureFrom {found : Captured} (hfound : captureFrom x inner around = some found)
    (hroom : found.isFull = false) (hlinked : Linked inner around)
    (hx : homeIn? x (around.map fun b => b.locals.map Local.name) = some h) :
    Spread [h] (inner :: around) (found.inner :: found.around) ∧
      (homesOf (found.inner :: found.around))[found.index]? = some h := by
  induction around generalizing inner found with
  | nil => cases hfound
  | cons outer around ih =>
    cases hlinked with
    | inner hgrounded hrest =>
    have hwithin : ∀ c ∈ inner.captures, c.isLocal = false →
        c.index < (homesOf (outer :: around)).length := fun c hc => (hgrounded c hc).within
    have hlevel : h.level < (outer :: around).length := by
      have hlt := level_of_homeIn hx
      rwa [List.length_map] at hlt
    unfold captureFrom at hfound
    rw [List.map_cons, homeIn?, position_map_name] at hx
    cases hslot : slotOf? x outer.locals with
    | some place =>
      obtain ⟨slot, l⟩ := place
      rw [hslot] at hfound hx
      cases hfound
      obtain rfl := Option.some.inj hx
      dsimp only at hroom ⊢
      refine spread_captureIn (.cons ?_ (fun other => ?_) (fun k hk => ?_) ?_) hlevel hwithin ?_
              hroom
      · exact List.prefix_refl _
      · rw [marked_capture hslot]
        simp
      · refine (or_iff_left fun hmem => ?_).symm
        rw [List.mem_singleton.mp hmem, List.length_map] at hk
        exact Nat.lt_irrefl _ hk
      · refine spread_refl fun k hk => ?_
        rw [List.mem_singleton.mp hk]
        exact Nat.le_of_eq (List.length_map _).symm
      · simp [Capture.home]
    | none =>
      rw [hslot] at hfound hx
      obtain ⟨further, hfurther, rfl⟩ := Option.map_eq_some_iff.mp hfound
      have hbefore : further.isFull = false := by
        unfold captureIn at hroom
        split at hroom
        · exact hroom
        · cases hroom
      obtain ⟨hspread, hindex⟩ := ih hfurther hbefore hrest hx
      refine spread_captureIn hspread hlevel hwithin ?_ hroom
      unfold Capture.home
      rw [if_neg (by simp), hindex]
      rfl

/-- A name is found around if some function around has a local with it. -/
theorem captureFrom_eq_none_iff :
    captureFrom x inner around = none ↔
      homeIn? x (around.map fun b => b.locals.map Local.name) = none := by
  induction around generalizing inner with
  | nil => exact iff_of_true rfl rfl
  | cons outer around ih =>
    rw [captureFrom, List.map_cons, homeIn?, position_map_name]
    cases slotOf? x outer.locals with
    | some place => exact iff_of_false nofun nofun
    | none =>
      dsimp only
      rw [Option.map_eq_none_iff]
      exact ih

end Search

end ScriptEngine.Compile
