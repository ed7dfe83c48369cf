import Mathlib.Data.List.Basic
import ZendOpcache.Optimizer.CodeBlocks

/-! # The loops that are kept

How `find_code_blocks` takes elements out of `brk_cont_array`. The parents of the elements that stay
are climbed over those that need not be, and the elements are then moved to the front. The array
comes out as the elements that stay, in their order; but their parents keep the numbers they had
before.
-/

namespace ZendOpcache

namespace ZendOpArray

variable (a : ZendOpArray)

/-- What the inner loop climbs over. -/
def skipsLoop (e : ZendBrkContElement) : Bool := e.start < 0 && !a.freesAt e.brk

/-- The inner loop, with a bound on its turns -/
def climb (l : List ZendBrkContElement) : ℕ → ℤ → Option ℤ
  | 0, _ => none
  | n + 1, parent =>
    if 0 ≤ parent then
      match l[parent.toNat]? with
      | none => none
      | some e => if a.skipsLoop e then climb l n e.parent else some parent
    else some parent

/-- One turn of the loop that adjusts the parents and counts the elements that stay. -/
def adjustParent (fuel : ℕ) (s : List ZendBrkContElement × ℕ) (i : ℕ) :
    Option (List ZendBrkContElement × ℕ) :=
  match s.1[i]? with
  | none => none
  | some e =>
    if a.keepsLoop e then
      (a.climb s.1 fuel e.parent).map fun p => (s.1.set i { e with parent := p }, s.2 + 1)
    else some s

/-- One turn of the loop that moves the elements. -/
def moveElement (s : List ZendBrkContElement × ℕ) (i : ℕ) :
    Option (List ZendBrkContElement × ℕ) :=
  match s.1[i]? with
  | none => none
  | some e =>
    if a.keepsLoop e then some (if i ≠ s.2 then s.1.set s.2 e else s.1, s.2 + 1) else some s

/-- `brk_cont_array` up to `last_brk_cont`, as `find_code_blocks` leaves it -/
def compactBrkCont (fuel : ℕ) : Option (List ZendBrkContElement) := do
  let s ← (List.range a.brkContArray.length).foldlM (a.adjustParent fuel) (a.brkContArray, 0)
  if s.2 ≠ 0 then
    let t ← (List.range a.brkContArray.length).foldlM a.moveElement (s.1, 0)
    return t.1.take t.2
  else return []

end ZendOpArray

/-- The first ancestor that meets a condition, from a parent on -/
inductive FirstAncestor (l : List ZendBrkContElement) (f : ZendBrkContElement → Bool) :
    ℤ → Option ℕ → Prop
  | root {p} : p < 0 → FirstAncestor l f p none
  | here {p : ℕ} {e} : l[p]? = some e → f e = true → FirstAncestor l f p (some p)
  | up {p : ℕ} {e r} : l[p]? = some e → f e = false → FirstAncestor l f e.parent r →
      FirstAncestor l f p r

/-- The parents are elements of the array or -1, and form no cycle. -/
structure IsForest (l : List ZendBrkContElement) (depth : ℕ → ℕ) : Prop where
  range : ∀ e ∈ l, -1 ≤ e.parent ∧ e.parent < l.length
  acyclic : ∀ (i p : ℕ) (e : ZendBrkContElement), l[i]? = some e → e.parent = p → depth p < depth i

namespace ZendOpArray

variable (a : ZendOpArray)

/-- Where an element is moved to: behind the elements before it that stay. -/
def newIndex (i : ℕ) : ℕ := (a.brkContArray.take i).countP a.keepsLoop

/-- The parent of each element that stays is the new number of its first ancestor that stays. -/
def ParentsFollow (res : List ZendBrkContElement) : Prop :=
  ∀ (i : ℕ) (e : ZendBrkContElement), a.brkContArray[i]? = some e → a.keepsLoop e = true →
    ∃ e', res[a.newIndex i]? = some e' ∧
      ((FirstAncestor a.brkContArray a.keepsLoop e.parent none ∧ e'.parent = -1) ∨
        ∃ q, FirstAncestor a.brkContArray a.keepsLoop e.parent (some q) ∧
          e'.parent = a.newIndex q ∧ a.newIndex q < res.length)

/-- The first ancestor that is not climbed over has the number that the first one that stays
gets. -/
def ParentsInPlace : Prop :=
  ∀ (i : ℕ) (e : ZendBrkContElement), a.brkContArray[i]? = some e → a.keepsLoop e = true → ∀ p,
    FirstAncestor a.brkContArray (fun x => !a.skipsLoop x) e.parent (some p) →
    ∃ q, FirstAncestor a.brkContArray a.keepsLoop e.parent (some q) ∧ a.newIndex q = p

variable {a : ZendOpArray} {l l' : List ZendBrkContElement} {n i : ℕ} {p r : ℤ}
  {e : ZendBrkContElement} {depth : ℕ → ℕ}

theorem skipsLoop_of_keepsLoop (h : a.keepsLoop e = true) : a.skipsLoop e = false := by
  simp only [keepsLoop, Bool.and_eq_true, decide_eq_true_eq] at h
  simp [skipsLoop, Int.not_lt.mpr h.1]

theorem climb_of_neg (hp : p < 0) : a.climb l (n + 1) p = some p := by
  rw [climb, if_neg (by omega)]

theorem climb_natCast {k : ℕ} (h : l[k]? = some e) :
    a.climb l (n + 1) k = if a.skipsLoop e then a.climb l n e.parent else some (k : ℤ) := by
  rw [climb, if_pos (Int.natCast_nonneg k), Int.toNat_natCast, h]

/-- The elements that are climbed over decide where the climb ends. -/
theorem climb_congr (h : ∀ k : ℕ, l'[k]? = none ↔ l[k]? = none)
    (h' : ∀ (k : ℕ) e e', l[k]? = some e → l'[k]? = some e' →
      a.skipsLoop e' = a.skipsLoop e ∧ (a.skipsLoop e = true → e' = e)) :
    a.climb l' n p = a.climb l n p := by
  induction n generalizing p with
  | zero => rfl
  | succ n ih =>
    rcases Int.lt_or_le p 0 with hp | hp
    · rw [climb_of_neg hp, climb_of_neg hp]
    · obtain ⟨k, rfl⟩ := Int.eq_ofNat_of_zero_le hp
      cases hk : l[k]? with
      | none => simp [climb, hk, (h k).mpr hk]
      | some e =>
        obtain ⟨e', hk'⟩ := Option.ne_none_iff_exists'.mp fun hnone => by
          simp [(h k).mp hnone] at hk
        obtain ⟨hskip, heq⟩ := h' k e e' hk hk'
        rw [climb_natCast hk', climb_natCast hk, hskip]
        by_cases hs : a.skipsLoop e = true
        · rw [if_pos hs, if_pos hs, heq hs, ih]
        · rw [if_neg hs, if_neg hs]

/-- In a forest, a climb comes to an end. -/
theorem climb_ne_none (h : IsForest l depth) (hp : p < l.length) (hn : 0 < n)
    (hdepth : ∀ k : ℕ, p = k → depth k + 1 < n) : a.climb l n p ≠ none := by
  induction n generalizing p with
  | zero => omega
  | succ n ih =>
    rcases Int.lt_or_le p 0 with hneg | hpos
    · rw [climb_of_neg hneg]
      simp
    · obtain ⟨k, rfl⟩ := Int.eq_ofNat_of_zero_le hpos
      obtain ⟨e, he⟩ : ∃ e, l[k]? = some e := ⟨_, List.getElem?_eq_getElem (by omega)⟩
      have hk := hdepth k rfl
      rw [climb_natCast he]
      split_ifs
      · refine ih (h.range e (List.mem_of_getElem? he)).2 (by omega) fun k' hk' => ?_
        have hlt := h.acyclic k k' e he hk'
        omega
      · simp

/-- A climb ends at a number that it has come by. -/
theorem climb_ge (h : ∀ e ∈ l, -1 ≤ e.parent) (hp : -1 ≤ p) (hr : a.climb l n p = some r) :
    -1 ≤ r := by
  induction n generalizing p with
  | zero => cases hr
  | succ n ih =>
    rcases Int.lt_or_le p 0 with hneg | hpos
    · rw [climb_of_neg hneg] at hr
      cases hr
      exact hp
    · obtain ⟨k, rfl⟩ := Int.eq_ofNat_of_zero_le hpos
      cases he : l[k]? with
      | none => simp [climb, he] at hr
      | some e =>
        rw [climb_natCast he] at hr
        split_ifs at hr
        · exact ih (h e (List.mem_of_getElem? he)) hr
        · cases hr
          exact hp

/-- Where a climb ends. -/
theorem firstAncestor_of_climb (h : a.climb l n p = some r) :
    (r < 0 ∧ FirstAncestor l (fun x => !a.skipsLoop x) p none) ∨
      ∃ k : ℕ, r = k ∧ FirstAncestor l (fun x => !a.skipsLoop x) p (some k) := by
  induction n generalizing p with
  | zero => cases h
  | succ n ih =>
    rcases Int.lt_or_le p 0 with hneg | hpos
    · rw [climb_of_neg hneg] at h
      cases h
      exact .inl ⟨hneg, .root hneg⟩
    · obtain ⟨k, rfl⟩ := Int.eq_ofNat_of_zero_le hpos
      cases he : l[k]? with
      | none => simp [climb, he] at h
      | some e =>
        rw [climb_natCast he] at h
        split_ifs at h with hs
        · have hskip : (!a.skipsLoop e) = false := by simpa using hs
          rcases ih h with ⟨hr, hfirst⟩ | ⟨k', hr, hfirst⟩
          · exact .inl ⟨hr, .up he hskip hfirst⟩
          · exact .inr ⟨k', hr, .up he hskip hfirst⟩
        · cases h
          exact .inr ⟨k, rfl, .here he (by simpa using hs)⟩

end ZendOpArray

theorem FirstAncestor.unique {l : List ZendBrkContElement} {f : ZendBrkContElement → Bool} {p : ℤ}
    {r r' : Option ℕ} (h : FirstAncestor l f p r) (h' : FirstAncestor l f p r') : r = r' := by
  induction h with
  | @root p hp =>
    cases h' with
    | root => rfl
    | here => omega
    | up => omega
  | @here p e he hf =>
    generalize hq : (p : ℤ) = q at h'
    cases h' with
    | root hneg => omega
    | @here p' =>
      obtain rfl : p = p' := by omega
      rfl
    | @up p' e' _ he' hf' =>
      obtain rfl : p = p' := by omega
      cases he.symm.trans he'
      cases hf.symm.trans hf'
  | @up p e r he hf _ ih =>
    generalize hq : (p : ℤ) = q at h'
    cases h' with
    | root hneg => omega
    | @here p' e' he' hf' =>
      obtain rfl : p = p' := by omega
      cases he.symm.trans he'
      cases hf.symm.trans hf'
    | @up p' e' _ he' _ h' =>
      obtain rfl : p = p' := by omega
      cases he.symm.trans he'
      exact ih h'

theorem eq_false_of_imp {f g : ZendBrkContElement → Bool} {e : ZendBrkContElement}
    (hfg : ∀ e, g e = true → f e = true) (hf : f e = false) : g e = false := by
  by_contra hg
  exact Bool.false_ne_true (hf.symm.trans (hfg e ((Bool.not_eq_false _).mp hg)))

theorem FirstAncestor.exists_of_some {l : List ZendBrkContElement} {f : ZendBrkContElement → Bool}
    {p : ℤ} {q : ℕ} (h : FirstAncestor l f p (some q)) : ∃ e, l[q]? = some e ∧ f e = true := by
  generalize hr : some q = r at h
  induction h with
  | root => cases hr
  | here he hf =>
    cases hr
    exact ⟨_, he, hf⟩
  | up _ _ _ ih => exact ih hr

theorem FirstAncestor.of_up {l : List ZendBrkContElement} {f : ZendBrkContElement → Bool} {p : ℕ}
    {e : ZendBrkContElement} {r : Option ℕ} (h : FirstAncestor l f p r) (he : l[p]? = some e)
    (hf : f e = false) : FirstAncestor l f e.parent r := by
  generalize hq : (p : ℤ) = q at h
  cases h with
  | root hneg => omega
  | @here p' e' he' hf' =>
    obtain rfl : p = p' := by omega
    cases he.symm.trans he'
    cases hf.symm.trans hf'
  | @up p' e' _ he' _ h =>
    obtain rfl : p = p' := by omega
    cases he.symm.trans he'
    exact h

/-- The search for an ancestor goes by the first one that meets an easier condition. -/
theorem FirstAncestor.from_some {l : List ZendBrkContElement} {f g : ZendBrkContElement → Bool}
    {p : ℤ} {q : ℕ} {r : Option ℕ} (hfg : ∀ e, g e = true → f e = true)
    (h : FirstAncestor l f p (some q)) (h' : FirstAncestor l g p r) : FirstAncestor l g q r := by
  generalize hs : some q = s at h
  induction h with
  | root => cases hs
  | here =>
    cases hs
    exact h'
  | up he hf _ ih =>
    exact ih (h'.of_up he (eq_false_of_imp hfg hf)) hs

theorem FirstAncestor.of_meets {l : List ZendBrkContElement}
    {f g : ZendBrkContElement → Bool} {p : ℤ}
    {q : ℕ} {x : ZendBrkContElement} (hfg : ∀ e, g e = true → f e = true)
    (h : FirstAncestor l f p (some q)) (hx : l[q]? = some x) (hg : g x = true) :
    FirstAncestor l g p (some q) := by
  generalize hs : some q = s at h
  induction h with
  | root => cases hs
  | here =>
    cases hs
    exact .here hx hg
  | up he hf _ ih =>
    cases hs
    exact .up he (eq_false_of_imp hfg hf) (ih rfl)

/-- Where parents come before their children, so do ancestors. -/
theorem FirstAncestor.le {l : List ZendBrkContElement} {f : ZendBrkContElement → Bool}
    {p : ℤ} {q : ℕ}
    (hl : ∀ (i : ℕ) (e : ZendBrkContElement), l[i]? = some e → e.parent < i)
    (h : FirstAncestor l f p (some q)) : (q : ℤ) ≤ p := by
  generalize hs : some q = s at h
  induction h with
  | root => cases hs
  | here =>
    cases hs
    exact Int.le_refl _
  | up he _ _ ih =>
    have hlt := hl _ _ he
    have hle := ih hs
    omega

/-- A condition that is harder to meet is met by no ancestor if the easier one is not. -/
theorem FirstAncestor.none_of_imp {l : List ZendBrkContElement} {f g : ZendBrkContElement → Bool}
    {p : ℤ} (hfg : ∀ e, g e = true → f e = true) (h : FirstAncestor l f p none) :
    FirstAncestor l g p none := by
  generalize hr : (none : Option ℕ) = r at h
  induction h with
  | root hp => exact .root hp
  | here => cases hr
  | up he hf _ ih => exact .up he (eq_false_of_imp hfg hf) (ih hr)

namespace ZendOpArray

variable {a : ZendOpArray} {fuel i : ℕ} {e : ZendBrkContElement}

/-- An element with the parent that the first loop gives it. -/
def adjusted (a : ZendOpArray) (fuel : ℕ) (e : ZendBrkContElement) : ZendBrkContElement :=
  if a.keepsLoop e then { e with parent := (a.climb a.brkContArray fuel e.parent).getD 0 } else e

theorem keepsLoop_adjusted (e : ZendBrkContElement) :
    a.keepsLoop (a.adjusted fuel e) = a.keepsLoop e := by
  rw [adjusted]
  split_ifs <;> rfl

theorem skipsLoop_adjusted (e : ZendBrkContElement) :
    a.skipsLoop (a.adjusted fuel e) = a.skipsLoop e ∧
      (a.skipsLoop e = true → a.adjusted fuel e = e) := by
  rw [adjusted]
  split_ifs with h
  · refine ⟨rfl, fun hs => ?_⟩
    rw [skipsLoop_of_keepsLoop h] at hs
    cases hs
  · exact ⟨rfl, fun _ => rfl⟩

theorem newIndex_succ (h : a.brkContArray[i]? = some e) :
    a.newIndex (i + 1) = a.newIndex i + if a.keepsLoop e then 1 else 0 := by
  rw [newIndex, List.take_add_one, h, List.countP_append]
  by_cases hk : a.keepsLoop e = true
  · simp [newIndex, hk]
  · simp [newIndex, hk]

/-- The array when the first loop has got to an element. -/
def adjustedUpTo (a : ZendOpArray) (fuel i : ℕ) : List ZendBrkContElement :=
  a.brkContArray.mapIdx fun k e => if k < i then a.adjusted fuel e else e

theorem getElem?_adjustedUpTo (k : ℕ) : (a.adjustedUpTo fuel i)[k]? =
    (a.brkContArray[k]?).map fun e => if k < i then a.adjusted fuel e else e :=
  List.getElem?_mapIdx

/-- The turn of the first loop for an element changes that one. -/
theorem adjustedUpTo_succ (he : a.brkContArray[i]? = some e) :
    a.adjustedUpTo fuel (i + 1) = (a.adjustedUpTo fuel i).set i (a.adjusted fuel e) := by
  refine List.ext_getElem? fun k => ?_
  rw [List.getElem?_set, getElem?_adjustedUpTo, getElem?_adjustedUpTo, adjustedUpTo,
    List.length_mapIdx]
  by_cases hik : i = k
  · subst hik
    rw [if_pos rfl, if_pos (List.getElem?_eq_some_iff.mp he).1, he, Option.map_some,
      if_pos (Nat.lt_succ_self i)]
  · rw [if_neg hik]
    refine congrArg (Option.map · _) (funext fun e => ?_)
    simp only [show k < i + 1 ↔ k < i by omega]

theorem adjustedUpTo_zero (a : ZendOpArray) (fuel : ℕ) :
    a.adjustedUpTo fuel 0 = a.brkContArray := by
  refine List.ext_getElem? fun k => ?_
  simp [getElem?_adjustedUpTo]

theorem adjustedUpTo_length (a : ZendOpArray) (fuel : ℕ) :
    a.adjustedUpTo fuel a.brkContArray.length = a.brkContArray.map (a.adjusted fuel) := by
  refine List.ext_getElem? fun k => ?_
  rw [getElem?_adjustedUpTo, List.getElem?_map]
  by_cases hk : k < a.brkContArray.length
  · simp [hk]
  · simp [List.getElem?_eq_none (Nat.le_of_not_lt hk)]

theorem climb_adjustedUpTo (n : ℕ) (p : ℤ) :
    a.climb (a.adjustedUpTo fuel i) n p = a.climb a.brkContArray n p := by
  refine climb_congr (fun k => by simp [getElem?_adjustedUpTo]) fun k e e' he he' => ?_
  rw [getElem?_adjustedUpTo, he, Option.map_some] at he'
  cases he'
  split_ifs
  · exact skipsLoop_adjusted e
  · exact ⟨rfl, fun _ => rfl⟩

theorem adjustParents_eq
    (h : ∀ e ∈ a.brkContArray, a.keepsLoop e = true → a.climb a.brkContArray fuel e.parent ≠ none)
    (hi : i ≤ a.brkContArray.length) :
    (List.range i).foldlM (a.adjustParent fuel) (a.brkContArray, 0) =
      some (a.adjustedUpTo fuel i, a.newIndex i) := by
  induction i with
  | zero =>
    rw [adjustedUpTo_zero]
    rfl
  | succ i ih =>
    obtain ⟨e, he⟩ : ∃ e, a.brkContArray[i]? = some e := ⟨_, List.getElem?_eq_getElem (by omega)⟩
    have hhere : (a.adjustedUpTo fuel i)[i]? = some e := by
      simp [getElem?_adjustedUpTo, he]
    rw [List.range_succ, List.foldlM_append, ih (by omega)]
    change (a.adjustParent fuel (a.adjustedUpTo fuel i, a.newIndex i) i >>= pure) = _
    rw [bind_pure, adjustParent, hhere, newIndex_succ he, adjustedUpTo_succ he, adjusted]
    dsimp only
    by_cases hk : a.keepsLoop e = true
    · obtain ⟨r, hr⟩ := Option.ne_none_iff_exists'.mp (h e (List.mem_of_getElem? he) hk)
      rw [if_pos hk, if_pos hk, if_pos hk, climb_adjustedUpTo, hr]
      rfl
    · obtain ⟨hlt, heq⟩ := List.getElem?_eq_some_iff.mp hhere
      rw [if_neg hk, if_neg hk, if_neg hk, Nat.add_zero, ← heq, List.set_getElem_self]

/-- What the second loop has moved to the front, and what it has not got to. -/
structure Moved (a : ZendOpArray) (l : List ZendBrkContElement) (i : ℕ)
    (s : List ZendBrkContElement × ℕ) : Prop where
  front : s.1.take s.2 = (l.take i).filter a.keepsLoop
  rest : s.1.drop i = l.drop i
  le : s.2 ≤ i

theorem moveElements_eq {l : List ZendBrkContElement} (hi : i ≤ l.length) :
    ∃ s, (List.range i).foldlM a.moveElement (l, 0) = some s ∧ a.Moved l i s := by
  induction i with
  | zero => exact ⟨(l, 0), rfl, by simp, by simp, le_rfl⟩
  | succ i ih =>
    obtain ⟨s, hs, hfront, hrest, hle⟩ := ih (by omega)
    obtain ⟨e, he⟩ : ∃ e, l[i]? = some e := ⟨_, List.getElem?_eq_getElem (by omega)⟩
    have hhere : s.1[i]? = some e := by
      rw [← he, ← Nat.add_zero i, ← List.getElem?_drop, hrest, List.getElem?_drop]
    rw [List.range_succ, List.foldlM_append, hs]
    change ∃ s', (a.moveElement s i >>= pure) = some s' ∧ _
    rw [bind_pure, moveElement, hhere]
    have hlen := (List.getElem?_eq_some_iff.mp hhere).1
    have hrest' : s.1.drop (i + 1) = l.drop (i + 1) := by
      rw [← List.drop_drop, hrest, List.drop_drop]
    dsimp only
    by_cases hk : a.keepsLoop e = true
    · have hset : (if i ≠ s.2 then s.1.set s.2 e else s.1) = s.1.set s.2 e := by
        by_cases hne : i = s.2
        · obtain ⟨hlt, heq⟩ := List.getElem?_eq_some_iff.mp hhere
          rw [if_neg (not_not_intro hne), ← hne, ← heq, List.set_getElem_self]
        · rw [if_pos hne]
      rw [if_pos hk, hset]
      refine ⟨_, rfl, ?_, ?_, Nat.succ_le_succ hle⟩
      · rw [List.take_add_one, List.take_set_of_le le_rfl, hfront,
          List.getElem?_set_self (by omega),
          List.take_add_one, he, List.filter_append]
        simp [hk]
      · rw [List.drop_set_of_lt (Nat.lt_succ_of_le hle), hrest']
    · rw [if_neg hk]
      refine ⟨s, rfl, ?_, hrest', Nat.le_succ_of_le hle⟩
      rw [hfront, List.take_add_one, he, List.filter_append]
      simp [hk]

/-- The array comes out as the elements that stay, with their parents adjusted. -/
theorem compactBrkCont_eq
    (h : ∀ e ∈ a.brkContArray, a.keepsLoop e = true → a.climb a.brkContArray fuel e.parent ≠ none) :
    a.compactBrkCont fuel = some ((a.brkContArray.filter a.keepsLoop).map (a.adjusted fuel)) := by
  have hfilter : (a.brkContArray.map (a.adjusted fuel)).filter a.keepsLoop =
      (a.brkContArray.filter a.keepsLoop).map (a.adjusted fuel) := by
    rw [List.filter_map]
    refine congrArg _ (List.filter_congr fun e _ => ?_)
    exact keepsLoop_adjusted e
  have hlen : (a.brkContArray.map (a.adjusted fuel)).length = a.brkContArray.length :=
    List.length_map _
  obtain ⟨t, ht, hfront, -⟩ := moveElements_eq (a := a) (l := a.brkContArray.map (a.adjusted fuel))
    le_rfl
  rw [hlen] at ht hfront
  rw [List.take_of_length_le (Nat.le_of_eq hlen), hfilter] at hfront
  rw [compactBrkCont, adjustParents_eq h le_rfl, adjustedUpTo_length]
  change (if a.newIndex a.brkContArray.length ≠ 0 then _ else _) = _
  by_cases hzero : a.newIndex a.brkContArray.length = 0
  · have hnil : a.brkContArray.filter a.keepsLoop = [] := by
      rwa [newIndex, List.take_length, List.countP_eq_length_filter,
        List.length_eq_zero_iff] at hzero
    rw [if_neg (not_not_intro hzero), hnil]
    rfl
  · rw [if_pos hzero, ht]
    exact congrArg some hfront

/-- What is made of the array is what the blocks of the loops are taken from. -/
theorem compactBrkCont_keptLoops {res : List ZendBrkContElement}
    (h : ∀ e ∈ a.brkContArray, a.keepsLoop e = true → a.climb a.brkContArray fuel e.parent ≠ none)
    (hres : a.compactBrkCont fuel = some res) :
    res.map (fun e => (e.start.toNat, e.cont, e.brk)) = a.keptLoops := by
  rw [compactBrkCont_eq h, Option.some.injEq] at hres
  rw [← hres, List.map_map, keptLoops]
  refine List.map_congr_left fun e _ => ?_
  rw [Function.comp_apply, adjusted]
  split_ifs <;> rfl

theorem getElem?_filter_newIndex (he : a.brkContArray[i]? = some e) (hk : a.keepsLoop e = true) :
    (a.brkContArray.filter a.keepsLoop)[a.newIndex i]? = some e := by
  obtain ⟨hlt, rfl⟩ := List.getElem?_eq_some_iff.mp he
  conv_lhs => rw [← List.take_append_drop i a.brkContArray]
  rw [List.filter_append, newIndex, List.countP_eq_length_filter, List.getElem?_append_right
    (Nat.le_refl _), Nat.sub_self, List.drop_eq_getElem_cons hlt, List.filter_cons_of_pos hk]
  rfl

variable {depth : ℕ → ℕ}

theorem imp_not_skips (e : ZendBrkContElement) (h : a.keepsLoop e = true) :
    (!a.skipsLoop e) = true := by
  rw [skipsLoop_of_keepsLoop h]
  rfl

/-- The parent that an element gets is the right one exactly if its first ancestor that is not
climbed over is in place. -/
theorem climb_follows_iff (h : IsForest a.brkContArray depth) (he : e ∈ a.brkContArray) {r : ℤ}
    (hr : a.climb a.brkContArray fuel e.parent = some r) :
    ((FirstAncestor a.brkContArray a.keepsLoop e.parent none ∧ r = -1) ∨
      ∃ q, FirstAncestor a.brkContArray a.keepsLoop e.parent (some q) ∧ r = a.newIndex q) ↔
    ∀ p, FirstAncestor a.brkContArray (fun x => !a.skipsLoop x) e.parent (some p) →
      ∃ q, FirstAncestor a.brkContArray a.keepsLoop e.parent (some q) ∧ a.newIndex q = p := by
  rcases firstAncestor_of_climb hr with ⟨hneg, hfirst⟩ | ⟨k, rfl, hfirst⟩
  · have hge := climb_ge (fun e he => (h.range e he).1) (h.range e he).1 hr
    refine ⟨fun _ p hp => ?_, fun _ => .inl ⟨hfirst.none_of_imp imp_not_skips, by omega⟩⟩
    cases hfirst.unique hp
  · constructor
    · rintro (⟨-, hk⟩ | ⟨q, hq, heq⟩) p hp
      · omega
      · cases hfirst.unique hp
        exact ⟨q, hq, by omega⟩
    · intro hplace
      obtain ⟨q, hq, heq⟩ := hplace k hfirst
      exact .inr ⟨q, hq, by rw [heq]⟩

theorem climb_forest (h : IsForest a.brkContArray depth)
    (hfuel : ∀ i < a.brkContArray.length, depth i + 1 < fuel) (he : e ∈ a.brkContArray) :
    a.climb a.brkContArray fuel e.parent ≠ none := by
  have hlt := (h.range e he).2
  have hpos := hfuel 0 (List.length_pos_of_mem he)
  exact climb_ne_none h hlt (by omega) fun k hk => hfuel k (by omega)

/-- The element that stays is moved to its new number. -/
theorem getElem?_moved (he : a.brkContArray[i]? = some e) (hk : a.keepsLoop e = true) :
    ((a.brkContArray.filter a.keepsLoop).map (a.adjusted fuel))[a.newIndex i]? =
      some { e with parent := (a.climb a.brkContArray fuel e.parent).getD 0 } := by
  rw [List.getElem?_map, getElem?_filter_newIndex he hk, Option.map_some, adjusted, if_pos hk]

/-- After the compaction, the parents are those of a forest of the elements that stay, exactly if
every climb ends at the number that the first ancestor that stays gets. -/
theorem compactBrkCont_parentsFollow_iff (h : IsForest a.brkContArray depth)
    (hfuel : ∀ i < a.brkContArray.length, depth i + 1 < fuel) :
    (∃ res, a.compactBrkCont fuel = some res ∧ a.ParentsFollow res) ↔ a.ParentsInPlace := by
  have hres := compactBrkCont_eq fun e he (_ : a.keepsLoop e = true) => climb_forest h hfuel he
  constructor
  · rintro ⟨res, hsome, hfollow⟩ i e he hk
    cases hres.symm.trans hsome
    have hmem := List.mem_of_getElem? he
    obtain ⟨r, hr⟩ := Option.ne_none_iff_exists'.mp (climb_forest h hfuel hmem)
    obtain ⟨e', he', hcases⟩ := hfollow i e he hk
    rw [getElem?_moved he hk, hr, Option.getD_some] at he'
    cases he'
    refine (climb_follows_iff h hmem hr).mp (hcases.imp_right ?_)
    rintro ⟨q, hq, heq, -⟩
    exact ⟨q, hq, heq⟩
  · intro hplace
    refine ⟨_, hres, fun i e he hk => ⟨_, getElem?_moved he hk, ?_⟩⟩
    have hmem := List.mem_of_getElem? he
    obtain ⟨r, hr⟩ := Option.ne_none_iff_exists'.mp (climb_forest h hfuel hmem)
    rw [hr, Option.getD_some]
    refine ((climb_follows_iff h hmem hr).mpr (hplace i e he hk)).imp_right ?_
    rintro ⟨q, hq, heq⟩
    obtain ⟨x, hx, hkx⟩ := hq.exists_of_some
    exact ⟨q, hq, heq, (List.getElem?_eq_some_iff.mp (getElem?_moved hx hkx)).1⟩

/-- Code with these loops, of which those stay that end at 1 or 2 -/
def loopCode (l : List ZendBrkContElement) : ZendOpArray where
  opcodes := [⟨.nop, .none, .none, .none, 0⟩, ⟨.free, ⟨.tmpVar, 0, false⟩, .none, .none, 0⟩,
    ⟨.switchFree, ⟨.var, 0, false⟩, .none, .none, 0⟩, ⟨.ret, ⟨.const, 0, false⟩, .none, .none, 0⟩]
  literals := [⟨.null, 0, -1⟩]
  brkContArray := l
  tryCatchArray := []
  hasFinallyBlock := false
  T := 1
  lastVar := 0
  lastCacheSlot := 0

/-- A loop without a loop variable between two that have one -/
theorem compactBrkCont_parentsFollow_iff_between :
    (∃ res, (loopCode [⟨0, 0, 2, -1⟩, ⟨-1, 0, 3, 0⟩, ⟨0, 0, 1, 1⟩]).compactBrkCont 5 = some res ∧
        (loopCode [⟨0, 0, 2, -1⟩, ⟨-1, 0, 3, 0⟩, ⟨0, 0, 1, 1⟩]).ParentsFollow res) ↔
      (loopCode [⟨0, 0, 2, -1⟩, ⟨-1, 0, 3, 0⟩, ⟨0, 0, 1, 1⟩]).ParentsInPlace := by
  have hforest : IsForest [⟨0, 0, 2, -1⟩, ⟨-1, 0, 3, 0⟩, ⟨0, 0, 1, 1⟩] id := by
    refine ⟨by decide, fun i p e he hp => ?_⟩
    rcases i with _ | _ | _ | i
    · cases he
      change (-1 : ℤ) = p at hp
      omega
    · cases he
      change (0 : ℤ) = p at hp
      change p < 1
      omega
    · cases he
      change (1 : ℤ) = p at hp
      change p < 2
      omega
    · cases he
  exact compactBrkCont_parentsFollow_iff hforest (by decide)

/-- A `foreach` in a `while`: the `foreach` becomes its own parent. -/
theorem compactBrkCont_whileForeach :
    (loopCode [⟨0, 0, 3, -1⟩, ⟨0, 0, 1, 0⟩]).compactBrkCont 3 = some [⟨0, 0, 1, 0⟩] ∧
      ¬ ∃ res, (loopCode [⟨0, 0, 3, -1⟩, ⟨0, 0, 1, 0⟩]).compactBrkCont 3 = some res ∧
        (loopCode [⟨0, 0, 3, -1⟩, ⟨0, 0, 1, 0⟩]).ParentsFollow res := by
  have hrun : (loopCode [⟨0, 0, 3, -1⟩, ⟨0, 0, 1, 0⟩]).compactBrkCont 3 = some [⟨0, 0, 1, 0⟩] := rfl
  refine ⟨hrun, ?_⟩
  rintro ⟨res, hres, hfollow⟩
  cases hrun.symm.trans hres
  have hnone : FirstAncestor [⟨0, 0, 3, -1⟩, ⟨0, 0, 1, 0⟩]
      (loopCode [⟨0, 0, 3, -1⟩, ⟨0, 0, 1, 0⟩]).keepsLoop 0 none :=
    .up (p := 0) rfl rfl (.root (by decide))
  obtain ⟨e', he', ⟨-, hparent⟩ | ⟨q, hq, -⟩⟩ := hfollow 1 ⟨0, 0, 1, 0⟩ rfl rfl
  · cases he'
    cases hparent
  · cases hnone.unique hq

theorem newIndex_eq_self_iff {p : ℕ} (hp : p ≤ a.brkContArray.length) :
    a.newIndex p = p ↔ ∀ (k : ℕ) (x : ZendBrkContElement), k < p → a.brkContArray[k]? = some x →
      a.keepsLoop x = true := by
  have hlen : (a.brkContArray.take p).length = p := List.length_take_of_le hp
  rw [newIndex]
  conv_lhs => rhs; rw [← hlen]
  rw [List.countP_eq_length]
  constructor
  · intro h k x hk hx
    exact h x (List.mem_of_getElem? ((List.getElem?_take_of_lt hk).trans hx))
  · intro h x hx
    obtain ⟨k, hk⟩ := List.mem_iff_getElem?.mp hx
    have hkp : k < p := hlen ▸ (List.getElem?_eq_some_iff.mp hk).1
    exact h k x hkp ((List.getElem?_take_of_lt hkp).symm.trans hk)

/-- Where parents come before their children, a climb ends in place if and only if it ends at an
element that stays, and so do all that come before it. -/
theorem parentsInPlace_iff
    (hl : ∀ (i : ℕ) (e : ZendBrkContElement), a.brkContArray[i]? = some e → e.parent < i) :
    a.ParentsInPlace ↔ ∀ (i : ℕ) (e : ZendBrkContElement), a.brkContArray[i]? = some e →
      a.keepsLoop e = true → ∀ p,
      FirstAncestor a.brkContArray (fun x => !a.skipsLoop x) e.parent (some p) →
      ∀ (k : ℕ) (x : ZendBrkContElement), k ≤ p → a.brkContArray[k]? = some x →
        a.keepsLoop x = true := by
  have hle : ∀ q, a.newIndex q ≤ q := fun q =>
    Nat.le_trans List.countP_le_length (List.length_take_le q a.brkContArray)
  constructor
  · intro hplace i e he hk p hp k x hkp hx
    obtain ⟨q, hq, heq⟩ := hplace i e he hk p hp
    have hqp := (hp.from_some imp_not_skips hq).le hl
    have hpq := hle q
    obtain rfl : q = p := by omega
    obtain ⟨y, hy, hky⟩ := hq.exists_of_some
    rcases Nat.lt_or_eq_of_le hkp with hlt | rfl
    · have hlen := (List.getElem?_eq_some_iff.mp hy).1
      exact (newIndex_eq_self_iff (Nat.le_of_lt hlen)).mp heq k x hlt hx
    · cases hx.symm.trans hy
      exact hky
  · intro hall i e he hk p hp
    obtain ⟨x, hx, -⟩ := hp.exists_of_some
    have hstay := hall i e he hk p hp
    have hlen := (List.getElem?_eq_some_iff.mp hx).1
    exact ⟨p, hp.of_meets imp_not_skips hx (hstay p x (Nat.le_refl p) hx),
      (newIndex_eq_self_iff (Nat.le_of_lt hlen)).mpr fun k y hkp => hstay k y (Nat.le_of_lt hkp)⟩

end ZendOpArray

end ZendOpcache
