import Mathlib.Data.Int.Basic
import Mathlib.Logic.Function.Basic
import Mathlib.Tactic.Common
import Mathlib.Tactic.Linarith
import Mathlib.Tactic.Ring
import ZendOpcache.ScriptSize.Measure

/-! # Arrays that are moved to another memory

The arrays are moved one by one, in any order that moves an array after those whose new places its
elements depend on. A translation table has the new place of each, and the old one is free then.
Every array is read where it was until it is moved, and stays as it was rewritten from then on.
-/

namespace ZendOpcache

variable {α ι : Type*}

/-- An array in memory, with the size of an element. The elements are where they begin. -/
structure ArrayAt where
  base : ℤ
  size : ℕ
  count : ℕ
  deriving DecidableEq, Repr

namespace ArrayAt

variable (x y : ArrayAt)

def bytes : ℕ := x.size * x.count

/-- The address of an element -/
def elem (i : ℕ) : ℤ := x.base + x.size * i

/-- The addresses of the array -/
def Spans (a : ℤ) : Prop := x.base ≤ a ∧ a < x.base + x.bytes

instance (a : ℤ) : Decidable (x.Spans a) := inferInstanceAs (Decidable (_ ∧ _))

/-- Two blocks of memory that are in use at the same time -/
def Apart : Prop := x.base ≠ y.base ∧ ∀ a, ¬(x.Spans a ∧ y.Spans a)

variable {x}

theorem mul_add_le {i : ℕ} (hi : i < x.count) : x.size * i + x.size ≤ x.bytes := by
  have h : x.size * (i + 1) ≤ x.size * x.count := Nat.mul_le_mul_left _ hi
  rwa [Nat.mul_succ] at h

theorem spans_elem (hsize : 0 < x.size) {i : ℕ} (hi : i < x.count) : x.Spans (x.elem i) := by
  have h : ((x.size * i + x.size : ℕ) : ℤ) ≤ x.bytes := Int.ofNat_le.mpr (mul_add_le hi)
  push_cast at h
  constructor
  · have : (0 : ℤ) ≤ x.size * i := by positivity
    simpa [elem] using this
  · have : (0 : ℤ) < x.size := Int.natCast_pos.mpr hsize
    unfold elem
    linarith

end ArrayAt

/-- The two memories, the translation table and the next free place -/
structure Moving (α : Type*) where
  source : ℤ → Option α
  target : ℤ → Option α
  xlat : ℤ → Option ℤ
  next : ℤ

/-- Every element of an array is changed in place, from its first one on. -/
def updateEach (size : ℕ) (f : α → α) : ℕ → ℤ → (ℤ → Option α) → ℤ → Option α
  | 0, _, m => m
  | n + 1, p, m => updateEach size f n (p + size) (Function.update m p ((m p).map f))

section UpdateEach

variable {size n i : ℕ} {f : α → α} {p a : ℤ} {m : ℤ → Option α}

theorem updateEach_of_lt (ha : a < p) : updateEach size f n p m a = m a := by
  induction n generalizing p m with
  | zero => rfl
  | succ n ih =>
    rw [updateEach, ih (by omega), Function.update_of_ne (by omega)]

theorem updateEach_elem (hsize : 0 < size) (hi : i < n) :
    updateEach size f n p m (p + size * i) = (m (p + size * i)).map f := by
  induction n generalizing p m i with
  | zero => omega
  | succ n ih =>
    cases i with
    | zero =>
      have hp : p < p + size := by omega
      simp only [Nat.cast_zero, mul_zero, add_zero, updateEach]
      rw [updateEach_of_lt hp, Function.update_self]
    | succ i =>
      have hp : p + size * ((i + 1 : ℕ) : ℤ) = p + size + size * i := by
        push_cast
        ring
      have hne : p + size + size * i ≠ p := by
        have : (0 : ℤ) ≤ size * i := by positivity
        omega
      rw [hp, updateEach, ih (by omega), Function.update_of_ne hne]

end UpdateEach

namespace Moving

variable (st : Moving α) (p : ℤ) (size : ℕ)

/-- A block is copied to the next free place. -/
def memdup : Moving α where
  source := st.source
  target a := if st.next ≤ a ∧ a < st.next + size then st.source (p + (a - st.next))
    else st.target a
  xlat := Function.update st.xlat p (some st.next)
  next := st.next + aligned size

/-- A block is not read any more. -/
def efree : Moving α :=
  { st with source := fun a => if p ≤ a ∧ a < p + size then none else st.source a }

/-- The elements of a copy are changed. -/
def rewriteEach (f : α → α) (n : ℕ) : Moving α :=
  { st with target := updateEach size f n p st.target }

end Moving

/-- What is known of the arrays before they are moved: where they are, which other ones must have
been moved before, and how an element is rewritten when the new places are known. -/
structure Plan (ι α : Type*) where
  array : ι → ArrayAt
  needs : ι → List ℤ
  rewrite : (ℤ → Option ℤ) → ι → α → α
  size_pos : ∀ x, 0 < (array x).size
  rewrite_congr : ∀ {t t' : ℤ → Option ℤ} {x : ι}, t (array x).base = t' (array x).base →
    (∀ p ∈ needs x, t p = t' p) → rewrite t x = rewrite t' x

namespace Moving

variable (P : Plan ι α)

/-- An array is moved that has not been moved yet. -/
structure Moves (x : ι) (st st' : Moving α) : Prop where
  fresh : st.xlat (P.array x).base = none
  ready : ∀ p ∈ P.needs x, (st.xlat p).isSome
  xlat : st'.xlat = Function.update st.xlat (P.array x).base (some st.next)
  next : st.next + (P.array x).bytes ≤ st'.next
  source : ∀ a, ¬(P.array x).Spans a → st'.source a = st.source a
  target : ∀ a < st.next, st'.target a = st.target a
  moved : ∀ i < (P.array x).count, st'.target (st.next + (P.array x).size * i) =
    (st.source ((P.array x).elem i)).map (P.rewrite st'.xlat x)

/-- The arrays of `dom` are as in the memory `m` at the start, or have been moved. -/
structure Follows (dom : ι → Prop) (m : ℤ → Option α) (st : Moving α) : Prop where
  kept : ∀ x, dom x → st.xlat (P.array x).base = none →
    ∀ i < (P.array x).count, st.source ((P.array x).elem i) = m ((P.array x).elem i)
  below : ∀ x, dom x → ∀ q, st.xlat (P.array x).base = some q → q + (P.array x).bytes ≤ st.next
  ready : ∀ x, dom x → (st.xlat (P.array x).base).isSome → ∀ p ∈ P.needs x, (st.xlat p).isSome
  moved : ∀ x, dom x → ∀ q, st.xlat (P.array x).base = some q → ∀ i < (P.array x).count,
    st.target (q + (P.array x).size * i) = (m ((P.array x).elem i)).map (P.rewrite st.xlat x)

variable {P} {dom : ι → Prop} {m : ℤ → Option α} {st st' st'' : Moving α} {x y : ι}

theorem Follows.start (hm : st.source = m) (ht : st.xlat = fun _ => none) :
    Follows P dom m st where
  kept _ _ _ _ _ := by rw [hm]
  below _ _ _ h := by simp [ht] at h
  ready _ _ h := by simp [ht] at h
  moved _ _ _ h := by simp [ht] at h

/-- The entries of the table stay. -/
def Extends (st st' : Moving α) : Prop := ∀ p q, st.xlat p = some q → st'.xlat p = some q

theorem Extends.refl : Extends st st := fun _ _ h => h

theorem Extends.trans (h : Extends st st') (h' : Extends st' st'') : Extends st st'' :=
  fun p q hp => h' p q (h p q hp)

theorem Extends.isSome (h : Extends st st') {p : ℤ} (hp : (st.xlat p).isSome) :
    st'.xlat p = st.xlat p := by
  obtain ⟨q, hq⟩ := Option.isSome_iff_exists.mp hp
  rw [hq, h p q hq]

theorem Moves.extends (h : Moves P x st st') : Extends st st' := by
  intro p q hp
  rw [h.xlat, Function.update_of_ne, hp]
  rintro rfl
  rw [h.fresh] at hp
  cases hp

theorem Moves.xlat_base (h : Moves P x st st') : st'.xlat (P.array x).base = some st.next := by
  rw [h.xlat, Function.update_self]

theorem Moves.xlat_of_apart (h : Moves P x st st') (hxy : (P.array x).Apart (P.array y)) :
    st'.xlat (P.array y).base = st.xlat (P.array y).base := by
  rw [h.xlat, Function.update_of_ne hxy.1.symm]

section Operations

variable (st x)

theorem memdup_target {i : ℕ} (hi : i < (P.array x).count) :
    (st.memdup (P.array x).base (P.array x).bytes).target (st.next + (P.array x).size * i) =
      st.source ((P.array x).elem i) := by
  have hspan := ArrayAt.spans_elem (P.size_pos x) hi
  simp only [ArrayAt.Spans, ArrayAt.elem] at hspan
  have hin : st.next ≤ st.next + (P.array x).size * i ∧
      st.next + (P.array x).size * i < st.next + (P.array x).bytes := by
    constructor <;> linarith [hspan.1, hspan.2]
  have hcopy : (st.memdup (P.array x).base (P.array x).bytes).target
      (st.next + (P.array x).size * i) =
      st.source ((P.array x).base + (st.next + (P.array x).size * i - st.next)) := if_pos hin
  rw [hcopy, add_sub_cancel_left, ArrayAt.elem]

/-- An array is copied as it is. -/
theorem moves_memdup (hfresh : st.xlat (P.array x).base = none)
    (hready : ∀ p ∈ P.needs x, (st.xlat p).isSome) (hrewrite : ∀ t, P.rewrite t x = id) :
    Moves P x st (st.memdup (P.array x).base (P.array x).bytes) where
  fresh := hfresh
  ready := hready
  xlat := rfl
  next := by
    have := le_aligned (P.array x).bytes
    simp only [memdup]
    omega
  source _ _ := rfl
  target a ha := if_neg (by omega)
  moved i hi := by rw [memdup_target st x hi, hrewrite, Option.map_id, id]

/-- An array is copied, and its elements are rewritten then. -/
theorem moves_rewriteEach (hfresh : st.xlat (P.array x).base = none)
    (hready : ∀ p ∈ P.needs x, (st.xlat p).isSome) {f : α → α}
    (hf : P.rewrite (Function.update st.xlat (P.array x).base (some st.next)) x = f) :
    Moves P x st ((st.memdup (P.array x).base (P.array x).bytes).rewriteEach st.next
      (P.array x).size f (P.array x).count) where
  fresh := hfresh
  ready := hready
  xlat := rfl
  next := by
    have := le_aligned (P.array x).bytes
    simp only [memdup, rewriteEach]
    omega
  source _ _ := rfl
  target a ha := by
    have hold : (st.memdup (P.array x).base (P.array x).bytes).target a = st.target a :=
      if_neg (by omega)
    exact (updateEach_of_lt ha).trans hold
  moved i hi := by
    have hnew : ((st.memdup (P.array x).base (P.array x).bytes).rewriteEach st.next
        (P.array x).size f (P.array x).count).xlat =
      Function.update st.xlat (P.array x).base (some st.next) := rfl
    rw [hnew, hf, ← memdup_target st x hi]
    exact updateEach_elem (P.size_pos x) hi

end Operations

theorem Moves.efree (h : Moves P x st st') :
    Moves P x st (st'.efree (P.array x).base (P.array x).bytes) where
  fresh := h.fresh
  ready := h.ready
  xlat := h.xlat
  next := h.next
  source a ha := by
    have hkept : (st'.efree (P.array x).base (P.array x).bytes).source a = st'.source a := if_neg ha
    rw [hkept, h.source a ha]
  target := h.target
  moved := h.moved

/-- A move keeps what is known of all other arrays. -/
theorem Follows.move (h : Follows P dom m st) (hx : dom x) (hmove : Moves P x st st')
    (hapart : ∀ y, dom y → y ≠ x → (P.array x).Apart (P.array y)) : Follows P dom m st' where
  kept y hy hfresh i hi := by
    have hne : y ≠ x := by
      rintro rfl
      rw [hmove.xlat_base] at hfresh
      cases hfresh
    rw [hmove.xlat_of_apart (hapart y hy hne)] at hfresh
    rw [hmove.source, h.kept y hy hfresh i hi]
    exact fun hspan => (hapart y hy hne).2 _ ⟨hspan, ArrayAt.spans_elem (P.size_pos y) hi⟩
  below y hy q hq := by
    by_cases hne : y = x
    · subst hne
      obtain rfl := Option.some.inj (hmove.xlat_base.symm.trans hq)
      exact hmove.next
    · rw [hmove.xlat_of_apart (hapart y hy hne)] at hq
      have := h.below y hy q hq
      have := hmove.next
      omega
  ready y hy hsome p hp := by
    have hready : (st.xlat p).isSome := by
      by_cases hne : y = x
      · subst hne
        exact hmove.ready p hp
      · rw [hmove.xlat_of_apart (hapart y hy hne)] at hsome
        exact h.ready y hy hsome p hp
    rwa [hmove.extends.isSome hready]
  moved y hy q hq i hi := by
    by_cases hne : y = x
    · subst hne
      obtain rfl := Option.some.inj (hmove.xlat_base.symm.trans hq)
      rw [hmove.moved i hi, h.kept y hy hmove.fresh i hi]
    · rw [hmove.xlat_of_apart (hapart y hy hne)] at hq
      have hbelow := h.below y hy q hq
      have hspan : q + (P.array y).size * i < st.next := by
        have hle : (((P.array y).size * i + (P.array y).size : ℕ) : ℤ) ≤ (P.array y).bytes :=
          Int.ofNat_le.mpr (ArrayAt.mul_add_le hi)
        have := Int.natCast_pos.mpr (P.size_pos y)
        push_cast at hle
        linarith
      have hsome : (st.xlat (P.array y).base).isSome := by rw [hq]; rfl
      rw [hmove.target _ hspan, h.moved y hy q hq i hi]
      rw [P.rewrite_congr (hmove.extends.isSome hsome)
        fun p hp => hmove.extends.isSome (h.ready y hy hsome p hp)]

end Moving

end ZendOpcache
