import Mathlib.Data.Nat.Basic
import Mathlib.Order.Basic

/-! # Neighbours in a class of indices

The members of a class of natural numbers below a bound, linked both ways: each one knows the member
before it and the member after it. Raising the bound by one links at most one new
member, behind the last one, and lowering it unlinks the members above.
-/

namespace ZendOpcache

namespace Neighbours

variable {p q : ℕ → Bool} {i j k m n : ℕ}

/-- The greatest member below `n`. -/
def lastBelow (p : ℕ → Bool) : ℕ → Option ℕ
  | 0 => none
  | n + 1 => if p n then some n else lastBelow p n

/-- The least member above `i` and below `n`. -/
def firstAbove (p : ℕ → Bool) (i : ℕ) : ℕ → Option ℕ
  | 0 => none
  | n + 1 => (firstAbove p i n).or (if i < n ∧ p n then some n else none)

theorem lastBelow_eq_none : lastBelow p n = none ↔ ∀ k < n, p k = false := by
  induction n with
  | zero => simp [lastBelow]
  | succ n ih =>
    rw [lastBelow]
    cases hp : p n with
    | true =>
      simp only [if_true, reduceCtorEq, false_iff]
      intro h
      exact absurd (h n (Nat.lt_succ_self n)) (by simp [hp])
    | false =>
      simp only [Bool.false_eq_true, if_false, ih]
      constructor
      · intro h k hk
        rcases Nat.lt_succ_iff_lt_or_eq.mp hk with hlt | rfl
        · exact h k hlt
        · exact hp
      · exact fun h k hk => h k (Nat.lt_succ_of_lt hk)

theorem lastBelow_eq_some :
    lastBelow p n = some j ↔ j < n ∧ p j = true ∧ ∀ k, j < k → k < n → p k = false := by
  induction n with
  | zero => simp [lastBelow]
  | succ n ih =>
    rw [lastBelow]
    cases hp : p n with
    | true =>
      simp only [if_true, Option.some.injEq]
      constructor
      · rintro rfl
        exact ⟨Nat.lt_succ_self n, hp, fun k hk hk' => absurd hk' (by omega)⟩
      · rintro ⟨hj, hpj, hk⟩
        by_contra hne
        exact absurd (hk n (by omega) (Nat.lt_succ_self n)) (by simp [hp])
    | false =>
      simp only [Bool.false_eq_true, if_false, ih]
      constructor
      · rintro ⟨hj, hpj, h⟩
        refine ⟨Nat.lt_succ_of_lt hj, hpj, fun k hk hk' => ?_⟩
        rcases Nat.lt_succ_iff_lt_or_eq.mp hk' with hlt | rfl
        · exact h k hk hlt
        · exact hp
      · rintro ⟨hj, hpj, h⟩
        refine ⟨?_, hpj, fun k hk hk' => h k hk (Nat.lt_succ_of_lt hk')⟩
        rcases Nat.lt_succ_iff_lt_or_eq.mp hj with hlt | rfl
        · exact hlt
        · exact absurd hpj (by simp [hp])

theorem lastBelow_congr (h : ∀ k < n, p k = q k) : lastBelow p n = lastBelow q n := by
  induction n with
  | zero => rfl
  | succ n ih =>
    rw [lastBelow, lastBelow, h n (Nat.lt_succ_self n),
      ih fun k hk => h k (Nat.lt_succ_of_lt hk)]

theorem firstAbove_congr (h : ∀ k < n, p k = q k) : firstAbove p i n = firstAbove q i n := by
  induction n with
  | zero => rfl
  | succ n ih =>
    rw [firstAbove, firstAbove, h n (Nat.lt_succ_self n),
      ih fun k hk => h k (Nat.lt_succ_of_lt hk)]

theorem firstAbove_eq_none : firstAbove p i n = none ↔ ∀ k, i < k → k < n → p k = false := by
  induction n with
  | zero => simp [firstAbove]
  | succ n ih =>
    rw [firstAbove, Option.or_eq_none_iff, ih]
    constructor
    · rintro ⟨h, hn⟩ k hk hk'
      rcases Nat.lt_succ_iff_lt_or_eq.mp hk' with hlt | rfl
      · exact h k hk hlt
      · by_contra hp
        exact absurd hn (by simp [hk, hp])
    · intro h
      refine ⟨fun k hk hk' => h k hk (Nat.lt_succ_of_lt hk'), ?_⟩
      rw [if_neg]
      rintro ⟨hi, hp⟩
      exact absurd (h n hi (Nat.lt_succ_self n)) (by simp [hp])

theorem lt_of_firstAbove (h : firstAbove p i n = some j) : j < n := by
  induction n with
  | zero => cases h
  | succ n ih =>
    rw [firstAbove, Option.or_eq_some_iff] at h
    rcases h with h | ⟨-, h⟩
    · exact Nat.lt_succ_of_lt (ih h)
    · split_ifs at h
      obtain rfl := Option.some.inj h
      exact Nat.lt_succ_self n

/-- The member without a next one is the last one. -/
theorem firstAbove_eq_none_iff_lastBelow (hi : i < n) (hp : p i = true) :
    firstAbove p i n = none ↔ lastBelow p n = some i := by
  rw [firstAbove_eq_none, lastBelow_eq_some]
  exact ⟨fun h => ⟨hi, hp, h⟩, fun h => h.2.2⟩

/-- Linking a new member changes the link of the one that was last. -/
theorem firstAbove_succ (hi : i < n) (hp : p i = true) :
    firstAbove p i (n + 1) =
      if p n = true ∧ lastBelow p n = some i then some n else firstAbove p i n := by
  rw [firstAbove]
  cases hf : firstAbove p i n with
  | none =>
    have hl := (firstAbove_eq_none_iff_lastBelow hi hp).mp hf
    simp [hi, hl]
  | some j =>
    have hl : lastBelow p n ≠ some i := by
      rw [Ne, ← firstAbove_eq_none_iff_lastBelow hi hp, hf]
      simp
    simp [hl]

/-- Unlinking the members from `m` on resets the link of the one that becomes last. -/
theorem firstAbove_of_le (hm : m ≤ n) (hi : i < m) (hp : p i = true) :
    firstAbove p i m = if lastBelow p m = some i then none else firstAbove p i n := by
  split_ifs with hl
  · exact (firstAbove_eq_none_iff_lastBelow hi hp).mpr hl
  · cases hf : firstAbove p i m with
    | none => exact absurd ((firstAbove_eq_none_iff_lastBelow hi hp).mp hf) hl
    | some j =>
      clear hl
      induction n, hm using Nat.le_induction with
      | base => exact hf.symm
      | succ n hmn ih => rw [firstAbove, ← ih, Option.some_or]

end Neighbours

end ZendOpcache
