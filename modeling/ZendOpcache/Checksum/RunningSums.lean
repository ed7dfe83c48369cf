import Mathlib.Algebra.BigOperators.Group.List.Basic
import Mathlib.Data.Int.ModEq
import Mathlib.Tactic.Linarith
import Mathlib.Tactic.Ring

/-! # Running sums

The sum of a list, and the sum of the sums of its prefixes, over the exact integers. Both
depend on the order of the list only through the weights of its entries, and
both may be taken modulo any number.
-/

namespace ZendOpcache

/-- A sum and the sum of its values so far, after the entries of a list. -/
def runningSums (s : ℤ × ℤ) (xs : List ℤ) : ℤ × ℤ :=
  xs.foldl (fun s x => (s.1 + x, s.2 + (s.1 + x))) s

/-- The sum of the prefix sums: the last entry counts once, the one before it twice. -/
def weightedSum : List ℤ → ℤ
  | [] => 0
  | x :: xs => (xs.length + 1) * x + weightedSum xs

namespace RunningSums

variable {s t : ℤ × ℤ} {xs ys : List ℤ} {x y lo hi n : ℤ}

@[simp] theorem nil (s : ℤ × ℤ) : runningSums s [] = s := rfl

@[simp] theorem cons (s : ℤ × ℤ) (x : ℤ) (xs : List ℤ) :
    runningSums s (x :: xs) = runningSums (s.1 + x, s.2 + (s.1 + x)) xs := rfl

theorem append (s : ℤ × ℤ) (xs ys : List ℤ) :
    runningSums s (xs ++ ys) = runningSums (runningSums s xs) ys :=
  List.foldl_append

theorem fst_eq (s : ℤ × ℤ) (xs : List ℤ) : (runningSums s xs).1 = s.1 + xs.sum := by
  induction xs generalizing s with
  | nil => simp
  | cons x xs ih =>
    rw [cons, ih, List.sum_cons]
    ring

theorem snd_eq (s : ℤ × ℤ) (xs : List ℤ) :
    (runningSums s xs).2 = s.2 + xs.length * s.1 + weightedSum xs := by
  induction xs generalizing s with
  | nil => simp [weightedSum]
  | cons x xs ih =>
    rw [cons, ih, weightedSum, List.length_cons]
    push_cast
    ring

/-- The sums start from residues as well as from the numbers themselves. -/
theorem modEq (h₁ : s.1 ≡ t.1 [ZMOD n]) (h₂ : s.2 ≡ t.2 [ZMOD n]) (xs : List ℤ) :
    (runningSums s xs).1 ≡ (runningSums t xs).1 [ZMOD n] ∧
      (runningSums s xs).2 ≡ (runningSums t xs).2 [ZMOD n] := by
  rw [fst_eq, fst_eq, snd_eq, snd_eq]
  exact ⟨h₁.add_right _, (h₂.add (h₁.mul_left _)).add_right _⟩

theorem sum_bounds (h : ∀ x ∈ xs, lo ≤ x ∧ x ≤ hi) :
    xs.length * lo ≤ xs.sum ∧ xs.sum ≤ xs.length * hi := by
  induction xs with
  | nil => simp
  | cons x xs ih =>
    obtain ⟨hlo, hhi⟩ := ih fun y hy => h y (List.mem_cons_of_mem x hy)
    obtain ⟨hxlo, hxhi⟩ := h x List.mem_cons_self
    rw [List.sum_cons, List.length_cons]
    push_cast
    constructor <;> linarith

/-- Twice the bound, so that it need not be divided. -/
theorem weightedSum_bounds (h : ∀ x ∈ xs, lo ≤ x ∧ x ≤ hi) :
    xs.length * (xs.length + 1) * lo ≤ 2 * weightedSum xs ∧
      2 * weightedSum xs ≤ xs.length * (xs.length + 1) * hi := by
  induction xs with
  | nil => simp [weightedSum]
  | cons x xs ih =>
    obtain ⟨hlo, hhi⟩ := ih fun y hy => h y (List.mem_cons_of_mem x hy)
    obtain ⟨hxlo, hxhi⟩ := h x List.mem_cons_self
    have hpos : (0 : ℤ) ≤ xs.length + 1 := by positivity
    have hxlo' := mul_le_mul_of_nonneg_left hxlo hpos
    have hxhi' := mul_le_mul_of_nonneg_left hxhi hpos
    rw [weightedSum, List.length_cons]
    push_cast
    constructor <;> linarith

theorem weightedSum_append (xs ys : List ℤ) :
    weightedSum (xs ++ ys) = weightedSum xs + ys.length * xs.sum + weightedSum ys := by
  induction xs with
  | nil => simp [weightedSum]
  | cons x xs ih =>
    rw [List.cons_append, weightedSum, ih, weightedSum, List.length_append, List.sum_cons]
    push_cast
    ring

/-- What a changed entry does to the sums, by the number of entries from it on. -/
theorem set_entry (s : ℤ × ℤ) (xs : List ℤ) (x y : ℤ) (ys : List ℤ) :
    (runningSums s (xs ++ y :: ys)).1 = (runningSums s (xs ++ x :: ys)).1 + (y - x) ∧
      (runningSums s (xs ++ y :: ys)).2 =
        (runningSums s (xs ++ x :: ys)).2 + (ys.length + 1) * (y - x) := by
  rw [fst_eq, fst_eq, snd_eq, snd_eq, weightedSum_append, weightedSum_append]
  simp only [List.sum_append, List.sum_cons, List.length_append, List.length_cons, weightedSum]
  push_cast
  constructor <;> ring

end RunningSums

end ZendOpcache
