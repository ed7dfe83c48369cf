import ZendOpcache.Checksum.RunningSums

/-! # Running sums that are reduced now and then

A list is added up run by run, and the sums are reduced modulo `m` after each run. A sum
that is below zero by then comes out as `r` more, as when it is kept in a word whose size is `r`
modulo `m`. How often that happens tells the residues at the end from those of the exact sums.
-/

namespace ZendOpcache

/-- One if a sum is below zero. -/
def borrow (n : ℤ) : ℤ := if n < 0 then 1 else 0

/-- The residues after one run. -/
def reduceRun (m r : ℤ) (s : ℤ × ℤ) (c : List ℤ) : ℤ × ℤ :=
  let t := runningSums s c
  ((t.1 + r * borrow t.1) % m, (t.2 + r * borrow t.2) % m)

/-- The residues after some runs. -/
def reduceRuns (m r : ℤ) (s : ℤ × ℤ) (cs : List (List ℤ)) : ℤ × ℤ := cs.foldl (reduceRun m r) s

/-- How often the sums are below zero at the end of a run. For the second sum, that the first one is
counts once more for each entry still to come. -/
def borrows (m r : ℤ) : ℤ × ℤ → List (List ℤ) → ℤ × ℤ
  | _, [] => (0, 0)
  | s, c :: cs =>
    let t := runningSums s c
    let b := borrows m r (reduceRun m r s c) cs
    (borrow t.1 + b.1, borrow t.2 + cs.flatten.length * borrow t.1 + b.2)

namespace RunningSums

variable {m r : ℤ} {s : ℤ × ℤ} {c : List ℤ} {cs : List (List ℤ)} {n : ℤ}

theorem borrow_of_nonneg (h : 0 ≤ n) : borrow n = 0 := if_neg (by omega)

theorem borrow_nonneg (n : ℤ) : 0 ≤ borrow n := by
  unfold borrow
  split_ifs <;> decide

theorem borrow_le_one (n : ℤ) : borrow n ≤ 1 := by
  unfold borrow
  split_ifs <;> decide

/-- The residues are those of the exact sums, but for what the borrows add. -/
theorem reduceRuns_modEq (s : ℤ × ℤ) (cs : List (List ℤ)) :
    (reduceRuns m r s cs).1 ≡
        (runningSums s cs.flatten).1 + r * (borrows m r s cs).1 [ZMOD m] ∧
      (reduceRuns m r s cs).2 ≡
        (runningSums s cs.flatten).2 + r * (borrows m r s cs).2 [ZMOD m] := by
  induction cs generalizing s with
  | nil => simp [reduceRuns, borrows]
  | cons c cs ih =>
    obtain ⟨ih₁, ih₂⟩ := ih (reduceRun m r s c)
    have ht₁ : (reduceRun m r s c).1 ≡
        (runningSums s c).1 + r * borrow (runningSums s c).1 [ZMOD m] := Int.mod_modEq _ _
    have ht₂ : (reduceRun m r s c).2 ≡
        (runningSums s c).2 + r * borrow (runningSums s c).2 [ZMOD m] := Int.mod_modEq _ _
    set t := runningSums s c with ht
    set u := reduceRun m r s c with hu
    set b := borrows m r u cs with hb
    have hruns : reduceRuns m r s (c :: cs) = reduceRuns m r u cs := rfl
    have hborrows : borrows m r s (c :: cs) =
        (borrow t.1 + b.1, borrow t.2 + cs.flatten.length * borrow t.1 + b.2) := rfl
    rw [List.flatten_cons, append, ← ht, hruns, hborrows, fst_eq t, snd_eq t]
    rw [fst_eq u] at ih₁
    rw [snd_eq u] at ih₂
    constructor
    · calc (reduceRuns m r u cs).1
          ≡ u.1 + cs.flatten.sum + r * b.1 [ZMOD m] := ih₁
        _ ≡ t.1 + r * borrow t.1 + cs.flatten.sum + r * b.1 [ZMOD m] :=
            (ht₁.add_right _).add_right _
        _ = t.1 + cs.flatten.sum + r * (borrow t.1 + b.1) := by ring
    · calc (reduceRuns m r u cs).2
          ≡ u.2 + cs.flatten.length * u.1 + weightedSum cs.flatten + r * b.2 [ZMOD m] := ih₂
        _ ≡ t.2 + r * borrow t.2 + cs.flatten.length * (t.1 + r * borrow t.1) +
              weightedSum cs.flatten + r * b.2 [ZMOD m] :=
            ((ht₂.add (ht₁.mul_left _)).add_right _).add_right _
        _ = t.2 + cs.flatten.length * t.1 + weightedSum cs.flatten +
              r * (borrow t.2 + cs.flatten.length * borrow t.1 + b.2) := by ring

theorem reduceRun_nonneg (hm : 0 < m) (s : ℤ × ℤ) (c : List ℤ) :
    0 ≤ (reduceRun m r s c).1 ∧ 0 ≤ (reduceRun m r s c).2 :=
  ⟨Int.emod_nonneg _ hm.ne', Int.emod_nonneg _ hm.ne'⟩

theorem nonneg (h₁ : 0 ≤ s.1) (h₂ : 0 ≤ s.2) (hc : ∀ x ∈ c, 0 ≤ x) :
    0 ≤ (runningSums s c).1 ∧ 0 ≤ (runningSums s c).2 := by
  induction c generalizing s with
  | nil => exact ⟨h₁, h₂⟩
  | cons x c ih =>
    have hx := hc x List.mem_cons_self
    exact ih (add_nonneg h₁ hx) (add_nonneg h₂ (add_nonneg h₁ hx))
      fun y hy => hc y (List.mem_cons_of_mem x hy)

/-- Entries that are not negative never make a borrow. -/
theorem borrows_of_nonneg (hm : 0 < m) (h₁ : 0 ≤ s.1) (h₂ : 0 ≤ s.2)
    (hcs : ∀ x ∈ cs.flatten, 0 ≤ x) : borrows m r s cs = (0, 0) := by
  induction cs generalizing s with
  | nil => rfl
  | cons c cs ih =>
    have hc := nonneg h₁ h₂ fun x hx => hcs x (List.mem_append_left _ hx)
    obtain ⟨hr₁, hr₂⟩ := reduceRun_nonneg (r := r) hm s c
    rw [borrows, ih hr₁ hr₂ fun x hx => hcs x (List.mem_append_right _ hx),
      borrow_of_nonneg hc.1, borrow_of_nonneg hc.2]
    simp

/-- There is one borrow at most as long as no entry but the last is negative. -/
theorem borrows_fst_of_dropLast (hm : 0 < m) (h₁ : 0 ≤ s.1) (h₂ : 0 ≤ s.2)
    (hcs : ∀ x ∈ cs.flatten.dropLast, 0 ≤ x) :
    0 ≤ (borrows m r s cs).1 ∧ (borrows m r s cs).1 ≤ 1 := by
  induction cs generalizing s with
  | nil => simp [borrows]
  | cons c cs ih =>
    obtain ⟨hr₁, hr₂⟩ := reduceRun_nonneg (r := r) hm s c
    rw [borrows]
    by_cases hrest : cs.flatten = []
    · rw [borrows_of_nonneg hm hr₁ hr₂ (by simp [hrest])]
      simpa using ⟨borrow_nonneg _, borrow_le_one _⟩
    · rw [List.flatten_cons, List.dropLast_append_of_ne_nil hrest] at hcs
      have hc := nonneg h₁ h₂ fun x hx => hcs x (List.mem_append_left _ hx)
      rw [borrow_of_nonneg hc.1]
      simpa using ih hr₁ hr₂ fun x hx => hcs x (List.mem_append_right _ hx)

end RunningSums

end ZendOpcache
