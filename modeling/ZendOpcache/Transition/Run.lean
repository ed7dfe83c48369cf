import Mathlib.Data.List.Basic
import Mathlib.Tactic.SplitIfs

/-! # Guarded runs of a labelled transition system

A run is a sequence of labelled steps. A guard restricts the label that may be
taken in a state. A predicate that holds initially and is kept by every guarded
step holds in every state a guarded run reaches.
-/

namespace ZendOpcache

variable {σ τ α : Type*}

/-- The states reached from `s` by a word of steps that all meet the guard. -/
inductive GuardedRun (step : σ → α → σ → Prop) (guard : σ → α → Prop) (s : σ) :
    List α → σ → Prop where
  | nil : GuardedRun step guard s [] s
  | snoc {w : List α} {t u : σ} {a : α} : GuardedRun step guard s w t → guard t a →
      step t a u → GuardedRun step guard s (w ++ [a]) u

/-- A run without a guard. -/
abbrev Run (step : σ → α → σ → Prop) : σ → List α → σ → Prop :=
  GuardedRun step fun _ _ => True

namespace GuardedRun

variable {step : σ → α → σ → Prop} {guard : σ → α → Prop} {s t u : σ} {v w : List α}

theorem single {a : α} (hg : guard s a) (hs : step s a t) : GuardedRun step guard s [a] t :=
  snoc (w := []) nil hg hs

theorem append (h : GuardedRun step guard s v t) (h' : GuardedRun step guard t w u) :
    GuardedRun step guard s (v ++ w) u := by
  induction h' with
  | nil => simpa using h
  | snoc _ hg hs ih => rw [← List.append_assoc]; exact ih.snoc hg hs

theorem cons {a : α} (hg : guard s a) (hs : step s a t) (h : GuardedRun step guard t w u) :
    GuardedRun step guard s (a :: w) u :=
  (single hg hs).append h

/-- The invariant rule. -/
theorem invariant {Inv : σ → Prop} (hi : Inv s)
    (hp : ∀ {t a u}, Inv t → guard t a → step t a u → Inv u)
    (h : GuardedRun step guard s w t) : Inv t := by
  induction h with
  | nil => exact hi
  | snoc _ hg hs ih => exact hp ih hg hs

/-- A run of a partial step function under a decidable guard, evaluated. -/
theorem of_foldlM_guard {f : σ → α → Option σ} [∀ s a, Decidable (guard s a)]
    (h : w.foldlM (fun s a => if guard s a then f s a else none) s = some t) :
    GuardedRun (fun s a t => f s a = some t) guard s w t := by
  induction w generalizing s with
  | nil =>
    obtain rfl : s = t := Option.some.inj h
    exact nil
  | cons a w ih =>
    rw [List.foldlM_cons] at h
    obtain ⟨u, hu, h⟩ := Option.bind_eq_some_iff.mp h
    split_ifs at hu with hg
    exact cons hg hu (ih h)

/-- A run of a partial step function, evaluated. -/
theorem of_foldlM {f : σ → α → Option σ} (h : w.foldlM f s = some t) :
    Run (fun s a t => f s a = some t) s w t :=
  of_foldlM_guard (by simpa using h)

end GuardedRun

/-! ### What the steps of a run add up to -/

section Sum

variable {f : σ → α → Option σ} {cost : σ → α → ℕ} {s t : σ} {v w : List α}

/-- The costs of the steps that a word takes, each in the state before it -/
def runSum (f : σ → α → Option σ) (cost : σ → α → ℕ) : σ → List α → ℕ
  | _, [] => 0
  | s, a :: w => cost s a + (f s a).elim 0 fun t => runSum f cost t w

theorem runSum_append (h : v.foldlM f s = some t) :
    runSum f cost s (v ++ w) = runSum f cost s v + runSum f cost t w := by
  induction v generalizing s with
  | nil =>
    obtain rfl : s = t := Option.some.inj h
    exact (Nat.zero_add _).symm
  | cons a v ih =>
    rw [List.foldlM_cons] at h
    obtain ⟨u, hu, h⟩ := Option.bind_eq_some_iff.mp h
    simp only [List.cons_append, runSum, hu, Option.elim_some, ih h, Nat.add_assoc]

theorem GuardedRun.foldlM_eq (h : Run (fun s a t => f s a = some t) s w t) :
    w.foldlM f s = some t := by
  induction h with
  | nil => rfl
  | snoc _ _ hs ih => rw [List.foldlM_append, ih]; simpa using hs

/-- One step more adds its cost. -/
theorem runSum_snoc {a : α} (h : Run (fun s a t => f s a = some t) s w t) :
    runSum f cost s (w ++ [a]) = runSum f cost s w + cost t a := by
  have hlast : runSum f cost t [a] = cost t a := by
    rw [runSum]
    cases f t a <;> rfl
  rw [runSum_append h.foldlM_eq, hlast]

end Sum

end ZendOpcache
