import Mathlib.Data.Fintype.Basic
import Mathlib.Logic.Function.Basic
import ZendOpcache.Transition.Run

/-! # Interleavings of processes

Processes with a local state each and one shared state. An atomic step of a process
is a partial function of its own state, the shared state and the question whether
some other process is in a given condition, which is what a lock operation learns.
-/

namespace ZendOpcache

/-- The local states of all processes and the state they share. -/
structure Procs (π σ γ : Type*) where
  proc : π → σ
  shared : γ

namespace Procs

variable {π σ γ α : Type*} [Fintype π] [DecidableEq π]

/-- Some other process is in the condition. -/
def others (s : Procs π σ γ) (p : π) (c : σ → Bool) : Bool :=
  decide (∃ q, q ≠ p ∧ c (s.proc q) = true)

/-- One atomic step of one process. -/
def step (act : ((σ → Bool) → Bool) → γ → σ → α → Option (σ × γ)) (s : Procs π σ γ)
    (x : π × α) : Option (Procs π σ γ) :=
  (act (s.others x.1) s.shared (s.proc x.1) x.2).map fun (l, g) =>
    ⟨Function.update s.proc x.1 l, g⟩

variable {act : ((σ → Bool) → Bool) → γ → σ → α → Option (σ × γ)} {s t : Procs π σ γ} {p q : π}
  {c : σ → Bool} {a : α}

theorem others_eq_false : s.others p c = false ↔ ∀ q, q ≠ p → c (s.proc q) = false := by
  simp [others]

/-- A step changes the local state of its process and the shared state. -/
theorem step_cases (h : s.step act (p, a) = some t) :
    act (s.others p) s.shared (s.proc p) a = some (t.proc p, t.shared) ∧
      ∀ q, q ≠ p → t.proc q = s.proc q := by
  obtain ⟨⟨l, g⟩, hact, rfl⟩ := Option.map_eq_some_iff.mp h
  refine ⟨by simpa using hact, fun q hq => ?_⟩
  exact Function.update_of_ne hq l s.proc

omit [Fintype π] in
/-- The rule for an invariant of every process with the shared state: the moving process gets it,
and its step does not disturb the others. -/
theorem forall_step {I : γ → σ → Prop} (hs : ∀ q, I s.shared (s.proc q))
    (hp : I t.shared (t.proc p)) (hq : ∀ q, q ≠ p → I s.shared (s.proc q) → I t.shared (s.proc q))
    (ho : ∀ q, q ≠ p → t.proc q = s.proc q) (q : π) : I t.shared (t.proc q) := by
  by_cases hqp : q = p
  · rw [hqp]
    exact hp
  · rw [ho q hqp]
    exact hq q hqp (hs q)

omit [Fintype π] in
/-- The rule for an invariant of every two processes. -/
theorem pairwise_step {R : σ → σ → Prop} (hs : ∀ q r, q ≠ r → R (s.proc q) (s.proc r))
    (hp : ∀ q, q ≠ p → R (t.proc p) (s.proc q) ∧ R (s.proc q) (t.proc p))
    (ho : ∀ q, q ≠ p → t.proc q = s.proc q) {q r : π} (hqr : q ≠ r) :
    R (t.proc q) (t.proc r) := by
  by_cases hq : q = p
  · subst hq
    rw [ho r hqr.symm]
    exact (hp r hqr.symm).1
  · by_cases hr : r = p
    · subst hr
      rw [ho q hqr]
      exact (hp q hqr).2
    · rw [ho q hq, ho r hr]
      exact hs q r hqr

end Procs

end ZendOpcache
