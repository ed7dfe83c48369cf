import Mathlib.Data.List.Basic
import Mathlib.Data.Option.Basic

/-! # Folds with a log

What the steps of a fold log, in order. Two folds whose steps agree wherever the log has a property
agree on every list whose whole log has it.
-/

namespace ZendOpcache

variable {σ β γ : Type*} {f g : σ → β → Option σ} {log : σ → β → List γ} {P : γ → Prop}

/-- The log of a fold up to a step that fails. -/
def foldLog (f : σ → β → Option σ) (log : σ → β → List γ) : List β → σ → List γ
  | [], _ => []
  | b :: l, s =>
    log s b ++ match f s b with
      | none => []
      | some s => foldLog f log l s

theorem foldlM_eq_of_log (h : ∀ s b, (∀ x ∈ log s b, P x) → f s b = g s b) :
    ∀ (l : List β) (s : σ), (∀ x ∈ foldLog f log l s, P x) → l.foldlM f s = l.foldlM g s := by
  intro l
  induction l with
  | nil => intro s _; rfl
  | cons b l ih =>
    intro s hP
    rw [foldLog] at hP
    have hstep : f s b = g s b := h s b fun x hx => hP x (List.mem_append_left _ hx)
    rw [List.foldlM_cons, List.foldlM_cons, ← hstep]
    cases hs : f s b with
    | none => rfl
    | some s' =>
      apply ih
      intro x hx
      apply hP x
      rw [hs]
      exact List.mem_append_right _ hx

theorem foldl_eq_of_log {f g : σ → β → σ} (h : ∀ s b, (∀ x ∈ log s b, P x) → f s b = g s b) :
    ∀ (l : List β) (s : σ), (∀ x ∈ foldLog (fun s b => some (f s b)) log l s, P x) →
      l.foldl f s = l.foldl g s := by
  intro l
  induction l with
  | nil => intro s _; rfl
  | cons b l ih =>
    intro s hP
    rw [foldLog] at hP
    have hstep : f s b = g s b := h s b fun x hx => hP x (List.mem_append_left _ hx)
    rw [List.foldl_cons, List.foldl_cons, ← hstep]
    apply ih
    intro x hx
    exact hP x (List.mem_append_right _ hx)

end ZendOpcache
