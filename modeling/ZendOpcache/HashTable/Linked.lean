import Mathlib.Data.List.Basic
import Mathlib.Logic.Function.Basic
import Mathlib.Tactic.Common

/-! # Doubly linked lists

The nodes of a doubly linked list in order, given the two pointers of each node. A node is found
from its neighbours only, so a list may be moved node by node.
-/

namespace ZendOpcache

variable {α β : Type*}

/-- The nodes are linked in this order, and the first of them points back to `p`. -/
def Linked (next last : α → Option α) : Option α → List α → Prop
  | _, [] => True
  | p, a :: as => last a = p ∧ next a = as.head? ∧ Linked next last (some a) as

namespace Linked

variable {next last next' last' : α → Option α} {p q : Option α} {a b : α} {as : List α}

@[simp] theorem nil : Linked next last p [] := trivial

/-- The nodes point to one another and to the node before the list. -/
theorem next_eq (h : Linked next last p as) (ha : a ∈ as) (hb : next a = some b) :
    b ∈ as ∧ last b = some a := by
  induction as generalizing p with
  | nil => cases ha
  | cons c cs ih =>
    obtain ⟨-, hnext, hcs⟩ := h
    rcases List.mem_cons.mp ha with rfl | ha
    · cases cs with
      | nil => simp [hb] at hnext
      | cons d ds =>
        obtain rfl : b = d := by simpa [hb] using hnext
        exact ⟨by simp, hcs.1⟩
    · obtain ⟨hmem, hlast⟩ := ih hcs ha
      exact ⟨List.mem_cons_of_mem _ hmem, hlast⟩

theorem last_eq (h : Linked next last p as) (ha : a ∈ as) (hb : last a = some b) :
    (b ∈ as ∧ next b = some a) ∨ (p = some b ∧ as.head? = some a) := by
  induction as generalizing p with
  | nil => cases ha
  | cons c cs ih =>
    obtain ⟨hlast, hnext, hcs⟩ := h
    rcases List.mem_cons.mp ha with rfl | ha
    · exact .inr ⟨hlast.symm.trans hb, rfl⟩
    · left
      rcases ih hcs ha with ⟨hmem, heq⟩ | ⟨heq, hhead⟩
      · exact ⟨List.mem_cons_of_mem _ hmem, heq⟩
      · obtain rfl : c = b := Option.some.inj heq
        exact ⟨by simp, hnext.trans hhead⟩

/-- The links of a list that nothing points back from. -/
theorem last_eq_none (h : Linked next last none as) (ha : a ∈ as) (hb : last a = some b) :
    b ∈ as ∧ next b = some a :=
  (h.last_eq ha hb).resolve_right fun hnone => by simp at hnone

theorem congr (h : Linked next last p as) (hnext : ∀ a ∈ as, next' a = next a)
    (hlast : ∀ a ∈ as, last' a = last a) : Linked next' last' p as := by
  induction as generalizing p with
  | nil => exact nil
  | cons a as ih =>
    obtain ⟨h₁, h₂, h₃⟩ := h
    exact ⟨(hlast a (by simp)).trans h₁, (hnext a (by simp)).trans h₂,
      ih h₃ (fun b hb => hnext b (by simp [hb])) fun b hb => hlast b (by simp [hb])⟩

/-- The pointer of the first node to what is before it may be changed. -/
theorem before (h : Linked next last p (a :: as)) (hnext : ∀ b ∈ a :: as, next' b = next b)
    (hlast : ∀ b ∈ as, last' b = last b) (hq : last' a = q) : Linked next' last' q (a :: as) := by
  obtain ⟨-, h₂, h₃⟩ := h
  exact ⟨hq, (hnext a (by simp)).trans h₂, h₃.congr (fun b hb => hnext b (by simp [hb])) hlast⟩

/-- A node is put before the others. -/
theorem cons [DecidableEq α] (h : Linked next last none as) (hnodup : as.Nodup)
    (hnext : ∀ b ∈ as, next' b = next b)
    (hlast : ∀ b ∈ as, last' b = if as.head? = some b then some a else last b)
    (hna : next' a = as.head?) (hla : last' a = p) : Linked next' last' p (a :: as) := by
  refine ⟨hla, hna, ?_⟩
  cases as with
  | nil => exact nil
  | cons b bs =>
    have hb := (List.nodup_cons.mp hnodup).1
    refine h.before hnext (fun c hc => ?_) (by simpa using hlast b (by simp))
    rw [hlast c (by simp [hc]), if_neg]
    rintro hbc
    obtain rfl : b = c := by simpa using hbc
    exact hb hc

/-- A node is put after the others. -/
theorem concat [DecidableEq α] (h : Linked next last p as) (hnodup : as.Nodup)
    (hnext : ∀ b ∈ as, next' b = if as.getLast? = some b then some a else next b)
    (hlast : ∀ b ∈ as, last' b = last b) (hna : next' a = none)
    (hla : last' a = as.getLast?.or p) : Linked next' last' p (as ++ [a]) := by
  induction as generalizing p with
  | nil => exact ⟨by simpa using hla, by simpa using hna, nil⟩
  | cons b bs ih =>
    obtain ⟨h₁, h₂, h₃⟩ := h
    obtain ⟨hb, hbs⟩ := List.nodup_cons.mp hnodup
    refine ⟨(hlast b (by simp)).trans h₁, ?_, ih h₃ hbs
      (fun c hc => ?_) (fun c hc => hlast c (by simp [hc])) ?_⟩
    · rw [hnext b (by simp)]
      cases bs with
      | nil => simp
      | cons c cs =>
        rw [if_neg, h₂]
        · simp
        · intro heq
          rw [List.getLast?_cons_cons] at heq
          exact hb (List.mem_of_getLast? heq)
    · rw [hnext c (by simp [hc])]
      cases bs with
      | nil => cases hc
      | cons d ds => rw [List.getLast?_cons_cons]
    · rw [hla]
      cases bs with
      | nil => simp
      | cons d ds =>
        rw [List.getLast?_cons_cons]
        simp [List.getLast?_eq_some_getLast]

/-- The nodes are moved, and their pointers with them. -/
theorem map {next' last' : β → Option β} {f : α → β} (h : Linked next last p as)
    (hnext : ∀ a ∈ as, next' (f a) = (next a).map f)
    (hlast : ∀ a ∈ as, last' (f a) = (last a).map f) : Linked next' last' (p.map f) (as.map f) := by
  induction as generalizing p with
  | nil => exact nil
  | cons a as ih =>
    obtain ⟨h₁, h₂, h₃⟩ := h
    refine ⟨by rw [hlast a (by simp), h₁], by rw [hnext a (by simp), h₂, List.head?_map], ?_⟩
    exact ih h₃ (fun b hb => hnext b (by simp [hb])) fun b hb => hlast b (by simp [hb])

/-- No node of a list without repetitions points to itself. -/
theorem next_ne (h : Linked next last p as) (hnodup : as.Nodup) (ha : a ∈ as) :
    next a ≠ some a := by
  induction as generalizing p with
  | nil => cases ha
  | cons c cs ih =>
    obtain ⟨-, hnext, hcs⟩ := h
    obtain ⟨hc, hcs'⟩ := List.nodup_cons.mp hnodup
    rcases List.mem_cons.mp ha with rfl | ha
    · rw [hnext]
      exact fun heq => hc (List.mem_of_mem_head? heq)
    · exact ih hcs hcs' ha

end Linked

end ZendOpcache
