import Mathlib.Data.Finset.Card
import Mathlib.Logic.Relation
import Mathlib.Tactic.Common

/-! # Chains of a partial step

A partial step leads from a state along a chain. Where only finitely many states on it go on, the
chain ends exactly if it does not come to a cycle. A walk along a chain may record something at
each step.
-/

namespace ZendOpcache

namespace Chain

variable {α : Type*} (next : α → Option α)

def Leads (x y : α) : Prop := next x = some y

/-- The chain of `x` comes to a state that leads back to itself. -/
def Cycles (x : α) : Prop :=
  ∃ y, Relation.ReflTransGen (Leads next) x y ∧ Relation.TransGen (Leads next) y y

/-- The state after a number of steps, if the chain is that long -/
def after : ℕ → α → Option α
  | 0, x => some x
  | n + 1, x => (next x).bind (after n)

variable {next} {x y : α}

theorem Cycles.step (h : Cycles next x) : ∃ y, next x = some y ∧ Cycles next y := by
  obtain ⟨z, hreach, hcycle⟩ := h
  rcases hreach.cases_head with rfl | ⟨y, hxy, hyz⟩
  · obtain ⟨y, hxy, hyx⟩ := Relation.TransGen.head'_iff.mp hcycle
    exact ⟨y, hxy, x, hyx, hcycle⟩
  · exact ⟨y, hxy, z, hyz, hcycle⟩

theorem Cycles.of_step (hxy : next x = some y) (h : Cycles next y) : Cycles next x := by
  obtain ⟨z, hreach, hcycle⟩ := h
  exact ⟨z, .head hxy hreach, hcycle⟩

/-- A chain that comes to a cycle goes on for ever. -/
theorem Cycles.after_ne_none (h : Cycles next x) (n : ℕ) : after next n x ≠ none := by
  induction n generalizing x with
  | zero => simp [after]
  | succ n ih =>
    obtain ⟨y, hxy, hy⟩ := h.step
    rw [after, hxy, Option.bind_some]
    exact ih hy

/-- A chain without a cycle has no more steps than there are states that go on. -/
theorem after_eq_none_of_not_cycles [DecidableEq α] {S : Finset α}
    (hS : ∀ y z, Relation.ReflTransGen (Leads next) x y → next y = some z → y ∈ S)
    (h : ¬Cycles next x) : after next (S.card + 1) x = none := by
  induction hn : S.card generalizing x S with
  | zero =>
    cases hx : next x with
    | none => rw [after, hx, Option.bind_none]
    | some y =>
      have hmem := hS x y .refl hx
      simp [Finset.card_eq_zero.mp hn] at hmem
  | succ n ih =>
    cases hx : next x with
    | none => rw [after, hx, Option.bind_none]
    | some y =>
      have hmem := hS x y .refl hx
      rw [after, hx, Option.bind_some]
      refine ih (S := S.erase x) (fun z w hz hw => ?_) (fun hy => h (.of_step hx hy)) ?_
      · -- the chain does not come back to `x`
        refine Finset.mem_erase.mpr ⟨?_, hS z w (.head hx hz) hw⟩
        rintro rfl
        exact h ⟨z, .refl, .head' hx hz⟩
      · rw [Finset.card_erase_of_mem hmem, hn, Nat.add_sub_cancel]

section Walks

variable {β : Type*}

/-- A walk with what is recorded on it -/
inductive Walks (next : α → Option (β × α)) : α → List β → α → Prop
  | nil (x : α) : Walks next x [] x
  | cons {x y z : α} {v : β} {vs : List β} (h : next x = some (v, y)) (hs : Walks next y vs z) :
      Walks next x (v :: vs) z

variable {next : α → Option (β × α)} {x y z : α} {v : β} {vs ws : List β}

theorem Walks.snoc (h : Walks next x vs y) (hy : next y = some (v, z)) :
    Walks next x (vs ++ [v]) z := by
  induction h with
  | nil x => exact .cons hy (.nil z)
  | cons hx _ ih => exact .cons hx (ih hy)

/-- A walk to where the chain ends goes through every other walk from the same state. -/
theorem Walks.prefix (h : Walks next x vs y) (h' : Walks next x ws z) (hz : next z = none) :
    ∃ us, ws = vs ++ us ∧ Walks next y us z := by
  induction h generalizing ws with
  | nil x => exact ⟨ws, rfl, h'⟩
  | cons hx _ ih =>
    cases h' with
    | nil => simp [hz] at hx
    | cons hx' h' =>
      obtain ⟨rfl, rfl⟩ := Prod.mk.inj (Option.some.inj (hx.symm.trans hx'))
      obtain ⟨us, rfl, hus⟩ := ih h'
      exact ⟨us, rfl, hus⟩

theorem Walks.end_unique (h : Walks next x vs y) (hy : next y = none) (h' : Walks next x ws z)
    (hz : next z = none) : y = z := by
  obtain ⟨us, -, hus⟩ := h.prefix h' hz
  cases hus with
  | nil => rfl
  | cons hy' => simp [hy] at hy'

/-- A chain that records something twice does not end with all records distinct. -/
theorem Walks.not_nodup (h : Walks next x vs y) (hy : next y = some (v, z)) (hv : v ∈ vs) {u : α}
    (h' : Walks next x ws u) (hu : next u = none) : ¬ws.Nodup := by
  obtain ⟨us, rfl, hus⟩ := h.prefix h' hu
  cases hus with
  | nil => simp [hu] at hy
  | cons hy' =>
    obtain ⟨rfl, rfl⟩ := Prod.mk.inj (Option.some.inj (hy.symm.trans hy'))
    intro hnodup
    exact (List.nodup_append.mp hnodup).2.2 v hv v List.mem_cons_self rfl

end Walks

end Chain

end ZendOpcache
