import Mathlib.Data.List.Basic
import Mathlib.Order.Basic

/-! # Traces up to silent moves

A machine moves silently, or it shows something and goes on as the next input says. Two machines
have the same traces if they make the same moves, but for silent ones that either may make alone.
-/

namespace ZendOpcache

/-- What a machine does in a state: it stops, moves silently, or shows something. -/
inductive Move (σ ι ω : Type*) where
  | stuck
  | silent (s : σ)
  | shows (o : ω) (next : ι → Option σ)

/-- What is shown for a list of inputs, up to any point of a run. -/
inductive Trace {σ ι ω : Type*} (move : σ → Move σ ι ω) : σ → List ι → List ω → Prop
  | nil (s : σ) : Trace move s [] []
  | silent {s s' : σ} {is : List ι} {os : List ω} (h : move s = .silent s')
      (hs : Trace move s' is os) : Trace move s is os
  | last {s : σ} {o : ω} {next : ι → Option σ} {i : ι} (h : move s = .shows o next)
      (hi : next i = none) : Trace move s [i] [o]
  | shows {s s' : σ} {o : ω} {next : ι → Option σ} {i : ι} {is : List ι} {os : List ω}
      (h : move s = .shows o next) (hi : next i = some s') (hs : Trace move s' is os) :
      Trace move s (i :: is) (o :: os)

variable {σ τ ι ω : Type*} {move : σ → Move σ ι ω} {move' : τ → Move τ ι ω}
  {R : σ → τ → Prop} {s : σ} {t : τ} {is : List ι} {os : List ω}

/-- Moves that agree and lead to related states. -/
inductive Move.Rel (R : σ → τ → Prop) : Move σ ι ω → Move τ ι ω → Prop
  | stuck : Move.Rel R .stuck .stuck
  | silent {s : σ} {t : τ} (h : R s t) : Move.Rel R (.silent s) (.silent t)
  | shows {o : ω} {next : ι → Option σ} {next' : ι → Option τ}
      (h : ∀ i, Option.Rel R (next i) (next' i)) : Move.Rel R (.shows o next) (.shows o next')

/-- Both machines make the same moves, or one of them makes a silent one alone, which brings the
index down. -/
def Matches (move : σ → Move σ ι ω) (move' : τ → Move τ ι ω) (R : ℕ → σ → τ → Prop) : Prop :=
  ∀ n s t, R n s t → Move.Rel (fun s t => ∃ m, R m s t) (move s) (move' t) ∨
    (∃ s' m, move s = .silent s' ∧ R m s' t ∧ m < n) ∨
    ∃ t' m, move' t = .silent t' ∧ R m s t' ∧ m < n

theorem rel_flip {x : Option σ} {y : Option τ} (h : Option.Rel R x y) :
    Option.Rel (fun t s => R s t) y x := by
  cases h with
  | some h => exact .some h
  | none => exact .none

theorem Move.Rel.flip {x : Move σ ι ω} {y : Move τ ι ω} (h : Move.Rel R x y) :
    Move.Rel (fun t s => R s t) y x := by
  cases h with
  | stuck => exact .stuck
  | silent h => exact .silent h
  | shows h => exact .shows fun i => rel_flip (h i)

theorem Move.Rel.mono {R' : σ → τ → Prop} {x : Move σ ι ω} {y : Move τ ι ω} (h : Move.Rel R x y)
    (hR : ∀ s t, R s t → R' s t) : Move.Rel R' x y := by
  cases h with
  | stuck => exact .stuck
  | silent h => exact .silent (hR _ _ h)
  | @shows o next next' h =>
    refine .shows fun i => ?_
    cases hi : next i with
    | none =>
      have h := h i
      rw [hi] at h
      cases hi' : next' i <;> rw [hi'] at h <;> cases h
      exact .none
    | some s =>
      have h := h i
      rw [hi] at h
      cases hi' : next' i <;> rw [hi'] at h <;> cases h
      case some h => exact .some (hR _ _ h)

theorem Move.Rel.refl {R : σ → σ → Prop} (hR : ∀ s, R s s) (x : Move σ ι ω) : Move.Rel R x x := by
  cases x with
  | stuck => exact .stuck
  | silent s => exact .silent (hR s)
  | shows o next =>
    refine .shows fun i => ?_
    cases next i with
    | none => exact .none
    | some s => exact .some (hR s)

theorem rel_some {x : σ} {y : Option τ} (h : Option.Rel R (some x) y) :
    ∃ t, y = some t ∧ R x t := by
  cases h with
  | some h => exact ⟨_, rfl, h⟩

theorem rel_none {y : Option τ} (h : Option.Rel R none y) : y = none := by
  cases h
  rfl

namespace Matches

variable {R : ℕ → σ → τ → Prop} {n : ℕ}

theorem flip (h : Matches move move' R) : Matches move' move fun n t s => R n s t := by
  intro n t s hR
  rcases h n s t hR with hrel | hleft | hright
  · exact .inl hrel.flip
  · exact .inr (.inr hleft)
  · exact .inr (.inl hright)

/-- After the silent moves that the second machine makes alone, both move alike, or the first moves
silently. -/
theorem exists_aligned (h : Matches move move' R) : ∀ (n : ℕ) (t : τ), R n s t →
    ∃ t₀, (Move.Rel (fun s t => ∃ m, R m s t) (move s) (move' t₀) ∨
        ∃ s' m, move s = .silent s' ∧ R m s' t₀) ∧
      ∀ is os, Trace move' t₀ is os → Trace move' t is os := by
  intro n
  induction n using Nat.strongRecOn with
  | ind n ih =>
    intro t hR
    rcases h n s t hR with hrel | ⟨s', m, hmove, hR', -⟩ | ⟨t', m, hmove, hR', hlt⟩
    · exact ⟨t, .inl hrel, fun _ _ ht => ht⟩
    · exact ⟨t, .inr ⟨s', m, hmove, hR'⟩, fun _ _ ht => ht⟩
    · obtain ⟨t₀, halign, htrace⟩ := ih m hlt t' hR'
      exact ⟨t₀, halign, fun is os ht => .silent hmove (htrace is os ht)⟩

theorem trace (h : Matches move move' R) (hs : Trace move s is os) (hR : R n s t) :
    Trace move' t is os := by
  induction hs generalizing n t with
  | nil => exact .nil t
  | @silent s s' is os hmove _ ih =>
    obtain ⟨t₀, halign, htrace⟩ := h.exists_aligned n t hR
    refine htrace _ _ ?_
    rcases halign with hrel | ⟨s'', m, hmove', hR'⟩
    · rw [hmove] at hrel
      cases hrel' : move' t₀ <;> rw [hrel'] at hrel <;> cases hrel
      case silent hR' =>
        obtain ⟨m, hR'⟩ := hR'
        exact .silent hrel' (ih hR')
    · obtain rfl : s' = s'' := by simpa using hmove.symm.trans hmove'
      exact ih hR'
  | @last s o next i hmove hi =>
    obtain ⟨t₀, halign, htrace⟩ := h.exists_aligned n t hR
    refine htrace _ _ ?_
    rcases halign with hrel | ⟨s'', m, hmove', -⟩
    · rw [hmove] at hrel
      cases hrel' : move' t₀ <;> rw [hrel'] at hrel <;> cases hrel
      case shows hnext => exact .last hrel' (rel_none (hi ▸ hnext i))
    · simp [hmove] at hmove'
  | @shows s s' o next i is os hmove hi _ ih =>
    obtain ⟨t₀, halign, htrace⟩ := h.exists_aligned n t hR
    refine htrace _ _ ?_
    rcases halign with hrel | ⟨s'', m, hmove', -⟩
    · rw [hmove] at hrel
      cases hrel' : move' t₀ <;> rw [hrel'] at hrel <;> cases hrel
      case shows hnext =>
        obtain ⟨t', ht', m, hR'⟩ := rel_some (hi ▸ hnext i)
        exact .shows hrel' ht' (ih hR')
    · simp [hmove] at hmove'

/-- The machines have the same traces. -/
theorem trace_iff (h : Matches move move' R) (hR : R n s t) :
    Trace move s is os ↔ Trace move' t is os :=
  ⟨fun hs => h.trace hs hR, fun ht => h.flip.trace ht hR⟩

end Matches

section Converge

/-- A number of silent moves -/
inductive Silent (move : σ → Move σ ι ω) : ℕ → σ → σ → Prop
  | refl (s : σ) : Silent move 0 s s
  | head {s s' s'' : σ} {n : ℕ} (h : move s = .silent s') (hs : Silent move n s' s'') :
      Silent move (n + 1) s s''

theorem Silent.trans {s s' s'' : σ} {m n : ℕ} (h : Silent move m s s')
    (h' : Silent move n s' s'') : Silent move (m + n) s s'' := by
  induction h with
  | refl => simpa using h'
  | head hmove _ ih =>
    rw [Nat.succ_add]
    exact .head hmove (ih h')

theorem Silent.one {s s' : σ} (h : move s = .silent s') : Silent move 1 s s' := .head h (.refl s')

/-- Silent moves lead to related states. -/
def Converge (move : σ → Move σ ι ω) (move' : τ → Move τ ι ω) (R : σ → τ → Prop) (s : σ) (t : τ) :
    Prop :=
  ∃ m n s' t', Silent move m s s' ∧ Silent move' n t t' ∧ R s' t'

/-- After silent moves both machines make the same move, and silent moves lead to related states
again. -/
def Tracks (move : σ → Move σ ι ω) (move' : τ → Move τ ι ω) (R : σ → τ → Prop) : Prop :=
  ∀ s t, R s t → Converge move move'
    (fun s t => Move.Rel (Converge move move' R) (move s) (move' t)) s t

theorem Converge.of_rel (h : R s t) : Converge move move' R s t :=
  ⟨0, 0, s, t, .refl s, .refl t, h⟩

namespace Tracks

theorem matches_converge (h : Tracks move move' R) : Matches move move' fun k s t =>
    ∃ m n s' t', k = m + n ∧ Silent move m s s' ∧ Silent move' n t t' ∧
      Move.Rel (Converge move move' R) (move s') (move' t') := by
  rintro k s t ⟨m, n, s', t', rfl, hs, ht, hrel⟩
  cases hs with
  | @head _ s₁ _ m hmove hs =>
    exact .inr (.inl ⟨s₁, m + n, hmove, ⟨m, n, s', t', rfl, hs, ht, hrel⟩, by omega⟩)
  | refl =>
    cases ht with
    | @head _ t₁ _ n hmove ht =>
      exact .inr (.inr ⟨t₁, n, hmove, ⟨0, n, s, t', by omega, .refl s, ht, hrel⟩, by omega⟩)
    | refl =>
      refine .inl (hrel.mono ?_)
      rintro s t ⟨m, n, s', t', hs, ht, hR⟩
      obtain ⟨m', n', s'', t'', hs', ht', hrel⟩ := h s' t' hR
      exact ⟨_, m + m', n + n', s'', t'', rfl, hs.trans hs', ht.trans ht', hrel⟩

theorem trace_iff (h : Tracks move move' R) (hR : R s t) :
    Trace move s is os ↔ Trace move' t is os := by
  obtain ⟨m, n, s', t', hs, ht, hrel⟩ := h s t hR
  exact h.matches_converge.trace_iff ⟨m, n, s', t', rfl, hs, ht, hrel⟩

end Tracks

/-- A machine shows at most one thing first. -/
theorem Trace.unique {i : ι} {o o' : ω} (h : Trace move s [i] [o]) (h' : Trace move s [i] [o']) :
    o = o' := by
  generalize his : [i] = is at h
  generalize hos : [o] = os at h
  induction h with
  | nil => cases hos
  | silent hmove _ ih =>
    cases h' with
    | silent hmove' h' =>
      have heq := hmove.symm.trans hmove'
      simp only [Move.silent.injEq] at heq
      exact ih (heq ▸ h') his hos
    | last hmove' | shows hmove' => simp [hmove'] at hmove
  | last hmove | shows hmove =>
    obtain ⟨rfl, -⟩ := List.cons.inj hos
    cases h' with
    | silent hmove' => simp [hmove'] at hmove
    | last hmove' | shows hmove' =>
      have heq := hmove.symm.trans hmove'
      simp only [Move.shows.injEq] at heq
      exact heq.1

end Converge

/-- The second machine makes the moves of the first, which may also make a silent one alone that
brings the measure down. -/
def Follows (move : σ → Move σ ι ω) (move' : τ → Move τ ι ω) (μ : σ → ℕ) (R : σ → τ → Prop) :
    Prop :=
  ∀ s t, R s t → Move.Rel R (move s) (move' t) ∨ ∃ s', move s = .silent s' ∧ R s' t ∧ μ s' < μ s

namespace Follows

variable {μ : σ → ℕ}

theorem matches_measure (h : Follows move move' μ R) :
    Matches move move' fun n s t => n = μ s ∧ R s t := by
  rintro n s t ⟨rfl, hR⟩
  rcases h s t hR with hrel | ⟨s', hmove, hR', hlt⟩
  · exact .inl (hrel.mono fun s t hR => ⟨μ s, rfl, hR⟩)
  · exact .inr (.inl ⟨s', μ s', hmove, ⟨rfl, hR'⟩, hlt⟩)

theorem trace_iff (h : Follows move move' μ R) (hR : R s t) :
    Trace move s is os ↔ Trace move' t is os :=
  h.matches_measure.trace_iff ⟨rfl, hR⟩

end Follows

end ZendOpcache
