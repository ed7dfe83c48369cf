import ZendOpcache.Transition.Trace

/-! # Machines whose silent moves lead elsewhere

One machine is another with some silent moves altered. What it shows is also shown by the other one
exactly if no altered move can be told from what follows. It shows all of that exactly if, besides,
its silent moves do not go on for ever where the other machine shows something.
-/

namespace ZendOpcache

variable {σ ι ω : Type*} {move move' : σ → Move σ ι ω} {s t : σ} {is : List ι} {os : List ω}

/-- Silent moves that go on for ever -/
def Spins (move : σ → Move σ ι ω) (s : σ) : Prop := ∀ n, ∃ s', Silent move n s s'

/-- The same is shown from both states. -/
def SameTraces (move : σ → Move σ ι ω) (s t : σ) : Prop :=
  ∀ is os, Trace move s is os ↔ Trace move t is os

/-- Both machines show the same from every state. -/
def SameRuns (move move' : σ → Move σ ι ω) : Prop :=
  ∀ s is os, Trace move s is os ↔ Trace move' s is os

/-- The machines make the same moves, but for where silent ones lead. -/
def Altered (move move' : σ → Move σ ι ω) : Prop :=
  ∀ s, move' s = move s ∨ ∃ t t', move s = .silent t ∧ move' s = .silent t'

namespace SameTraces

theorem refl (s : σ) : SameTraces move s s := fun _ _ => Iff.rfl

theorem symm (h : SameTraces move s t) : SameTraces move t s := fun is os => (h is os).symm

theorem trans {u : σ} (h : SameTraces move s t) (h' : SameTraces move t u) :
    SameTraces move s u := fun is os => (h is os).trans (h' is os)

end SameTraces

theorem SameRuns.symm (h : SameRuns move move') : SameRuns move' move :=
  fun s is os => (h s is os).symm

theorem SameRuns.trans {move'' : σ → Move σ ι ω} (h : SameRuns move move')
    (h' : SameRuns move' move'') : SameRuns move move'' :=
  fun s is os => (h s is os).trans (h' s is os)

/-- Nothing is lost by a silent move. -/
theorem sameTraces_of_silent (h : move s = .silent t) : SameTraces move s t := by
  intro is os
  constructor
  · intro hs
    cases hs with
    | nil => exact .nil t
    | silent h' hs =>
      obtain rfl := Move.silent.inj (h.symm.trans h')
      exact hs
    | last h' | shows h' => simp [h] at h'
  · exact .silent h

theorem Silent.sameTraces {n : ℕ} (h : Silent move n s t) : SameTraces move s t := by
  induction h with
  | refl s => exact .refl s
  | head hmove _ ih => exact (sameTraces_of_silent hmove).trans ih

/-- As many inputs are read as things are shown. -/
theorem Trace.length_eq (h : Trace move s is os) : is.length = os.length := by
  induction h with
  | nil => rfl
  | silent _ _ ih => exact ih
  | last => rfl
  | shows _ _ _ ih => simp [ih]

/-- Silent moves that do not go on for ever come to a state without one. -/
theorem exists_of_not_spins (h : ¬Spins move s) :
    ∃ n s', Silent move n s s' ∧ ∀ t, move s' ≠ .silent t := by
  unfold Spins at h
  push Not at h
  obtain ⟨n, hn⟩ := h
  induction n generalizing s with
  | zero => exact absurd (.refl s) (hn s)
  | succ n ih =>
    cases hs : move s with
    | silent t =>
      obtain ⟨m, s', hsilent, hend⟩ := ih (s := t) fun s' hs' => hn s' (.head hs hs')
      exact ⟨m + 1, s', .head hs hsilent, hend⟩
    | stuck => exact ⟨0, s, .refl s, by simp [hs]⟩
    | shows o next => exact ⟨0, s, .refl s, by simp [hs]⟩

/-- A machine that spins shows nothing. -/
theorem Spins.trace (h : Spins move s) (hs : Trace move s is os) : os = [] := by
  induction hs with
  | nil => rfl
  | @silent s s' is os hmove _ ih =>
    refine ih fun n => ?_
    obtain ⟨t, ht⟩ := h (n + 1)
    cases ht with
    | head hmove' ht =>
      obtain rfl := Move.silent.inj (hmove.symm.trans hmove')
      exact ⟨t, ht⟩
  | last hmove | shows hmove =>
    obtain ⟨t, ht⟩ := h 1
    cases ht with
    | head hmove' => simp [hmove] at hmove'

section Agree

variable {P : σ → Prop}

theorem trace_of_agree (heq : ∀ s, ¬P s → move' s = move s)
    (hagree : ∀ s, P s → ∀ is os, Trace move s is os → Trace move' s is os)
    (h : Trace move s is os) : Trace move' s is os := by
  induction h with
  | nil s => exact .nil s
  | @silent s _ is os hmove hs ih =>
    by_cases hP : P s
    · exact hagree s hP is os (.silent hmove hs)
    · exact .silent ((heq s hP).trans hmove) ih
  | @last s o next i hmove hi =>
    by_cases hP : P s
    · exact hagree s hP [i] [o] (.last hmove hi)
    · exact .last ((heq s hP).trans hmove) hi
  | @shows s _ o next i is os hmove hi hs ih =>
    by_cases hP : P s
    · exact hagree s hP (i :: is) (o :: os) (.shows hmove hi hs)
    · exact .shows ((heq s hP).trans hmove) hi ih

/-- The machines move alike but in some states, from which both show the same. -/
theorem sameRuns_of_agree (heq : ∀ s, ¬P s → move' s = move s)
    (hagree : ∀ s, P s → ∀ is os, Trace move s is os ↔ Trace move' s is os) :
    SameRuns move move' := by
  intro s is os
  constructor
  · exact trace_of_agree heq fun s hP is os => (hagree s hP is os).mp
  · exact trace_of_agree (fun s hP => (heq s hP).symm) fun s hP is os => (hagree s hP is os).mpr

end Agree

section Altered

variable (halt : Altered move move')
include halt

/-- What the altered machine shows, if no altered move can be told. -/
theorem Altered.trace (hkeep : ∀ s t, move' s = .silent t → SameTraces move s t)
    (h : Trace move' s is os) : Trace move s is os := by
  induction h with
  | nil s => exact .nil s
  | silent hmove _ ih => exact (hkeep _ _ hmove _ _).mpr ih
  | last hmove hi =>
    rcases halt _ with heq | ⟨t, t', -, heq⟩
    · exact .last (heq ▸ hmove) hi
    · simp [heq] at hmove
  | shows hmove hi _ ih =>
    rcases halt _ with heq | ⟨t, t', -, heq⟩
    · exact .shows (heq ▸ hmove) hi ih
    · simp [heq] at hmove

/-- The altered machine shows everything, if besides it does not spin where there is something. -/
theorem Altered.trace_of_not_spins (hkeep : ∀ s t, move' s = .silent t → SameTraces move s t)
    (hspin : ∀ s, Spins move' s → ∀ is os, Trace move s is os → os = []) :
    ∀ is s os, Trace move s is os → Trace move' s is os := by
  intro is
  induction is with
  | nil =>
    intro s os h
    obtain rfl := List.length_eq_zero_iff.mp h.length_eq.symm
    exact .nil s
  | cons i is ih =>
    intro s os h
    -- the silent moves of the altered machine end, in a state with the same traces
    obtain ⟨n, s', hsilent, hend⟩ := exists_of_not_spins fun hs => by
      have := hspin s hs _ _ h
      simp [this] at h
      exact absurd h.length_eq (by simp)
    have hsame : SameTraces move s s' := by
      clear h hend
      induction hsilent with
      | refl s => exact .refl s
      | head hmove _ ih => exact (hkeep _ _ hmove).trans ih
    have hs' := (hsame _ _).mp h
    have heq : move' s' = move s' := by
      rcases halt s' with heq | ⟨t, t', -, heq⟩
      · exact heq
      · exact absurd heq (hend t')
    refine ((hsilent.sameTraces) _ _).mpr ?_
    cases hs' with
    | silent hmove => exact absurd (heq.trans hmove) (hend _)
    | last hmove hi => exact .last (heq.trans hmove) hi
    | shows hmove hi hs'' => exact .shows (heq.trans hmove) hi (ih _ _ hs'')

theorem Altered.sameRuns_iff : SameRuns move' move ↔
    (∀ s t, move' s = .silent t → SameTraces move s t) ∧
      ∀ s, Spins move' s → ∀ is os, Trace move s is os → os = [] := by
  constructor
  · intro h
    constructor
    · intro s t hmove is os
      rw [← h s, ← h t]
      exact sameTraces_of_silent hmove is os
    · intro s hs is os htrace
      exact hs.trace ((h s is os).mpr htrace)
  · rintro ⟨hkeep, hspin⟩ s is os
    exact ⟨halt.trace hkeep, halt.trace_of_not_spins hkeep hspin is s os⟩

end Altered

end ZendOpcache
