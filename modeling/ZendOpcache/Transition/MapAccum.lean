import Mathlib.Data.List.Basic
import Mathlib.Data.List.Forall2
import Mathlib.Data.Nat.Basic
import Mathlib.Order.Basic

/-! # Maps with a state that may fail

A function is applied to the elements of a list in order, with a state that goes from one to the
next. What every step does to the state, by a relation that composes, the whole map does.
-/

namespace ZendOpcache

variable {σ α β ε : Type*}

def mapAccum (f : σ → α → Except ε (σ × β)) : List α → σ → Except ε (σ × List β)
  | [], s => .ok (s, [])
  | a :: l, s => do
    let (s, b) ← f s a
    let (s, bs) ← mapAccum f l s
    .ok (s, b :: bs)

variable {f : σ → α → Except ε (σ × β)} {l : List α} {s s' : σ} {a : α} {bs : List β}

theorem mapAccum_cons_ok : mapAccum f (a :: l) s = .ok (s', bs) ↔
    ∃ t b bs', f s a = .ok (t, b) ∧ mapAccum f l t = .ok (s', bs') ∧ bs = b :: bs' := by
  constructor
  · intro h
    cases hf : f s a with
    | error e => simp [mapAccum, hf, bind, Except.bind] at h
    | ok x =>
      obtain ⟨t, b⟩ := x
      cases hl : mapAccum f l t with
      | error e => simp [mapAccum, hf, hl, bind, Except.bind] at h
      | ok y =>
        obtain ⟨u, bs'⟩ := y
        simp only [mapAccum, hf, hl, bind, Except.bind, Except.ok.injEq, Prod.mk.injEq] at h
        obtain ⟨rfl, rfl⟩ := h
        exact ⟨t, b, bs', rfl, hl, rfl⟩
  · rintro ⟨t, b, bs', hf, hl, rfl⟩
    simp [mapAccum, hf, hl, bind, Except.bind]

/-- What the steps of a run do to the states that satisfy an invariant, where a step may only take
the keys of a set, which are free before it -/
structure EffectRel {κ : Type*} (I : σ → Prop) (Free : σ → κ → Prop)
    (R : σ → (κ → Prop) → σ → Prop) : Prop where
  refl : ∀ {s}, I s → R s (fun _ => False) s
  inv : ∀ {s A t}, I s → R s A t → I t
  trans : ∀ {s A t B u}, I s → R s A t → R t B u → R s (fun k => A k ∨ B k) u
  mono : ∀ {s A B t}, R s A t → (∀ k, A k → B k) → R s B t
  free : ∀ {s A t k}, R s A t → ¬ A k → Free s k → Free t k

/-- The rule of a map whose steps take different keys: every step succeeds, after the results for
the elements before, and gives a result with a property that later steps keep. -/
theorem mapAccum_effect {κ : Type*} {I : σ → Prop} {Free : σ → κ → Prop}
    {R : σ → (κ → Prop) → σ → Prop} {Q : σ → α → β → Prop} {e : α → κ → Prop}
    (hR : EffectRel I Free R) (hkeep : ∀ {s A t a b}, I s → R s A t → Q s a b → Q t a b) :
    ∀ (l pre : List α) (s : σ), I s → (∀ x ∈ pre, ∃ b, Q s x b) →
      l.Pairwise (fun a a' => ∀ k, e a k → ¬ e a' k) → (∀ a ∈ l, ∀ k, e a k → Free s k) →
      (∀ l₁ a l₂, l = l₁ ++ a :: l₂ → ∀ A t, I t → R s A t → (∀ x ∈ pre ++ l₁, ∃ b, Q t x b) →
        (∀ k, e a k → Free t k) → ∃ u b, f t a = .ok (u, b) ∧ R t (e a) u ∧ Q u a b) →
      ∃ u bs, mapAccum f l s = .ok (u, bs) ∧ R s (fun k => ∃ a ∈ l, e a k) u ∧
        List.Forall₂ (Q u) l bs := by
  intro l
  induction l with
  | nil =>
    intro pre s hs _ _ _ _
    exact ⟨s, [], rfl, hR.mono (hR.refl hs) fun k hk => hk.elim, .nil⟩
  | cons a l ih =>
    intro pre s hs hpre hpair hfree hstep
    obtain ⟨ha, hpair⟩ := List.pairwise_cons.mp hpair
    obtain ⟨t, b, hf, hst, hQ⟩ := hstep [] a l rfl _ s hs (hR.refl hs) (by simpa using hpre)
      (hfree a List.mem_cons_self)
    have ht := hR.inv hs hst
    have hpre' : ∀ x ∈ pre ++ [a], ∃ b, Q t x b := by
      intro x hx
      rcases List.mem_append.mp hx with hx | hx
      · obtain ⟨b', hb'⟩ := hpre x hx
        exact ⟨b', hkeep hs hst hb'⟩
      · rw [List.mem_singleton.mp hx]
        exact ⟨b, hQ⟩
    obtain ⟨u, bs, hl, htu, hall⟩ := ih (pre ++ [a]) t ht hpre' hpair
      (fun a' ha' k hk => hR.free hst (fun hak => ha a' ha' k hak hk)
        (hfree a' (List.mem_cons_of_mem _ ha') k hk))
      (by
        rintro l₁ a' l₂ rfl A t' ht' htt' hdone hfree'
        apply hstep (a :: l₁) a' l₂ rfl _ t' ht' (hR.trans hs hst htt') _ hfree'
        intro x hx
        apply hdone
        simpa using hx)
    refine ⟨u, b :: bs, mapAccum_cons_ok.mpr ⟨t, b, bs, hf, hl, rfl⟩, ?_,
      .cons (hkeep ht htu hQ) hall⟩
    apply hR.mono (hR.trans hs hst htu)
    rintro k (hk | ⟨a', ha', hk⟩)
    · exact ⟨a, List.mem_cons_self, hk⟩
    · exact ⟨a', List.mem_cons_of_mem _ ha', hk⟩

/-- What the steps of a run do to the states that satisfy an invariant -/
structure StepRel (I : σ → Prop) (R : σ → σ → Prop) : Prop where
  refl : ∀ {s}, I s → R s s
  inv : ∀ {s t}, I s → R s t → I t
  trans : ∀ {s t u}, I s → R s t → R t u → R s u

theorem StepRel.effectRel {I : σ → Prop} {R : σ → σ → Prop} (hR : StepRel I R) :
    EffectRel I (fun (_ : σ) (_ : Empty) => True) fun s _ t => R s t where
  refl := hR.refl
  inv := hR.inv
  trans := hR.trans
  mono h _ := h
  free _ _ _ := trivial

/-- The rule of a map whose steps take no keys -/
theorem mapAccum_rule {I : σ → Prop} {R : σ → σ → Prop} {Q : σ → α → β → Prop} (hR : StepRel I R)
    (hkeep : ∀ {s t a b}, I s → R s t → Q s a b → Q t a b) (l : List α) (s : σ) (hs : I s)
    (hstep : ∀ a ∈ l, ∀ t, I t → R s t → ∃ u b, f t a = .ok (u, b) ∧ R t u ∧ Q u a b) :
    ∃ u bs, mapAccum f l s = .ok (u, bs) ∧ R s u ∧ List.Forall₂ (Q u) l bs := by
  apply mapAccum_effect (e := fun _ _ => False) (Q := Q) hR.effectRel
    (fun hs hst hQ => hkeep hs hst hQ) l [] s hs
  · simp
  · exact List.pairwise_of_forall fun _ _ k => k.elim
  · intro a _ k
    exact k.elim
  · rintro l₁ a l₂ rfl _ t ht hst - -
    exact hstep a (by simp) t ht hst

end ZendOpcache
