import Mathlib.Logic.Relation
import ZendOpcache.Optimizer.AccessPath

/-! # Falling through blocks of NOPs

Control falls through a block that holds nothing but `NOP`s. The invariant of the block
pass says which blocks may still be entered, that their edges are all listed as sources, and
that the blocks which an edge skips fall to where the edge leads.
-/

namespace ZendOpcache

/-- The block consists only of `NOP`s. -/
def ZendCodeBlock.NopOnly (b : ZendCodeBlock) : Prop :=
  ∃ ops, b.oplines = some ops ∧ ∀ o ∈ ops, o.opcode = .nop

namespace ZendCfg

/-- Control falls from a block of `NOP`s to the block that follows it. The blocks of `E`, which are
being rewritten, are left out. -/
def Falls (c : ZendCfg) (E : Set ℕ) (b t : ℕ) : Prop :=
  b ∉ E ∧ (c.blocks b).NopOnly ∧ (c.blocks b).followTo = some t

abbrev FallsTo (c : ZendCfg) (E : Set ℕ) : ℕ → ℕ → Prop := Relation.ReflTransGen (c.Falls E)

/-- Control falls from both blocks to the same block. -/
abbrev Meets (c : ZendCfg) (E : Set ℕ) : ℕ → ℕ → Prop := Relation.Join (c.FallsTo E)

variable {c c' : ZendCfg} {E : Set ℕ} {b t x y z q : ℕ}

theorem falls_unique (h : c.Falls E x y) (h' : c.Falls E x z) : y = z :=
  Option.some.inj (h.2.2.symm.trans h'.2.2)

theorem meets_equivalence (c : ZendCfg) (E : Set ℕ) : Equivalence (c.Meets E) :=
  Relation.equivalence_join_reflTransGen fun _ y _ h h' =>
    ⟨y, .refl, falls_unique h h' ▸ .refl⟩

theorem FallsTo.meets (h : c.FallsTo E x y) : c.Meets E x y := ⟨y, h, .refl⟩

theorem Meets.refl (x : ℕ) : c.Meets E x x := ⟨x, .refl, .refl⟩

theorem Meets.symm (h : c.Meets E x y) : c.Meets E y x := (meets_equivalence c E).symm h

theorem Meets.trans (h : c.Meets E x y) (h' : c.Meets E y z) : c.Meets E x z :=
  (meets_equivalence c E).trans h h'

/-- What falls to another block than itself takes the only step. -/
theorem FallsTo.of_step (h : c.FallsTo E x q) (hq : q ≠ x) (ht : (c.blocks x).followTo = some t) :
    (c.blocks x).NopOnly ∧ c.FallsTo E t q := by
  rcases h.cases_head with rfl | ⟨y, hy, h⟩
  · exact absurd rfl hq
  · obtain rfl : y = t := Option.some.inj (hy.2.2.symm.trans ht)
    exact ⟨hy.2.1, h⟩

theorem Meets.mono {E' : Set ℕ} (hf : ∀ x y, c.Falls E x y → c'.Falls E' x y)
    (h : c.Meets E x y) : c'.Meets E' x y := by
  obtain ⟨q, hx, hy⟩ := h
  exact ⟨q, Relation.ReflTransGen.mono hf x q hx, Relation.ReflTransGen.mono hf y q hy⟩

/-- The blocks of `L` are those that may still be entered: the accessible ones, and those that have
been deleted since the sources were listed, which consist of `NOP`s. The first of them is `e`. The
edges of the blocks of `E` are being rewritten. -/
structure Live (c : ZendCfg) (E L : Set ℕ) (e : ℕ) : Prop where
  sorted : c.order.Pairwise (· < ·)
  bound : ∃ V : Finset ℕ, V.card ≤ c.size ∧ (∀ x ∈ L, x ∈ V) ∧
    ∀ x ∉ E, ∀ t ∈ (c.blocks x).successors, t ∈ V
  edgeless : ∀ x ∉ E, x ∉ c.order → (c.blocks x).successors = []
  follow : ∀ x ∉ E, ∀ t, (c.blocks x).followTo = some t → x < t ∧ t ∈ c.order
  access : ∀ x, (c.blocks x).access = true → x ∈ L
  deleted : ∀ x ∈ L, x ∉ E → (c.blocks x).access = false →
    (c.blocks x).NopOnly ∧ ∃ t, (c.blocks x).followTo = some t
  edge : ∀ x ∈ L, x ∉ E → ∀ t ∈ (c.blocks x).successors,
    (c.blocks t).access = true ∧ x ∈ (c.blocks t).sources
  gap : ∀ x ∈ L, x ∉ E → ∀ t, (c.blocks x).followTo = some t →
    ∀ m ∈ L, m ∈ c.order → x < m → m < t → c.Meets E m t
  nodup : ∀ x, (c.blocks x).sources.Nodup
  roots : ∀ r ∈ c.roots, r ∈ L
  entry_mem : e ∈ L ∧ e ∈ c.order
  entry_le : ∀ m ∈ L, m ∈ c.order → e ≤ m

/-- Only the edges and the oplines of block `b` change, and `b` may become a source. -/
structure Rewired (b : ℕ) (c c' : ZendCfg) : Prop where
  order : c'.order = c.order
  size : c'.size = c.size
  roots : c'.roots = c.roots
  access : ∀ x, (c'.blocks x).access = (c.blocks x).access
  oplines : ∀ x, x ≠ b → (c'.blocks x).oplines = (c.blocks x).oplines
  edges : ∀ x, x ≠ b → (c'.blocks x).edges = (c.blocks x).edges
  isProtected : ∀ x, (c'.blocks x).isProtected = (c.blocks x).isProtected
  sources : ∀ x, (c.blocks x).sources ⊆ (c'.blocks x).sources
  nodup : ∀ x, (c.blocks x).sources.Nodup → (c'.blocks x).sources.Nodup

theorem followTo_eq_of_edges {x y : ZendCodeBlock} (h : x.edges = y.edges) :
    x.followTo = y.followTo := by
  simp only [ZendCodeBlock.edges, List.cons.injEq] at h
  exact h.2.2.2.1

theorem successors_eq_of_edges {x y : ZendCodeBlock} (h : x.edges = y.edges) :
    x.successors = y.successors := by
  rw [ZendCodeBlock.successors, ZendCodeBlock.successors, h]

theorem followTo_mem_successors {x : ZendCodeBlock} (h : x.followTo = some t) :
    t ∈ x.successors := by
  simp [ZendCodeBlock.mem_successors, ZendCodeBlock.edges, h]

namespace Rewired

variable {c'' : ZendCfg}

theorem refl (b : ℕ) (c : ZendCfg) : Rewired b c c where
  order := rfl
  size := rfl
  roots := rfl
  access _ := rfl
  oplines _ _ := rfl
  edges _ _ := rfl
  isProtected _ := rfl
  sources _ := List.Subset.refl _
  nodup _ h := h

theorem trans (h : Rewired b c c') (h' : Rewired b c' c'') : Rewired b c c'' where
  order := h'.order.trans h.order
  size := h'.size.trans h.size
  roots := h'.roots.trans h.roots
  access x := (h'.access x).trans (h.access x)
  oplines x hx := (h'.oplines x hx).trans (h.oplines x hx)
  edges x hx := (h'.edges x hx).trans (h.edges x hx)
  isProtected x := (h'.isProtected x).trans (h.isProtected x)
  sources x := List.Subset.trans (h.sources x) (h'.sources x)
  nodup x hn := h'.nodup x (h.nodup x hn)

/-- A change of the oplines and edges of the block. -/
theorem modify {f : ZendCodeBlock → ZendCodeBlock}
    (hacc : (f (c.blocks b)).access = (c.blocks b).access)
    (hprot : (f (c.blocks b)).isProtected = (c.blocks b).isProtected)
    (hsrc : (f (c.blocks b)).sources = (c.blocks b).sources) : Rewired b c (c.modify b f) where
  order := rfl
  size := rfl
  roots := rfl
  access x := by
    by_cases h : x = b
    · subst h; simpa using hacc
    · simp [h]
  oplines x h := by simp [h]
  edges x h := by simp [h]
  isProtected x := by
    by_cases h : x = b
    · subst h; simpa using hprot
    · simp [h]
  sources x := by
    by_cases h : x = b
    · subst h; simp [hsrc]
    · simp [h]
  nodup x hn := by
    by_cases h : x = b
    · subst h; simpa [hsrc] using hn
    · simpa [h] using hn

theorem addSource (b t : ℕ) (c : ZendCfg) : Rewired b c (c.addSource b t) where
  order := rfl
  size := rfl
  roots := rfl
  access x := addSource_access
  oplines x _ := by rw [← ZendCodeBlock.shape_oplines, addSource_shape]; rfl
  edges x _ := by
    change ((c.addSource b t).blocks x).shape.edges = _
    rw [addSource_shape]
    rfl
  isProtected x := by rw [← ZendCodeBlock.shape_isProtected, addSource_shape]; rfl
  sources x := sources_subset_addSource
  nodup x := nodup_addSource

/-- A change of the literals. -/
theorem literals (b : ℕ) (c : ZendCfg) (ls : List ZendLiteral) :
    Rewired b c { c with literals := ls } where
  order := rfl
  size := rfl
  roots := rfl
  access _ := rfl
  oplines _ _ := rfl
  edges _ _ := rfl
  isProtected _ := rfl
  sources _ := List.Subset.refl _
  nodup _ h := h

theorem falls (h : Rewired b c c') (hf : c.Falls {b} x y) : c'.Falls {b} x y := by
  obtain ⟨hx, hnop, hfollow⟩ := hf
  have hne : x ≠ b := hx
  refine ⟨hx, ?_, ?_⟩
  · rw [ZendCodeBlock.NopOnly, h.oplines x hne]
    exact hnop
  · rw [followTo_eq_of_edges (h.edges x hne), hfollow]

end Rewired

namespace Live

variable {L : Set ℕ} {e : ℕ}

/-- Before the edges of a block change, nothing falls through it. -/
theorem unlock (h : c.Live ∅ L e) (hb : ¬ (c.blocks b).NopOnly) : c.Live {b} L e := by
  have hfalls : ∀ x y, c.Falls ∅ x y → c.Falls {b} x y := by
    rintro x y ⟨-, hnop, hfollow⟩
    exact ⟨fun hx => hb (hx ▸ hnop), hnop, hfollow⟩
  obtain ⟨V, hcard, hL, hV⟩ := h.bound
  constructor
  · exact h.sorted
  · exact ⟨V, hcard, hL, fun x _ => hV x (by simp)⟩
  · exact fun x _ => h.edgeless x (by simp)
  · exact fun x _ => h.follow x (by simp)
  · exact h.access
  · exact fun x hx _ => h.deleted x hx (by simp)
  · exact fun x hx _ => h.edge x hx (by simp)
  · exact fun x hx _ t ht m hm ho hxm hmt =>
      (h.gap x hx (by simp) t ht m hm ho hxm hmt).mono hfalls
  · exact h.nodup
  · exact h.roots
  · exact h.entry_mem
  · exact h.entry_le

theorem rewire (h : c.Live {b} L e) (hr : Rewired b c c') : c'.Live {b} L e := by
  obtain ⟨V, hcard, hL, hV⟩ := h.bound
  have hsucc : ∀ x, x ∉ ({b} : Set ℕ) → (c'.blocks x).successors = (c.blocks x).successors :=
    fun x hx => successors_eq_of_edges (hr.edges x hx)
  have hfollow : ∀ x, x ∉ ({b} : Set ℕ) → (c'.blocks x).followTo = (c.blocks x).followTo :=
    fun x hx => followTo_eq_of_edges (hr.edges x hx)
  constructor
  · exact hr.order ▸ h.sorted
  · exact ⟨V, hr.size ▸ hcard, hL, fun x hx => hsucc x hx ▸ hV x hx⟩
  · exact fun x hx => by
      rw [hr.order, hsucc x hx]
      exact h.edgeless x hx
  · exact fun x hx t ht => by
      rw [hr.order]
      exact h.follow x hx t (hfollow x hx ▸ ht)
  · exact fun x hx => h.access x (hr.access x ▸ hx)
  · exact fun x hx hxb hacc => by
      rw [ZendCodeBlock.NopOnly, hr.oplines x hxb, hfollow x hxb]
      exact h.deleted x hx hxb (hr.access x ▸ hacc)
  · exact fun x hx hxb t ht => by
      obtain ⟨hacc, hsrc⟩ := h.edge x hx hxb t (hsucc x hxb ▸ ht)
      exact ⟨(hr.access t).trans hacc, hr.sources t hsrc⟩
  · exact fun x hx hxb t ht m hm ho hxm hmt =>
      (h.gap x hx hxb t (hfollow x hxb ▸ ht) m hm (hr.order ▸ ho) hxm hmt).mono
        fun _ _ hf => hr.falls hf
  · exact fun x => hr.nodup x (h.nodup x)
  · exact fun r hroot => h.roots r (hr.roots ▸ hroot)
  · exact ⟨h.entry_mem.1, hr.order ▸ h.entry_mem.2⟩
  · exact fun m hm ho => h.entry_le m hm (hr.order ▸ ho)

/-- The new edges of the block have been listed. -/
theorem lock (h : c.Live {b} L e) (hacc : (c.blocks b).access = true) (ho : b ∈ c.order)
    (hedge : ∀ t ∈ (c.blocks b).successors,
      (c.blocks t).access = true ∧ b ∈ (c.blocks t).sources)
    (hfollow : ∀ t, (c.blocks b).followTo = some t → b < t ∧ t ∈ c.order ∧
      ∀ m ∈ L, m ∈ c.order → b < m → m < t → c.Meets {b} m t) : c.Live ∅ L e := by
  have hfalls : ∀ x y, c.Falls {b} x y → c.Falls ∅ x y := fun x y hf => ⟨by simp, hf.2⟩
  obtain ⟨V, hcard, hL, hV⟩ := h.bound
  constructor
  · exact h.sorted
  · refine ⟨V, hcard, hL, fun x _ t ht => ?_⟩
    by_cases hx : x = b
    · subst hx
      exact hL t (h.access t (hedge t ht).1)
    · exact hV x hx t ht
  · intro x _ hxo
    exact h.edgeless x (fun hx => hxo (hx ▸ ho)) hxo
  · intro x _ t ht
    by_cases hx : x = b
    · subst hx
      exact ⟨(hfollow t ht).1, (hfollow t ht).2.1⟩
    · exact h.follow x hx t ht
  · exact h.access
  · intro x hx _ hxacc
    by_cases hxb : x = b
    · subst hxb
      simp [hacc] at hxacc
    · exact h.deleted x hx hxb hxacc
  · intro x hx _ t ht
    by_cases hxb : x = b
    · subst hxb
      exact hedge t ht
    · exact h.edge x hx hxb t ht
  · intro x hx _ t ht m hm hmo hxm hmt
    by_cases hxb : x = b
    · subst hxb
      exact ((hfollow t ht).2.2 m hm hmo hxm hmt).mono hfalls
    · exact (h.gap x hx hxb t ht m hm hmo hxm hmt).mono hfalls
  · exact h.nodup
  · exact h.roots
  · exact h.entry_mem
  · exact h.entry_le

end Live

end ZendCfg

end ZendOpcache
