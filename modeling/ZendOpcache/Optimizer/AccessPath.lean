import Mathlib.Data.Finset.Card
import Mathlib.Data.List.Nodup
import Mathlib.Data.List.ReduceOption
import ZendOpcache.Optimizer.CodeBlocks

/-! # Accessible blocks

What `zend_access_path` marks: the block and all that it leads to, with complete
lists of sources. The depth of the recursion is bounded by the number of blocks that are
not marked yet.
-/

namespace ZendOpcache

namespace ZendCodeBlock

/-- A block without its marks. -/
def shape (b : ZendCodeBlock) : ZendCodeBlock := { b with access := false, sources := [] }

@[simp] theorem shape_oplines (b : ZendCodeBlock) : b.shape.oplines = b.oplines := rfl
@[simp] theorem shape_edges (b : ZendCodeBlock) : b.shape.edges = b.edges := rfl
@[simp] theorem shape_followTo (b : ZendCodeBlock) : b.shape.followTo = b.followTo := rfl
@[simp] theorem shape_successors (b : ZendCodeBlock) : b.shape.successors = b.successors := rfl
@[simp] theorem shape_isProtected (b : ZendCodeBlock) : b.shape.isProtected = b.isProtected := rfl

theorem mem_successors {b : ZendCodeBlock} {t : ℕ} : t ∈ b.successors ↔ some t ∈ b.edges :=
  List.reduceOption_mem_iff

end ZendCodeBlock

namespace ZendCfg

variable {c c' c'' : ZendCfg} {b t x : ℕ} {f : ZendCodeBlock → ZendCodeBlock}

@[simp] theorem modify_blocks_self : (c.modify b f).blocks b = f (c.blocks b) := by simp [modify]

@[simp] theorem modify_blocks_of_ne (h : x ≠ b) : (c.modify b f).blocks x = c.blocks x := by
  simp [modify, h]

theorem modify_blocks : (c.modify b f).blocks x = if x = b then f (c.blocks x) else c.blocks x := by
  by_cases h : x = b
  · subst h; simp
  · simp [h]

@[simp] theorem modify_order : (c.modify b f).order = c.order := rfl
@[simp] theorem modify_size : (c.modify b f).size = c.size := rfl
@[simp] theorem modify_roots : (c.modify b f).roots = c.roots := rfl
@[simp] theorem modify_literals : (c.modify b f).literals = c.literals := rfl

@[simp] theorem addSource_access : ((c.addSource b t).blocks x).access = (c.blocks x).access := by
  rw [addSource, modify_blocks]
  split_ifs <;> rfl

@[simp] theorem addSource_shape : ((c.addSource b t).blocks x).shape = (c.blocks x).shape := by
  rw [addSource, modify_blocks]
  split_ifs <;> rfl

theorem addSource_sources : ((c.addSource b t).blocks x).sources =
    if x = t ∧ b ∉ (c.blocks x).sources then b :: (c.blocks x).sources
    else (c.blocks x).sources := by
  rw [addSource, modify_blocks]
  by_cases hx : x = t
  · subst hx
    by_cases hb : b ∈ (c.blocks x).sources <;> simp [hb]
  · simp [hx]

theorem mem_addSource : b ∈ ((c.addSource b t).blocks t).sources := by
  rw [addSource_sources]
  split_ifs with h
  · exact List.mem_cons_self
  · simpa using h

theorem sources_subset_addSource :
    (c.blocks x).sources ⊆ ((c.addSource b t).blocks x).sources := by
  rw [addSource_sources]
  split_ifs
  · exact List.subset_cons_self _ _
  · exact List.Subset.refl _

theorem nodup_addSource (h : (c.blocks x).sources.Nodup) :
    ((c.addSource b t).blocks x).sources.Nodup := by
  rw [addSource_sources]
  split_ifs with hx
  · exact List.nodup_cons.mpr ⟨hx.2, h⟩
  · exact h

/-- Blocks have been marked, together with all blocks that they lead to. -/
structure Marks (c c' : ZendCfg) : Prop where
  frame : c' = { c with blocks := c'.blocks }
  shape : ∀ x, (c'.blocks x).shape = (c.blocks x).shape
  access : ∀ x, (c.blocks x).access = true → (c'.blocks x).access = true
  sources : ∀ x, (c.blocks x).sources ⊆ (c'.blocks x).sources
  nodup : (∀ x, (c.blocks x).sources.Nodup) → ∀ x, (c'.blocks x).sources.Nodup
  closed : ∀ x, (c'.blocks x).access = true → (c.blocks x).access = false →
    ∀ t ∈ (c.blocks x).successors, (c'.blocks t).access = true ∧ x ∈ (c'.blocks t).sources

namespace Marks

theorem refl (c : ZendCfg) : c.Marks c where
  frame := rfl
  shape _ := rfl
  access _ h := h
  sources _ := List.Subset.refl _
  nodup h := h
  closed x h h' := by simp [h] at h'

theorem successors (h : c.Marks c') (x : ℕ) :
    (c'.blocks x).successors = (c.blocks x).successors := by
  rw [← ZendCodeBlock.shape_successors, h.shape, ZendCodeBlock.shape_successors]

theorem trans (h : c.Marks c') (h' : c'.Marks c'') : c.Marks c'' where
  frame := by rw [h'.frame, h.frame]
  shape x := (h'.shape x).trans (h.shape x)
  access x hx := h'.access x (h.access x hx)
  sources x := List.Subset.trans (h.sources x) (h'.sources x)
  nodup hn := h'.nodup (h.nodup hn)
  closed x hx hx' t ht := by
    cases hmid : (c'.blocks x).access with
    | true =>
      obtain ⟨hacc, hsrc⟩ := h.closed x hmid hx' t ht
      exact ⟨h'.access t hacc, h'.sources t hsrc⟩
    | false => exact h'.closed x hx hmid t (by rwa [h.successors])

theorem addSource (c : ZendCfg) (b t : ℕ) : c.Marks (c.addSource b t) where
  frame := rfl
  shape x := addSource_shape
  access x h := by simpa using h
  sources x := sources_subset_addSource
  nodup h x := nodup_addSource (h x)
  closed x h h' := by simp [h'] at h

end Marks

/-- The blocks of `V` that are not marked. -/
def unmarked (c : ZendCfg) (V : Finset ℕ) : Finset ℕ := V.filter fun x =>
    (c.blocks x).access = false

theorem Marks.card_unmarked_le (h : c.Marks c') (V : Finset ℕ) :
    (c'.unmarked V).card ≤ (c.unmarked V).card := by
  refine Finset.card_le_card fun x hx => ?_
  simp only [unmarked, Finset.mem_filter] at hx ⊢
  refine ⟨hx.1, ?_⟩
  by_contra hne
  simp [h.access x (by simpa using hne)] at hx

/-- The edges of a block that has just been marked, one after the other. -/
theorem marks_foldl {n : ℕ} {V : Finset ℕ} (b : ℕ) :
    ∀ (ts : List ℕ) (c : ZendCfg), (∀ t ∈ ts, t ∈ V) → (c.unmarked V).card ≤ n →
      (∀ c t, (∀ x ∈ V, ∀ t ∈ (c.blocks x).successors, t ∈ V) → t ∈ V → (c.unmarked V).card ≤ n →
        c.Marks (accessPath n c t) ∧ ((accessPath n c t).blocks t).access = true) →
      (∀ x ∈ V, ∀ t ∈ (c.blocks x).successors, t ∈ V) →
      c.Marks (ts.foldl (fun c t => (accessPath n c t).addSource b t) c) ∧
        ∀ t ∈ ts,
          ((ts.foldl (fun c t => (accessPath n c t).addSource b t) c).blocks t).access = true ∧
          b ∈ ((ts.foldl (fun c t => (accessPath n c t).addSource b t) c).blocks t).sources
  | [], c, _, _, _, _ => ⟨.refl c, by simp⟩
  | t :: ts, c, hts, hcard, ih, hV => by
    obtain ⟨hmark, hacc⟩ := ih c t hV (hts t List.mem_cons_self) hcard
    have hstep := hmark.trans (.addSource (accessPath n c t) b t)
    obtain ⟨hrest, hall⟩ := marks_foldl b ts ((accessPath n c t).addSource b t)
      (fun u hu => hts u (List.mem_cons_of_mem t hu))
      ((hstep.card_unmarked_le V).trans hcard) ih
      (fun x hx u hu => hV x hx u (by rwa [← hstep.successors]))
    refine ⟨hstep.trans hrest, fun u hu => ?_⟩
    rcases List.mem_cons.mp hu with rfl | hu
    · exact ⟨hrest.access u (by simpa using hacc), hrest.sources u mem_addSource⟩
    · exact hall u hu

/-- `zend_access_path` marks a block and all that it leads to. -/
theorem accessPath_marks {V : Finset ℕ} : ∀ (n : ℕ) (c : ZendCfg) (b : ℕ),
    (∀ x ∈ V, ∀ t ∈ (c.blocks x).successors, t ∈ V) → b ∈ V → (c.unmarked V).card ≤ n →
      c.Marks (accessPath n c b) ∧ ((accessPath n c b).blocks b).access = true
  | 0, c, b, _, hb, hcard => by
    refine ⟨.refl c, ?_⟩
    by_contra hne
    have hmem : b ∈ c.unmarked V := by simpa [unmarked, hb, accessPath] using hne
    rw [Nat.le_zero, Finset.card_eq_zero] at hcard
    simp [hcard] at hmem
  | n + 1, c, b, hV, hb, hcard => by
    unfold accessPath
    split_ifs with hacc
    · exact ⟨.refl c, hacc⟩
    have hfalse : (c.blocks b).access = false := by simpa using hacc
    let c₁ := c.modify b ({ · with access := true })
    have hshape : ∀ x, (c₁.blocks x).shape = (c.blocks x).shape := by
      intro x
      by_cases h : x = b
      · subst h; simp [c₁, ZendCodeBlock.shape]
      · simp [c₁, h]
    have hsub : c₁.unmarked V ⊂ c.unmarked V := by
      refine Finset.ssubset_iff_subset_ne.mpr ⟨fun x hx => ?_, fun heq => ?_⟩
      · by_cases h : x = b
        · subst h; simp [unmarked, c₁] at hx
        · simpa [unmarked, c₁, h] using hx
      · have hmem : b ∈ c.unmarked V := by simp [unmarked, hb, hfalse]
        rw [← heq] at hmem
        simp [unmarked, c₁] at hmem
    have hcard₁ : (c₁.unmarked V).card ≤ n := by
      have := Finset.card_lt_card hsub
      omega
    obtain ⟨hmarks, hall⟩ := marks_foldl b (c.blocks b).successors c₁ (hV b hb) hcard₁
      (fun c t hV ht hc => accessPath_marks n c t hV ht hc)
      (fun x hx t ht => hV x hx t (by
        rw [← ZendCodeBlock.shape_successors, ← hshape, ZendCodeBlock.shape_successors]
        exact ht))
    have hself := hmarks.access b (by simp [c₁])
    refine ⟨⟨hmarks.frame, fun x => (hmarks.shape x).trans (hshape x), fun x hx => ?_,
      fun x => ?_, fun hn => ?_, fun x hx hx' t ht => ?_⟩, hself⟩
    · refine hmarks.access x ?_
      by_cases h : x = b
      · subst h; simp [c₁]
      · simpa [c₁, h] using hx
    · have hsrc : (c₁.blocks x).sources = (c.blocks x).sources := by
        by_cases h : x = b
        · subst h; simp [c₁]
        · simp [c₁, h]
      exact hsrc ▸ hmarks.sources x
    · refine hmarks.nodup fun x => ?_
      by_cases h : x = b
      · subst h; simpa [c₁] using hn x
      · simpa [c₁, h] using hn x
    · by_cases h : x = b
      · subst h
        exact hall t ht
      · exact hmarks.closed x hx (by simpa [c₁, h] using hx') t (by simpa [c₁, h] using ht)

/-- It marks nothing else. -/
theorem accessPath_subset {S : Set ℕ} : ∀ (n : ℕ) (c : ZendCfg) (b : ℕ), b ∈ S →
    (∀ x ∈ S, ∀ t ∈ (c.blocks x).successors, t ∈ S) →
    (∀ x, (c.blocks x).access = true → x ∈ S) →
    (∀ x, ((accessPath n c b).blocks x).access = true → x ∈ S) ∧
      ∀ x, ((accessPath n c b).blocks x).shape = (c.blocks x).shape
  | 0, _, _, _, _, hS => ⟨hS, fun _ => rfl⟩
  | n + 1, c, b, hb, hclosed, hS => by
    unfold accessPath
    split_ifs with hacc
    · exact ⟨hS, fun _ => rfl⟩
    have hfold : ∀ (ts : List ℕ) (c' : ZendCfg), (∀ t ∈ ts, t ∈ S) →
        (∀ x, (c'.blocks x).shape = (c.blocks x).shape) →
        (∀ x, (c'.blocks x).access = true → x ∈ S) →
        (∀ x, ((ts.foldl (fun c t => (accessPath n c t).addSource b t) c').blocks x).access = true →
          x ∈ S) ∧
        ∀ x, ((ts.foldl (fun c t => (accessPath n c t).addSource b t) c').blocks x).shape =
          (c.blocks x).shape := by
      intro ts
      induction ts with
      | nil => exact fun c' _ hshape hS' => ⟨hS', hshape⟩
      | cons t ts ih =>
        intro c' hts hshape hS'
        have hcl : ∀ x ∈ S, ∀ t ∈ (c'.blocks x).successors, t ∈ S := fun x hx u hu =>
          hclosed x hx u (by
            rw [← ZendCodeBlock.shape_successors, ← hshape, ZendCodeBlock.shape_successors]
            exact hu)
        obtain ⟨hS'', hshape''⟩ := accessPath_subset n c' t (hts t List.mem_cons_self) hcl hS'
        exact ih _ (fun u hu => hts u (List.mem_cons_of_mem t hu))
          (fun x => by rw [addSource_shape, hshape'', hshape])
          (fun x hx => hS'' x (by simpa using hx))
    refine hfold _ _ (hclosed b hb) (fun x => ?_) fun x hx => ?_
    · by_cases h : x = b
      · subst h; simp [ZendCodeBlock.shape]
      · simp [h]
    · by_cases h : x = b
      · exact h ▸ hb
      · exact hS x (by simpa [h] using hx)

end ZendCfg

end ZendOpcache
