import Mathlib.Logic.Relation
import ZendOpcache.Optimizer.AccessPath
import ZendOpcache.Optimizer.Assemble

/-! # Exact sources

`zend_rebuild_access_path` over any graph of linked blocks. The recursion comes to an end, marks
exactly the blocks that can be reached, and leaves in the sources of each of them exactly the marked
blocks that lead to it.
-/

namespace ZendOpcache

namespace ZendCfg

variable {c c' : ZendCfg} {b t x p n : ℕ} {V : Finset ℕ}

/-- `zend_access_path`. It has no value where the recursion would be deeper. -/
def accessPathWithin : ℕ → ZendCfg → ℕ → Option ZendCfg
  | 0, _, _ => none
  | n + 1, c, b =>
    if (c.blocks b).access then some c
    else (c.blocks b).successors.foldlM
      (fun c t => (accessPathWithin n c t).map (·.addSource b t))
      (c.modify b ({ · with access := true }))

/-- `zend_rebuild_access_path`, with the same bound on each recursion -/
def rebuildAccessPathWithin (n : ℕ) (findStart : Bool) (c : ZendCfg) : Option ZendCfg := do
  let start ← if findStart then c.firstAccess else some 0
  (start :: c.roots).foldlM (accessPathWithin n) c.clearAccess

/-- A recursion that is deep enough does the same whatever else bounds it. -/
theorem accessPath_of_within : ∀ {n m : ℕ} {c c' : ZendCfg} {b : ℕ},
    accessPathWithin n c b = some c' → n ≤ m → accessPath m c b = c'
  | 0, _, _, _, _, h, _ => by cases h
  | n + 1, 0, _, _, _, _, hm => absurd hm (Nat.not_succ_le_zero n)
  | n + 1, m + 1, c, c', b, h, hm => by
    rw [accessPathWithin] at h
    rw [accessPath]
    split_ifs at h ⊢
    · exact Option.some.inj h
    · have hfold : ∀ (ts : List ℕ) (c₁ : ZendCfg),
          ts.foldlM (fun c t => (accessPathWithin n c t).map (·.addSource b t)) c₁ = some c' →
          ts.foldl (fun c t => (accessPath m c t).addSource b t) c₁ = c' := by
        intro ts
        induction ts with
        | nil => exact fun c₁ h => Option.some.inj h
        | cons t ts ih =>
          intro c₁ h
          obtain ⟨c₂, hc₂, hrest⟩ := Option.bind_eq_some_iff.mp h
          obtain ⟨c₃, hc₃, rfl⟩ := Option.map_eq_some_iff.mp hc₂
          rw [List.foldl_cons, accessPath_of_within hc₃ (Nat.le_of_succ_le_succ hm)]
          exact ih _ hrest
      exact hfold _ _ h

/-- Marking a block leaves fewer that are not marked. -/
theorem card_unmarked_modify_lt (hb : b ∈ V) (hacc : (c.blocks b).access = false) :
    ((c.modify b ({ · with access := true })).unmarked V).card < (c.unmarked V).card := by
  refine Finset.card_lt_card (Finset.ssubset_iff_of_subset (fun x hx => ?_) |>.mpr ⟨b, ?_, ?_⟩)
  · by_cases h : x = b
    · subst h
      simp [unmarked] at hx
    · simpa [unmarked, h] using hx
  · simp [unmarked, hb, hacc]
  · simp [unmarked]

theorem modify_access_shape (x : ℕ) :
    ((c.modify b ({ · with access := true })).blocks x).shape = (c.blocks x).shape := by
  by_cases h : x = b
  · subst h
    simp [ZendCodeBlock.shape]
  · simp [h]

theorem successors_of_shape (h : (c'.blocks x).shape = (c.blocks x).shape) :
    (c'.blocks x).successors = (c.blocks x).successors := by
  rw [← ZendCodeBlock.shape_successors, h, ZendCodeBlock.shape_successors]

/-- The recursion is not deeper than there are blocks to be marked, and one more. -/
theorem accessPathWithin_eq : ∀ (n : ℕ) (c : ZendCfg) (b : ℕ),
    (∀ x ∈ V, ∀ t ∈ (c.blocks x).successors, t ∈ V) → b ∈ V → (c.unmarked V).card < n →
      accessPathWithin n c b = some (accessPath n c b)
  | 0, _, _, _, _, hcard => absurd hcard (Nat.not_lt_zero _)
  | n + 1, c, b, hV, hb, hcard => by
    rw [accessPathWithin, accessPath]
    split_ifs with hacc
    · rfl
    have hlt := card_unmarked_modify_lt hb (Bool.eq_false_iff.mpr hacc)
    have hfold : ∀ (ts : List ℕ) (c₁ : ZendCfg), (∀ t ∈ ts, t ∈ V) →
        (∀ x ∈ V, ∀ t ∈ (c₁.blocks x).successors, t ∈ V) → (c₁.unmarked V).card < n →
        ts.foldlM (fun c t => (accessPathWithin n c t).map (·.addSource b t)) c₁ =
          some (ts.foldl (fun c t => (accessPath n c t).addSource b t) c₁) := by
      intro ts
      induction ts with
      | nil => exact fun _ _ _ _ => rfl
      | cons t ts ih =>
        intro c₁ hts hV₁ hcard₁
        have ht := hts t List.mem_cons_self
        have hmarks := (accessPath_marks n c₁ t hV₁ ht hcard₁.le).1.trans (.addSource _ b t)
        rw [List.foldlM_cons, List.foldl_cons, accessPathWithin_eq n c₁ t hV₁ ht hcard₁]
        refine ih _ (fun u hu => hts u (List.mem_cons_of_mem t hu)) (fun x hx u hu => ?_)
          ((hmarks.card_unmarked_le V).trans_lt hcard₁)
        exact hV₁ x hx u (hmarks.successors x ▸ hu)
    refine hfold _ _ (hV b hb) (fun x hx t ht => hV x hx t ?_) (by omega)
    exact successors_of_shape (modify_access_shape x) ▸ ht

/-- What is kept by each mark, and by each entry of a source for an edge of a marked block, is kept
by `zend_access_path`. -/
theorem accessPath_induction {I : ZendCfg → Prop}
    (hmark : ∀ c b, b ∈ V → (c.blocks b).access = false → I c →
      I (c.modify b ({ · with access := true })))
    (hsource : ∀ c b t, b ∈ V → (c.blocks b).access = true → t ∈ (c.blocks b).successors → I c →
      I (c.addSource b t)) :
    ∀ (n : ℕ) (c : ZendCfg) (b : ℕ), (∀ x ∈ V, ∀ t ∈ (c.blocks x).successors, t ∈ V) → b ∈ V →
      I c → I (accessPath n c b) ∧ ∀ x,
        ((accessPath n c b).blocks x).shape = (c.blocks x).shape ∧
        ((c.blocks x).access = true → ((accessPath n c b).blocks x).access = true)
  | 0, _, _, _, _, hI => ⟨hI, fun _ => ⟨rfl, id⟩⟩
  | n + 1, c, b, hV, hb, hI => by
    rw [accessPath]
    split_ifs with hacc
    · exact ⟨hI, fun _ => ⟨rfl, id⟩⟩
    have hfold : ∀ (ts : List ℕ) (c₁ : ZendCfg), (∀ t ∈ ts, t ∈ (c.blocks b).successors) →
        (∀ x, (c₁.blocks x).shape = (c.blocks x).shape) → (c₁.blocks b).access = true → I c₁ →
        I (ts.foldl (fun c t => (accessPath n c t).addSource b t) c₁) ∧ ∀ x,
          ((ts.foldl (fun c t => (accessPath n c t).addSource b t) c₁).blocks x).shape =
            (c.blocks x).shape ∧
          ((c₁.blocks x).access = true →
            ((ts.foldl (fun c t => (accessPath n c t).addSource b t) c₁).blocks x).access =
              true) := by
      intro ts
      induction ts with
      | nil => exact fun c₁ _ hshape _ hI₁ => ⟨hI₁, fun x => ⟨hshape x, id⟩⟩
      | cons t ts ih =>
        intro c₁ hts hshape hb₁ hI₁
        have hV₁ : ∀ x ∈ V, ∀ t ∈ (c₁.blocks x).successors, t ∈ V := fun x hx u hu =>
          hV x hx u (successors_of_shape (hshape x) ▸ hu)
        have ht := hts t List.mem_cons_self
        obtain ⟨hI₂, hgrow⟩ := accessPath_induction hmark hsource n c₁ t hV₁ (hV b hb t ht) hI₁
        have hsucc : t ∈ ((accessPath n c₁ t).blocks b).successors := by
          rwa [successors_of_shape ((hgrow b).1.trans (hshape b))]
        have hb₂ := (hgrow b).2 hb₁
        obtain ⟨hI₃, hgrow'⟩ := ih ((accessPath n c₁ t).addSource b t)
          (fun u hu => hts u (List.mem_cons_of_mem t hu))
          (fun x => addSource_shape.trans ((hgrow x).1.trans (hshape x)))
          (by simpa using hb₂) (hsource _ b t hb hb₂ hsucc hI₂)
        refine ⟨hI₃, fun x => ⟨(hgrow' x).1, fun hx => (hgrow' x).2 ?_⟩⟩
        simpa using (hgrow x).2 hx
    obtain ⟨hI', hgrow⟩ := hfold _ _ (fun t ht => ht) modify_access_shape (by simp)
      (hmark c b hb (Bool.eq_false_iff.mpr hacc) hI)
    refine ⟨hI', fun x => ⟨(hgrow x).1, fun hx => (hgrow x).2 ?_⟩⟩
    by_cases h : x = b
    · subst h
      simp
    · simpa [h] using hx

/-- The sources of the blocks of a set are marked blocks of it that lead to them, each one once. -/
def SourcesFrom (V : Finset ℕ) (c : ZendCfg) : Prop :=
  ∀ x ∈ V, (c.blocks x).sources.Nodup ∧ ∀ y ∈ (c.blocks x).sources,
    y ∈ V ∧ (c.blocks y).access = true ∧ x ∈ (c.blocks y).successors

theorem SourcesFrom.modify (h : c.SourcesFrom V) :
    (c.modify b ({ · with access := true })).SourcesFrom V := by
  intro x hx
  have hsources : ((c.modify b ({ · with access := true })).blocks x).sources =
      (c.blocks x).sources := by
    rw [modify_blocks]
    split_ifs <;> rfl
  rw [hsources]
  refine ⟨(h x hx).1, fun y hy => ?_⟩
  obtain ⟨hyV, hacc, hsucc⟩ := (h x hx).2 y hy
  refine ⟨hyV, ?_, ?_⟩
  · rw [modify_blocks]
    split_ifs
    · rfl
    · exact hacc
  · rwa [successors_of_shape (modify_access_shape y)]

theorem SourcesFrom.addSource (h : c.SourcesFrom V) (hb : b ∈ V)
    (hacc : (c.blocks b).access = true) (ht : t ∈ (c.blocks b).successors) :
    (c.addSource b t).SourcesFrom V := by
  intro x hx
  refine ⟨nodup_addSource (h x hx).1, fun y hy => ?_⟩
  rw [addSource_access, successors_of_shape addSource_shape]
  rw [addSource_sources] at hy
  split_ifs at hy with hxt
  · obtain ⟨rfl, -⟩ := hxt
    rcases List.mem_cons.mp hy with rfl | hy
    · exact ⟨hb, hacc, ht⟩
    · exact (h x hx).2 y hy
  · exact (h x hx).2 y hy

theorem accessPathsWithin_eq : ∀ (rs : List ℕ) (c : ZendCfg),
    (∀ x ∈ V, ∀ t ∈ (c.blocks x).successors, t ∈ V) → (∀ r ∈ rs, r ∈ V) → (c.unmarked V).card < n →
      rs.foldlM (accessPathWithin n) c = some (rs.foldl (accessPath n) c)
  | [], _, _, _, _ => rfl
  | r :: rs, c, hV, hrs, hcard => by
    have hr := hrs r List.mem_cons_self
    have hmarks := (accessPath_marks n c r hV hr hcard.le).1
    rw [List.foldlM_cons, List.foldl_cons, accessPathWithin_eq n c r hV hr hcard]
    refine accessPathsWithin_eq rs _ (fun x hx t ht => ?_)
      (fun r' hr' => hrs r' (List.mem_cons_of_mem r hr'))
      ((hmarks.card_unmarked_le V).trans_lt hcard)
    exact hV x hx t (hmarks.successors x ▸ ht)

theorem accessPaths_induction {I : ZendCfg → Prop}
    (hmark : ∀ c b, b ∈ V → (c.blocks b).access = false → I c →
      I (c.modify b ({ · with access := true })))
    (hsource : ∀ c b t, b ∈ V → (c.blocks b).access = true → t ∈ (c.blocks b).successors → I c →
      I (c.addSource b t)) :
    ∀ (rs : List ℕ) (c : ZendCfg), (∀ x ∈ V, ∀ t ∈ (c.blocks x).successors, t ∈ V) →
      (∀ r ∈ rs, r ∈ V) → I c → I (rs.foldl (accessPath n) c)
  | [], _, _, _, hI => hI
  | r :: rs, c, hV, hrs, hI => by
    obtain ⟨hI', hgrow⟩ := accessPath_induction hmark hsource n c r hV (hrs r List.mem_cons_self) hI
    refine accessPaths_induction hmark hsource rs _ (fun x hx t ht => ?_)
      (fun r' hr' => hrs r' (List.mem_cons_of_mem r hr')) hI'
    exact hV x hx t (successors_of_shape (hgrow x).1 ▸ ht)

/-- A block can be reached from the start block `p`, a loop or a `catch`. -/
def ReachableFrom (c : ZendCfg) (p x : ℕ) : Prop :=
  ∃ r ∈ p :: c.roots, Relation.ReflTransGen (fun x y => y ∈ (c.blocks x).successors) r x

/-- The start block `p`, the blocks of loops and exceptions and all targets of edges are linked. -/
structure Chained (c : ZendCfg) (p : ℕ) : Prop where
  start : p ∈ c.order
  roots : ∀ r ∈ c.roots, r ∈ c.order
  targets : ∀ x ∈ c.order, ∀ t ∈ (c.blocks x).successors, t ∈ c.order

/-- The marks and the sources of the linked blocks are exact. -/
structure Exact (c : ZendCfg) (p : ℕ) (c' : ZendCfg) : Prop where
  shape : ∀ x, (c'.blocks x).shape = (c.blocks x).shape
  access : ∀ x ∈ c.order, (c'.blocks x).access = true ↔ c.ReachableFrom p x
  nodup : ∀ x ∈ c.order, (c'.blocks x).sources.Nodup
  sources : ∀ x ∈ c.order, ∀ y, y ∈ (c'.blocks x).sources ↔
    y ∈ c.order ∧ (c'.blocks y).access = true ∧ x ∈ (c.blocks y).successors

theorem Chained.mem_order (h : c.Chained p) (hx : c.ReachableFrom p x) : x ∈ c.order := by
  obtain ⟨r, hr, hpath⟩ := hx
  induction hpath with
  | refl =>
    rcases List.mem_cons.mp hr with rfl | hr
    · exact h.start
    · exact h.roots r hr
  | tail _ hstep ih => exact h.targets _ ih _ hstep

theorem clearAccess_successors (x : ℕ) :
    (c.clearAccess.blocks x).successors = (c.blocks x).successors :=
  successors_of_shape (clearAccess_shape x)

theorem Chained.targets_mem (h : c.Chained p) : ∀ x ∈ c.order.toFinset,
    ∀ t ∈ (c.clearAccess.blocks x).successors, t ∈ c.order.toFinset := fun x hx t ht =>
  List.mem_toFinset.mpr (h.targets x (List.mem_toFinset.mp hx) t (clearAccess_successors x ▸ ht))

theorem Chained.roots_mem (h : c.Chained p) : ∀ r ∈ p :: c.roots, r ∈ c.order.toFinset :=
  fun r hr => List.mem_toFinset.mpr (h.mem_order ⟨r, hr, .refl⟩)

theorem card_unmarked_le_length (c' : ZendCfg) :
    (c'.unmarked c.order.toFinset).card ≤ c.order.length :=
  (Finset.card_filter_le _ _).trans (List.toFinset_card_le _)

/-- Only blocks that can be reached are marked. -/
theorem Chained.reachable_of_access (h : c.Chained p) :
    ∀ x ∈ c.order, (((p :: c.roots).foldl (accessPath n) c.clearAccess).blocks x).access = true →
      c.ReachableFrom p x := by
  classical
  have hmem : ∀ x, x ∈ c.order.toFinset.filter (c.ReachableFrom p) ↔ c.ReachableFrom p x :=
    fun x => by
    rw [Finset.mem_filter, List.mem_toFinset]
    exact and_iff_right_of_imp h.mem_order
  refine accessPaths_induction (V := c.order.toFinset.filter (c.ReachableFrom p))
    (I := fun c' => ∀ x ∈ c.order,
    (c'.blocks x).access = true → c.ReachableFrom p x) ?_ ?_ _ _ ?_ ?_ ?_
  · intro c' b hb _ hI x hx hacc
    by_cases hxb : x = b
    · exact hxb ▸ (hmem b).mp hb
    · exact hI x hx (by simpa [hxb] using hacc)
  · intro c' b t _ _ _ hI x hx hacc
    exact hI x hx (by simpa using hacc)
  · intro x hx t ht
    rw [clearAccess_successors] at ht
    obtain ⟨r, hr, hpath⟩ := (hmem x).mp hx
    exact (hmem t).mpr ⟨r, hr, hpath.tail ht⟩
  · exact fun r hr => (hmem r).mpr ⟨r, hr, .refl⟩
  · intro x hx hacc
    simp [clearAccess, hx] at hacc

/-- What the recursions leave, after the marks have been cleared. -/
theorem Chained.exact (h : c.Chained p) (hn : c.order.length ≤ n) :
    c.Exact p ((p :: c.roots).foldl (accessPath n) c.clearAccess) := by
  have hclear : ∀ x ∈ c.order, (c.clearAccess.blocks x).access = false ∧
      (c.clearAccess.blocks x).sources = [] := fun x hx => by simp [clearAccess, hx]
  obtain ⟨hmarks, hall⟩ := accessPaths_marks (p :: c.roots) c.clearAccess h.targets_mem h.roots_mem
    ((card_unmarked_le_length _).trans hn)
  have hfrom : SourcesFrom c.order.toFinset
      ((p :: c.roots).foldl (ZendCfg.accessPath n) c.clearAccess) := by
    refine accessPaths_induction (fun _ _ _ _ h => h.modify)
      (fun _ _ _ hb hacc ht h => h.addSource hb hacc ht) _ _ h.targets_mem h.roots_mem
      fun x hx => ?_
    rw [(hclear x (List.mem_toFinset.mp hx)).2]
    simp
  have hsub := h.reachable_of_access (n := n)
  generalize (p :: c.roots).foldl (ZendCfg.accessPath n) c.clearAccess = c' at *
  -- a marked block is linked to what it leads to
  have hclosed : ∀ x ∈ c.order, (c'.blocks x).access = true → ∀ t ∈ (c.blocks x).successors,
      (c'.blocks t).access = true ∧ x ∈ (c'.blocks t).sources := fun x hx hacc t ht =>
    hmarks.closed x hacc (hclear x hx).1 t ((clearAccess_successors x).symm ▸ ht)
  refine ⟨fun x => (hmarks.shape x).trans (clearAccess_shape x), fun x hx => ⟨hsub x hx, ?_⟩,
    fun x hx => (hfrom x (List.mem_toFinset.mpr hx)).1, fun x hx y => ⟨fun hy => ?_, ?_⟩⟩
  · rintro ⟨r, hr, hpath⟩
    clear hx
    induction hpath with
    | refl => exact hall r hr
    | tail hpath hstep ih => exact (hclosed _ (h.mem_order ⟨r, hr, hpath⟩) ih _ hstep).1
  · obtain ⟨hyV, hacc, hx'⟩ := (hfrom x (List.mem_toFinset.mpr hx)).2 y hy
    refine ⟨List.mem_toFinset.mp hyV, hacc, ?_⟩
    rwa [← clearAccess_successors y, ← hmarks.successors y]
  · rintro ⟨hy, hacc, hx'⟩
    exact (hclosed y hy hacc x hx').2

/-- `zend_rebuild_access_path` comes to an end, with exact marks and sources. -/
theorem rebuildAccessPath_exact {findStart : Bool}
    (hp : (if findStart then c.firstAccess else some 0) = some p) (h : c.Chained p) :
    ∃ c', rebuildAccessPathWithin (c.order.length + 1) findStart c = some c' ∧ c.Exact p c' := by
  have hrun := accessPathsWithin_eq (n := c.order.length + 1) (p :: c.roots) c.clearAccess
    h.targets_mem h.roots_mem (Nat.lt_succ_of_le (card_unmarked_le_length _))
  have hstart : rebuildAccessPathWithin (c.order.length + 1) findStart c =
      (p :: c.roots).foldlM (accessPathWithin (c.order.length + 1)) c.clearAccess := by
    cases findStart with
    | false =>
      cases hp
      rfl
    | true =>
      have hfirst : c.firstAccess = some p := hp
      change c.firstAccess.bind _ = _
      rw [hfirst]
      rfl
  exact ⟨_, hstart.trans hrun, h.exact (Nat.le_succ _)⟩

/-- What `find_code_blocks` builds is linked, for code without a `finally`. -/
theorem chained_of_findCodeBlocks {a : ZendOpArray} (h : a.WellFormed)
    (hfinally : a.hasFinallyBlock = false) (hfind : a.findCodeBlocks = some c) : c.Chained 0 := by
  have horder := (ZendOpArray.findCodeBlocks_blocks hfind).1
  have hmem : ∀ x ∈ a.blockStarts, x ∈ c.order := fun x hx =>
    horder ▸ List.mem_append_left _ hx
  refine ⟨(ZendOpArray.findCodeBlocks_layout hfind).2,
    fun r hr => hmem r (h.root_mem hfind r hr), fun x _ t ht => hmem t ?_⟩
  unfold ZendOpArray.findCodeBlocks at hfind
  split_ifs at hfind
  cases hfind
  dsimp only at ht
  split_ifs at ht
  · exact h.successor_mem hfinally ht
  · cases ht

/-- Two blocks in a loop with parallel edges, one that nothing leads to, and one behind a `catch` -/
theorem rebuildAccessPath_exact_loop :
    ∃ c', rebuildAccessPathWithin 5 false
        ⟨fun b => if b = 0 then { ZendCodeBlock.zero with op2To := some 1, followTo := some 1 }
          else if b = 1 then { ZendCodeBlock.zero with op1To := some 0 }
          else if b = 2 then { ZendCodeBlock.zero with followTo := some 3 }
          else ZendCodeBlock.zero, [0, 1, 2, 3], 4, [(0, 3)], [], [], 0⟩ = some c' ∧
      Exact
        ⟨fun b => if b = 0 then { ZendCodeBlock.zero with op2To := some 1, followTo := some 1 }
          else if b = 1 then { ZendCodeBlock.zero with op1To := some 0 }
          else if b = 2 then { ZendCodeBlock.zero with followTo := some 3 }
          else ZendCodeBlock.zero, [0, 1, 2, 3], 4, [(0, 3)], [], [], 0⟩ 0 c' :=
  rebuildAccessPath_exact rfl ⟨by decide, by decide, by decide⟩

end ZendCfg

end ZendOpcache
