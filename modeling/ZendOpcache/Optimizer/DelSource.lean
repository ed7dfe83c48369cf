import ZendOpcache.Optimizer.FallThrough

/-! # Removing sources and blocks

`del_source` takes the access of a block that nothing else enters, or joins it with its
only predecessor; `delete_code_block` lets the predecessors of a block of `NOP`s skip it. Both keep
the invariant, the first under a guard.
-/

namespace ZendOpcache

namespace ZendCfg

variable {c c' : ZendCfg} {E L : Set ℕ} {b e k s t x y X : ℕ}

section ReplaceSource

variable {old new : ℕ}

/-- The other sources stay, `new` takes the place of `old`, and no source is listed twice. -/
theorem replaceSource_spec (found : Bool) (l l' : List ℕ)
    (h : replaceSource old new found l = some l') (hne : old ≠ new) :
    (∀ y ∈ l, y ≠ old → y ≠ new → y ∈ l') ∧
    (old ∈ l ∨ new ∈ l → new ∈ l' ∨ found = true) ∧
    (∀ y ∈ l', y ∈ l ∨ y = new ∧ found = false) ∧
    (l.Nodup → (found = true → new ∉ l ∨ old ∉ l) → l'.Nodup ∧ (found = true → new ∉ l')) := by
  fun_induction replaceSource old new found l generalizing l' with
  | case1 => simp_all
  | case2 => simp_all
  | case3 => simp_all
  | case7 => simp_all
  | _ =>
    obtain ⟨l₂, hl₂, rfl⟩ := Option.map_eq_some_iff.mp h
    rename_i ih
    have := ih l₂ hl₂
    clear ih h hl₂
    simp only [List.nodup_cons, List.mem_cons] at *
    grind

/-- The sources change, but for `old` none is lost. -/
structure Relisted (old : ℕ) (c c' : ZendCfg) : Prop where
  order : c'.order = c.order
  size : c'.size = c.size
  roots : c'.roots = c.roots
  access : ∀ x, (c'.blocks x).access = (c.blocks x).access
  shape : ∀ x, (c'.blocks x).shape = (c.blocks x).shape
  sources : ∀ x, ∀ y ∈ (c.blocks x).sources, y ≠ old → y ∈ (c'.blocks x).sources
  nodup : (∀ x, (c.blocks x).sources.Nodup) → ∀ x, (c'.blocks x).sources.Nodup

theorem Relisted.trans {c'' : ZendCfg} (h : Relisted old c c') (h' : Relisted old c' c'') :
    Relisted old c c'' where
  order := h'.order.trans h.order
  size := h'.size.trans h.size
  roots := h'.roots.trans h.roots
  access x := (h'.access x).trans (h.access x)
  shape x := (h'.shape x).trans (h.shape x)
  sources x y hy hne := h'.sources x y (h.sources x y hy hne) hne
  nodup hn := h'.nodup (h.nodup hn)

theorem Relisted.refl (old : ℕ) (c : ZendCfg) : Relisted old c c where
  order := rfl
  size := rfl
  roots := rfl
  access _ := rfl
  shape _ := rfl
  sources _ _ hy _ := hy
  nodup h := h

theorem replaceSourceOf_spec (hne : old ≠ new) {target : Option ℕ}
    (h : replaceSourceOf old new c target = some c') :
    Relisted old c c' ∧ ∀ t, target = some t →
      (old ∈ (c.blocks t).sources ∨ new ∈ (c.blocks t).sources) →
        new ∈ (c'.blocks t).sources := by
  cases target with
  | none =>
    obtain rfl : c = c' := Option.some.inj h
    exact ⟨.refl _ _, by simp⟩
  | some t =>
    obtain ⟨l, hl, rfl⟩ := Option.map_eq_some_iff.mp h
    obtain ⟨hkeep, hnew, -, hnodup⟩ := replaceSource_spec false _ _ hl hne
    have hnew : old ∈ (c.blocks t).sources ∨ new ∈ (c.blocks t).sources → new ∈ l := by
      simpa using hnew
    refine ⟨⟨rfl, rfl, rfl, fun x => ?_, fun x => ?_, fun x y hy hyo => ?_, fun hn x => ?_⟩, ?_⟩
    · rw [modify_blocks]; split_ifs <;> rfl
    · rw [modify_blocks]; split_ifs <;> rfl
    · by_cases hx : x = t
      · subst hx
        rw [modify_blocks_self]
        by_cases hyn : y = new
        · exact hyn ▸ hnew (.inr (hyn ▸ hy))
        · exact hkeep y hy hyo hyn
      · simpa [hx] using hy
    · by_cases hx : x = t
      · subst hx
        simpa using (hnodup (hn x) (by simp)).1
      · simpa [hx] using hn x
    · intro t' ht'
      obtain rfl := Option.some.inj ht'
      simpa using hnew

theorem replaceSources_spec (hne : old ≠ new) : ∀ {targets : List (Option ℕ)} {c c' : ZendCfg},
    targets.foldlM (replaceSourceOf old new) c = some c' →
      Relisted old c c' ∧ ∀ t, some t ∈ targets →
        (old ∈ (c.blocks t).sources ∨ new ∈ (c.blocks t).sources) →
          new ∈ (c'.blocks t).sources
  | [], c, c', h => by
    obtain rfl : c = c' := Option.some.inj h
    exact ⟨.refl _ _, by simp⟩
  | target :: targets, c, c', h => by
    rw [List.foldlM_cons] at h
    obtain ⟨c₁, h₁, h⟩ := Option.bind_eq_some_iff.mp h
    obtain ⟨hr₁, hnew₁⟩ := replaceSourceOf_spec hne h₁
    obtain ⟨hr, hnew⟩ := replaceSources_spec hne h
    refine ⟨hr₁.trans hr, fun t ht hold => ?_⟩
    by_cases heq : target = some t
    · exact hr.sources t new (hnew₁ t heq hold) hne.symm
    · have hmem : some t ∈ targets := (List.mem_cons.mp ht).resolve_left (Ne.symm heq)
      refine hnew t hmem ?_
      by_cases hn : new ∈ (c.blocks t).sources
      · exact .inr (hr₁.sources t new hn hne.symm)
      · -- the list of `t` has not been rewritten yet
        left
        have hsame : (c₁.blocks t).sources = (c.blocks t).sources := by
          cases target with
          | none =>
            obtain rfl : c = c₁ := Option.some.inj h₁
            rfl
          | some u =>
            obtain ⟨l, -, rfl⟩ := Option.map_eq_some_iff.mp h₁
            have hne' : t ≠ u := fun h => heq (h ▸ rfl)
            simp [hne']
        rw [hsame]
        exact hold.resolve_right hn

end ReplaceSource

theorem falls_of_shape (hshape : ∀ x, (c'.blocks x).shape = (c.blocks x).shape)
    (hf : c.Falls E x y) : c'.Falls E x y := by
  obtain ⟨hx, hnop, hfollow⟩ := hf
  refine ⟨hx, ?_, ?_⟩
  · rw [ZendCodeBlock.NopOnly, ← ZendCodeBlock.shape_oplines, hshape]
    exact hnop
  · rw [← ZendCodeBlock.shape_followTo, hshape]
    exact hfollow

theorem le_of_fallsTo (h : ∀ x ∉ E, ∀ t, (c.blocks x).followTo = some t → x < t)
    (hf : c.FallsTo E x y) : x ≤ y := by
  induction hf with
  | refl => exact le_rfl
  | tail _ hstep ih => exact ih.trans (h _ hstep.1 _ hstep.2.2).le

namespace Live

/-- The marks of the blocks change. -/
theorem reshape {L' : Set ℕ} (h : c.Live {b} L e) (horder : c'.order = c.order)
    (hsize : c'.size = c.size) (hroots : c'.roots = c.roots)
    (hshape : ∀ x, (c'.blocks x).shape = (c.blocks x).shape) (hL : L' ⊆ L)
    (hacc : ∀ x, (c'.blocks x).access = true → x ∈ L')
    (hdel : ∀ x ∈ L', (c'.blocks x).access = false → (c.blocks x).access = false)
    (hedge : ∀ x ∈ L', x ≠ b → ∀ t ∈ (c.blocks x).successors,
      (c'.blocks t).access = true ∧ x ∈ (c'.blocks t).sources)
    (hnodup : ∀ x, (c'.blocks x).sources.Nodup) (hr : ∀ r ∈ c.roots, r ∈ L') (he : e ∈ L') :
    c'.Live {b} L' e := by
  have hsucc : ∀ x, (c'.blocks x).successors = (c.blocks x).successors := fun x => by
    rw [← ZendCodeBlock.shape_successors, hshape, ZendCodeBlock.shape_successors]
  have hfollow : ∀ x, (c'.blocks x).followTo = (c.blocks x).followTo := fun x => by
    rw [← ZendCodeBlock.shape_followTo, hshape, ZendCodeBlock.shape_followTo]
  obtain ⟨V, hcard, hLV, hV⟩ := h.bound
  constructor
  · exact horder ▸ h.sorted
  · exact ⟨V, hsize ▸ hcard, fun x hx => hLV x (hL hx), fun x hx => hsucc x ▸ hV x hx⟩
  · exact fun x hx => by
      rw [horder, hsucc]
      exact h.edgeless x hx
  · exact fun x hx t ht => by
      rw [horder]
      exact h.follow x hx t (hfollow x ▸ ht)
  · exact hacc
  · exact fun x hx hxb hxacc => by
      rw [ZendCodeBlock.NopOnly, ← ZendCodeBlock.shape_oplines, hshape, hfollow]
      exact h.deleted x (hL hx) hxb (hdel x hx hxacc)
  · exact fun x hx hxb t ht => hedge x hx hxb t (hsucc x ▸ ht)
  · exact fun x hx hxb t ht m hm ho hxm hmt =>
      (h.gap x (hL hx) hxb t (hfollow x ▸ ht) m (hL hm) (horder ▸ ho) hxm hmt).mono
        fun _ _ hf => falls_of_shape hshape hf
  · exact hnodup
  · exact fun r hroot => hr r (hroots ▸ hroot)
  · exact ⟨he, horder ▸ h.entry_mem.2⟩
  · exact fun m hm ho => h.entry_le m (hL hm) (horder ▸ ho)

/-- One source less of a block. -/
theorem eraseSource (h : c.Live {b} L e) (X : ℕ) :
    (c.modify X ({ · with sources := (c.blocks X).sources.erase b })).Live {b} L e := by
  have hacc : ∀ x, ((c.modify X ({ · with sources := (c.blocks X).sources.erase b })).blocks
      x).access =
      (c.blocks x).access := fun x => by rw [modify_blocks]; split_ifs <;> rfl
  refine h.reshape rfl rfl rfl (fun x => ?_) (fun _ h => h) (fun x hx => h.access x (hacc x ▸ hx))
    (fun x _ hx => hacc x ▸ hx) (fun x hx hxb t ht => ?_) (fun x => ?_) h.roots h.entry_mem.1
  · rw [modify_blocks]; split_ifs <;> rfl
  · obtain ⟨htacc, hsrc⟩ := h.edge x hx hxb t ht
    refine ⟨(hacc t).trans htacc, ?_⟩
    by_cases htX : t = X
    · subst htX
      simpa using (List.mem_erase_of_ne hxb).mpr hsrc
    · simpa [htX] using hsrc
  · by_cases hxX : x = X
    · subst hxX
      simpa using (h.nodup x).erase b
    · simpa [hxX] using h.nodup x

/-- A block without sources is left. -/
theorem cut (h : c.Live {b} L e) (hX : (c.blocks X).sources = []) (hXe : X ≠ e)
    (hXr : X ∉ c.roots) :
    (c.modify X ({ · with access := false })).Live {b} (L \ {X}) e := by
  refine h.reshape rfl rfl rfl (fun x => ?_) Set.sdiff_subset (fun x hx => ?_)
    (fun x hx hxacc => ?_)
    (fun x hx hxb t ht => ?_) (fun x => ?_) (fun r hr => ⟨h.roots r hr, ?_⟩)
    ⟨h.entry_mem.1, hXe.symm⟩
  · rw [modify_blocks]; split_ifs <;> rfl
  · by_cases hxX : x = X
    · subst hxX; simp at hx
    · exact ⟨h.access x (by simpa [hxX] using hx), hxX⟩
  · have hxX : x ≠ X := hx.2
    simpa [hxX] using hxacc
  · obtain ⟨htacc, hsrc⟩ := h.edge x hx.1 hxb t ht
    have htX : t ≠ X := by
      rintro rfl
      simp [hX] at hsrc
    simpa [htX] using ⟨htacc, hsrc⟩
  · by_cases hxX : x = X
    · subst hxX; simpa using h.nodup x
    · simpa [hxX] using h.nodup x
  · rintro rfl
    exact hXr hr

end Live

/-- What `join` does to the graph. -/
structure Joined (c c' : ZendCfg) (s X : ℕ) : Prop where
  order : c'.order = c.order
  size : c'.size = c.size
  roots : c'.roots = c.roots
  follow : (c.blocks s).followTo = some X
  access_self : (c.blocks s).access = true
  access : ∀ x, x ≠ X → (c'.blocks x).access = (c.blocks x).access
  not_access : (c'.blocks X).access = false
  shape : ∀ x, x ≠ s → x ≠ X → (c'.blocks x).shape = (c.blocks x).shape
  edges : ∀ x, x ≠ s → (c'.blocks x).edges = (c.blocks x).edges
  edges_self : (c'.blocks s).edges = (c.blocks X).edges
  nopOnly : (c.blocks s).NopOnly → (c.blocks X).NopOnly → (c'.blocks s).NopOnly
  sources : ∀ x, x ≠ X → ∀ y ∈ (c.blocks x).sources, y ≠ X → y ∈ (c'.blocks x).sources
  listed : ∀ t ∈ (c.blocks X).successors, t ≠ X → X ∈ (c.blocks t).sources →
    s ∈ (c'.blocks t).sources
  nodup : (∀ x, (c.blocks x).sources.Nodup) → ∀ x, (c'.blocks x).sources.Nodup

theorem join_spec (hsX : s ≠ X) (hj : c.joinable s X = true) (h : c.join s X = some c') :
    Joined c c' s X := by
  simp only [joinable, Bool.and_eq_true, beq_iff_eq] at hj
  obtain ⟨⟨⟨⟨⟨-, haccs⟩, hfollow⟩, hop1⟩, hop2⟩, hext⟩ := hj
  simp only [join, Option.bind_eq_bind, Option.bind_eq_some_iff] at h
  obtain ⟨toOplines, hto, fromOplines, hfrom, h⟩ := h
  obtain ⟨hr, hnew⟩ := replaceSources_spec hsX.symm h
  generalize hmid : (ZendCfg.modify (c.modify X _) s _) = mid at h hr hnew
  have hs : mid.blocks s =
      { c.blocks s with
        oplines := some (fromOplines ++ toOplines)
        op1To := (c.blocks X).op1To
        op2To := (c.blocks X).op2To
        extTo := (c.blocks X).extTo
        followTo := (c.blocks X).followTo } := by
    rw [← hmid]
    simp [hsX, hop1, hop2, hext]
  have hX : mid.blocks X = { c.blocks X with oplines := none, access := false, sources := [] } := by
    rw [← hmid]
    simp [hsX.symm]
  have hother : ∀ x, x ≠ s → x ≠ X → mid.blocks x = c.blocks x := fun x h h' => by
    rw [← hmid]
    simp [h, h']
  have hedges : ∀ x, (c'.blocks x).edges = (mid.blocks x).edges := fun x => by
    rw [← ZendCodeBlock.shape_edges, hr.shape, ZendCodeBlock.shape_edges]
  constructor
  · rw [hr.order, ← hmid]; rfl
  · rw [hr.size, ← hmid]; rfl
  · rw [hr.roots, ← hmid]; rfl
  · exact hfollow
  · exact haccs
  · intro x hx
    rw [hr.access]
    by_cases hxs : x = s
    · rw [hxs, hs]
    · rw [hother x hxs hx]
  · rw [hr.access, hX]
  · intro x hxs hx
    rw [hr.shape, hother x hxs hx]
  · intro x hxs
    rw [hedges]
    by_cases hx : x = X
    · rw [hx, hX]; rfl
    · rw [hother x hxs hx]
  · rw [hedges, hs]; rfl
  · rintro ⟨ops, hops, hnop⟩ ⟨ops', hops', hnop'⟩
    obtain rfl : ops = fromOplines := Option.some.inj (hops.symm.trans hfrom)
    obtain rfl : ops' = toOplines := Option.some.inj (hops'.symm.trans hto)
    refine ⟨ops ++ ops', ?_, fun o ho => (List.mem_append.mp ho).elim (hnop o) (hnop' o)⟩
    rw [← ZendCodeBlock.shape_oplines, hr.shape, hs]
    rfl
  · intro x hx y hy hne
    refine hr.sources x y ?_ hne
    by_cases hxs : x = s
    · rw [hxs, hs]; exact hxs ▸ hy
    · rwa [hother x hxs hx]
  · intro t ht htX hsrc
    refine hnew t (ZendCodeBlock.mem_successors.mp ht) (.inl ?_)
    by_cases hts : t = s
    · rw [hts, hs]; exact hts ▸ hsrc
    · rwa [hother t hts htX]
  · intro hn
    refine hr.nodup fun x => ?_
    by_cases hxs : x = s
    · rw [hxs, hs]; exact hn s
    · by_cases hx : x = X
      · rw [hx, hX]; exact List.nodup_nil
      · rw [hother x hxs hx]; exact hn x

namespace Live

/-- After a join, what fell to the joined block stops before it. -/
theorem fallsTo_join (h : c.Live {b} L e) (hj : Joined c c' s X) (hsX : s ≠ X) (hXb : X ≠ b)
    (hsrc : (c.blocks X).sources = [s]) (hf : c.FallsTo {b} x q) : x ∈ L →
      if x = X then q = X ∨ (c.blocks X).NopOnly ∧
        ∃ w, (c.blocks X).followTo = some w ∧ c'.FallsTo {b} w q
      else c'.FallsTo {b} x (if q = X then s else q) := by
  induction hf using Relation.ReflTransGen.head_induction_on with
  | refl =>
    intro hx
    by_cases hqX : q = X <;> simp [hqX, Relation.ReflTransGen.refl]
  | head hstep hrest ih =>
    rename_i u v
    intro hu
    obtain ⟨hub, hnop, hfollow⟩ := hstep
    have hmem := followTo_mem_successors hfollow
    obtain ⟨hvacc, hvsrc⟩ := h.edge u hu hub v hmem
    have hvL := h.access v hvacc
    by_cases huX : u = X
    · -- the block is the joined one, which is no edge of its own
      subst huX
      have hvX : v ≠ u := by
        rintro rfl
        rw [hsrc, List.mem_singleton] at hvsrc
        exact hsX hvsrc.symm
      have hv := ih hvL
      rw [if_neg hvX] at hv
      rw [if_pos rfl]
      by_cases hqX : q = u
      · exact .inl hqX
      · rw [if_neg hqX] at hv
        exact .inr ⟨hnop, v, hfollow, hv⟩
    · rw [if_neg huX]
      by_cases hvX : v = X
      · subst hvX
        -- only `s` leads to the joined block
        have hus : u = s := by simpa [hsrc] using hvsrc
        subst hus
        have hv := ih hvL
        rw [if_pos rfl] at hv
        rcases hv with rfl | ⟨hnopv, w, hw, hwq⟩
        · rw [if_pos rfl]
        · have hfollow' : (c'.blocks u).followTo = some w := by
            rw [followTo_eq_of_edges hj.edges_self, hw]
          have hstep' : c'.Falls {b} u w := ⟨hub, hj.nopOnly hnop hnopv, hfollow'⟩
          split_ifs with hqX
          · exact .refl
          · exact .head hstep' hwq
      · have hus : u ≠ s := by
          rintro rfl
          exact hvX (Option.some.inj (hfollow.symm.trans hj.follow))
        have hv := ih hvL
        rw [if_neg hvX] at hv
        refine .head ⟨hub, ?_, ?_⟩ hv
        · rw [ZendCodeBlock.NopOnly, ← ZendCodeBlock.shape_oplines, hj.shape u hus huX]
          exact hnop
        · rw [followTo_eq_of_edges (hj.edges u hus), hfollow]

theorem meets_join (h : c.Live {b} L e) (hj : Joined c c' s X) (hsX : s ≠ X) (hXb : X ≠ b)
    (hsrc : (c.blocks X).sources = [s]) (hx : x ∈ L \ {X}) (hy : y ∈ L \ {X})
    (hm : c.Meets {b} x y) : c'.Meets {b} x y := by
  obtain ⟨q, hxq, hyq⟩ := hm
  have hx' := h.fallsTo_join hj hsX hXb hsrc hxq hx.1
  have hy' := h.fallsTo_join hj hsX hXb hsrc hyq hy.1
  rw [if_neg (by exact hx.2)] at hx'
  rw [if_neg (by exact hy.2)] at hy'
  exact ⟨_, hx', hy'⟩

/-- A block is joined with its only predecessor, and is left. -/
theorem join (h : c.Live {b} L e) (hj : Joined c c' s X) (hsb : s ≠ b) (hs : s ∈ L)
    (hsX : s ≠ X) (hXb : X ≠ b)
    (hsrc : (c.blocks X).sources = [s]) (hX : X ∉ c.roots) : c'.Live {b} (L \ {X}) e := by
  obtain ⟨V, hcard, hLV, hV⟩ := h.bound
  have hXL : X ∈ L := h.access X (h.edge s hs hsb X (followTo_mem_successors hj.follow)).1
  have hsucc : ∀ x, x ≠ s → (c'.blocks x).successors = (c.blocks x).successors :=
    fun x hx => successors_eq_of_edges (hj.edges x hx)
  have hsuccs : (c'.blocks s).successors = (c.blocks X).successors :=
    successors_eq_of_edges hj.edges_self
  have hfollow : ∀ x, x ≠ s → (c'.blocks x).followTo = (c.blocks x).followTo :=
    fun x hx => followTo_eq_of_edges (hj.edges x hx)
  have hfollows : (c'.blocks s).followTo = (c.blocks X).followTo :=
    followTo_eq_of_edges hj.edges_self
  have hsltX := (h.follow s hsb X hj.follow).1
  -- nothing but `s` leads to `X`
  have honly : ∀ x ∈ L, x ≠ b → X ∈ (c.blocks x).successors → x = s := fun x hx hxb ht => by
    simpa [hsrc] using (h.edge x hx hxb X ht).2
  have hfollow' : ∀ x ∉ ({b} : Set ℕ), ∀ t, (c'.blocks x).followTo = some t →
      x < t ∧ t ∈ c.order := by
    intro x hx t ht
    by_cases hxs : x = s
    · subst hxs
      obtain ⟨hlt, hto⟩ := h.follow X hXb t (hfollows ▸ ht)
      exact ⟨hsltX.trans hlt, hto⟩
    · exact h.follow x hx t (hfollow x hxs ▸ ht)
  have hso : s ∈ c.order := by
    by_contra hso
    have := followTo_mem_successors hj.follow
    rw [h.edgeless s hsb hso] at this
    simp at this
  constructor
  · exact hj.order ▸ h.sorted
  · refine ⟨V, hj.size ▸ hcard, fun x hx => hLV x hx.1, fun x hx => ?_⟩
    by_cases hxs : x = s
    · subst hxs
      exact hsuccs ▸ hV X hXb
    · exact hsucc x hxs ▸ hV x hx
  · intro x hx hxo
    rw [hj.order] at hxo
    have hxs : x ≠ s := fun heq => hxo (heq ▸ hso)
    exact hsucc x hxs ▸ h.edgeless x hx hxo
  · intro x hx t ht
    rw [hj.order]
    exact hfollow' x hx t ht
  · intro x hx
    have hxX : x ≠ X := by
      rintro rfl
      simp [hj.not_access] at hx
    exact ⟨h.access x (hj.access x hxX ▸ hx), hxX⟩
  · intro x hx hxb hxacc
    have hxX : x ≠ X := hx.2
    have hxacc : (c.blocks x).access = false := hj.access x hxX ▸ hxacc
    have hxs : x ≠ s := by
      rintro rfl
      simp [hj.access_self] at hxacc
    rw [ZendCodeBlock.NopOnly, ← ZendCodeBlock.shape_oplines, hj.shape x hxs hxX, hfollow x hxs]
    exact h.deleted x hx.1 hxb hxacc
  · intro x hx hxb t ht
    have hxX : x ≠ X := hx.2
    by_cases hxs : x = s
    · subst hxs
      rw [hsuccs] at ht
      obtain ⟨htacc, htsrc⟩ := h.edge X hXL hXb t ht
      have htX : t ≠ X := by
        rintro rfl
        rw [hsrc, List.mem_singleton] at htsrc
        exact hsX htsrc.symm
      exact ⟨(hj.access t htX).trans htacc, hj.listed t ht htX htsrc⟩
    · rw [hsucc x hxs] at ht
      obtain ⟨htacc, htsrc⟩ := h.edge x hx.1 hxb t ht
      have htX : t ≠ X := by
        rintro rfl
        exact hxs (honly x hx.1 hxb ht)
      exact ⟨(hj.access t htX).trans htacc, hj.sources t htX x htsrc hxX⟩
  · intro x hx hxb t ht m hm hmo hxm hmt
    have hmX : m ≠ X := hm.2
    rw [hj.order] at hmo
    by_cases hxs : x = s
    · subst hxs
      rw [hfollows] at ht
      have htL := h.access t (h.edge X hXL hXb t (followTo_mem_successors ht)).1
      have htX : t ≠ X := (h.follow X hXb t ht).1.ne'
      rcases lt_or_gt_of_ne hmX with hlt | hgt
      · -- what lies between the block and the joined one falls to what followed the latter
        obtain ⟨q, hmq, hXq⟩ := h.gap x hx.1 hxb X hj.follow m hm.1 hmo hxm hlt
        have hm' := h.fallsTo_join hj hsX hXb hsrc hmq hm.1
        have hX' := h.fallsTo_join hj hsX hXb hsrc hXq hXL
        rw [if_neg hmX] at hm'
        rw [if_pos rfl] at hX'
        have hqX : q ≠ X := by
          rintro rfl
          rw [if_pos rfl] at hm'
          have := le_of_fallsTo (fun x hx t ht => (hfollow' x hx t ht).1) hm'
          omega
        rw [if_neg hqX] at hm'
        obtain ⟨-, w, hw, hwq⟩ := hX'.resolve_left hqX
        obtain rfl : t = w := Option.some.inj (ht.symm.trans hw)
        exact ⟨q, hm', hwq⟩
      · exact h.meets_join hj hsX hXb hsrc hm ⟨htL, htX⟩ (h.gap X hXL hXb t ht m hm.1 hmo hgt hmt)
    · rw [hfollow x hxs] at ht
      have htX : t ≠ X := by
        rintro rfl
        exact hxs (honly x hx.1 hxb (followTo_mem_successors ht))
      have htL := h.access t (h.edge x hx.1 hxb t (followTo_mem_successors ht)).1
      exact h.meets_join hj hsX hXb hsrc hm ⟨htL, htX⟩ (h.gap x hx.1 hxb t ht m hm.1 hmo hxm hmt)
  · exact hj.nodup h.nodup
  · intro r hr
    rw [hj.roots] at hr
    exact ⟨h.roots r hr, fun heq => hX (heq ▸ hr)⟩
  · refine ⟨⟨h.entry_mem.1, ?_⟩, hj.order ▸ h.entry_mem.2⟩
    rintro rfl
    exact absurd (h.entry_le s hs hso) (by omega)
  · exact fun m hm hmo => h.entry_le m hm.1 (hj.order ▸ hmo)

end Live

/-- `del_source` takes the access of the block. -/
def takesAccess (c : ZendCfg) (fromb tob : ℕ) : Bool :=
  match (c.blocks tob).sources.erase fromb with
  | [] => true
  | [s] => c.joinable s tob
  | _ => false

/-- What the code does not check: the block keeps no other edge to the target, and the access is
taken from no block that the pass still needs. -/
def delGuard (c : ZendCfg) (fromb tob : ℕ) (kept new : List (Option ℕ)) : Bool :=
  !kept.contains (some tob) && (!c.takesAccess fromb tob ||
    (tob != fromb && c.firstAccess != some tob && !c.roots.contains tob &&
      !new.contains (some tob)))

/-- `del_source` where the guard lets it. -/
def guardedDel (c : ZendCfg) (fromb tob : ℕ) (kept new : List (Option ℕ)) : Option ZendCfg :=
  if c.delGuard fromb tob kept new then c.delSource fromb tob else none

/-- What is left of the graph after `del_source`, when the edges of `b` are being rewritten. -/
structure Dropped (b X : ℕ) (c c' : ZendCfg) (L L' : Set ℕ) (e : ℕ) : Prop where
  live : c'.Live {b} L' e
  order : c'.order = c.order
  size : c'.size = c.size
  sub : L' ⊆ L
  mem : ∀ y ∈ L, y ≠ X → y ∈ L'
  access : ∀ y, y ≠ X → (c'.blocks y).access = (c.blocks y).access
  block : (c'.blocks b).shape = (c.blocks b).shape
  held : ∀ y, y ≠ X → b ∈ (c.blocks y).sources → b ∈ (c'.blocks y).sources
  edges : ∀ t, X ≤ t → (c'.blocks t).edges = (c.blocks t).edges
  meets : ∀ m ∈ L', ∀ t ∈ L', c.Meets {b} m t → c'.Meets {b} m t

namespace Dropped

variable {L₁ L₂ : Set ℕ} {c₁ c₂ : ZendCfg}

theorem trans (h : Dropped b X c c₁ L L₁ e) (h' : Dropped b X c₁ c₂ L₁ L₂ e) :
    Dropped b X c c₂ L L₂ e where
  live := h'.live
  order := h'.order.trans h.order
  size := h'.size.trans h.size
  sub := h'.sub.trans h.sub
  mem y hy hne := h'.mem y (h.mem y hy hne) hne
  access y hne := (h'.access y hne).trans (h.access y hne)
  block := h'.block.trans h.block
  held y hne hb := h'.held y hne (h.held y hne hb)
  edges t ht := (h'.edges t ht).trans (h.edges t ht)
  meets m hm t ht hmeets := h'.meets m hm t ht (h.meets m (h'.sub hm) t (h'.sub ht) hmeets)

/-- Nothing but the sources and the mark of the block changes. -/
theorem of_shape {f : ZendCodeBlock → ZendCodeBlock} (hlive : (c.modify X f).Live {b} L₁ e)
    (hsub : L₁ ⊆ L) (hmem : ∀ y ∈ L, y ≠ X → y ∈ L₁)
    (hf : (f (c.blocks X)).shape = (c.blocks X).shape) : Dropped b X c (c.modify X f) L L₁ e := by
  have hshape : ∀ x, ((c.modify X f).blocks x).shape = (c.blocks x).shape := fun x => by
    rw [modify_blocks]
    split_ifs with hx
    · rw [hx, hf]
    · rfl
  constructor
  · exact hlive
  · rfl
  · rfl
  · exact hsub
  · exact hmem
  · exact fun y hne => by simp [hne]
  · exact hshape b
  · exact fun y hne hy => by simpa [hne] using hy
  · exact fun t _ => by rw [← ZendCodeBlock.shape_edges, hshape, ZendCodeBlock.shape_edges]
  · exact fun m _ t _ hm => hm.mono fun _ _ hf => falls_of_shape hshape hf

end Dropped

/-- What `find?` finds in an increasing list is the least. -/
theorem find?_sorted {l : List ℕ} {p : ℕ → Bool} (hs : l.Pairwise (· < ·))
    (h : l.find? p = some x) : x ∈ l ∧ p x = true ∧ ∀ m ∈ l, p m = true → x ≤ m := by
  refine ⟨List.mem_of_find?_eq_some h, List.find?_some h, fun m hm hpm => ?_⟩
  obtain ⟨-, as, bs, hsplit, has⟩ := List.find?_eq_some_iff_append.mp h
  rw [hsplit] at hs hm
  rcases List.mem_append.mp hm with hm | hm
  · simpa [hpm] using has m hm
  rcases List.mem_cons.mp hm with rfl | hm
  · exact le_rfl
  · exact (List.rel_of_pairwise_cons (List.pairwise_append.mp hs).2.1 hm).le

theorem exists_firstAccess (ho : x ∈ c.order) (hx : (c.blocks x).access = true) :
    ∃ y, c.firstAccess = some y :=
  Option.isSome_iff_exists.mp (List.find?_isSome.mpr ⟨x, ho, hx⟩)

theorem firstAccess_eq_some_iff (hs : c.order.Pairwise (· < ·)) : c.firstAccess = some x ↔
    x ∈ c.order ∧ (c.blocks x).access = true ∧
      ∀ m ∈ c.order, (c.blocks m).access = true → x ≤ m := by
  constructor
  · exact find?_sorted hs
  · rintro ⟨ho, hx, hle⟩
    obtain ⟨y, hy⟩ := exists_firstAccess ho hx
    obtain ⟨hyo, hyacc, hmin⟩ := find?_sorted hs hy
    rw [hy, le_antisymm (hmin x ho hx) (hle y hyo hyacc)]

namespace Live

theorem firstAccess (h : c.Live E L e) (he : (c.blocks e).access = true) :
    c.firstAccess = some e :=
  (firstAccess_eq_some_iff h.sorted).mpr
    ⟨h.entry_mem.2, he, fun m hm hacc => h.entry_le m (h.access m hacc) hm⟩

/-- The access is taken, under the guard. -/
theorem cut_dropped (h : c.Live {b} L e) (hX : (c.blocks X).sources = []) (hXe : X ≠ e)
    (hXr : X ∉ c.roots) :
    Dropped b X c (c.modify X ({ · with access := false })) L (L \ {X}) e :=
  .of_shape (h.cut hX hXe hXr) Set.sdiff_subset (fun _ hy hne => ⟨hy, hne⟩) rfl

theorem join_dropped (h : c.Live {b} L e) (hj : c.joinable s X = true)
    (hjoin : c.join s X = some c')
    (hsb : s ≠ b) (hXb : X ≠ b) (hsrc : (c.blocks X).sources = [s]) (hX : X ∉ c.roots) :
    Dropped b X c c' L (L \ {X}) e := by
  have hfollow : (c.blocks s).followTo = some X := by
    simp only [joinable, Bool.and_eq_true, beq_iff_eq] at hj
    exact hj.1.1.1.2
  have hlt := (h.follow s hsb X hfollow).1
  have hjoined := join_spec hlt.ne hj hjoin
  constructor
  · exact h.join hjoined hsb (h.access s hjoined.access_self) hlt.ne hXb hsrc hX
  · exact hjoined.order
  · exact hjoined.size
  · exact Set.sdiff_subset
  · exact fun y hy hne => ⟨hy, hne⟩
  · exact hjoined.access
  · exact hjoined.shape b hsb.symm hXb.symm
  · exact fun y hne hb => hjoined.sources y hne b hb hXb.symm
  · exact fun t ht => hjoined.edges t (by omega)
  · exact fun m hm t ht => h.meets_join hjoined hlt.ne hXb hsrc hm ht

/-- Under the guard, `del_source` keeps the invariant. -/
theorem delSource (h : c.Live {b} L e) {kept new : List (Option ℕ)}
    (hX : (c.blocks X).access = true)
    (hdel : c.guardedDel b X kept new = some c') : ∃ L', Dropped b X c c' L L' e ∧
      some X ∉ kept ∧ ((c'.blocks X).access = true ∨ X ≠ b ∧ some X ∉ new) := by
  unfold guardedDel at hdel
  split_ifs at hdel with hguard
  simp only [delGuard, Bool.and_eq_true, Bool.or_eq_true, Bool.not_eq_true', bne_iff_ne, ne_eq,
    List.contains_eq_mem, decide_eq_false_iff_not] at hguard
  obtain ⟨hkept, hguard⟩ := hguard
  have hXe : c.firstAccess ≠ some X → X ≠ e := by
    rintro hne rfl
    exact hne (h.firstAccess hX)
  unfold ZendCfg.delSource at hdel
  split_ifs at hdel with hnil
  · -- nothing leads to the block but the edge that goes
    obtain rfl := Option.some.inj hdel
    have htakes : c.takesAccess b X = true := by simp [takesAccess, hnil]
    obtain ⟨⟨⟨hXb, hfirst⟩, hroot⟩, hnew⟩ := hguard.resolve_left (by simp [htakes])
    exact ⟨_, h.cut_dropped hnil (hXe hfirst) hroot, hkept, .inr ⟨hXb, hnew⟩⟩
  · have hLX := h.eraseSource X
    have hdrop := Dropped.of_shape hLX subset_rfl (fun _ hy _ => hy) rfl
    generalize hc₁ : (c.modify X ({ · with sources := (c.blocks X).sources.erase b })) =
      c₁ at hLX hdrop
    have hsrc' : (c₁.blocks X).sources = (c.blocks X).sources.erase b := by simp [← hc₁]
    have hacc₁ : (c₁.blocks X).access = true := by simpa [← hc₁] using hX
    have hroots : c₁.roots = c.roots := by rw [← hc₁]; rfl
    have hjoinable : ∀ s, c₁.joinable s X = c.joinable s X := fun s => by
      rw [← hc₁]
      unfold joinable
      by_cases hs : s = X
      · subst hs; simp
      · simp [hs]
    unfold takesAccess at hguard
    simp only [hc₁] at hdel
    have hsrc := hsrc'
    generalize (c.blocks X).sources.erase b = sources at hsrc hguard hdel
    match sources with
    | [] =>
      obtain rfl := Option.some.inj hdel
      obtain ⟨⟨⟨hXb, hfirst⟩, hroot⟩, hnew⟩ := hguard.resolve_left (by simp)
      exact ⟨_, hdrop.trans (hLX.cut_dropped hsrc (hXe hfirst) (hroots ▸ hroot)), hkept,
        .inr ⟨hXb, hnew⟩⟩
    | [s] =>
      simp only [hjoinable] at hdel
      split_ifs at hdel with hj
      · obtain ⟨⟨⟨hXb, hfirst⟩, hroot⟩, hnew⟩ := hguard.resolve_left (by simp [hj])
        have hsb : s ≠ b := by
          rintro rfl
          have hmem : s ∈ (c₁.blocks X).sources := by simp [hsrc]
          rw [hsrc', (h.nodup X).mem_erase_iff] at hmem
          exact hmem.1 rfl
        exact ⟨_, hdrop.trans (hLX.join_dropped ((hjoinable s).trans hj) hdel hsb hXb hsrc
          (hroots ▸ hroot)), hkept, .inr ⟨hXb, hnew⟩⟩
      · obtain rfl := Option.some.inj hdel
        exact ⟨_, hdrop, hkept, .inl hacc₁⟩
    | _ :: _ :: _ =>
      obtain rfl := Option.some.inj hdel
      exact ⟨_, hdrop, hkept, .inl hacc₁⟩

end Live

section DeleteCodeBlock

/-- The edges of the blocks `ss` lead to `t` in place of `k`. -/
structure Redirected (k t : ℕ) (ss : List ℕ) (c c' : ZendCfg) : Prop where
  order : c'.order = c.order
  size : c'.size = c.size
  roots : c'.roots = c.roots
  access : ∀ x, (c'.blocks x).access = (c.blocks x).access
  oplines : ∀ x, (c'.blocks x).oplines = (c.blocks x).oplines
  edges : ∀ x, (c'.blocks x).edges =
    if x ∈ ss then (c.blocks x).edges.map (redirectEdge k t) else (c.blocks x).edges
  sources : ∀ x, (c.blocks x).sources ⊆ (c'.blocks x).sources
  listed : ∀ x ∈ ss, some k ∈ (c.blocks x).edges → x ∈ (c'.blocks t).sources
  nodup : (∀ x, (c.blocks x).sources.Nodup) → ∀ x, (c'.blocks x).sources.Nodup

theorem redirect_spec (c : ZendCfg) (k t s : ℕ) : Redirected k t [s] c (c.redirect k t s) := by
  unfold redirect
  generalize hc₁ : c.modify s _ = c₁
  have hs : c₁.blocks s =
      { c.blocks s with
        op1To := redirectEdge k t (c.blocks s).op1To
        op2To := redirectEdge k t (c.blocks s).op2To
        extTo := redirectEdge k t (c.blocks s).extTo
        followTo := redirectEdge k t (c.blocks s).followTo } := by
    rw [← hc₁, modify_blocks_self]
  have hother : ∀ x, x ≠ s → c₁.blocks x = c.blocks x := fun x hx => by
    rw [← hc₁, modify_blocks_of_ne hx]
  have h₁ : c₁.order = c.order ∧ c₁.size = c.size ∧ c₁.roots = c.roots := by
    subst hc₁; exact ⟨rfl, rfl, rfl⟩
  have hblock : ∀ x, (c₁.blocks x).access = (c.blocks x).access ∧
      (c₁.blocks x).oplines = (c.blocks x).oplines ∧
      (c₁.blocks x).sources = (c.blocks x).sources ∧
      (c₁.blocks x).edges =
        if x ∈ [s] then (c.blocks x).edges.map (redirectEdge k t) else (c.blocks x).edges := by
    intro x
    by_cases hx : x = s
    · subst hx
      simp [hs, ZendCodeBlock.edges]
    · simp [hother x hx, hx]
  change Redirected k t [s] c (if some k ∈ (c.blocks s).edges then c₁.addSource s t else c₁)
  split_ifs with hk
  · -- the block is listed as a source
    constructor
    · exact h₁.1
    · exact h₁.2.1
    · exact h₁.2.2
    · exact fun x => by rw [addSource_access, (hblock x).1]
    · exact fun x => by
        rw [← ZendCodeBlock.shape_oplines, addSource_shape, ZendCodeBlock.shape_oplines,
          (hblock x).2.1]
    · exact fun x => by
        rw [← ZendCodeBlock.shape_edges, addSource_shape, ZendCodeBlock.shape_edges,
          (hblock x).2.2.2]
    · exact fun x => (hblock x).2.2.1 ▸ sources_subset_addSource
    · exact fun x hx _ => List.mem_singleton.mp hx ▸ mem_addSource
    · exact fun hn x => nodup_addSource ((hblock x).2.2.1 ▸ hn x)
  · constructor
    · exact h₁.1
    · exact h₁.2.1
    · exact h₁.2.2
    · exact fun x => (hblock x).1
    · exact fun x => (hblock x).2.1
    · exact fun x => (hblock x).2.2.2
    · exact fun x => (hblock x).2.2.1 ▸ List.Subset.refl _
    · exact fun x hx hmem => absurd (List.mem_singleton.mp hx ▸ hmem) hk
    · exact fun hn x => (hblock x).2.2.1 ▸ hn x

theorem redirectEdge_redirectEdge (hkt : t ≠ k) (o : Option ℕ) :
    redirectEdge k t (redirectEdge k t o) = redirectEdge k t o := by
  unfold redirectEdge
  split_ifs with h h' <;> simp_all

theorem Redirected.trans {ss ss' : List ℕ} {c₁ : ZendCfg} (hkt : t ≠ k)
    (h : Redirected k t ss c c₁) (h' : Redirected k t ss' c₁ c') :
    Redirected k t (ss ++ ss') c c' where
  order := h'.order.trans h.order
  size := h'.size.trans h.size
  roots := h'.roots.trans h.roots
  access x := (h'.access x).trans (h.access x)
  oplines x := (h'.oplines x).trans (h.oplines x)
  edges x := by
    rw [h'.edges, h.edges]
    by_cases hx : x ∈ ss <;> by_cases hx' : x ∈ ss' <;>
      simp [hx, hx', Function.comp_def, redirectEdge_redirectEdge hkt]
  sources x := List.Subset.trans (h.sources x) (h'.sources x)
  listed x hx hmem := by
    by_cases hxs : x ∈ ss
    · exact h'.sources t (h.listed x hxs hmem)
    · have hxs' : x ∈ ss' := (List.mem_append.mp hx).resolve_left hxs
      exact h'.listed x hxs' (by rwa [h.edges, if_neg hxs])
  nodup hn := h'.nodup (h.nodup hn)

theorem redirect_foldl_spec (hkt : t ≠ k) : ∀ (ss : List ℕ) (c : ZendCfg),
    Redirected k t ss c (ss.foldl (fun c s => c.redirect k t s) c)
  | [], c => by
    constructor <;> simp
  | s :: ss, c => (redirect_spec c k t s).trans hkt (redirect_foldl_spec hkt ss (c.redirect k t s))

/-- A block of `NOP`s is deleted: its predecessors skip it, and it still falls to what follows. -/
theorem Live.deleteCodeBlock (h : c.Live ∅ L e) (hacc : (c.blocks k).access = true)
    (hnop : (c.blocks k).NopOnly) (ht : (c.blocks k).followTo = some t) :
    (c.deleteCodeBlock k).Live ∅ L e ∧ (c.deleteCodeBlock k).order = c.order := by
  unfold ZendCfg.deleteCodeBlock
  split_ifs
  · exact ⟨h, rfl⟩
  simp only [ht]
  have hkL := h.access k hacc
  have hno : ∀ x, x ∉ (∅ : Set ℕ) := by simp
  obtain ⟨hkt, hto⟩ := h.follow k (hno k) t ht
  have htsucc := followTo_mem_successors ht
  have hr := redirect_foldl_spec hkt.ne' (c.blocks k).sources c
  generalize (c.blocks k).sources.foldl _ c = c₁ at hr
  generalize hc' : (c₁.modify k _) = c'
  have horder : c'.order = c.order := by rw [← hr.order, ← hc']; rfl
  have hsize : c'.size = c.size := by rw [← hr.size, ← hc']; rfl
  have hroots : c'.roots = c.roots := by rw [← hr.roots, ← hc']; rfl
  have hacck : (c'.blocks k).access = false := by simp [← hc']
  have hacc' : ∀ x, x ≠ k → (c'.blocks x).access = (c.blocks x).access := fun x hx => by
    rw [← hr.access, ← hc', modify_blocks_of_ne hx]
  have hshape : ∀ x, (c'.blocks x).shape = (c₁.blocks x).shape := fun x => by
    rw [← hc', modify_blocks]
    split_ifs <;> rfl
  have hops : ∀ x, (c'.blocks x).oplines = (c.blocks x).oplines := fun x => by
    rw [← hr.oplines, ← ZendCodeBlock.shape_oplines, hshape, ZendCodeBlock.shape_oplines]
  have hsrc : ∀ x, (c'.blocks x).sources = (c₁.blocks x).sources := fun x => by
    rw [← hc', modify_blocks]
    split_ifs <;> rfl
  have hedges : ∀ x, (c'.blocks x).edges = if x ∈ (c.blocks k).sources then
      (c.blocks x).edges.map (redirectEdge k t) else (c.blocks x).edges := fun x => by
    rw [← hr.edges, ← ZendCodeBlock.shape_edges, hshape, ZendCodeBlock.shape_edges]
  -- an edge of the new graph is an old one, or leads to `t` where the old one led to `k`
  have hfollow : ∀ x, (c'.blocks x).followTo = if x ∈ (c.blocks k).sources then
      redirectEdge k t (c.blocks x).followTo else (c.blocks x).followTo := fun x => by
    have := hedges x
    simp only [ZendCodeBlock.edges] at this
    split_ifs at this ⊢ with hx
    · simp only [List.map_cons, List.cons.injEq] at this
      exact this.2.2.2.1
    · simp only [List.cons.injEq] at this
      exact this.2.2.2.1
  have hsucc : ∀ x u, u ∈ (c'.blocks x).successors → (u ∈ (c.blocks x).successors ∧
      (u = k → x ∉ (c.blocks k).sources)) ∨ u = t ∧ k ∈ (c.blocks x).successors ∧
        x ∈ (c.blocks k).sources := by
    intro x u hu
    rw [ZendCodeBlock.mem_successors, hedges] at hu
    split_ifs at hu with hx
    · obtain ⟨o, ho, hou⟩ := List.mem_map.mp hu
      unfold redirectEdge at hou
      split_ifs at hou with hok
      · subst hok
        exact .inr ⟨(Option.some.inj hou).symm, ZendCodeBlock.mem_successors.mpr ho, hx⟩
      · subst hou
        exact .inl ⟨ZendCodeBlock.mem_successors.mpr ho, fun huk => absurd (huk ▸ rfl) hok⟩
    · exact .inl ⟨ZendCodeBlock.mem_successors.mpr hu, fun _ => hx⟩
  have hfollowk : (c'.blocks k).followTo = some t := by
    rw [hfollow, ht]
    have : redirectEdge k t (some t) = some t := by
      unfold redirectEdge
      split_ifs <;> rfl
    rw [this, ite_self]
  have hfollow' : ∀ x u, (c'.blocks x).followTo = some u → (c.blocks x).followTo = some u ∨
      (c.blocks x).followTo = some k ∧ u = t := by
    intro x u hu
    rw [hfollow] at hu
    unfold redirectEdge at hu
    split_ifs at hu with hx hxk
    · exact .inr ⟨hxk, (Option.some.inj hu).symm⟩
    · exact .inl hu
    · exact .inl hu
  have hnop' : ∀ x, (c'.blocks x).NopOnly ↔ (c.blocks x).NopOnly := fun x => by
    rw [ZendCodeBlock.NopOnly, ZendCodeBlock.NopOnly, hops]
  have hfalls : ∀ x q, c.FallsTo ∅ x q → c'.FallsTo ∅ x (if q = k then t else q) := by
    intro x q hf
    induction hf using Relation.ReflTransGen.head_induction_on with
    | refl =>
      split_ifs with hq
      · exact .single ⟨hno _, (hnop' _).mpr (hq ▸ hnop), hq ▸ hfollowk⟩
      · exact .refl
    | head hstep hrest ih =>
      rename_i u v
      obtain ⟨-, hunop, hu⟩ := hstep
      have hne : (if q = k then t else q) ≠ k := by
        split_ifs with hq
        · exact hkt.ne'
        · exact hq
      have huv := hfollow u
      rw [hu] at huv
      unfold redirectEdge at huv
      split_ifs at huv with hx hv
      · obtain rfl := Option.some.inj hv
        exact .head ⟨hno u, (hnop' u).mpr hunop, huv⟩ (ih.of_step hne hfollowk).2
      · exact .head ⟨hno u, (hnop' u).mpr hunop, huv⟩ ih
      · exact .head ⟨hno u, (hnop' u).mpr hunop, huv⟩ ih
  have hmeets : ∀ x y, c.Meets ∅ x y → c'.Meets ∅ x y := by
    rintro x y ⟨q, hx, hy⟩
    exact ⟨_, hfalls x q hx, hfalls y q hy⟩
  refine ⟨?_, horder⟩
  obtain ⟨V, hcard, hLV, hV⟩ := h.bound
  constructor
  · exact horder ▸ h.sorted
  · refine ⟨V, hsize ▸ hcard, hLV, fun x hx u hu => ?_⟩
    rcases hsucc x u hu with ⟨hu, -⟩ | ⟨rfl, -, -⟩
    · exact hV x hx u hu
    · exact hV k (hno k) u htsucc
  · intro x hx hxo
    rw [horder] at hxo
    have hnil := h.edgeless x hx hxo
    rw [List.eq_nil_iff_forall_not_mem]
    intro u hu
    rcases hsucc x u hu with ⟨hu, -⟩ | ⟨-, hk, -⟩
    · simp [hnil] at hu
    · simp [hnil] at hk
  · intro x hx u hu
    rw [horder]
    rcases hfollow' x u hu with hu | ⟨hxk, rfl⟩
    · exact h.follow x hx u hu
    · exact ⟨(h.follow x hx k hxk).1.trans hkt, hto⟩
  · intro x hx
    have hxk : x ≠ k := by
      rintro rfl
      simp [hacck] at hx
    exact h.access x (hacc' x hxk ▸ hx)
  · intro x hx hxE hxacc
    rw [hnop']
    by_cases hxk : x = k
    · subst hxk
      exact ⟨hnop, t, hfollowk⟩
    · obtain ⟨hxnop, u, hu⟩ := h.deleted x hx hxE (hacc' x hxk ▸ hxacc)
      refine ⟨hxnop, ?_⟩
      rw [hfollow, hu]
      unfold redirectEdge
      split_ifs <;> exact ⟨_, rfl⟩
  · intro x hx hxE u hu
    rcases hsucc x u hu with ⟨hu, huk⟩ | ⟨rfl, hxk, hxsrc⟩
    · obtain ⟨huacc, husrc⟩ := h.edge x hx hxE u hu
      have huk : u ≠ k := fun heq => huk heq (heq ▸ husrc)
      exact ⟨(hacc' u huk).trans huacc, by rw [hsrc]; exact hr.sources u husrc⟩
    · have hto := (h.edge k hkL (hno k) u htsucc).1
      refine ⟨(hacc' u hkt.ne').trans hto, ?_⟩
      rw [hsrc]
      exact hr.listed x hxsrc (ZendCodeBlock.mem_successors.mp hxk)
  · intro x hx hxE u hu m hm hmo hxm hmu
    rw [horder] at hmo
    refine hmeets m u ?_
    rcases hfollow' x u hu with hu | ⟨hxk, rfl⟩
    · exact h.gap x hx hxE u hu m hm hmo hxm hmu
    · have hku : c.Meets ∅ k u := FallsTo.meets (.single ⟨hno k, hnop, ht⟩)
      rcases lt_trichotomy m k with hlt | rfl | hgt
      · exact (h.gap x hx hxE k hxk m hm hmo hxm hlt).trans hku
      · exact hku
      · exact h.gap k hkL (hno k) u ht m hm hmo hgt hmu
  · exact fun x => by rw [hsrc]; exact hr.nodup h.nodup x
  · exact fun r hroot => h.roots r (hroots ▸ hroot)
  · exact ⟨h.entry_mem.1, horder ▸ h.entry_mem.2⟩
  · exact fun m hm hmo => h.entry_le m hm (horder ▸ hmo)

end DeleteCodeBlock

end ZendCfg

end ZendOpcache
