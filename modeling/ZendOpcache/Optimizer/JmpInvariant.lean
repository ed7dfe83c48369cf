import ZendOpcache.Optimizer.BlockInvariant

/-! # The invariant in the jump optimization

While `zend_jmp_optimization` rewrites the last opline of a block, the block is open: its
edges are listed, and the invariant holds of the other blocks. When it is done, the block is closed
again.
-/

namespace ZendOpcache

namespace ZendCfg

variable {c c' c₁ c₂ : ZendCfg} {L L' : Set ℕ} {b e t f x y X : ℕ}

theorem mem_edges {x : ZendCodeBlock} : some y ∈ x.edges ↔
    x.op1To = some y ∨ x.op2To = some y ∨ x.extTo = some y ∨ x.followTo = some y := by
  simp [ZendCodeBlock.edges, eq_comm]

theorem edges_eq_iff {x y : ZendCodeBlock} : x.edges = y.edges ↔
    x.op1To = y.op1To ∧ x.op2To = y.op2To ∧ x.extTo = y.extTo ∧ x.followTo = y.followTo := by
  simp [ZendCodeBlock.edges]

/-- Block `b` is a source of the accessible block `t`. -/
def Held (c : ZendCfg) (b t : ℕ) : Prop := (c.blocks t).access = true ∧ b ∈ (c.blocks t).sources

/-- The blocks between `b` and `t` fall to `t`. -/
def Skips (c : ZendCfg) (L : Set ℕ) (b t : ℕ) : Prop :=
  b < t ∧ t ∈ c.order ∧ ∀ m ∈ L, m ∈ c.order → b < m → m < t → c.Meets {b} m t

/-- The last opline of `b` may be rewritten. -/
structure Open (c : ZendCfg) (b : ℕ) (L : Set ℕ) (e : ℕ) : Prop where
  live : c.Live {b} L e
  access : (c.blocks b).access = true
  mem : b ∈ c.order
  held : ∀ t, some t ∈ (c.blocks b).edges → c.Held b t
  skips : ∀ t, (c.blocks b).followTo = some t → c.Skips L b t

theorem Held.rewired (h : c.Held b t) (hr : Rewired b c c') : c'.Held b t :=
  ⟨(hr.access t).trans h.1, hr.sources t h.2⟩

theorem Skips.rewired (h : c.Skips L b t) (hr : Rewired b c c') : c'.Skips L b t :=
  ⟨h.1, hr.order ▸ h.2.1, fun m hm hmo hbm hmt =>
    (h.2.2 m hm (hr.order ▸ hmo) hbm hmt).mono fun _ _ => hr.falls⟩

theorem Held.dropped (h : c.Held b t) (hd : Dropped b X c c' L L' e) (hne : t ≠ X) : c'.Held b t :=
  ⟨(hd.access t hne).trans h.1, hd.held t hne h.2⟩

theorem Skips.dropped (h : c.Skips L b t) (hd : Dropped b X c c' L L' e) (ht : t ∈ L)
    (hne : t ≠ X) : c'.Skips L' b t :=
  ⟨h.1, hd.order ▸ h.2.1, fun m hm hmo hbm hmt =>
    hd.meets m hm t (hd.mem t ht hne) (h.2.2 m (hd.sub hm) (hd.order ▸ hmo) hbm hmt)⟩

/-- Between a block and an accessible one, with no accessible blocks in between, everything falls to
the latter. -/
theorem Live.meets_of_le {E : Set ℕ} {d p : ℕ} (h : c.Live E L e) (hd : d ∈ L) (hdo : d ∈ c.order)
    (hdE : d ∉ E) (hp : p ∈ L) (hpo : p ∈ c.order) (hle : d ≤ p)
    (hno : ∀ m ∈ c.order, d ≤ m → m < p → (c.blocks m).access = false) : c.Meets E d p := by
  rcases hle.eq_or_lt with rfl | hlt
  · exact .refl d
  obtain ⟨hnop, t, ht⟩ := h.deleted d hd hdE (hno d hdo le_rfl hlt)
  obtain ⟨hdt, hto⟩ := h.follow d hdE t ht
  have htacc := (h.edge d hd hdE t (followTo_mem_successors ht)).1
  have hfalls : c.Meets E d t := FallsTo.meets (.single ⟨hdE, hnop, ht⟩)
  rcases lt_trichotomy t p with hlt | rfl | hgt
  · simp [hno t hto hdt.le hlt] at htacc
  · exact hfalls
  · exact hfalls.trans (h.gap d hd hdE t ht p hp hpo ‹_› hgt).symm

theorem nextAccess_spec (hs : c.order.Pairwise (· < ·)) (h : c.nextAccess b = some t) :
    b < t ∧ t ∈ c.order ∧ (c.blocks t).access = true ∧
      ∀ m ∈ c.order, b < m → m < t → (c.blocks m).access = false := by
  obtain ⟨hto, hpred, hmin⟩ := find?_sorted hs h
  simp only [Bool.and_eq_true, decide_eq_true_eq] at hpred hmin
  refine ⟨hpred.1, hto, hpred.2, fun m hm hbm hmt => ?_⟩
  by_contra hne
  have := hmin m hm ⟨hbm, by simpa using hne⟩
  omega

theorem Live.skips_nextAccess (h : c.Live {b} L e) (ht : c.nextAccess b = some t) :
    c.Skips L b t := by
  obtain ⟨hbt, hto, hacc, hno⟩ := nextAccess_spec h.sorted ht
  refine ⟨hbt, hto, fun m hm hmo hbm hmt => ?_⟩
  exact h.meets_of_le hm hmo hbm.ne' (h.access t hacc) hto hmt.le
    fun m' hm' hle hlt => hno m' hm' (by omega) hlt

namespace Open

/-- A block that does not consist of `NOP`s is opened. -/
theorem of_live (h : c.Live ∅ L e) (hnop : ¬ (c.blocks b).NopOnly)
    (hacc : (c.blocks b).access = true) (ho : b ∈ c.order) : c.Open b L e where
  live := h.unlock hnop
  access := hacc
  mem := ho
  held t ht := h.edge b (h.access b hacc) (by simp) t (ZendCodeBlock.mem_successors.mpr ht)
  skips t ht := by
    obtain ⟨hbt, hto⟩ := h.follow b (by simp) t ht
    refine ⟨hbt, hto, fun m hm hmo hbm hmt => ?_⟩
    refine (h.gap b (h.access b hacc) (by simp) t ht m hm hmo hbm hmt).mono ?_
    rintro x y ⟨-, hx, hfollow⟩
    exact ⟨fun hxb => hnop (hxb ▸ hx), hx, hfollow⟩

theorem close (h : c.Open b L e) : c.Live ∅ L e :=
  h.live.lock h.access h.mem (fun t ht => h.held t (ZendCodeBlock.mem_successors.mp ht)) h.skips

/-- The edges of the block are rewritten. -/
theorem of_rewired (h : c.Live {b} L e) (hacc : (c.blocks b).access = true) (ho : b ∈ c.order)
    (hr : Rewired b c c') (hheld : ∀ t, some t ∈ (c'.blocks b).edges → c'.Held b t)
    (hskips : ∀ t, (c'.blocks b).followTo = some t → c'.Skips L b t) : c'.Open b L e :=
  ⟨h.rewire hr, (hr.access b).trans hacc, hr.order ▸ ho, hheld, hskips⟩

/-- Its edges are among the old ones. -/
theorem rewired (h : c.Open b L e) (hr : Rewired b c c')
    (hedges : ∀ t, some t ∈ (c'.blocks b).edges → some t ∈ (c.blocks b).edges)
    (hfollow : ∀ t, (c'.blocks b).followTo = some t →
      (c.blocks b).followTo = some t ∨ c.Skips L b t) : c'.Open b L e :=
  of_rewired h.live h.access h.mem hr (fun t ht => (h.held t (hedges t ht)).rewired hr)
    fun t ht => ((hfollow t ht).elim (h.skips t) id).rewired hr

end Open

/-- The graph after `del_source`, while `b` is open. -/
structure Deleted (b X : ℕ) (kept new : List (Option ℕ)) (c c' : ZendCfg) (L L' : Set ℕ)
    (e : ℕ) : Prop where
  dropped : Dropped b X c c' L L' e
  access : (c'.blocks b).access = true
  mem : b ∈ c'.order
  kept : some X ∉ kept
  new : ∀ y, some y ∈ new → (c.blocks y).access = true → (c'.blocks y).access = true
  held : ∀ y, some y ∈ (c.blocks b).edges → y ≠ X → c'.Held b y
  skips : ∀ y, (c.blocks b).followTo = some y → y ≠ X → c'.Skips L' b y

variable {kept new : List (Option ℕ)}

theorem Open.del (h : c.Open b L e) (hX : (c.blocks X).access = true)
    (hdel : c.guardedDel b X kept new = some c') : ∃ L', Deleted b X kept new c c' L L' e := by
  obtain ⟨L', hd, hkept, hacc⟩ := h.live.delSource hX hdel
  refine ⟨L', hd, ?_, hd.order ▸ h.mem, hkept, fun y hy hyacc => ?_, fun y hy hne => ?_,
    fun y hy hne => ?_⟩
  · by_cases hbX : b = X
    · subst hbX
      exact hacc.resolve_right fun hne => hne.1 rfl
    · exact (hd.access b hbX).trans h.access
  · by_cases hyX : y = X
    · subst hyX
      exact hacc.resolve_right fun hne => hne.2 hy
    · exact (hd.access y hyX).trans hyacc
  · exact (h.held y hy).dropped hd hne
  · refine (h.skips y hy).dropped hd (h.live.access y (h.held y ?_).1) hne
    simp [ZendCodeBlock.edges, hy]

namespace Deleted

theorem edges (h : Deleted b X kept new c c' L L' e) :
    (c'.blocks b).edges = (c.blocks b).edges := by
  rw [← ZendCodeBlock.shape_edges, h.dropped.block, ZendCodeBlock.shape_edges]

/-- The block has edges that it keeps, and others that are listed. -/
theorem reopen (h : Deleted b X kept new c c₁ L L' e) (hr : Rewired b c₁ c')
    (hedges : ∀ y, some y ∈ (c'.blocks b).edges →
      some y ∈ (c.blocks b).edges ∧ some y ∈ kept ∨ c'.Held b y)
    (hfollow : ∀ y, (c'.blocks b).followTo = some y →
      (c.blocks b).followTo = some y ∧ some y ∈ kept ∨ c₁.Skips L' b y) :
    c'.Open b L' e ∧ c'.order = c.order := by
  have hne : ∀ y, some y ∈ kept → y ≠ X := fun y hy heq => h.kept (heq ▸ hy)
  refine ⟨.of_rewired h.dropped.live h.access h.mem hr (fun y hy => ?_) (fun y hy => ?_),
    hr.order.trans h.dropped.order⟩
  · rcases hedges y hy with ⟨hy, hk⟩ | hy
    · exact (h.held y hy (hne y hk)).rewired hr
    · exact hy
  · rcases hfollow y hy with ⟨hy, hk⟩ | hy
    · exact (h.skips y hy (hne y hk)).rewired hr
    · exact hy.rewired hr

end Deleted

section Steps

variable {f : ZendOp → ZendOp} {last : ZendOp}

theorem rewired_setLast : Rewired b c (c.setLast b f) := .modify rfl rfl rfl
theorem rewired_setOp1To (o : Option ℕ) : Rewired b c (c.setOp1To b o) := .modify rfl rfl rfl
theorem rewired_setOp2To (o : Option ℕ) : Rewired b c (c.setOp2To b o) := .modify rfl rfl rfl
theorem rewired_setExtTo (o : Option ℕ) : Rewired b c (c.setExtTo b o) := .modify rfl rfl rfl
theorem rewired_setFollowTo (o : Option ℕ) : Rewired b c (c.setFollowTo b o) := .modify rfl rfl rfl

theorem addSourceOf_spec {o : Option ℕ} (h : c.addSourceOf b o = some c') :
    ∃ y, o = some y ∧ c' = c.addSource b y := by
  cases o with
  | none => simp [addSourceOf] at h
  | some y => exact ⟨y, rfl, (Option.some.inj h).symm⟩

/-- The edges of the block, after any of the steps. -/
@[simp] theorem addSource_edges : ((c.addSource b t).blocks x).edges = (c.blocks x).edges := by
  rw [← ZendCodeBlock.shape_edges, addSource_shape, ZendCodeBlock.shape_edges]

@[simp] theorem addSource_op1To : ((c.addSource b t).blocks x).op1To = (c.blocks x).op1To :=
  (edges_eq_iff.mp addSource_edges).1
@[simp] theorem addSource_op2To : ((c.addSource b t).blocks x).op2To = (c.blocks x).op2To :=
  (edges_eq_iff.mp addSource_edges).2.1
@[simp] theorem addSource_extTo : ((c.addSource b t).blocks x).extTo = (c.blocks x).extTo :=
  (edges_eq_iff.mp addSource_edges).2.2.1
@[simp] theorem addSource_followTo :
    ((c.addSource b t).blocks x).followTo = (c.blocks x).followTo :=
  (edges_eq_iff.mp addSource_edges).2.2.2

@[simp] theorem setLast_edges : ((c.setLast b f).blocks x).edges = (c.blocks x).edges := by
  rw [setLast, modify_blocks]; split_ifs <;> rfl

@[simp] theorem setLast_access : ((c.setLast b f).blocks x).access = (c.blocks x).access :=
  rewired_setLast.access x

/-- An edge that is read off from the four edges of a block. -/
def IsEdge (edge : ZendCodeBlock → Option ℕ) : Prop :=
  (∀ x y : ZendCodeBlock, x.edges = y.edges → edge x = edge y) ∧ ∀ x, edge x = none ∨
    edge x ∈ x.edges

theorem isEdge_op1To : IsEdge (·.op1To) :=
  ⟨fun _ _ h => (edges_eq_iff.mp h).1, fun _ => .inr (by simp [ZendCodeBlock.edges])⟩

theorem isEdge_op2To : IsEdge (·.op2To) :=
  ⟨fun _ _ h => (edges_eq_iff.mp h).2.1, fun _ => .inr (by simp [ZendCodeBlock.edges])⟩

theorem isEdge_extTo : IsEdge (·.extTo) :=
  ⟨fun _ _ h => (edges_eq_iff.mp h).2.2.1, fun _ => .inr (by simp [ZendCodeBlock.edges])⟩

theorem isEdge_followTo : IsEdge (·.followTo) :=
  ⟨fun _ _ h => (edges_eq_iff.mp h).2.2.2, fun _ => .inr (by simp [ZendCodeBlock.edges])⟩

theorem Open.edge (h : c.Open b L e) (hx : x ∈ L) (hy : some y ∈ (c.blocks x).edges) :
    (c.blocks y).access = true := by
  by_cases hxb : x = b
  · subst hxb
    exact (h.held y hy).1
  · exact (h.live.edge x hx hxb y (ZendCodeBlock.mem_successors.mpr hy)).1

theorem Open.follow_lt (h : c.Open b L e) (hy : (c.blocks x).followTo = some y) : x < y := by
  by_cases hxb : x = b
  · subst hxb
    exact (h.skips y hy).1
  · exact (h.live.follow x hxb y hy).1

theorem Open.setLast (h : c.Open b L e) : (c.setLast b f).Open b L e :=
  h.rewired rewired_setLast (fun _ ht => by simpa using ht)
    fun _ ht => .inl ((edges_eq_iff.mp setLast_edges).2.2.2 ▸ ht)

theorem Open.literalDtor (h : c.Open b L e) (x : Znode) : (c.literalDtor x).Open b L e :=
  h.rewired (.literals b c _) (fun _ ht => ht) fun _ ht => .inl ht

/-- The block that is reached through `NOP`s. -/
theorem Open.skipNops (h : c.Open b L e) {o : ZendOp} : ∀ (n : ℕ) {x : ℕ}, x ∈ L →
    c.skipNops n x = some (t, o) → t ∈ L ∧ x ≤ t
  | 0, _, _, hskip => by simp [ZendCfg.skipNops] at hskip
  | n + 1, x, hx, hskip => by
    unfold ZendCfg.skipNops at hskip
    split at hskip
    · simp at hskip
    split at hskip
    · obtain ⟨rfl, -⟩ := Prod.mk.inj (Option.some.inj hskip)
      exact ⟨hx, le_rfl⟩
    · obtain ⟨y, hy, hskip⟩ := Option.bind_eq_some_iff.mp hskip
      have hyL := h.live.access y (h.edge hx (mem_edges.mpr (by simp [hy])))
      obtain ⟨ht, hle⟩ := h.skipNops n hyL hskip
      exact ⟨ht, (h.follow_lt hy).le.trans hle⟩

/-- The target of `op2_to` moves to an edge of a later block. -/
theorem Open.moveOp2 {edge : ZendCodeBlock → Option ℕ} (h : c.Open b L e) (hedge : IsEdge edge)
    (ht : ∀ old, (c.blocks b).op2To = some old → old ≤ t)
    (hacc : ∀ y, some y ∈ (c.blocks t).edges → (c.blocks y).access = true)
    (hmove : moveOp2 guardedDel c b t edge = some c') :
    ∃ L', c'.Open b L' e ∧ c'.order = c.order := by
  simp only [ZendCfg.moveOp2, Option.bind_eq_bind, Option.bind_eq_some_iff] at hmove
  obtain ⟨old, hold, c₁, hdel, hmove⟩ := hmove
  obtain ⟨y, hy, rfl⟩ := addSourceOf_spec hmove
  have hmem : some old ∈ (c.blocks b).edges := by simp [ZendCodeBlock.edges, hold]
  obtain ⟨L', hd⟩ := h.del (h.held old hmem).1 hdel
  have hsame : edge (c₁.blocks t) = edge (c.blocks t) :=
    hedge.1 _ _ (hd.dropped.edges t (ht old hold))
  have hr := (rewired_setOp2To (b := b) (c := c₁) (edge (c₁.blocks t))).trans
    (Rewired.addSource b y _)
  have hyedge : edge (c.blocks t) = some y := by
    rw [← hsame, ← hy]
    simp [setOp2To]
  have hyacc : (c₁.blocks y).access = true := by
    refine hd.new y (by simp [hyedge]) (hacc y ?_)
    rcases hedge.2 (c.blocks t) with hnone | hmem
    · simp [hyedge] at hnone
    · rwa [hyedge] at hmem
  obtain ⟨h₁, -, h₃, h₄⟩ := edges_eq_iff.mp hd.edges
  refine ⟨L', hd.reopen hr (fun z hz => ?_) fun z hz => ?_⟩
  · by_cases hzy : z = y
    · subst hzy
      exact .inr ⟨(hr.access z).trans hyacc, mem_addSource⟩
    · left
      simp [mem_edges, setOp2To] at hz
      simp only [mem_edges, List.mem_cons]
      grind
  · left
    simp [setOp2To] at hz
    grind

/-- The target of `op2_to` moves to an edge of the block that it falls to. -/
theorem Open.moveOp2_of_skipNops {edge : ZendCodeBlock → Option ℕ} {n : ℕ} {o : ZendOp}
    (h : c.Open b L e) (hedge : IsEdge edge) (hX : (c.blocks b).op2To = some X)
    (hskip : c.skipNops n X = some (t, o)) (h₁ : c₁.Open b L e)
    (hsame : ∀ x, (c₁.blocks x).edges = (c.blocks x).edges)
    (hacc : ∀ x, (c₁.blocks x).access = (c.blocks x).access)
    (hmove : ZendCfg.moveOp2 guardedDel c₁ b t edge = some c') :
    ∃ L', c'.Open b L' e ∧ c'.order = c₁.order := by
  have hXL := h.live.access X (h.held X (mem_edges.mpr (by simp [hX]))).1
  obtain ⟨ht, hle⟩ := h.skipNops n hXL hskip
  refine h₁.moveOp2 hedge (fun old hold => ?_) (fun y hy => ?_) hmove
  · rw [(edges_eq_iff.mp (hsame b)).2.1, hX] at hold
    exact Option.some.inj hold ▸ hle
  · rw [hacc]
    exact h.edge ht (hsame t ▸ hy)

theorem Open.moveOp2_skipNops {edge : ZendCodeBlock → Option ℕ} {n : ℕ} {o : ZendOp}
    (h : c.Open b L e) (hedge : IsEdge edge) (hX : (c.blocks b).op2To = some X)
    (hskip : c.skipNops n X = some (t, o))
    (hmove : ZendCfg.moveOp2 guardedDel c b t edge = some c') :
    ∃ L', c'.Open b L' e ∧ c'.order = c.order :=
  h.moveOp2_of_skipNops hedge hX hskip h (fun _ => rfl) (fun _ => rfl) hmove

theorem Open.threadJmpz {op : ZendOpcode} (h : c.Open b L e)
    (hstep : threadJmpz guardedDel c b last = some (c', op)) :
    ∃ L', c'.Open b L' e ∧ c'.order = c.order := by
  unfold ZendCfg.threadJmpz at hstep
  split at hstep
  · obtain ⟨rfl, -⟩ := Prod.mk.inj (Option.some.inj hstep)
    exact ⟨L, h, rfl⟩
  rename_i X hX
  obtain ⟨⟨t, target⟩, hskip, hstep⟩ := Option.bind_eq_some_iff.mp hstep
  simp only at hstep
  split_ifs at hstep
  any_goals
    obtain ⟨c₁, hmove, hstep⟩ := Option.bind_eq_some_iff.mp hstep
    obtain ⟨rfl, -⟩ := Prod.mk.inj (Option.some.inj hstep)
  · exact h.moveOp2_skipNops isEdge_followTo hX hskip hmove
  · have hmoved := h.moveOp2_of_skipNops isEdge_followTo hX hskip h.setLast
      (fun _ => setLast_edges) (fun _ => setLast_access) hmove
    exact hmoved
  · exact h.moveOp2_skipNops isEdge_op2To hX hskip hmove
  · exact h.moveOp2_skipNops isEdge_op1To hX hskip hmove
  · exact h.moveOp2_skipNops isEdge_op2To hX hskip hmove
  · exact h.moveOp2_skipNops isEdge_extTo hX hskip hmove
  · obtain ⟨rfl, -⟩ := Prod.mk.inj (Option.some.inj hstep)
    exact ⟨L, h, rfl⟩

end Steps

section Jumps

variable [ZendEngine] {last : ZendOp} {f : ZendOp → ZendOp}

omit [ZendEngine] in
theorem Open.threadJmpznz (h : c.Open b L e)
    (hstep : ZendCfg.threadJmpznz guardedDel c b last = some c') :
    ∃ L', c'.Open b L' e ∧ c'.order = c.order := by
  unfold ZendCfg.threadJmpznz at hstep
  split at hstep
  · exact ⟨L, Option.some.inj hstep ▸ h, by rw [Option.some.inj hstep]⟩
  rename_i X hX
  obtain ⟨⟨t, target⟩, hskip, hstep⟩ := Option.bind_eq_some_iff.mp hstep
  simp only at hstep
  split_ifs at hstep
  · exact h.moveOp2_skipNops isEdge_op2To hX hskip hstep
  · exact h.moveOp2_skipNops isEdge_followTo hX hskip hstep
  · exact h.moveOp2_skipNops isEdge_op1To hX hskip hstep
  · exact ⟨L, Option.some.inj hstep ▸ h, by rw [Option.some.inj hstep]⟩

omit [ZendEngine] in
/-- A conditional jump that always jumps. -/
theorem Open.alwaysJumps (h : c.Open b L e)
    (hstep : ZendCfg.alwaysJumps guardedDel c b last = some c') :
    ∃ L', c'.Open b L' e ∧ c'.order = c.order := by
  unfold ZendCfg.alwaysJumps at hstep
  obtain ⟨X, hX, hstep⟩ := Option.bind_eq_some_iff.mp hstep
  obtain ⟨c₁, hdel, hstep⟩ := Option.bind_eq_some_iff.mp hstep
  obtain rfl := Option.some.inj hstep
  have h₀ := (h.literalDtor last.op1).setLast
      (f := fun o => { o with opcode := .jmp, op1 := o.op2 })
  have hedges : ∀ x, (((c.literalDtor last.op1).setLast b fun o =>
      { o with opcode := .jmp, op1 := o.op2 }).blocks x).edges = (c.blocks x).edges :=
    fun _ => setLast_edges
  have horder : ((c.literalDtor last.op1).setLast b fun o =>
      { o with opcode := .jmp, op1 := o.op2 }).order = c.order := rfl
  generalize (c.literalDtor last.op1).setLast b _ = c₀ at h₀ hdel hedges horder
  obtain ⟨h₁, h₂, h₃, h₄⟩ := edges_eq_iff.mp (hedges b)
  have hjmp : (c₀.setOp1To b (c.blocks b).op2To).Open b L e := by
    refine h₀.rewired (rewired_setOp1To _) (fun y hy => ?_) fun y hy => .inl ?_
    · simp [mem_edges, setOp1To] at hy ⊢
      grind
    · simpa [setOp1To] using hy
  have hacc := (hjmp.held X (mem_edges.mpr (by simp [setOp1To, h₄, hX]))).1
  obtain ⟨L', hd⟩ := hjmp.del hacc hdel
  obtain ⟨h₁', h₂', h₃', h₄'⟩ := edges_eq_iff.mp hd.edges
  have hr := (rewired_setOp2To (b := b) (c := c₁) none).trans (rewired_setFollowTo none)
  refine ⟨L', (hd.reopen hr (fun y hy => .inl ?_) fun y hy => ?_).imp_right (·.trans horder)⟩
  · simp [mem_edges, setOp2To, setFollowTo] at hy
    simp [mem_edges, setOp1To] at *
    grind
  · simp [setFollowTo] at hy

omit [ZendEngine] in
/-- A conditional jump that never jumps. -/
theorem Open.neverJumps (h : c.Open b L e)
    (hstep : ZendCfg.neverJumps guardedDel c b f = some c') :
    ∃ L', c'.Open b L' e ∧ c'.order = c.order := by
  unfold ZendCfg.neverJumps at hstep
  obtain ⟨X, hX, hstep⟩ := Option.bind_eq_some_iff.mp hstep
  obtain ⟨c₁, hdel, hstep⟩ := Option.bind_eq_some_iff.mp hstep
  obtain rfl := Option.some.inj hstep
  have hacc := (h.held X (mem_edges.mpr (by simp [hX]))).1
  obtain ⟨L', hd⟩ := h.setLast.del (by simpa using hacc) hdel
  obtain ⟨h₁, h₂, h₃, h₄⟩ := edges_eq_iff.mp (hd.edges.trans setLast_edges)
  refine ⟨L', hd.reopen (rewired_setOp2To none) (fun y hy => .inl ?_) fun y hy => .inl ?_⟩
  · simp [mem_edges, setOp2To] at hy
    simp only [setLast_edges, mem_edges, List.mem_cons]
    grind
  · simp [setOp2To] at hy
    rw [(edges_eq_iff.mp setLast_edges).2.2.2]
    grind

omit [ZendEngine] in
/-- The block follows to the block after one of `NOP`s. -/
theorem Open.skips_follow (h : c.Open b L e) (hf : (c.blocks b).followTo = some x)
    (hnop : (c.blocks x).NopOnly) (hy : (c.blocks x).followTo = some y) : c.Skips L b y := by
  obtain ⟨hbx, hxo, hskips⟩ := h.skips x hf
  have hxL := h.live.access x (h.held x (mem_edges.mpr (by simp [hf]))).1
  have hxb : x ∉ ({b} : Set ℕ) := hbx.ne'
  obtain ⟨hxy, hyo⟩ := h.live.follow x hxb y hy
  have hxy' : c.Meets {b} x y := FallsTo.meets (.single ⟨hxb, hnop, hy⟩)
  refine ⟨hbx.trans hxy, hyo, fun m hm hmo hbm hmy => ?_⟩
  rcases lt_trichotomy m x with hlt | rfl | hgt
  · exact (hskips m hm hmo hbm hlt).trans hxy'
  · exact hxy'
  · exact h.live.gap x hxL hxb y hy m hm hmo hgt hmy

omit [ZendEngine] in
/-- The block follows past a block of `NOP`s. -/
theorem Open.followNop (h : c.Open b L e) (hX : (c.blocks b).followTo = some X)
    (hnop : (c.blocks X).NopOnly)
    (hdel : guardedDel c b X kept [(c.blocks X).followTo] = some c₁)
    (hkept : ∀ y, (c.blocks b).op1To = some y ∨ (c.blocks b).op2To = some y ∨
      (c.blocks b).extTo = some y → some y ∈ kept)
    (hadd : (c₁.setFollowTo b (c₁.blocks X).followTo).addSourceOf b
      ((c₁.setFollowTo b (c₁.blocks X).followTo).blocks b).followTo = some c₂) :
    ∃ L', c₂.Open b L' e ∧ c₂.order = c.order := by
  obtain ⟨y, hy, rfl⟩ := addSourceOf_spec hadd
  have hheld := h.held X (mem_edges.mpr (by simp [hX]))
  obtain ⟨L₁, hd⟩ := h.del hheld.1 hdel
  obtain ⟨h₁, h₂, h₃, h₄⟩ := edges_eq_iff.mp hd.edges
  have hXedges := edges_eq_iff.mp (hd.dropped.edges X le_rfl)
  have hXy : (c.blocks X).followTo = some y := by
    rw [← hXedges.2.2.2, ← hy]
    simp [setFollowTo]
  have hXL := h.live.access X hheld.1
  have hlt : X < y := h.follow_lt hXy
  have hyacc : (c.blocks y).access = true := h.edge hXL (mem_edges.mpr (by simp [hXy]))
  have hr := (rewired_setFollowTo (b := b) (c := c₁) (c₁.blocks X).followTo).trans
    (Rewired.addSource b y _)
  refine ⟨L₁, hd.reopen hr (fun z hz => ?_) fun z hz => .inr ?_⟩
  · by_cases hzy : z = y
    · subst hzy
      have hzacc := (hd.dropped.access z hlt.ne').trans hyacc
      exact .inr ⟨(hr.access z).trans hzacc, mem_addSource⟩
    · left
      have := hkept z
      simp [mem_edges, setFollowTo] at hz
      simp only [mem_edges]
      grind
  · obtain rfl : y = z := by simpa [setFollowTo, hXedges.2.2.2, hXy] using hz
    exact (h.skips_follow hX hnop hXy).dropped hd.dropped (h.live.access y hyacc) hlt.ne'

omit [ZendEngine] in
theorem Open.followNops {o : ZendOp} : ∀ (n : ℕ) {c : ZendCfg} {L : Set ℕ}, c.Open b L e →
    followNops guardedDel b n c = some (c', x, o) →
      ∃ L', c'.Open b L' e ∧ c'.order = c.order ∧ (c'.blocks b).followTo = some x
  | 0, _, _, _, hstep => by simp [ZendCfg.followNops] at hstep
  | n + 1, c, L, h, hstep => by
    simp only [ZendCfg.followNops, Option.bind_eq_bind, Option.bind_eq_some_iff] at hstep
    obtain ⟨X, hX, ops, hops, hstep⟩ := hstep
    split at hstep
    · simp only [Option.some.injEq, Prod.mk.injEq] at hstep
      obtain ⟨rfl, rfl, -⟩ := hstep
      exact ⟨L, h, rfl, hX⟩
    rename_i hfind
    simp only [Option.bind_eq_some_iff] at hstep
    obtain ⟨c₁, hdel, c₂, hadd, hstep⟩ := hstep
    obtain ⟨L₁, h₁, horder₁⟩ := h.followNop hX ⟨ops, hops, by simpa using hfind⟩ hdel
      (fun y hy => by simp only [List.mem_cons]; grind) hadd
    obtain ⟨L', ho, horder, hfollow⟩ := Open.followNops n h₁ hstep
    exact ⟨L', ho, horder.trans horder₁, hfollow⟩

omit [ZendEngine] in
theorem Open.followJmpz {op : ZendOpcode} (h : c.Open b L e)
    (hstep : followJmpz guardedDel c b op = some c') :
    ∃ L', c'.Open b L' e ∧ c'.order = c.order := by
  unfold ZendCfg.followJmpz at hstep
  split at hstep
  · obtain ⟨⟨c₁, x, target⟩, hfollow, hstep⟩ := Option.bind_eq_some_iff.mp hstep
    obtain ⟨L₁, h₁, horder₁, hx⟩ := h.followNops c.size hfollow
    simp only at hstep
    split at hstep
    · obtain ⟨c₂, hdel, hstep⟩ := Option.bind_eq_some_iff.mp hstep
      obtain ⟨c₃, hadd, hstep⟩ := Option.bind_eq_some_iff.mp hstep
      obtain ⟨y, hy, rfl⟩ := addSourceOf_spec hadd
      obtain rfl := Option.some.inj hstep
      have hheld := h₁.held x (mem_edges.mpr (by simp [hx]))
      obtain ⟨L₂, hd⟩ := h₁.del hheld.1 hdel
      obtain ⟨hop1, hop2, -, -⟩ := edges_eq_iff.mp hd.edges
      have hxy : (c₁.blocks x).op1To = some y := by
        rw [← (edges_eq_iff.mp (hd.dropped.edges x le_rfl)).1, ← hy]
      have hyacc : (c₂.blocks y).access = true :=
        hd.new y (by simp [hxy])
          (h₁.edge (h₁.live.access x hheld.1) (mem_edges.mpr (by simp [hxy])))
      -- one of the two edges is the new one
      generalize hmid : (if op = .jmpz then _ else _ : ZendCfg) = mid
      have hrmid : Rewired b c₂ mid := by
        rw [← hmid]
        split_ifs
        · exact rewired_setExtTo _
        · exact (rewired_setExtTo _).trans (rewired_setOp2To _)
      have hedges : ∀ z, (mid.blocks b).op1To = some z ∨ (mid.blocks b).op2To = some z ∨
          (mid.blocks b).extTo = some z →
            z = y ∨ (c₂.blocks b).op1To = some z ∨ (c₂.blocks b).op2To = some z := by
        intro z hz
        rw [← hmid] at hz
        clear hmid hstep hadd
        split_ifs at hz <;> simp [setExtTo, setOp2To, hy] at hz <;> grind
      have hr := (hrmid.trans (Rewired.addSource b y mid)).trans
        ((rewired_setFollowTo none).trans (rewired_setLast (f := ({ · with opcode := .jmpznz }))))
      refine ⟨L₂, (hd.reopen hr (fun z hz => ?_) fun z hz => ?_).imp_right (·.trans horder₁)⟩
      · have := hedges z
        by_cases hzy : z = y
        · subst hzy
          refine .inr ⟨(hr.access z).trans hyacc, ?_⟩
          exact ((rewired_setFollowTo none).trans rewired_setLast).sources z mem_addSource
        · left
          simp [mem_edges, setFollowTo] at hz
          simp only [mem_edges, List.mem_cons, ← hop1, ← hop2]
          tauto
      · simp [setFollowTo, ZendCfg.setLast] at hz
    · obtain rfl := Option.some.inj hstep
      exact ⟨L₁, h₁, horder₁⟩
  · obtain rfl := Option.some.inj hstep
    exact ⟨L, h, rfl⟩

theorem Open.optimizeJmpz (h : c.Open b L e)
    (hstep : optimizeJmpz guardedDel c b last = some c') :
    ∃ L', c'.Open b L' e ∧ c'.order = c.order := by
  unfold ZendCfg.optimizeJmpz at hstep
  split_ifs at hstep
  · exact h.alwaysJumps hstep
  · exact (h.literalDtor last.op1).neverJumps hstep
  · obtain ⟨⟨c₁, op⟩, hthread, hstep⟩ := Option.bind_eq_some_iff.mp hstep
    obtain ⟨L₁, h₁, horder₁⟩ := h.threadJmpz hthread
    obtain ⟨L₂, h₂, horder₂⟩ := h₁.followJmpz hstep
    exact ⟨L₂, h₂, horder₂.trans horder₁⟩

theorem Open.optimizeJmpzEx {T lastVar : ℕ} (h : c.Open b L e)
    (hstep : optimizeJmpzEx guardedDel T lastVar c b last = some c') :
    ∃ L', c'.Open b L' e ∧ c'.order = c.order := by
  have hsame : some c = some c' → ∃ L', c'.Open b L' e ∧ c'.order = c.order := fun heq =>
    ⟨L, Option.some.inj heq ▸ h, by rw [Option.some.inj heq]⟩
  unfold ZendCfg.optimizeJmpzEx at hstep
  split at hstep
  · split at hstep
    · exact hsame hstep
    · exact h.neverJumps hstep
  split at hstep
  · exact hsame hstep
  rename_i X hX
  split at hstep
  · exact hsame hstep
  obtain ⟨⟨t, target⟩, hskip, hstep⟩ := Option.bind_eq_some_iff.mp hstep
  simp only at hstep
  split_ifs at hstep
  · exact h.moveOp2_skipNops isEdge_op2To hX hskip hstep
  · exact h.moveOp2_skipNops isEdge_followTo hX hskip hstep
  · exact h.moveOp2_skipNops isEdge_followTo hX hskip hstep
  · exact h.moveOp2_skipNops isEdge_op2To hX hskip hstep
  · exact h.moveOp2_skipNops isEdge_op1To hX hskip hstep
  · exact h.moveOp2_skipNops isEdge_op2To hX hskip hstep
  · exact h.moveOp2_skipNops isEdge_extTo hX hskip hstep
  · exact hsame hstep

omit [ZendEngine] in
theorem rewired_becomesJmp (c : ZendCfg) (o : Option ℕ) : Rewired b c (c.becomesJmp b o) :=
  rewired_setLast.trans
    ((rewired_setOp1To _).trans ((rewired_setOp2To _).trans (rewired_setExtTo _)))

omit [ZendEngine] in
theorem becomesJmp_edges (o : Option ℕ) :
    ((c.becomesJmp b o).blocks b).edges = [o, none, none, (c.blocks b).followTo] := by
  simp [ZendCodeBlock.edges, ZendCfg.becomesJmp, setOp1To, setOp2To, setExtTo, ZendCfg.setLast]

omit [ZendEngine] in
theorem Open.becomesJmp {o : Option ℕ} (h : c.Open b L e)
    (ho : ∀ y, o = some y → some y ∈ (c.blocks b).edges) :
    (c.becomesJmp b o).Open b L e ∧ (c.becomesJmp b o).order = c.order := by
  have hr := rewired_becomesJmp (b := b) c o
  refine ⟨h.rewired hr (fun y hy => ?_) fun y hy => .inl ?_, hr.order⟩
  · rw [becomesJmp_edges] at hy
    have := ho y
    simp [mem_edges] at hy this ⊢
    grind
  · simpa [ZendCfg.becomesJmp, setOp1To, setOp2To, setExtTo, ZendCfg.setLast] using hy

theorem Open.optimizeJmpznz (h : c.Open b L e)
    (hstep : optimizeJmpznz guardedDel c b last = some c') :
    ∃ L', c'.Open b L' e ∧ c'.order = c.order := by
  unfold ZendCfg.optimizeJmpznz at hstep
  simp only at hstep
  split at hstep
  · -- a constant condition
    generalize htarget : (if zendIsTrue _ then _ else _ : Option ℕ × Option ℕ) = target at hstep
    obtain ⟨keep, todel⟩ := target
    have hmem : ∀ y, keep = some y ∨ todel = some y → some y ∈ (c.blocks b).edges := by
      intro y hy
      rw [mem_edges]
      split_ifs at htarget <;> obtain ⟨rfl, rfl⟩ := Prod.mk.inj htarget <;> tauto
    obtain ⟨X, hX, hstep⟩ := Option.bind_eq_some_iff.mp hstep
    obtain ⟨h₁, -⟩ := (h.literalDtor last.op1).becomesJmp fun y hy => hmem y (.inl hy)
    have hacc := (h.held X (hmem X (.inr hX))).1
    obtain ⟨L', hd⟩ := h₁.del (((rewired_becomesJmp _ keep).access X).trans hacc) hstep
    refine ⟨L', hd.reopen (.refl b c') (fun y hy => .inl ?_) fun y hy => .inl ?_⟩
    · rw [hd.edges] at hy
      refine ⟨hy, ?_⟩
      rw [becomesJmp_edges] at hy
      simpa [eq_comm, ZendCfg.literalDtor] using hy
    · rw [(edges_eq_iff.mp hd.edges).2.2.2] at hy
      refine ⟨hy, ?_⟩
      simp [ZendCfg.becomesJmp, setOp1To, setOp2To, setExtTo, ZendCfg.setLast] at hy
      exact hy ▸ by simp [ZendCfg.literalDtor]
  split at hstep
  · obtain rfl := Option.some.inj hstep
    exact ⟨L, h.becomesJmp fun y hy => mem_edges.mpr (.inr (.inl hy))⟩
  split at hstep
  · rename_i hnext
    obtain rfl := Option.some.inj hstep
    have hr := (rewired_setLast (b := b) (c := c) (f := ({ · with opcode := .jmpnz }))).trans
      ((rewired_setOp2To (c.blocks b).extTo).trans
        ((rewired_setFollowTo (c.nextAccess b)).trans (rewired_setExtTo none)))
    refine ⟨L, h.rewired hr (fun y hy => ?_) fun y hy => .inr ?_, hr.order⟩
    · simp [mem_edges, setOp2To, setFollowTo, setExtTo, ZendCfg.setLast] at hy
      rw [mem_edges]
      grind
    · simp [setOp2To, setFollowTo, setExtTo, ZendCfg.setLast] at hy
      exact h.live.skips_nextAccess hy
  split at hstep
  · rename_i hnext
    obtain rfl := Option.some.inj hstep
    have hr := (rewired_setLast (b := b) (c := c) (f := ({ · with opcode := .jmpz }))).trans
      ((rewired_setFollowTo (c.nextAccess b)).trans (rewired_setExtTo none))
    refine ⟨L, h.rewired hr (fun y hy => ?_) fun y hy => .inr ?_, hr.order⟩
    · simp [mem_edges, setFollowTo, setExtTo, ZendCfg.setLast] at hy
      rw [mem_edges]
      grind
    · simp [setFollowTo, setExtTo, ZendCfg.setLast] at hy
      exact h.live.skips_nextAccess hy
  · exact h.threadJmpznz hstep

end Jumps

section Jmp

/-- The edges of the block, but for `op1_to`, are listed. -/
def RestHeld (c : ZendCfg) (b : ℕ) : Prop :=
  ∀ z, (c.blocks b).op2To = some z ∨ (c.blocks b).extTo = some z ∨ (c.blocks b).followTo = some z →
    c.Held b z

theorem takeEdge_op2To_spec (h : c.RestHeld b)
    (hacc : ∀ z, (c.blocks t).op2To = some z → (c.blocks z).access = true) :
    Rewired b c (c.takeEdge b t (·.op2To) setOp2To) ∧
      (c.takeEdge b t (·.op2To) setOp2To).RestHeld b ∧
      ∀ x, ((c.takeEdge b t (·.op2To) setOp2To).blocks x).op1To = (c.blocks x).op1To ∧
        ((c.takeEdge b t (·.op2To) setOp2To).blocks x).extTo = (c.blocks x).extTo ∧
        ((c.takeEdge b t (·.op2To) setOp2To).blocks x).followTo = (c.blocks x).followTo := by
  cases hy : (c.blocks t).op2To with
  | none =>
    have heq : c.takeEdge b t (·.op2To) setOp2To = c := by simp [takeEdge, hy]
    rw [heq]
    exact ⟨.refl b c, h, fun _ => ⟨rfl, rfl, rfl⟩⟩
  | some y =>
    have heq : c.takeEdge b t (·.op2To) setOp2To = (c.setOp2To b (some y)).addSource b y := by
      simp [takeEdge, hy]
    rw [heq]
    have hr := (rewired_setOp2To (c := c) (b := b) (some y)).trans (Rewired.addSource b y _)
    refine ⟨hr, fun z hz => ?_, fun x => ?_⟩
    · by_cases hzy : z = y
      · subst hzy
        exact ⟨(hr.access z).trans (hacc z hy), mem_addSource⟩
      · refine (h z ?_).rewired hr
        simp [setOp2To] at hz
        tauto
    · simp only [setOp2To, addSource_op1To, addSource_extTo, addSource_followTo, modify_blocks]
      split_ifs <;> exact ⟨rfl, rfl, rfl⟩

theorem takeEdge_extTo_spec (h : c.RestHeld b)
    (hacc : ∀ z, (c.blocks t).extTo = some z → (c.blocks z).access = true) :
    Rewired b c (c.takeEdge b t (·.extTo) setExtTo) ∧
      (c.takeEdge b t (·.extTo) setExtTo).RestHeld b ∧
      ∀ x, ((c.takeEdge b t (·.extTo) setExtTo).blocks x).op1To = (c.blocks x).op1To ∧
        ((c.takeEdge b t (·.extTo) setExtTo).blocks x).op2To = (c.blocks x).op2To ∧
        ((c.takeEdge b t (·.extTo) setExtTo).blocks x).followTo = (c.blocks x).followTo := by
  cases hy : (c.blocks t).extTo with
  | none =>
    have heq : c.takeEdge b t (·.extTo) setExtTo = c := by simp [takeEdge, hy]
    rw [heq]
    exact ⟨.refl b c, h, fun _ => ⟨rfl, rfl, rfl⟩⟩
  | some y =>
    have heq : c.takeEdge b t (·.extTo) setExtTo = (c.setExtTo b (some y)).addSource b y := by
      simp [takeEdge, hy]
    rw [heq]
    have hr := (rewired_setExtTo (c := c) (b := b) (some y)).trans (Rewired.addSource b y _)
    refine ⟨hr, fun z hz => ?_, fun x => ?_⟩
    · by_cases hzy : z = y
      · subst hzy
        exact ⟨(hr.access z).trans (hacc z hy), mem_addSource⟩
      · refine (h z ?_).rewired hr
        simp [setExtTo] at hz
        tauto
    · simp only [setExtTo, addSource_op1To, addSource_op2To, addSource_followTo, modify_blocks]
      split_ifs <;> exact ⟨rfl, rfl, rfl⟩

theorem copyLast_spec (c : ZendCfg) (b : ℕ) (target : ZendOp) : Rewired b c (c.copyLast b target) ∧
    ∀ x, ((c.copyLast b target).blocks x).edges = (c.blocks x).edges := by
  unfold copyLast
  split_ifs
  · exact ⟨rewired_setLast.trans (.literals b _ _), fun _ => setLast_edges⟩
  · exact ⟨rewired_setLast, fun _ => setLast_edges⟩

theorem Open.copyLast (h : c.Open b L e) (target : ZendOp) : (c.copyLast b target).Open b L e := by
  obtain ⟨hr, hedges⟩ := copyLast_spec c b target
  exact h.rewired hr (fun _ ht => hedges b ▸ ht)
    fun _ ht => .inl ((edges_eq_iff.mp (hedges b)).2.2.2 ▸ ht)

theorem Open.optimizeJmp (h : c.Open b L e) (hstep : optimizeJmp guardedDel c b = some c') :
    ∃ L', c'.Live ∅ L' e ∧ c'.order = c.order := by
  unfold ZendCfg.optimizeJmp at hstep
  obtain ⟨t, ht, hstep⟩ := Option.bind_eq_some_iff.mp hstep
  split at hstep
  · rename_i hnext
    have h₁ : (c.modify b fun x => { x with
        followTo := x.op1To, op1To := none, oplines :=
          x.oplines.map (·.dropLast) }).Open b L e := by
      refine h.rewired (.modify rfl rfl rfl) (fun y hy => ?_) fun y hy => .inr ?_
      · simp [mem_edges] at hy ⊢
        tauto
      · simp only [modify_blocks_self] at hy
        obtain rfl := Option.some.inj (ht.symm.trans hy)
        exact h.live.skips_nextAccess hnext
    simp only at hstep
    obtain rfl := Option.some.inj hstep
    split_ifs with hnil
    · obtain ⟨hlive, horder⟩ := h₁.close.deleteCodeBlock h₁.access ⟨[], hnil, by simp⟩
        (by simpa using ht)
      exact ⟨L, hlive, horder⟩
    · exact ⟨L, h₁.close, rfl⟩
  obtain ⟨target, -, hstep⟩ := Option.bind_eq_some_iff.mp hstep
  have hcopy := h.copyLast target
  obtain ⟨hrcopy, hedges⟩ := copyLast_spec c b target
  have htheld := h.held t (mem_edges.mpr (.inl ht))
  have htacc := (hrcopy.access t).trans htheld.1
  have hbcopy := edges_eq_iff.mp (hedges b)
  simp only at hstep
  split at hstep
  · -- the edges of the target are taken over
    obtain ⟨c₁, hdel, hstep⟩ := Option.bind_eq_some_iff.mp hstep
    obtain ⟨L₁, hd⟩ := hcopy.del htacc hdel
    obtain ⟨h₁, h₂, h₃, h₄⟩ := edges_eq_iff.mp hd.edges
    obtain ⟨ht₁, ht₂, ht₃, ht₄⟩ := edges_eq_iff.mp (hd.dropped.edges t le_rfl)
    have htL := hcopy.live.access t htacc
    have hkept := hd.kept
    simp only [List.mem_cons, List.not_mem_nil, not_or] at hkept
    have hrest : c₁.RestHeld b := fun z hz => by
      refine hd.held z (mem_edges.mpr ?_) ?_
      · rw [h₂, h₃, h₄] at hz
        tauto
      · rintro rfl
        rw [h₂, h₃, h₄, hbcopy.2.1, hbcopy.2.2.1, hbcopy.2.2.2] at hz
        grind
    have hnew : ∀ z, (c₁.blocks t).op2To = some z ∨ (c₁.blocks t).extTo = some z ∨
        (c₁.blocks t).op1To = some z → (c₁.blocks z).access = true := by
      intro z hz
      rw [ht₁, ht₂, ht₃] at hz
      refine hd.new z ?_ (hcopy.edge htL (mem_edges.mpr (by tauto)))
      simp only [List.mem_cons]
      grind
    obtain ⟨hr₂, hrest₂, hsame₂⟩ := takeEdge_op2To_spec hrest fun z hz => hnew z (.inl hz)
    generalize c₁.takeEdge b t (·.op2To) setOp2To = c₂ at hstep hr₂ hrest₂ hsame₂
    obtain ⟨hr₃, hrest₃, hsame₃⟩ := takeEdge_extTo_spec (t := t) hrest₂ fun z hz =>
      (hr₂.access z).trans (hnew z (.inr (.inl ((hsame₂ t).2.1 ▸ hz))))
    generalize c₂.takeEdge b t (·.extTo) setExtTo = c₃ at hstep hr₃ hrest₃ hsame₃
    obtain rfl := Option.some.inj hstep
    have hr := hr₂.trans hr₃
    have hfollow : (c₃.blocks b).followTo = (c.copyLast b target |>.blocks b).followTo := by
      rw [(hsame₃ b).2.2, (hsame₂ b).2.2, h₄]
    have hfollow' : ∀ z, (c₃.blocks b).followTo = some z →
        ((c.copyLast b target).blocks b).followTo = some z ∧
          some z ∈ [(c.blocks b).op2To, (c.blocks b).extTo, (c.blocks b).followTo] := by
      intro z hz
      rw [hfollow] at hz
      exact ⟨hz, by simp [← hbcopy.2.2.2, hz]⟩
    cases hop : (c₃.blocks t).op1To with
    | none =>
      obtain ⟨ho, horder⟩ : (c₃.setOp1To b none).Open b L₁ e ∧
          (c₃.setOp1To b none).order = (c.copyLast b target).order :=
        hd.reopen (hr.trans (rewired_setOp1To none))
          (fun z hz => .inr ((hrest₃ z (by simpa [mem_edges, setOp1To] using hz)).rewired
            (rewired_setOp1To none))) fun z hz => .inl (hfollow' z (by simpa [setOp1To] using hz))
      exact ⟨L₁, ho.close, horder.trans hrcopy.order⟩
    | some y =>
      have hr' := hr.trans ((rewired_setOp1To (some y)).trans (Rewired.addSource b y _))
      have hyacc : (c₁.blocks y).access = true :=
        hnew y (.inr (.inr (by rw [← (hsame₂ t).1, ← (hsame₃ t).1, hop])))
      obtain ⟨ho, horder⟩ : ((c₃.setOp1To b (some y)).addSource b y).Open b L₁ e ∧
          ((c₃.setOp1To b (some y)).addSource b y).order = (c.copyLast b target).order := by
        refine hd.reopen hr' (fun z hz => .inr ?_) fun z hz => .inl (hfollow' z ?_)
        · by_cases hzy : z = y
          · subst hzy
            exact ⟨(hr'.access z).trans hyacc, mem_addSource⟩
          · refine (hrest₃ z ?_).rewired
              ((rewired_setOp1To (some y)).trans (Rewired.addSource b y _))
            simp [mem_edges, setOp1To] at hz
            tauto
        · simpa [setOp1To] using hz
      exact ⟨L₁, ho.close, horder.trans hrcopy.order⟩
  split at hstep
  · obtain ⟨c₁, hdel, hstep⟩ := Option.bind_eq_some_iff.mp hstep
    obtain rfl := Option.some.inj hstep
    obtain ⟨L₁, hd⟩ := hcopy.del htacc hdel
    obtain ⟨h₁, h₂, h₃, h₄⟩ := edges_eq_iff.mp hd.edges
    obtain ⟨ho, horder⟩ : (c₁.setOp1To b none).Open b L₁ e ∧
        (c₁.setOp1To b none).order = (c.copyLast b target).order := by
      refine hd.reopen (rewired_setOp1To none) (fun y hy => .inl ?_) fun y hy => .inl ?_
      · simp [mem_edges, setOp1To] at hy
        simp only [mem_edges, List.mem_cons]
        grind
      · simp [setOp1To] at hy
        simp only [List.mem_cons]
        grind
    exact ⟨L₁, ho.close, horder.trans hrcopy.order⟩
  · obtain rfl := Option.some.inj hstep
    exact ⟨L, h.close, rfl⟩

/-- `zend_jmp_optimization` keeps the invariant, where the guard lets it. -/
theorem Live.jmpOptimization [ZendEngine] {T lastVar : ℕ} (h : c.Live ∅ L e)
    (hacc : (c.blocks b).access = true) (ho : b ∈ c.order)
    (hstep : zendJmpOptimization guardedDel T lastVar c b = some c') :
    ∃ L', c'.Live ∅ L' e ∧ c'.order = c.order := by
  unfold zendJmpOptimization at hstep
  obtain ⟨ops, hops, hstep⟩ := Option.bind_eq_some_iff.mp hstep
  split at hstep
  · exact ⟨L, Option.some.inj hstep ▸ h, by rw [Option.some.inj hstep]⟩
  rename_i last hlast
  have hopen : last.opcode ≠ .nop → c.Open b L e := fun hne => by
    refine .of_live h ?_ hacc ho
    rintro ⟨ops', hops', hnop⟩
    obtain rfl : ops' = ops := Option.some.inj (hops'.symm.trans hops)
    exact hne (hnop last (List.mem_of_getLast? hlast))
  have hclose : (∃ L', c'.Open b L' e ∧ c'.order = c.order) →
      ∃ L', c'.Live ∅ L' e ∧ c'.order = c.order := by
    rintro ⟨L', ho', horder⟩
    exact ⟨L', ho'.close, horder⟩
  split at hstep
  · exact (hopen (by simp [*])).optimizeJmp hstep
  · exact hclose ((hopen (by simp [*])).optimizeJmpz hstep)
  · exact hclose ((hopen (by simp [*])).optimizeJmpz hstep)
  · exact hclose ((hopen (by simp [*])).optimizeJmpzEx hstep)
  · exact hclose ((hopen (by simp [*])).optimizeJmpzEx hstep)
  · exact hclose ((hopen (by simp [*])).optimizeJmpznz hstep)
  · exact ⟨L, Option.some.inj hstep ▸ h, by rw [Option.some.inj hstep]⟩

end Jmp

end ZendCfg

end ZendOpcache
