import ZendOpcache.Optimizer.EntryBlock

/-! # Edges and sources

The lists of sources are the edges read backwards. Between two calls of
`zend_rebuild_access_path` the passes update both by hand; where `del_source` deletes the only edge
to a block, and no block that is still needed, they agree after every block.
-/

namespace ZendOpcache

namespace ZendCfg

variable {c c' : ZendCfg} {b t x y : ℕ} {T lastVar : ℕ} {usedExt : ℕ → Bool}

/-- Every edge of an accessible block leads to an accessible block that has not been joined and has
the block among its sources. -/
def Consistent (c : ZendCfg) : Prop :=
  ∀ b, (c.blocks b).access = true → ∀ s ∈ (c.blocks b).successors,
    (c.blocks s).oplines.isSome = true ∧ (c.blocks s).access = true ∧ b ∈ (c.blocks s).sources

/-- No accessible block has been joined. -/
def Whole (c : ZendCfg) : Prop :=
  ∀ b, (c.blocks b).access = true → (c.blocks b).oplines.isSome = true

namespace Whole

theorem of_blocks (h : c.Whole) (hb : c'.blocks = c.blocks) : c'.Whole := fun x hx => by
  rw [hb] at hx ⊢
  exact h x hx

theorem modify {f : ZendCodeBlock → ZendCodeBlock} (h : c.Whole)
    (hacc : (f (c.blocks b)).access = true → (c.blocks b).access = true)
    (hops : (c.blocks b).oplines.isSome = true → (f (c.blocks b)).oplines.isSome = true) :
    (c.modify b f).Whole := fun x hx => by
  by_cases hxb : x = b
  · subst hxb
    rw [modify_blocks_self] at hx ⊢
    exact hops (h x (hacc hx))
  · simp only [modify_blocks, if_neg hxb] at hx ⊢
    exact h x hx

theorem leave {f : ZendCodeBlock → ZendCodeBlock} (h : c.Whole)
    (hacc : (f (c.blocks b)).access = false) : (c.modify b f).Whole := fun x hx => by
  by_cases hxb : x = b
  · subst hxb
    simp [hacc] at hx
  · simp only [modify_blocks, if_neg hxb] at hx ⊢
    exact h x hx

theorem addSource (h : c.Whole) : (c.addSource b t).Whole := by
  unfold ZendCfg.addSource
  refine h.modify (fun hx => ?_) fun hx => ?_ <;> split_ifs at * <;> exact hx

theorem addSourceOf {o : Option ℕ} (h : c.Whole) (hs : c.addSourceOf b o = some c') : c'.Whole := by
  obtain ⟨y, -, rfl⟩ := addSourceOf_spec hs
  exact h.addSource

theorem setLast {f : ZendOp → ZendOp} (h : c.Whole) : (c.setLast b f).Whole :=
  h.modify id (by simp)

theorem setOp1To (h : c.Whole) (e : Option ℕ) : (c.setOp1To b e).Whole := h.modify id id
theorem setOp2To (h : c.Whole) (e : Option ℕ) : (c.setOp2To b e).Whole := h.modify id id
theorem setExtTo (h : c.Whole) (e : Option ℕ) : (c.setExtTo b e).Whole := h.modify id id
theorem setFollowTo (h : c.Whole) (e : Option ℕ) : (c.setFollowTo b e).Whole := h.modify id id

theorem literalDtor (h : c.Whole) (x : Znode) : (c.literalDtor x).Whole := h.of_blocks rfl

theorem replaceSources {old new : ℕ} {targets : List (Option ℕ)} (h : c.Whole)
    (hs : targets.foldlM (replaceSourceOf old new) c = some c') : c'.Whole := by
  refine foldlM_preserves (P := Whole) targets (fun c target c' _ hstep h => ?_) hs h
  cases target with
  | none => exact Option.some.inj hstep ▸ h
  | some t =>
    obtain ⟨l, -, rfl⟩ := Option.map_eq_some_iff.mp hstep
    exact h.modify id id

theorem join (h : c.Whole) (hj : c.join b t = some c') : c'.Whole := by
  simp only [ZendCfg.join, Option.bind_eq_bind, Option.bind_eq_some_iff] at hj
  obtain ⟨toOplines, -, fromOplines, -, hj⟩ := hj
  exact replaceSources ((h.leave rfl).modify id (by simp)) hj

theorem delSource (h : c.Whole) (hd : c.delSource b t = some c') : c'.Whole := by
  unfold ZendCfg.delSource at hd
  have hcut : ∀ {c : ZendCfg}, c.Whole → (c.modify t ({ · with access := false })).Whole :=
    fun h => h.leave rfl
  split_ifs at hd
  · exact Option.some.inj hd ▸ hcut h
  dsimp only at hd
  have h₁ : (c.modify t ({ · with sources := (c.blocks t).sources.erase b })).Whole :=
    h.modify id id
  split at hd
  · exact Option.some.inj hd ▸ hcut h₁
  · split_ifs at hd
    · exact h₁.join hd
    · exact Option.some.inj hd ▸ h₁
  · exact Option.some.inj hd ▸ h₁

theorem guardedDel {kept new : List (Option ℕ)} (h : c.Whole)
    (hd : c.guardedDel b t kept new = some c') : c'.Whole := by
  unfold ZendCfg.guardedDel at hd
  split_ifs at hd
  exact h.delSource hd

theorem deleteCodeBlock (h : c.Whole) (b : ℕ) : (c.deleteCodeBlock b).Whole := by
  unfold ZendCfg.deleteCodeBlock
  split_ifs
  · exact h
  have hred : ∀ (t : ℕ) (l : List ℕ) {c : ZendCfg}, c.Whole →
      (l.foldl (fun c s => c.redirect b t s) c).Whole := by
    intro t l
    induction l with
    | nil => exact fun h => h
    | cons s l ih =>
      intro c h
      refine ih ?_
      unfold redirect
      dsimp only
      split_ifs
      · exact (h.modify id id).addSource
      · exact h.modify id id
  refine leave ?_ rfl
  cases (c.blocks b).followTo with
  | none => exact h
  | some t => exact hred t _ h

theorem deleteNops (h : c.Whole) (ops : List ZendOp) : (c.deleteNops b ops).Whole := by
  unfold ZendCfg.deleteNops
  dsimp only
  split_ifs
  · exact (h.modify id (by simp)).deleteCodeBlock b
  · exact h.modify id (by simp)

theorem stripNop (h : c.Whole) (ops : List ZendOp) : (c.stripNop b ops).Whole := by
  unfold ZendCfg.stripNop
  split_ifs
  · exact h.deleteNops ops
  · exact h.modify id (by simp)

theorem zendTUsage {used : ℕ → Bool} (h : c.Whole) (hu : c.zendTUsage T = some (used, c')) :
    c'.Whole := by
  unfold ZendCfg.zendTUsage at hu
  split_ifs at hu
  · obtain ⟨-, rfl⟩ := Prod.mk.inj (Option.some.inj hu)
    exact h
  simp only [Option.bind_eq_bind, Option.bind_eq_some_iff] at hu
  obtain ⟨used, -, c₁, hfold, hu⟩ := hu
  obtain ⟨-, rfl⟩ := Prod.mk.inj (Option.some.inj hu)
  refine foldlM_preserves (P := Whole) _ (fun c₂ b c₃ _ hstep h => ?_) hfold h
  split_ifs at hstep
  · obtain ⟨ops, -, hstep⟩ := Option.bind_eq_some_iff.mp hstep
    obtain rfl := Option.some.inj hstep
    obtain ⟨ls, hls⟩ := foldl_literalDtor (dropResults used ops).2.2 c₂
    rw [hls]
    have hlits : Whole { c₂ with literals := ls } := h.of_blocks rfl
    exact hlits.modify id (by simp)
  · exact Option.some.inj hstep ▸ h

variable [ZendEngine]

theorem optimizeBlock (h : c.Whole) (ho : c.zendOptimizeBlock T usedExt b = some c') :
    c'.Whole := by
  unfold zendOptimizeBlock at ho
  obtain ⟨ops, -, ho⟩ := Option.bind_eq_some_iff.mp ho
  split_ifs at ho
  · exact Option.some.inj ho ▸ h.deleteNops ops
  · exact Option.some.inj ho ▸ h.stripNop _
  · obtain ⟨st, -, ho⟩ := Option.bind_eq_some_iff.mp ho
    obtain rfl := Option.some.inj ho
    generalize hmid : ({ c with literals := _, lastCacheSlot := _ } : ZendCfg) = mid
    have hw : mid.Whole := h.of_blocks (by rw [← hmid])
    exact (hw.modify id id).stripNop _

section Jumps

variable {last : ZendOp}

omit [ZendEngine] in
theorem moveOp2 {edge : ZendCodeBlock → Option ℕ} (h : c.Whole)
    (hm : ZendCfg.moveOp2 ZendCfg.guardedDel c b t edge = some c') : c'.Whole := by
  simp only [ZendCfg.moveOp2, Option.bind_eq_bind, Option.bind_eq_some_iff] at hm
  obtain ⟨old, -, c₁, hdel, hm⟩ := hm
  exact ((h.guardedDel hdel).setOp2To _).addSourceOf hm

omit [ZendEngine] in
theorem takeEdge {edge : ZendCodeBlock → Option ℕ} {set : ZendCfg → ℕ → Option ℕ → ZendCfg}
    (h : c.Whole) (hset : ∀ e, (set c b e).Whole) : (c.takeEdge b t edge set).Whole := by
  unfold ZendCfg.takeEdge
  split
  · exact (hset _).addSource
  · exact h

omit [ZendEngine] in
theorem copyLast (h : c.Whole) (target : ZendOp) : (c.copyLast b target).Whole := by
  unfold ZendCfg.copyLast
  split_ifs
  · exact h.setLast.of_blocks rfl
  · exact h.setLast

omit [ZendEngine] in
theorem optimizeJmp (h : c.Whole) (hs : ZendCfg.optimizeJmp ZendCfg.guardedDel c b = some c') :
    c'.Whole := by
  unfold ZendCfg.optimizeJmp at hs
  obtain ⟨t, -, hs⟩ := Option.bind_eq_some_iff.mp hs
  split at hs
  · obtain rfl := Option.some.inj hs
    have h₁ : (c.modify b fun x => { x with
        followTo := x.op1To, op1To := none, oplines := x.oplines.map (·.dropLast) }).Whole :=
      h.modify id (by simp)
    split_ifs
    · exact h₁.deleteCodeBlock b
    · exact h₁
  obtain ⟨target, -, hs⟩ := Option.bind_eq_some_iff.mp hs
  have hcopy := h.copyLast (b := b) target
  split at hs
  · obtain ⟨c₁, hdel, hs⟩ := Option.bind_eq_some_iff.mp hs
    obtain rfl := Option.some.inj hs
    have h₁ := hcopy.guardedDel hdel
    have h₂ : (c₁.takeEdge b t (·.op2To) ZendCfg.setOp2To).Whole := h₁.takeEdge h₁.setOp2To
    have h₃ : (ZendCfg.takeEdge _ b t (·.extTo) ZendCfg.setExtTo).Whole := h₂.takeEdge h₂.setExtTo
    split
    · exact (h₃.setOp1To _).addSource
    · exact h₃.setOp1To _
  split at hs
  · obtain ⟨c₁, hdel, hs⟩ := Option.bind_eq_some_iff.mp hs
    exact Option.some.inj hs ▸ (hcopy.guardedDel hdel).setOp1To _
  · exact Option.some.inj hs ▸ h

omit [ZendEngine] in
theorem neverJumps {f : ZendOp → ZendOp} (h : c.Whole)
    (hs : ZendCfg.neverJumps ZendCfg.guardedDel c b f = some c') : c'.Whole := by
  simp only [ZendCfg.neverJumps, Option.bind_eq_bind, Option.bind_eq_some_iff] at hs
  obtain ⟨t, -, c₁, hdel, hs⟩ := hs
  exact Option.some.inj hs ▸ (h.setLast.guardedDel hdel).setOp2To _

omit [ZendEngine] in
theorem alwaysJumps (h : c.Whole)
    (hs : ZendCfg.alwaysJumps ZendCfg.guardedDel c b last = some c') : c'.Whole := by
  simp only [ZendCfg.alwaysJumps, Option.bind_eq_bind, Option.bind_eq_some_iff] at hs
  obtain ⟨t, -, c₁, hdel, hs⟩ := hs
  have h₁ := (((h.literalDtor last.op1).setLast).setOp1To _).guardedDel hdel
  exact Option.some.inj hs ▸ (h₁.setOp2To _).setFollowTo _

omit [ZendEngine] in
theorem threadJmpz {op : ZendOpcode} (h : c.Whole)
    (hs : ZendCfg.threadJmpz ZendCfg.guardedDel c b last = some (c', op)) : c'.Whole := by
  unfold ZendCfg.threadJmpz at hs
  split at hs
  · exact (Prod.mk.inj (Option.some.inj hs)).1 ▸ h
  obtain ⟨⟨t, target⟩, -, hs⟩ := Option.bind_eq_some_iff.mp hs
  dsimp only at hs
  split_ifs at hs
  any_goals
    obtain ⟨c₁, hm, hs⟩ := Option.bind_eq_some_iff.mp hs
    obtain ⟨rfl, -⟩ := Prod.mk.inj (Option.some.inj hs)
    first | exact h.moveOp2 hm | exact h.setLast.moveOp2 hm
  exact (Prod.mk.inj (Option.some.inj hs)).1 ▸ h

omit [ZendEngine] in
theorem followNops {o : ZendOp} : ∀ (n : ℕ) {c : ZendCfg}, c.Whole →
    ZendCfg.followNops ZendCfg.guardedDel b n c = some (c', x, o) → c'.Whole
  | 0, _, _, hs => by simp [ZendCfg.followNops] at hs
  | n + 1, c, h, hs => by
    simp only [ZendCfg.followNops, Option.bind_eq_bind, Option.bind_eq_some_iff] at hs
    obtain ⟨f, -, ops, -, hs⟩ := hs
    split at hs
    · exact (Prod.mk.inj (Option.some.inj hs)).1 ▸ h
    · simp only [Option.bind_eq_some_iff] at hs
      obtain ⟨c₁, hdel, c₂, hadd, hs⟩ := hs
      exact followNops n (((h.guardedDel hdel).setFollowTo _).addSourceOf hadd) hs

omit [ZendEngine] in
theorem followJmpz {op : ZendOpcode} (h : c.Whole)
    (hs : ZendCfg.followJmpz ZendCfg.guardedDel c b op = some c') : c'.Whole := by
  unfold ZendCfg.followJmpz at hs
  split at hs
  · obtain ⟨⟨c₁, f, target⟩, hf, hs⟩ := Option.bind_eq_some_iff.mp hs
    have h₁ := h.followNops c.size hf
    dsimp only at hs
    split at hs
    · obtain ⟨c₂, hdel, hs⟩ := Option.bind_eq_some_iff.mp hs
      obtain ⟨c₃, hadd, hs⟩ := Option.bind_eq_some_iff.mp hs
      obtain rfl := Option.some.inj hs
      have h₂ := h₁.guardedDel hdel
      refine ((addSourceOf ?_ hadd).setFollowTo _).setLast
      split_ifs
      · exact h₂.setExtTo _
      · exact (h₂.setExtTo _).setOp2To _
    · exact Option.some.inj hs ▸ h₁
  · exact Option.some.inj hs ▸ h

omit [ZendEngine] in
theorem becomesJmp (h : c.Whole) (e : Option ℕ) : (c.becomesJmp b e).Whole :=
  ((h.setLast.setOp1To _).setOp2To _).setExtTo _

theorem optimizeJmpzEx (h : c.Whole)
    (hs : ZendCfg.optimizeJmpzEx ZendCfg.guardedDel T lastVar c b last = some c') : c'.Whole := by
  unfold ZendCfg.optimizeJmpzEx at hs
  split at hs
  · split at hs
    · exact Option.some.inj hs ▸ h
    · exact h.neverJumps hs
  split at hs
  · exact Option.some.inj hs ▸ h
  split at hs
  · exact Option.some.inj hs ▸ h
  obtain ⟨⟨t, target⟩, -, hs⟩ := Option.bind_eq_some_iff.mp hs
  dsimp only at hs
  split_ifs at hs
  any_goals exact h.moveOp2 hs
  exact Option.some.inj hs ▸ h

theorem optimizeJmpznz (h : c.Whole)
    (hs : ZendCfg.optimizeJmpznz ZendCfg.guardedDel c b last = some c') : c'.Whole := by
  unfold ZendCfg.optimizeJmpznz at hs
  dsimp only at hs
  split at hs
  · generalize (if zendIsTrue _ then _ else _ : Option ℕ × Option ℕ) = target at hs
    obtain ⟨keep, todel⟩ := target
    obtain ⟨t, -, hs⟩ := Option.bind_eq_some_iff.mp hs
    exact ((h.literalDtor last.op1).becomesJmp keep).guardedDel hs
  split_ifs at hs
  · exact Option.some.inj hs ▸ h.becomesJmp _
  · exact Option.some.inj hs ▸ ((h.setLast.setOp2To _).setFollowTo _).setExtTo _
  · exact Option.some.inj hs ▸ (h.setLast.setFollowTo _).setExtTo _
  · unfold ZendCfg.threadJmpznz at hs
    split at hs
    · exact Option.some.inj hs ▸ h
    obtain ⟨⟨t, target⟩, -, hs⟩ := Option.bind_eq_some_iff.mp hs
    dsimp only at hs
    split_ifs at hs
    any_goals exact h.moveOp2 hs
    exact Option.some.inj hs ▸ h

theorem jmpOptimization (h : c.Whole)
    (hs : zendJmpOptimization ZendCfg.guardedDel T lastVar c b = some c') : c'.Whole := by
  unfold zendJmpOptimization at hs
  obtain ⟨ops, -, hs⟩ := Option.bind_eq_some_iff.mp hs
  split at hs
  · exact Option.some.inj hs ▸ h
  have hjmpz : ∀ last, ZendCfg.optimizeJmpz ZendCfg.guardedDel c b last = some c' → c'.Whole := by
    intro last hs
    unfold ZendCfg.optimizeJmpz at hs
    split_ifs at hs
    · exact h.alwaysJumps hs
    · exact (h.literalDtor last.op1).neverJumps hs
    · obtain ⟨⟨c₁, op⟩, ht, hs⟩ := Option.bind_eq_some_iff.mp hs
      exact (h.threadJmpz ht).followJmpz hs
  split at hs
  · exact h.optimizeJmp hs
  · exact hjmpz _ hs
  · exact hjmpz _ hs
  · exact h.optimizeJmpzEx hs
  · exact h.optimizeJmpzEx hs
  · exact h.optimizeJmpznz hs
  · exact Option.some.inj hs ▸ h

end Jumps

end Whole

/-- With the invariant, the sources agree with the edges. -/
theorem Live.consistent {L : Set ℕ} {e : ℕ} (h : c.Live ∅ L e) (hw : c.Whole) : c.Consistent := by
  intro b hb s hs
  obtain ⟨hacc, hsrc⟩ := h.edge b (h.access b hb) (by simp) s hs
  exact ⟨hw s hacc, hacc, hsrc⟩

section Calls

/-- If `del_source` takes the access of a block, no accessible block leads there by another edge,
but for the one that the block is joined with. -/
def Spares (c : ZendCfg) (fromb tob : ℕ) (kept new : List (Option ℕ)) : Prop :=
  c.takesAccess fromb tob = true → some tob ∉ kept ∧ some tob ∉ new ∧
    ∀ x, (c.blocks x).access = true → x ≠ fromb → tob ∈ (c.blocks x).successors →
      c.joinable x tob = true

variable {L : Set ℕ} {e : ℕ} {kept new : List (Option ℕ)}

variable [ZendEngine]

end Calls

section Rounds

variable {L : Set ℕ} {e p : ℕ}

theorem Whole.remark {S : Set ℕ} (hp : p ∈ S) (hroots : ∀ r ∈ c.roots, r ∈ S)
    (hclosed : ∀ x ∈ S, ∀ t ∈ (c.blocks x).successors, t ∈ S)
    (hacc : ∀ x ∉ c.order, (c.blocks x).access = true → x ∈ S)
    (hsome : ∀ x ∈ S, (c.blocks x).oplines.isSome = true)
    (hshape : ∀ x, ((c.remark p).blocks x).shape = (c.blocks x).shape) : (c.remark p).Whole := by
  intro x hx
  rw [← ZendCodeBlock.shape_oplines, hshape, ZendCodeBlock.shape_oplines]
  exact hsome x (mem_of_remark_access hp hroots hclosed hacc x hx)

variable [ZendEngine]

end Rounds

end ZendCfg

namespace ZendOpArray

variable {a : ZendOpArray} {c : ZendCfg} {x t : ℕ}

theorem setEdges_startBlocks {o : ZendOp} {next i : ℕ} {b : ZendCodeBlock} (hb : b.successors = [])
    (ht : t ∈ (o.setEdges next b).successors) : t = next ∨ t ∈ o.startBlocks i := by
  have hnone : ∀ y, some y ∉ b.edges := fun y hy => by
    simpa [hb] using ZendCodeBlock.mem_successors.mpr hy
  have hedge := hnone t
  rw [ZendCodeBlock.mem_successors] at ht
  rw [ZendCfg.mem_edges] at ht hedge
  unfold ZendOp.setEdges at ht
  unfold ZendOp.startBlocks
  split at ht <;> grind

/-- Every edge of a code block leads to an opline where a block starts. -/
theorem startsBlock_of_successor (ht : t ∈ (a.codeBlock x (a.nextStart x)).successors) :
    t = 0 ∨ a.startsBlock t = true := by
  unfold codeBlock at ht
  dsimp only at ht
  generalize hb : ({ ZendCodeBlock.zero with access := _, oplines := _, isProtected := _ } :
    ZendCodeBlock) = b at ht
  have hsucc : b.successors = [] := by
    subst hb
    rfl
  cases hnext : a.nextStart x with
  | none => simp [hnext, hsucc] at ht
  | some next =>
    cases hlast : a.lastOpline next with
    | none => simp [hnext, hlast, hsucc] at ht
    | some o =>
      simp only [hnext, hlast, Option.map_some, Option.getD_some] at ht
      obtain ⟨i, hi, hoi⟩ := List.getElem_of_mem (lastOpline_mem hlast)
      rcases setEdges_startBlocks (i := i) hsucc ht with rfl | hstart
      · rcases mem_blockStarts.mp (nextStart_spec hnext).2.1 with h | h
        · exact .inl h
        · exact .inr h.2.2
      · refine .inr ?_
        simp only [startsBlock, Bool.or_eq_true, List.any_eq_true]
        refine .inl (.inl ⟨(o, i), ?_, by simpa using hstart⟩)
        rw [List.mem_zipIdx_iff_getElem?]
        simp [hoi, hi]

theorem setEdges_oplines (o : ZendOp) (next : ℕ) (b : ZendCodeBlock) :
    (o.setEdges next b).oplines = b.oplines := by
  unfold ZendOp.setEdges
  split <;> rfl

theorem codeBlock_oplines {next : Option ℕ} : (a.codeBlock x next).oplines =
    some ((a.opcodes.drop x).take (next.getD a.opcodes.length - x)) := by
  unfold codeBlock
  dsimp only
  cases next with
  | none => rfl
  | some next =>
    cases hlast : a.lastOpline next with
    | none => simp [hlast]
    | some o => simp [hlast, setEdges_oplines]

section Rounds

variable [ZendEngine]

end Rounds

section Runs

local instance idleZendEngine : ZendEngine := plainEngine

end Runs

end ZendOpArray

end ZendOpcache
