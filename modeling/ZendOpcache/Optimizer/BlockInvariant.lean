import Mathlib.Data.List.TakeWhile
import Mathlib.Data.Sym.Sym2
import ZendOpcache.Optimizer.BlockPass
import ZendOpcache.Optimizer.DelSource

/-! # The invariant in the first phases of a round

`zend_t_usage` and `zend_optimize_block` change what a block consists of, swap its edges
and delete it; a block of `NOP`s stays one. `zend_rebuild_access_path` establishes the
invariant for the blocks that it marks.
-/

namespace ZendOpcache

namespace BlockState

variable (st : BlockState) (k p : ℕ) (o src : ZendOp)

/-- The edges of the last opline, in any order. -/
def exits : Sym2 (Option ℕ) := s(st.op2To, st.extTo)

/-- The edges, and how many oplines there are. -/
def outline : Sym2 (Option ℕ) × ℕ := (st.exits, st.ops.length)

@[simp] theorem outline_modifyOp (f : ZendOp → ZendOp) :
    (st.modifyOp k f).outline = st.outline := by
  simp [outline, exits, modifyOp]

@[simp] theorem outline_makeNop : (st.makeNop k).outline = st.outline := outline_modifyOp st k _
@[simp] theorem outline_addLiterals (x) : (st.addLiterals x).outline = st.outline := rfl
@[simp] theorem outline_setLiteral (x val) : (st.setLiteral x val).outline = st.outline := rfl
@[simp] theorem outline_literalDtor (x) : (st.literalDtor x).outline = st.outline := rfl
@[simp] theorem outline_setVarSource (n) : (st.setVarSource n k).outline = st.outline := rfl

@[simp] theorem outline_varUnset (x : Znode) : (st.varUnset x).outline = st.outline := by
  unfold varUnset; split_ifs <;> rfl

@[simp] theorem outline_setSource : (st.setSource k o).outline = st.outline := by
  unfold setSource; split_ifs <;> rfl

@[simp] theorem outline_setLastOp : (st.setLastOp k o).outline = st.outline := by
  unfold setLastOp; split_ifs <;> rfl

@[simp] theorem outline_charToString : (st.charToString o).outline = st.outline := by
  unfold charToString; split_ifs <;> rfl

theorem outline_rewriteAt {f : BlockState → ℕ → ZendOp → BlockState}
    (hf : ∀ o, (f st k o).outline = st.outline) : (st.rewriteAt k f).outline = st.outline := by
  unfold rewriteAt
  split
  · exact hf _
  · rfl

variable [ZendEngine]

@[simp] theorem outline_updateOp1Const (val) :
    (st.updateOp1Const k o val).outline = st.outline := by
  simp [updateOp1Const]

@[simp] theorem outline_updateOp2Const (val) :
    (st.updateOp2Const k o val).outline = st.outline := by
  simp [updateOp2Const]

omit [ZendEngine] in
@[simp] theorem outline_testSource : (st.testSource k p src).outline = st.outline := by
  simp [testSource]

@[simp] theorem outline_mergeEcho (l last) : (st.mergeEcho o l last).outline = st.outline := by
  simp [mergeEcho]

@[simp] theorem outline_mergeConcat : (st.mergeConcat k o p src).outline = st.outline := by
  simp [mergeConcat]

omit [ZendEngine] in
@[simp] theorem outline_takeSource (c) : (st.takeSource k o p src c).outline = st.outline := by
  simp [takeSource]

omit [ZendEngine] in
@[simp] theorem outline_takeSecond (c n) : (st.takeSecond k o p c n).outline = st.outline := by
  simp [takeSecond]

omit [ZendEngine] in
@[simp] theorem outline_moveResult : (st.moveResult k o p).outline = st.outline := by
  simp [moveResult]

@[simp] theorem outline_foldBinary : (st.foldBinary k o).outline = st.outline := by
  unfold foldBinary; split <;> simp

omit [ZendEngine] in
/-- The negated `JMPZNZ` has its edges swapped. -/
@[simp] theorem outline_negateTest : (st.negateTest k o p src).outline = st.outline := by
  unfold negateTest
  simp only [outline_makeNop, outline_varUnset]
  split_ifs
  · exact congrArg₂ Prod.mk Sym2.eq_swap (List.length_modify ..)
  · exact outline_modifyOp st k _

@[simp] theorem outline_simpleRewrites : (st.simpleRewrites k).outline = st.outline := by
  unfold simpleRewrites
  rw [outline_rewriteAt, outline_rewriteAt, outline_rewriteAt, outline_rewriteAt, outline_rewriteAt,
    outline_rewriteAt, outline_rewriteAt, outline_rewriteAt] <;> intro o
  · unfold stripQmAssign1; split <;> [split_ifs; skip] <;> simp
  · unfold stripQmAssign2; split <;> [split_ifs; skip] <;> simp
  · unfold printResult1; split <;> [split_ifs; skip] <;> simp
  · unfold printResult2; split <;> [split_ifs; skip] <;> simp
  · unfold echoCast; split <;> [split_ifs; skip] <;> simp
  · unfold freePrint; split <;> [split_ifs; skip] <;> simp
  · unfold freeBool; split <;> [split_ifs; skip] <;> simp
  · unfold compareBool; split_ifs <;> [split; skip] <;> simp

variable {st k o} {st' : BlockState} {k' : ℕ} {n : Next} {usedExt : ℕ → Bool}

theorem outline_constRewrite (h : st.constRewrite k o = some (st', n)) :
    st'.outline = st.outline := by
  have hconst : constRewrite.constRewrite' st k o = some (st', n) → st'.outline = st.outline := by
    unfold constRewrite.constRewrite'
    intro h
    split_ifs at h
    any_goals
      obtain ⟨rfl, -⟩ := Prod.mk.inj (Option.some.inj h)
      simp
    · -- a unary operation
      obtain ⟨st₁, hst₁, heq⟩ := Option.map_eq_some_iff.mp h
      obtain ⟨rfl, -⟩ := Prod.mk.inj heq
      unfold foldUnary at hst₁
      split_ifs at hst₁
      all_goals
        obtain ⟨val, -, hval⟩ := Option.bind_eq_some_iff.mp hst₁
        obtain rfl := Option.some.inj hval
        simp
  unfold constRewrite at h
  split at h
  · split_ifs at h
    · obtain ⟨rfl, -⟩ := Prod.mk.inj (Option.some.inj h)
      simp
    · exact hconst h
  · exact hconst h

theorem outline_sourceRewrite (p : ℕ) (src : ZendOp) :
    (st.sourceRewrite k o usedExt p src).1.outline = st.outline := by
  unfold sourceRewrite
  split_ifs <;> simp

theorem outline_chainRewrite (h : st.chainRewrite k o usedExt = some (st', n)) :
    st'.outline = st.outline := by
  unfold chainRewrite at h
  split_ifs at h
  · exact outline_constRewrite h
  · obtain ⟨rfl, -⟩ := Prod.mk.inj (Option.some.inj h)
    simp
  · split at h
    · have hfst : _ = st' := congrArg Prod.fst (Option.some.inj h)
      exact hfst ▸ outline_sourceRewrite _ _
    · obtain ⟨rfl, -⟩ := Prod.mk.inj (Option.some.inj h)
      rfl

theorem outline_step (h : st.step k usedExt = some (st', k')) : st'.outline = st.outline := by
  simp only [step, Option.bind_eq_bind, Option.bind_eq_some_iff] at h
  obtain ⟨o, -, ⟨st₁, next⟩, hchain, o₁, -, h⟩ := h
  rw [← outline_simpleRewrites st k, ← outline_chainRewrite hchain]
  cases next <;>
  · obtain ⟨rfl, -⟩ := Prod.mk.inj (Option.some.inj h)
    simp

/-- The loop keeps the edges of the block, in either order, and the number of oplines. -/
theorem outline_loop : ∀ (n k : ℕ) (st st' : BlockState), loop usedExt n k st = some st' →
    st'.outline = st.outline
  | 0, _, _, _, h => by simp [loop] at h
  | n + 1, k, st, st', h => by
    rw [loop] at h
    split_ifs at h
    · simp only [Option.bind_eq_bind, Option.bind_eq_some_iff] at h
      obtain ⟨⟨st₁, k₁⟩, hstep, h⟩ := h
      rw [outline_loop n k₁ st₁ st' h, outline_step hstep]
    · rw [Option.some.inj h]

end BlockState

namespace ZendCfg

variable {c c' c'' : ZendCfg} {L : Set ℕ} {b e t x y : ℕ}

/-- The blocks have other oplines, and the two edges of a conditional jump may be swapped. What
consists of `NOP`s still does. -/
structure Rewritten (c c' : ZendCfg) : Prop where
  order : c'.order = c.order
  size : c'.size = c.size
  roots : c'.roots = c.roots
  access : ∀ x, (c'.blocks x).access = (c.blocks x).access
  sources : ∀ x, (c'.blocks x).sources = (c.blocks x).sources
  successors : ∀ x t, t ∈ (c'.blocks x).successors ↔ t ∈ (c.blocks x).successors
  follow : ∀ x, (c'.blocks x).followTo = (c.blocks x).followTo
  nopOnly : ∀ x, (c.blocks x).NopOnly → (c'.blocks x).NopOnly

namespace Rewritten

theorem refl (c : ZendCfg) : Rewritten c c where
  order := rfl
  size := rfl
  roots := rfl
  access _ := rfl
  sources _ := rfl
  successors _ _ := Iff.rfl
  follow _ := rfl
  nopOnly _ h := h

theorem trans (h : Rewritten c c') (h' : Rewritten c' c'') : Rewritten c c'' where
  order := h'.order.trans h.order
  size := h'.size.trans h.size
  roots := h'.roots.trans h.roots
  access x := (h'.access x).trans (h.access x)
  sources x := (h'.sources x).trans (h.sources x)
  successors x t := (h'.successors x t).trans (h.successors x t)
  follow x := (h'.follow x).trans (h.follow x)
  nopOnly x hx := h'.nopOnly x (h.nopOnly x hx)

/-- The literals change. -/
theorem of_blocks (ho : c'.order = c.order) (hs : c'.size = c.size) (hr : c'.roots = c.roots)
    (hb : c'.blocks = c.blocks) : Rewritten c c' where
  order := ho
  size := hs
  roots := hr
  access _ := by rw [hb]
  sources _ := by rw [hb]
  successors _ _ := by rw [hb]
  follow _ := by rw [hb]
  nopOnly _ h := by rwa [hb]

theorem modify {f : ZendCodeBlock → ZendCodeBlock}
    (hacc : (f (c.blocks b)).access = (c.blocks b).access)
    (hsrc : (f (c.blocks b)).sources = (c.blocks b).sources)
    (hsucc : ∀ t, t ∈ (f (c.blocks b)).successors ↔ t ∈ (c.blocks b).successors)
    (hfollow : (f (c.blocks b)).followTo = (c.blocks b).followTo)
    (hnop : (c.blocks b).NopOnly → (f (c.blocks b)).NopOnly) : Rewritten c (c.modify b f) where
  order := rfl
  size := rfl
  roots := rfl
  access x := by
    rw [modify_blocks]
    split_ifs with hx
    · exact hx ▸ hacc
    · rfl
  sources x := by
    rw [modify_blocks]
    split_ifs with hx
    · exact hx ▸ hsrc
    · rfl
  successors x t := by
    rw [modify_blocks]
    split_ifs with hx
    · exact hx ▸ hsucc t
    · rfl
  follow x := by
    rw [modify_blocks]
    split_ifs with hx
    · exact hx ▸ hfollow
    · rfl
  nopOnly x h := by
    rw [modify_blocks]
    split_ifs with hx
    · exact hx ▸ hnop (hx ▸ h)
    · exact h

/-- The oplines of a block change. -/
theorem oplines {ops : List ZendOp} (h : (c.blocks b).NopOnly → ∀ o ∈ ops, o.opcode = .nop) :
    Rewritten c (c.modify b ({ · with oplines := some ops })) :=
  .modify rfl rfl (fun _ => Iff.rfl) rfl fun hnop => ⟨ops, rfl, h hnop⟩

end Rewritten

theorem Live.rewritten (h : c.Live ∅ L e) (hr : Rewritten c c') : c'.Live ∅ L e := by
  have hfalls : ∀ x y, c.Falls ∅ x y → c'.Falls ∅ x y := by
    rintro x y ⟨hx, hnop, hfollow⟩
    exact ⟨hx, hr.nopOnly x hnop, (hr.follow x).trans hfollow⟩
  obtain ⟨V, hcard, hLV, hV⟩ := h.bound
  constructor
  · exact hr.order ▸ h.sorted
  · exact ⟨V, hr.size ▸ hcard, hLV, fun x hx t ht => hV x hx t ((hr.successors x t).mp ht)⟩
  · intro x hx hxo
    have hnil := h.edgeless x hx (hr.order ▸ hxo)
    rw [List.eq_nil_iff_forall_not_mem]
    intro t ht
    simpa [hnil] using (hr.successors x t).mp ht
  · intro x hx t ht
    rw [hr.order]
    exact h.follow x hx t (hr.follow x ▸ ht)
  · exact fun x hx => h.access x (hr.access x ▸ hx)
  · intro x hx hxE hacc
    obtain ⟨hnop, t, ht⟩ := h.deleted x hx hxE (hr.access x ▸ hacc)
    exact ⟨hr.nopOnly x hnop, t, (hr.follow x).trans ht⟩
  · intro x hx hxE t ht
    rw [hr.access, hr.sources]
    exact h.edge x hx hxE t ((hr.successors x t).mp ht)
  · exact fun x hx hxE t ht m hm ho hxm hmt =>
      (h.gap x hx hxE t (hr.follow x ▸ ht) m hm (hr.order ▸ ho) hxm hmt).mono hfalls
  · exact fun x => hr.sources x ▸ h.nodup x
  · exact fun r hroot => h.roots r (hr.roots ▸ hroot)
  · exact ⟨h.entry_mem.1, hr.order ▸ h.entry_mem.2⟩
  · exact fun m hm ho => h.entry_le m hm (hr.order ▸ ho)

section TUsage

theorem foldlM_preserves {α β : Type*} {P : α → Prop} {f : α → β → Option α} (l : List β)
    (hf : ∀ x b x', b ∈ l → f x b = some x' → P x → P x') {x x' : α}
    (h : l.foldlM f x = some x') (hx : P x) : P x' := by
  induction l generalizing x with
  | nil => exact Option.some.inj h ▸ hx
  | cons b l ih =>
    rw [List.foldlM_cons] at h
    obtain ⟨x₁, h₁, h⟩ := Option.bind_eq_some_iff.mp h
    exact ih (fun x b x' hb => hf x b x' (List.mem_cons_of_mem _ hb)) h
      (hf x b x₁ List.mem_cons_self h₁ hx)

theorem dropResults_nop (used : ℕ → Bool) (ops : List ZendOp)
    (h : ∀ o ∈ ops, o.opcode = .nop) : ∀ o ∈ (dropResults used ops).1, o.opcode = .nop := by
  induction ops with
  | nil => simp [dropResults]
  | cons o ops ih =>
    have ho : o.opcode = .nop := h o List.mem_cons_self
    have hwithout : o.withoutResult.opcode = .nop := by
      simp [ZendOp.withoutResult, ho, ZendOp.dropsResult]
    intro o' ho'
    rcases List.mem_cons.mp ho' with rfl | ho'
    · rw [ZendOp.restoreResult]
      split_ifs <;> assumption
    · exact ih (fun o ho => h o (List.mem_cons_of_mem _ ho)) o' ho'

theorem foldl_literalDtor (freed : List Znode) (c : ZendCfg) :
    ∃ ls, freed.foldl literalDtor c = { c with literals := ls } := by
  induction freed generalizing c with
  | nil => exact ⟨c.literals, rfl⟩
  | cons x freed ih =>
    obtain ⟨ls, hls⟩ := ih (c.literalDtor x)
    exact ⟨ls, hls⟩

theorem zendTUsage_rewritten {T : ℕ} {used : ℕ → Bool} (h : c.zendTUsage T = some (used, c')) :
    Rewritten c c' := by
  unfold zendTUsage at h
  split_ifs at h
  · obtain ⟨-, rfl⟩ := Prod.mk.inj (Option.some.inj h)
    exact .refl c
  simp only [Option.bind_eq_bind, Option.bind_eq_some_iff] at h
  obtain ⟨used, -, c₁, hfold, h⟩ := h
  obtain ⟨-, rfl⟩ := Prod.mk.inj (Option.some.inj h)
  refine foldlM_preserves (P := Rewritten c) _ (fun c₂ b c₃ _ hstep hc₂ => ?_) hfold (.refl c)
  split_ifs at hstep
  · obtain ⟨ops, hops, hstep⟩ := Option.bind_eq_some_iff.mp hstep
    obtain rfl := Option.some.inj hstep
    obtain ⟨ls, hls⟩ := foldl_literalDtor (dropResults used ops).2.2 c₂
    rw [hls]
    have hlits : Rewritten c₂ { c₂ with literals := ls } := .of_blocks rfl rfl rfl rfl
    refine hc₂.trans (hlits.trans (.oplines ?_))
    rintro ⟨ops', hops', hnop⟩
    obtain rfl : ops' = ops := Option.some.inj (hops'.symm.trans hops)
    exact dropResults_nop used ops' hnop
  · exact Option.some.inj hstep ▸ hc₂

end TUsage

section OptimizeBlock

variable {T : ℕ} {usedExt : ℕ → Bool} {ops : List ZendOp}

theorem allNops_iff : allNops ops = true ↔ ∀ o ∈ ops, o.opcode = .nop := by
  simp [allNops, List.all_eq_true]

/-- A block of `NOP`s is left to be deleted. -/
theorem Live.deleteNops (h : c.Live ∅ L e) (hacc : (c.blocks b).access = true)
    (hops : allNops ops = true) :
    (c.deleteNops b ops).Live ∅ L e ∧ (c.deleteNops b ops).order = c.order := by
  have hnop : ∀ o ∈ ops.drop (ops.length - 1), o.opcode = .nop := fun o ho =>
    allNops_iff.mp hops o (List.mem_of_mem_drop ho)
  have hr : Rewritten c (c.modify b ({ · with oplines := some (ops.drop (ops.length - 1)) })) :=
    .oplines fun _ => hnop
  unfold ZendCfg.deleteNops
  generalize hc₁ : c.modify b _ = c₁ at hr
  change (if _ then _ else c₁).Live ∅ L e ∧ (if _ then _ else c₁).order = c.order
  have h₁ := h.rewritten hr
  have hnop₁ : (c₁.blocks b).NopOnly := ⟨_, by rw [← hc₁, modify_blocks_self], hnop⟩
  split_ifs with hfollow
  · obtain ⟨t, ht⟩ := Option.isSome_iff_exists.mp hfollow
    obtain ⟨h₂, ho₂⟩ := h₁.deleteCodeBlock ((hr.access b).trans hacc) hnop₁ ht
    exact ⟨h₂, ho₂.trans hr.order⟩
  · exact ⟨h₁, hr.order⟩

theorem Live.stripNop (h : c.Live ∅ L e) (hacc : (c.blocks b).access = true)
    (hops : (c.blocks b).NopOnly → ∀ o ∈ ops, o.opcode = .nop) :
    (c.stripNop b ops).Live ∅ L e ∧ (c.stripNop b ops).order = c.order := by
  unfold ZendCfg.stripNop
  split_ifs with hall
  · exact h.deleteNops hacc hall.2
  · have hr : Rewritten c
      (c.modify b ({ · with oplines := some (ops.filter (·.opcode != .nop)) })) :=
      .oplines fun hb o ho => hops hb o (List.mem_of_mem_filter ho)
    exact ⟨h.rewritten hr, hr.order⟩

/-- `zend_optimize_block` keeps the invariant. -/
theorem Live.optimizeBlock [ZendEngine] (h : c.Live ∅ L e) (hacc : (c.blocks b).access = true)
    (hopt : c.zendOptimizeBlock T usedExt b = some c') :
    c'.Live ∅ L e ∧ c'.order = c.order := by
  unfold zendOptimizeBlock at hopt
  obtain ⟨ops, hops, hopt⟩ := Option.bind_eq_some_iff.mp hopt
  -- nothing is left of a block of `NOP`s
  have hdrop : (c.blocks b).NopOnly → ops.dropWhile (·.opcode == .nop) = [] := by
    rintro ⟨ops', hops', hnop⟩
    obtain rfl : ops' = ops := Option.some.inj (hops'.symm.trans hops)
    simpa [List.dropWhile_eq_nil_iff] using hnop
  split_ifs at hopt with hall hT
  · obtain rfl := Option.some.inj hopt
    exact h.deleteNops hacc hall.2
  · obtain rfl := Option.some.inj hopt
    exact h.stripNop hacc fun hnop => by simp [hdrop hnop]
  · obtain ⟨st, hloop, hopt⟩ := Option.bind_eq_some_iff.mp hopt
    obtain rfl := Option.some.inj hopt
    have hst : (c.blocks b).NopOnly → st.ops = [] := fun hnop => by
      rw [hdrop hnop] at hloop
      simp only [BlockState.loop, List.length_nil, lt_irrefl, if_false] at hloop
      exact congrArg BlockState.ops (Option.some.inj hloop).symm
    have hexits : s(st.op2To, st.extTo) = s((c.blocks b).op2To, (c.blocks b).extTo) :=
      (Prod.mk.inj (BlockState.outline_loop _ _ _ _ hloop)).1
    generalize hmid : ({ c with literals := _, lastCacheSlot := _ } : ZendCfg) = mid
    have hblocks : mid.blocks = c.blocks := by rw [← hmid]
    have hr : Rewritten c (mid.modify b ({ · with op2To := st.op2To, extTo := st.extTo })) := by
      have hmidr : Rewritten c mid := by
        subst hmid
        exact .of_blocks rfl rfl rfl rfl
      refine hmidr.trans (.modify rfl rfl (fun t => ?_) rfl id)
      -- the two edges are the same, in either order
      rw [hblocks]
      rcases Sym2.eq_iff.mp hexits with ⟨h₂, h₃⟩ | ⟨h₂, h₃⟩
      · simp only [ZendCodeBlock.mem_successors, ZendCodeBlock.edges, h₂, h₃]
      · simp only [ZendCodeBlock.mem_successors, ZendCodeBlock.edges, h₂, h₃]
        exact ((List.Perm.swap _ _ _).cons _).mem_iff
    obtain ⟨h₁, ho₁⟩ : (ZendCfg.stripNop _ b st.ops).Live ∅ L e ∧
      (ZendCfg.stripNop _ b st.ops).order = _ :=
      (h.rewritten hr).stripNop ((hr.access b).trans hacc) fun hnop => by
        rw [modify_blocks_self, hblocks] at hnop
        simp [hst hnop]
    exact ⟨h₁, ho₁.trans hr.order⟩

end OptimizeBlock

section Rebuild

variable {p : ℕ}

/-- A graph in which the access paths can be searched: `L` is closed under the edges, and what an
edge skips falls to where it leads. -/
structure Layout (c : ZendCfg) (L : Set ℕ) : Prop where
  sorted : c.order.Pairwise (· < ·)
  bound : ∃ V : Finset ℕ, V.card ≤ c.size ∧ (∀ x ∈ L, x ∈ V) ∧
    ∀ x, ∀ t ∈ (c.blocks x).successors, t ∈ V
  edgeless : ∀ x ∉ c.order, (c.blocks x).successors = []
  follow : ∀ x t, (c.blocks x).followTo = some t → x < t ∧ t ∈ c.order
  access : ∀ x ∉ c.order, (c.blocks x).access = true → x ∈ L
  closed : ∀ x ∈ L, ∀ t ∈ (c.blocks x).successors, t ∈ L
  gap : ∀ x ∈ L, ∀ t, (c.blocks x).followTo = some t →
    ∀ m ∈ L, m ∈ c.order → x < m → m < t → c.Meets ∅ m t
  nodup : ∀ x, (c.blocks x).sources.Nodup
  roots : ∀ r ∈ c.roots, r ∈ L

theorem Live.layout (h : c.Live ∅ L e) : c.Layout L where
  sorted := h.sorted
  bound := by
    obtain ⟨V, hcard, hLV, hV⟩ := h.bound
    exact ⟨V, hcard, hLV, fun x => hV x (by simp)⟩
  edgeless x := h.edgeless x (by simp)
  follow x := h.follow x (by simp)
  access x _ := h.access x
  closed x hx t ht := h.access t (h.edge x hx (by simp) t ht).1
  gap x hx := h.gap x hx (by simp)
  nodup := h.nodup
  roots := h.roots

theorem accessPaths_marks {V : Finset ℕ} {n : ℕ} : ∀ (rs : List ℕ) (c : ZendCfg),
    (∀ x ∈ V, ∀ t ∈ (c.blocks x).successors, t ∈ V) → (∀ r ∈ rs, r ∈ V) →
      (c.unmarked V).card ≤ n →
      c.Marks (rs.foldl (accessPath n) c) ∧
        ∀ r ∈ rs, ((rs.foldl (accessPath n) c).blocks r).access = true
  | [], c, _, _, _ => ⟨.refl c, by simp⟩
  | r :: rs, c, hV, hrs, hcard => by
    obtain ⟨hmark, hacc⟩ := accessPath_marks n c r hV (hrs r List.mem_cons_self) hcard
    obtain ⟨hmarks, hall⟩ := accessPaths_marks rs (accessPath n c r)
      (fun x hx t ht => hV x hx t (by rwa [← hmark.successors]))
      (fun r' hr' => hrs r' (List.mem_cons_of_mem r hr')) ((hmark.card_unmarked_le V).trans hcard)
    refine ⟨hmark.trans hmarks, fun r' hr' => ?_⟩
    rcases List.mem_cons.mp hr' with rfl | hr'
    · exact hmarks.access _ hacc
    · exact hall r' hr'

theorem accessPaths_subset {S : Set ℕ} {n : ℕ} : ∀ (rs : List ℕ) (c : ZendCfg),
    (∀ r ∈ rs, r ∈ S) → (∀ x ∈ S, ∀ t ∈ (c.blocks x).successors, t ∈ S) →
    (∀ x, (c.blocks x).access = true → x ∈ S) →
      ∀ x, ((rs.foldl (accessPath n) c).blocks x).access = true → x ∈ S
  | [], _, _, _, hS => hS
  | r :: rs, c, hrs, hclosed, hS => by
    obtain ⟨hS', hshape⟩ := accessPath_subset n c r (hrs r List.mem_cons_self) hclosed hS
    refine accessPaths_subset rs (accessPath n c r)
      (fun r' hr' => hrs r' (List.mem_cons_of_mem r hr')) (fun x hx t ht => hclosed x hx t ?_) hS'
    rwa [← ZendCodeBlock.shape_successors, ← hshape, ZendCodeBlock.shape_successors]

/-- The marks of the blocks that can be reached from `p` and the roots. -/
def remark (c : ZendCfg) (p : ℕ) : ZendCfg :=
  c.roots.foldl (accessPath c.size) (accessPath c.size c.clearAccess p)

theorem rebuildAccessPath_eq_some {findStart : Bool} :
    c.rebuildAccessPath findStart = some c' ↔
      ∃ p, (if findStart then c.firstAccess else some 0) = some p ∧ c.remark p = c' := by
  cases findStart <;> simp [rebuildAccessPath, remark, Option.bind_eq_some_iff]

theorem clearAccess_shape (x : ℕ) : (c.clearAccess.blocks x).shape = (c.blocks x).shape := by
  simp only [clearAccess]
  split_ifs <;> rfl

/-- All that is marked lies in a set that is closed under the edges. -/
theorem mem_of_remark_access {S : Set ℕ} (hp : p ∈ S) (hroots : ∀ r ∈ c.roots, r ∈ S)
    (hclosed : ∀ x ∈ S, ∀ t ∈ (c.blocks x).successors, t ∈ S)
    (hacc : ∀ x ∉ c.order, (c.blocks x).access = true → x ∈ S) :
    ∀ x, ((c.remark p).blocks x).access = true → x ∈ S := by
  refine accessPaths_subset (p :: c.roots) c.clearAccess (by simpa using ⟨hp, hroots⟩)
    (fun x hx t ht => hclosed x hx t ?_) fun x hx => ?_
  · rwa [← ZendCodeBlock.shape_successors, clearAccess_shape, ZendCodeBlock.shape_successors] at ht
  · by_cases hxo : x ∈ c.order
    · simp [clearAccess, hxo] at hx
    · exact hacc x hxo (by simpa [clearAccess, hxo] using hx)

/-- `zend_rebuild_access_path` establishes the invariant. -/
theorem Layout.remark (h : c.Layout L) (hp : p ∈ L) (hpo : p ∈ c.order) :
    (∀ x, ((c.remark p).blocks x).shape = (c.blocks x).shape) ∧ (c.remark p).order = c.order ∧
    ∃ e' ∈ L, e' ∈ c.order ∧ e' ≤ p ∧ ((c.remark p).blocks e').access = true ∧
      (c.remark p).Live ∅ {x | ((c.remark p).blocks x).access = true} e' := by
  obtain ⟨V, hcard, hLV, hV⟩ := h.bound
  have hsucc : ∀ x, (c.clearAccess.blocks x).successors = (c.blocks x).successors := fun x => by
    rw [← ZendCodeBlock.shape_successors, clearAccess_shape, ZendCodeBlock.shape_successors]
  have hacc₀ : ∀ x, (c.clearAccess.blocks x).access = true → x ∉ c.order ∧ x ∈ L := by
    intro x hx
    by_cases hxo : x ∈ c.order
    · simp [clearAccess, hxo] at hx
    · refine ⟨hxo, h.access x hxo ?_⟩
      simpa [clearAccess, hxo] using hx
  have hmarks := accessPaths_marks (V := V) (n := c.size) (p :: c.roots) c.clearAccess
    (fun x _ t ht => hV x t (hsucc x ▸ ht))
    (by simpa using ⟨hLV p hp, fun r hr => hLV r (h.roots r hr)⟩)
    ((Finset.card_le_card (Finset.filter_subset _ V)).trans hcard)
  obtain ⟨hmarks, hall⟩ := hmarks
  have hsub := mem_of_remark_access hp h.roots h.closed h.access
  change c.clearAccess.Marks (c.remark p) at hmarks
  change ∀ r ∈ p :: c.roots, ((c.remark p).blocks r).access = true at hall
  generalize c.remark p = c' at hmarks hall hsub
  have horder : c'.order = c.order := by rw [hmarks.frame]; rfl
  have hsize : c'.size = c.size := by rw [hmarks.frame]; rfl
  have hroots : c'.roots = c.roots := by rw [hmarks.frame]; rfl
  have hshape : ∀ x, (c'.blocks x).shape = (c.blocks x).shape := fun x =>
    (hmarks.shape x).trans (clearAccess_shape x)
  have hsucc' : ∀ x, (c'.blocks x).successors = (c.blocks x).successors := fun x =>
    (hmarks.successors x).trans (hsucc x)
  have hfollow' : ∀ x, (c'.blocks x).followTo = (c.blocks x).followTo := fun x => by
    rw [← ZendCodeBlock.shape_followTo, hshape, ZendCodeBlock.shape_followTo]
  have hpacc : (c'.blocks p).access = true := hall p List.mem_cons_self
  obtain ⟨e', he'⟩ := exists_firstAccess (horder.symm ▸ hpo) hpacc
  have hsorted : c'.order.Pairwise (· < ·) := horder.symm ▸ h.sorted
  obtain ⟨heo, heacc, hele⟩ := (firstAccess_eq_some_iff hsorted).mp he'
  refine ⟨hshape, horder, e', hsub e' heacc, horder ▸ heo, hele p (horder.symm ▸ hpo) hpacc,
    heacc, ?_⟩
  constructor
  · exact hsorted
  · exact ⟨V, hsize ▸ hcard, fun x hx => hLV x (hsub x hx), fun x _ t ht => hV x t (hsucc' x ▸ ht)⟩
  · exact fun x _ hxo => hsucc' x ▸ h.edgeless x (horder ▸ hxo)
  · exact fun x _ t ht => by
      rw [horder]
      exact h.follow x t (hfollow' x ▸ ht)
  · exact fun x hx => hx
  · intro x hx _ hacc
    have hx : (c'.blocks x).access = true := hx
    simp [hacc] at hx
  · intro x hx _ t ht
    cases hx₀ : (c.clearAccess.blocks x).access with
    | false => exact hmarks.closed x hx hx₀ t (by rw [hsucc, ← hsucc']; exact ht)
    | true =>
      -- a block outside of the list has no edges
      rw [hsucc', h.edgeless x (hacc₀ x hx₀).1] at ht
      simp at ht
  · exact fun x hx _ t ht m hm hmo hxm hmt =>
      (h.gap x (hsub x hx) t (hfollow' x ▸ ht) m (hsub m hm) (horder ▸ hmo) hxm hmt).mono
        fun _ _ hf => falls_of_shape hshape hf
  · refine hmarks.nodup fun x => ?_
    by_cases hxo : x ∈ c.order
    · simp [clearAccess, hxo]
    · simpa [clearAccess, hxo] using h.nodup x
  · exact fun r hr => hall r (List.mem_cons_of_mem p (hroots ▸ hr))
  · exact ⟨heacc, heo⟩
  · exact fun m hm hmo => hele m hmo hm

end Rebuild

end ZendCfg

end ZendOpcache
