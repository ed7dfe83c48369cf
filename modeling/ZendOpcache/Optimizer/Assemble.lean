import ZendOpcache.Optimizer.BlockPass
import ZendOpcache.Optimizer.Execution
import ZendOpcache.Optimizer.Sources

/-! # The assembled code

`assemble_code_blocks` copies the accessible blocks one after the other, without a `JMP` to the
block that comes next. Where nothing has been rewritten, the copy executes the same oplines.
-/

namespace ZendOpcache

namespace ZendCfg

variable {c : ZendCfg} {b e t : ℕ} {l₁ l₂ : List ℕ}

/-- The blocks that are copied -/
def kept (c : ZendCfg) : List ℕ := c.order.filter fun b => (c.blocks b).access

/-- The oplines of a block that are copied -/
def copied (c : ZendCfg) (b : ℕ) : List ZendOp := (c.stripJmp b).oplines.getD []

section Offset

theorem offset_eq : c.offset b = ((c.kept.takeWhile (· != b)).flatMap c.copied).length := by
  rw [offset, emitted, List.takeWhile_map, List.length_flatMap, List.map_map]
  rfl

theorem kept_sorted (hs : c.order.Pairwise (· < ·)) : c.kept.Pairwise (· < ·) := hs.filter _

theorem mem_kept : b ∈ c.kept ↔ b ∈ c.order ∧ (c.blocks b).access = true := by
  simp [kept]

/-- The copies before a block -/
theorem offset_of_split (hs : c.order.Pairwise (· < ·)) (h : c.kept = l₁ ++ b :: l₂) :
    c.offset b = (l₁.flatMap c.copied).length := by
  have hlt : ∀ x ∈ l₁, (x != b) = true := fun x hx => by
    have hpair := kept_sorted hs
    rw [h, List.pairwise_append] at hpair
    simpa using (hpair.2.2 x hx b List.mem_cons_self).ne
  have htake : c.kept.takeWhile (· != b) = l₁ := by
    rw [h, List.takeWhile_append_of_pos hlt, List.takeWhile_cons_of_neg (by simp), List.append_nil]
  rw [offset_eq, htake]

/-- The copy of a block starts at its offset. -/
theorem getElem?_offset (hs : c.order.Pairwise (· < ·)) (hb : b ∈ c.kept) {k : ℕ}
    (hk : k < (c.copied b).length) :
    (c.kept.flatMap c.copied)[c.offset b + k]? = (c.copied b)[k]? := by
  obtain ⟨l₁, l₂, h⟩ := List.append_of_mem hb
  rw [offset_of_split hs h, h, List.flatMap_append, List.flatMap_cons,
    List.getElem?_append_right (Nat.le_add_right _ _), Nat.add_sub_cancel_left,
    List.getElem?_append_left hk]

theorem nextAccess_eq (hs : c.order.Pairwise (· < ·)) (he : e ∈ c.order) (hbe : b < e)
    (hacc : (c.blocks e).access = true) (hmin : ∀ m ∈ c.order, b < m → e ≤ m) :
    c.nextAccess b = some e := by
  have hsome : (c.nextAccess b).isSome = true := by
    rw [nextAccess, List.find?_isSome]
    exact ⟨e, he, by simp [hbe, hacc]⟩
  obtain ⟨t, ht⟩ := Option.isSome_iff_exists.mp hsome
  obtain ⟨hbt, hto, -, hno⟩ := nextAccess_spec hs ht
  rw [ht, Option.some.injEq]
  refine le_antisymm ?_ (hmin t hto hbt)
  by_contra hlt
  simp [hno e he hbe (by omega)] at hacc

/-- The block that comes next starts where the copy ends. -/
theorem offset_nextAccess (hs : c.order.Pairwise (· < ·)) (hb : b ∈ c.kept)
    (ht : c.nextAccess b = some t) : c.offset t = c.offset b + (c.copied b).length := by
  obtain ⟨hbt, hto, hacc, hno⟩ := nextAccess_spec hs ht
  obtain ⟨l₁, l₂, h⟩ := List.append_of_mem hb
  have hpair := kept_sorted hs
  rw [h, List.pairwise_append, List.pairwise_cons] at hpair
  obtain ⟨-, ⟨hafter, -⟩, hbefore⟩ := hpair
  have htk : t ∈ l₁ ++ b :: l₂ := h ▸ mem_kept.mpr ⟨hto, hacc⟩
  have ht₂ : t ∈ l₂ := by
    rcases List.mem_append.mp htk with ht₁ | ht₁
    · have := hbefore t ht₁ b List.mem_cons_self
      omega
    · exact (List.mem_cons.mp ht₁).resolve_left hbt.ne'
  cases l₂ with
  | nil => cases ht₂
  | cons u l₂ =>
    have hut : u = t := by
      by_contra hne
      have hmem : u ∈ l₁ ++ b :: u :: l₂ := by simp
      have hu := mem_kept.mp (h ▸ hmem)
      have hlt : u < t := by
        have hpair := kept_sorted hs
        rw [h, List.pairwise_append, List.pairwise_cons, List.pairwise_cons] at hpair
        exact hpair.2.1.2.1 t ((List.mem_cons.mp ht₂).resolve_left fun heq => hne heq.symm)
      simp [hno u hu.1 (hafter u List.mem_cons_self) hlt] at hu
    have h' : c.kept = (l₁ ++ [b]) ++ u :: l₂ := by rw [h, List.append_assoc]; rfl
    rw [← hut, offset_of_split hs h', offset_of_split hs h]
    simp

end Offset

end ZendCfg

namespace ZendOpArray

variable {a : ZendOpArray} {c c₀ : ZendCfg} {b e i p t : ℕ} {o : ZendOp}

section Built

/-- The graph of `find_code_blocks` with the marks of `zend_rebuild_access_path` -/
structure Built (a : ZendOpArray) (c : ZendCfg) : Prop where
  order : c.order = a.blockStarts ++ [a.opcodes.length + 1]
  shape : ∀ b ∈ a.blockStarts, (c.blocks b).shape = (a.codeBlock b (a.nextStart b)).shape
  entry : (c.blocks 0).access = true
  closed : ∀ b, (c.blocks b).access = true →
    ∀ t ∈ (c.blocks b).successors, (c.blocks t).access = true
  starts : ∀ b ∈ c.order, (c.blocks b).access = true → b ∈ a.blockStarts

theorem setEdges_targets {base : ZendCodeBlock} (hbase : base.successors = [])
    (hfast : o.opcode ≠ .fastCall ∧ o.opcode ≠ .fastRet)
    (ht : t ∈ (o.setEdges e base).successors) : t = e ∨ t ∈ o.targets := by
  have hnone : ∀ y, some y ∉ base.edges := fun y hy => by
    simpa [hbase] using ZendCodeBlock.mem_successors.mpr hy
  have hedge := hnone t
  rw [ZendCodeBlock.mem_successors] at ht
  rw [ZendCfg.mem_edges] at ht hedge
  unfold ZendOp.setEdges at ht
  unfold ZendOp.targets
  split at ht <;> grind

theorem WellFormed.not_fast (h : a.WellFormed) (hfinally : a.hasFinallyBlock = false)
    (ho : o ∈ a.opcodes) : o.opcode ≠ .fastCall ∧ o.opcode ≠ .fastRet := by
  have := h.fast o ho
  simp only [hfinally, Bool.false_eq_true, imp_false, not_or] at this
  exact this

/-- The edges of a code block lead to code blocks. -/
theorem WellFormed.successor_mem (h : a.WellFormed) (hfinally : a.hasFinallyBlock = false)
    (ht : t ∈ (a.codeBlock b (a.nextStart b)).successors) : t ∈ a.blockStarts := by
  have hstart := startsBlock_of_successor ht
  suffices hlt : t < a.opcodes.length by
    rw [mem_blockStarts]
    rcases Nat.eq_zero_or_pos t with h0 | hpos
    · exact .inl h0
    · exact .inr ⟨hlt, hpos, hstart.resolve_left hpos.ne'⟩
  have hplain : (a.plainBlock b).successors = [] := rfl
  cases hnext : a.nextStart b with
  | none =>
    rw [codeBlock_of_none hnext, hplain] at ht
    cases ht
  | some e =>
    cases hlast : a.lastOpline e with
    | none =>
      have hcode : a.codeBlock b (a.nextStart b) = a.plainBlock b := by
        simp [codeBlock, plainBlock, blockEnd, hnext, hlast]
      rw [hcode, hplain] at ht
      cases ht
    | some o =>
      rw [codeBlock_of_last hnext hlast] at ht
      have hmem := lastOpline_mem hlast
      rcases setEdges_targets hplain (h.not_fast hfinally hmem) ht with rfl | ht
      · exact h.lt_length (nextStart_spec hnext).2.1
      · exact h.targets o hmem t ht

theorem WellFormed.root_mem (h : a.WellFormed) (hfind : a.findCodeBlocks = some c₀) :
    ∀ r ∈ c₀.roots, r ∈ a.blockStarts := by
  unfold findCodeBlocks at hfind
  split_ifs at hfind
  obtain rfl := Option.some.inj hfind
  intro r hr
  suffices hlt : r < a.opcodes.length ∧ a.startsBlock r = true by
    rw [mem_blockStarts]
    rcases Nat.eq_zero_or_pos r with h0 | hpos
    · exact .inl h0
    · exact .inr ⟨hlt.1, hpos, hlt.2⟩
  simp only [ZendCfg.roots, List.mem_append, List.mem_flatMap, List.map_map, List.mem_map] at hr
  simp only [startsBlock, Bool.or_eq_true, List.any_eq_true]
  rcases hr with ⟨l, hl, hr⟩ | ⟨e, he, rfl⟩
  · obtain ⟨h₁, h₂, h₃⟩ := h.loops l hl
    refine ⟨?_, .inr ⟨l, hl, ?_⟩⟩
    · simp only [List.mem_cons, List.not_mem_nil, or_false] at hr
      rcases hr with rfl | rfl | rfl <;> assumption
    · simp at hr ⊢
      tauto
  · exact ⟨(h.tries e he).2, .inl (.inr ⟨e, he, by simp⟩)⟩

theorem WellFormed.exists_built (h : a.WellFormed) (hfinally : a.hasFinallyBlock = false)
    (hfind : a.findCodeBlocks = some c₀) :
    ∃ c, c₀.rebuildAccessPath false = some c ∧ a.Built c := by
  obtain ⟨hlayout, hmem⟩ := findCodeBlocks_layout hfind
  obtain ⟨horder, -, -, hcode⟩ := findCodeBlocks_blocks hfind
  have hblocks : ∀ b ∈ a.blockStarts, c₀.blocks b = a.codeBlock b (a.nextStart b) := by
    unfold findCodeBlocks at hfind
    split_ifs at hfind
    obtain rfl := Option.some.inj hfind
    intro b hb
    refine if_pos ((mem_blockStarts.mp hb).imp_right fun hb => hb.2.2)
  have h0 : 0 ∈ a.namedBlocks := by simp [namedBlocks, blockStarts]
  obtain ⟨hshape, horder', e', -, -, hle, hacc, hlive⟩ := hlayout.remark h0 hmem
  obtain rfl : e' = 0 := by omega
  refine ⟨c₀.remark 0, ZendCfg.rebuildAccessPath_eq_some.mpr ⟨0, rfl, rfl⟩, ?_⟩
  constructor
  · exact horder'.trans horder
  · exact fun b hb => (hshape b).trans (by rw [hblocks b hb])
  · exact hacc
  · exact fun b hb t ht => (hlive.edge b hb (by simp) t ht).1
  · -- the blocks outside of the list have no edges
    have hsub : ∀ x, ((c₀.remark 0).blocks x).access = true → x ∈ a.blockStarts ∨ x ∉ c₀.order := by
      refine ZendCfg.mem_of_remark_access (S := {x | x ∈ a.blockStarts ∨ x ∉ c₀.order})
        (.inl (mem_blockStarts.mpr (.inl rfl))) (fun r hr => .inl (h.root_mem hfind r hr)) ?_
        fun x hx _ => .inr hx
      intro x hx t ht
      rcases hx with hx | hx
      · rw [hblocks x hx] at ht
        exact .inl (h.successor_mem hfinally ht)
      · rw [hlayout.edgeless x hx] at ht
        cases ht
    intro b hb hbacc
    exact (hsub b hbacc).resolve_right fun hno => hno (horder' ▸ hb)

end Built

section Copies

/-- The oplines of a block -/
def blockOps (a : ZendOpArray) (b : ℕ) : List ZendOp :=
  (a.opcodes.drop b).take (a.blockEnd b - b)

/-- The opline of a copy that gets new jump targets -/
def lastIndex (ops : List ZendOp) : ℕ :=
  if ops.getLast?.any (·.opcode == .opData) then ops.length - 2 else ops.length - 1

/-- The new jump targets of an opline -/
def patch (f : ℕ → ℕ) (x : ZendCodeBlock) (o : ZendOp) : ZendOp :=
  { o with
    op1 := match x.op1To with | some t => { o.op1 with num := f t } | none => o.op1
    op2 := match x.op2To with | some t => { o.op2 with num := f t } | none => o.op2
    extendedValue := match x.extTo with | some t => f t | none => o.extendedValue }

theorem patch_of_none {f : ℕ → ℕ} {x : ZendCodeBlock} (h₁ : x.op1To = none) (h₂ : x.op2To = none)
    (h₃ : x.extTo = none) : patch f x o = o := by
  simp [patch, h₁, h₂, h₃]

theorem patch_setEdges {f : ℕ → ℕ} (hfast : o.opcode ≠ .fastCall ∧ o.opcode ≠ .fastRet) :
    patch f (o.setEdges e (a.plainBlock b)) o = o.mapTargets f := by
  obtain ⟨opcode, op1, op2, result, extendedValue⟩ := o
  unfold ZendOp.setEdges ZendOp.mapTargets
  dsimp only at hfast ⊢
  split <;> simp_all [patch, plainBlock, ZendCodeBlock.zero]

theorem WellFormed.blockOps_length (h : a.WellFormed) :
    (a.blockOps b).length = a.blockEnd b - b := by
  have := h.blockEnd_le (b := b)
  rw [blockOps, List.length_take, List.length_drop]
  omega

theorem blockOps_getElem? {k : ℕ} (hk : k < a.blockEnd b - b) :
    (a.blockOps b)[k]? = a.opcodes[b + k]? := by
  rw [blockOps, List.getElem?_take_of_lt hk, List.getElem?_drop]

theorem WellFormed.inBlock_iff (h : a.WellFormed) (hb : b ∈ a.blockStarts) {k : ℕ} :
    a.InBlock b (b + k) ↔ k < (a.blockOps b).length := by
  rw [h.blockOps_length, InBlock]
  constructor
  · rintro ⟨-, -, hlt⟩
    omega
  · exact fun hlt => ⟨hb, by omega, by omega⟩

theorem WellFormed.getLast?_blockOps (h : a.WellFormed) (hb : b ∈ a.blockStarts) :
    (a.blockOps b).getLast? = a.opcodes[a.blockEnd b - 1]? := by
  obtain ⟨-, -, hlt⟩ := h.inBlock_start hb
  rw [List.getLast?_eq_getElem?, h.blockOps_length, blockOps_getElem? (by omega)]
  congr 1
  omega

/-- The opline that sets the edges of a block is the one that gets the new targets. -/
theorem WellFormed.lastOpline_eq (h : a.WellFormed) (hb : b ∈ a.blockStarts)
    (hnext : a.nextStart b = some e) :
    lastIndex (a.blockOps b) < (a.blockOps b).length ∧
      a.lastOpline e = a.opcodes[b + lastIndex (a.blockOps b)]? := by
  obtain ⟨-, -, hlt⟩ := h.inBlock_start hb
  have hend : a.blockEnd b = e := by simp [blockEnd, hnext]
  have hle := h.blockEnd_le (b := b)
  obtain ⟨o, ho⟩ : ∃ o, a.opcodes[e - 1]? = some o := ⟨_, List.getElem?_eq_getElem (by omega)⟩
  rw [lastIndex, h.getLast?_blockOps hb, h.blockOps_length, hend, ho]
  simp only [lastOpline, ho, Option.any_some, beq_iff_eq]
  split_ifs with hdata
  · have hne : b ≠ e - 1 := fun heq => h.data b hb o (heq ▸ ho) hdata
    exact ⟨by omega, congrArg (a.opcodes[·]?) (by omega)⟩
  · rw [← ho]
    exact ⟨by omega, congrArg (a.opcodes[·]?) (by omega)⟩

/-- Only the last opline of a block jumps. -/
theorem WellFormed.targets_eq_nil (h : a.WellFormed) (hb : b ∈ a.blockStarts) {k : ℕ}
    (hk : (a.blockOps b)[k]? = some o) (hne : k ≠ lastIndex (a.blockOps b)) : o.targets = [] := by
  by_contra htargets
  have hlt : k < (a.blockOps b).length := (List.getElem?_eq_some_iff.mp hk).1
  have hin := (h.inBlock_iff hb).mpr hlt
  have hlen := h.blockOps_length (b := b)
  rw [blockOps_getElem? (hlen ▸ hlt)] at hk
  obtain ⟨e, hnext, -, hpos⟩ := h.jump_last hin hk htargets
  have hend : a.blockEnd b = e := by simp [blockEnd, hnext]
  refine hne ?_
  rw [lastIndex, h.getLast?_blockOps hb, hlen, hend]
  rcases hpos with rfl | ⟨-, rfl, d, hd, hdata⟩
  · have hdata : o.opcode ≠ .opData := fun hdata => htargets (by simp [ZendOp.targets, hdata])
    rw [Nat.add_sub_cancel, hk]
    simp [hdata]
    omega
  · rw [show b + k + 2 - 1 = b + k + 1 by omega, hd]
    simp [hdata]
    omega

variable (h : a.WellFormed) (hfinally : a.hasFinallyBlock = false) (hc : a.Built c)
include h hfinally hc

omit h hfinally in
theorem Built.block_eq (hb : b ∈ a.blockStarts) :
    (c.blocks b).oplines = some (a.blockOps b) ∧
      (c.blocks b).edges = (a.codeBlock b (a.nextStart b)).edges := by
  have hshape := hc.shape b hb
  refine ⟨?_, ?_⟩
  · have hops := congrArg ZendCodeBlock.oplines hshape
    simp only [ZendCodeBlock.shape] at hops
    rw [hops, codeBlock_oplines]
    rfl
  · have hedges : (c.blocks b).shape.edges = (a.codeBlock b (a.nextStart b)).shape.edges :=
      congrArg ZendCodeBlock.edges hshape
    exact hedges

omit h hfinally in
/-- A block is copied as it is, or without its final `JMP`. -/
theorem Built.copied_cases (hb : b ∈ a.blockStarts) :
    (c.stripJmp b = c.blocks b ∧ c.copied b = a.blockOps b ∧
      ∀ o, (a.blockOps b).getLast? = some o → o.opcode = .jmp →
        ∀ t, (c.blocks b).op1To = some t → c.nextAccess b ≠ some t) ∨
    (∃ o t, (a.blockOps b).getLast? = some o ∧ o.opcode = .jmp ∧ (c.blocks b).op1To = some t ∧
      c.nextAccess b = some t ∧ c.copied b = (a.blockOps b).dropLast ∧
      c.stripJmp b = { c.blocks b with
        followTo := some t, op1To := none, oplines := some (a.blockOps b).dropLast }) := by
  obtain ⟨hops, -⟩ := hc.block_eq hb
  unfold ZendCfg.copied ZendCfg.stripJmp
  simp only [hops, Option.bind_some, Option.map_some]
  split
  · rename_i o t ho ht
    split_ifs with hjmp
    · exact .inr ⟨o, t, ho, hjmp.1, ht, hjmp.2, rfl, rfl⟩
    · refine .inl ⟨rfl, by rw [hops]; rfl, fun o' ho' hop t' ht' hnext => hjmp ?_⟩
      obtain rfl := Option.some.inj (ho.symm.trans ho')
      obtain rfl := Option.some.inj (ht.symm.trans ht')
      exact ⟨hop, hnext⟩
  · rename_i hno
    exact .inl ⟨rfl, by rw [hops]; rfl, fun o ho _ t ht => absurd ht (hno o t ho)⟩

omit hfinally hc in
theorem WellFormed.getElem?_modify_lastIndex {f : ZendOp → ZendOp} {g : ℕ → ℕ}
    (hb : b ∈ a.blockStarts)
    (hf : ∀ o, (a.blockOps b)[lastIndex (a.blockOps b)]? = some o → f o = o.mapTargets g) :
    (a.blockOps b).modify (lastIndex (a.blockOps b)) f = (a.blockOps b).map (·.mapTargets g) := by
  refine List.ext_getElem? fun k => ?_
  rw [List.getElem?_modify, List.getElem?_map]
  cases hk : (a.blockOps b)[k]? with
  | none => rfl
  | some o =>
    simp only [Option.map_eq_map, Option.map_some, Option.some.injEq]
    by_cases heq : lastIndex (a.blockOps b) = k
    · rw [if_pos heq]
      exact hf o (heq ▸ hk)
    · rw [if_neg heq, ZendOp.mapTargets_of_targets (h.targets_eq_nil hb hk (Ne.symm heq))]

/-- The copy of a block jumps to the copies of its targets. -/
theorem Built.retarget_eq (hb : b ∈ a.blockStarts) :
    c.retarget (c.stripJmp b) = (c.copied b).map (·.mapTargets c.offset) := by
  obtain ⟨hops, hedges⟩ := hc.block_eq hb
  have hedges' := hedges
  simp only [ZendCodeBlock.edges, List.cons.injEq, and_true] at hedges'
  obtain ⟨h₁, h₂, h₃, -⟩ := hedges'
  rcases hc.copied_cases hb with ⟨hstrip, hcopied, -⟩ | ⟨o, t, ho, hjmp, -, -, hcopied, hstrip⟩
  · rw [hstrip, hcopied]
    have hret : c.retarget (c.blocks b) =
        (a.blockOps b).modify (lastIndex (a.blockOps b)) (patch c.offset (c.blocks b)) := by
      simp only [ZendCfg.retarget, hops, Option.getD_some]
      rfl
    rw [hret]
    refine h.getElem?_modify_lastIndex hb fun o ho => ?_
    have hpatch : patch c.offset (c.blocks b) o =
        patch c.offset (a.codeBlock b (a.nextStart b)) o := by
      simp only [patch, h₁, h₂, h₃]
    rw [hpatch]
    have hlt := (List.getElem?_eq_some_iff.mp ho).1
    have hi := ho
    rw [blockOps_getElem? (h.blockOps_length (b := b) ▸ hlt)] at hi
    obtain hnext | ⟨e, hnext⟩ := Option.eq_none_or_eq_some (a.nextStart b)
    · rw [codeBlock_of_none hnext, patch_of_none rfl rfl rfl]
      refine (ZendOp.mapTargets_of_targets ?_).symm
      by_contra htargets
      obtain ⟨e, he, -⟩ := h.jump_last ((h.inBlock_iff hb).mpr hlt) hi htargets
      simp [hnext] at he
    · have hlast : a.lastOpline e = some o := (h.lastOpline_eq hb hnext).2.trans hi
      rw [codeBlock_of_last hnext hlast]
      exact patch_setEdges (h.not_fast hfinally (List.mem_of_getElem? hi))
  · rw [hstrip, hcopied]
    have hindex : lastIndex (a.blockOps b) = (a.blockOps b).length - 1 := by
      simp [lastIndex, ho, hjmp]
    have hnone : (c.blocks b).op2To = none ∧ (c.blocks b).extTo = none := by
      rw [h₂, h₃]
      obtain hnext | ⟨e, hnext⟩ := Option.eq_none_or_eq_some (a.nextStart b)
      · rw [codeBlock_of_none hnext]
        exact ⟨rfl, rfl⟩
      · obtain ⟨hlt, hlast⟩ := h.lastOpline_eq hb hnext
        rw [← blockOps_getElem? (h.blockOps_length (b := b) ▸ hlt), hindex,
          ← List.getLast?_eq_getElem?, ho] at hlast
        rw [codeBlock_of_last hnext hlast]
        simp [ZendOp.setEdges, hjmp, plainBlock, ZendCodeBlock.zero]
    have hret : ∀ x : ZendCodeBlock, x.op1To = none → x.op2To = none → x.extTo = none →
        x.oplines = some (a.blockOps b).dropLast → c.retarget x = (a.blockOps b).dropLast := by
      intro x hx₁ hx₂ hx₃ hx
      have heq : c.retarget x = (a.blockOps b).dropLast.modify
          (lastIndex (a.blockOps b).dropLast) (patch c.offset x) := by
        simp only [ZendCfg.retarget, hx, Option.getD_some]
        rfl
      rw [heq, show patch c.offset x = id from funext fun o => patch_of_none hx₁ hx₂ hx₃,
        List.modify_id]
    refine (hret _ ?_ ?_ ?_ ?_).trans ?_
    · rfl
    · exact hnone.1
    · exact hnone.2
    · rfl
    refine (List.map_id _).symm.trans (List.map_congr_left fun o' ho' => ?_)
    obtain ⟨k, hk⟩ := List.mem_iff_getElem?.mp ho'
    have hlt : k < (a.blockOps b).length - 1 := by
      simpa using (List.getElem?_eq_some_iff.mp hk).1
    rw [List.getElem?_dropLast, if_pos hlt] at hk
    exact (ZendOp.mapTargets_of_targets (h.targets_eq_nil hb hk (by omega))).symm

end Copies

section Simulation

/-- Opline `i` of the code has its place, or that of the next copied opline, at `p`. -/
def Placed (a : ZendOpArray) (c : ZendCfg) (i p : ℕ) : Prop :=
  ∃ b, (c.blocks b).access = true ∧ a.InBlock b i ∧ p = c.offset b + (i - b)

variable (h : a.WellFormed) (hfinally : a.hasFinallyBlock = false) (hc : a.Built c)
include h hfinally hc

omit hfinally in
theorem Built.sorted : c.order.Pairwise (· < ·) := by
  rw [hc.order, List.pairwise_append]
  refine ⟨a.blockStarts_sorted, List.pairwise_singleton _ _, fun x hx y hy => ?_⟩
  have := h.lt_length hx
  rw [List.mem_singleton.mp hy]
  omega

omit h hfinally in
theorem Built.mem_kept : b ∈ c.kept ↔ b ∈ a.blockStarts ∧ (c.blocks b).access = true := by
  rw [ZendCfg.mem_kept]
  constructor
  · exact fun hb => ⟨hc.starts b hb.1 hb.2, hb.2⟩
  · exact fun hb => ⟨by simp [hc.order, hb.1], hb.2⟩

/-- The new code is that of the copied blocks, but for a `NOP` after a final `THROW`. -/
theorem Built.assembled_eq : c.assembled =
    (c.kept.flatMap c.copied).map (·.mapTargets c.offset) ++
      if (c.kept.flatMap c.copied).getLast?.any (·.opcode == .throw)
      then [⟨.nop, .none, .none, .none, 0⟩] else [] := by
  have hops : (c.emitted.flatMap fun x => c.retarget x.2) =
      (c.kept.flatMap c.copied).map (·.mapTargets c.offset) := by
    rw [ZendCfg.emitted, List.flatMap_map, List.map_flatMap]
    refine List.flatMap_congr fun b hb => ?_
    exact hc.retarget_eq h hfinally (hc.mem_kept.mp hb).1
  have hlast : ((c.kept.flatMap c.copied).map (·.mapTargets c.offset)).getLast?.any
      (·.opcode == .throw) = (c.kept.flatMap c.copied).getLast?.any (·.opcode == .throw) := by
    rw [List.getLast?_map]
    cases (c.kept.flatMap c.copied).getLast? <;> simp
  rw [ZendCfg.assembled, hops, hlast]
  split_ifs <;> simp

/-- The copy of an opline -/
theorem Built.assembled_getElem? (hb : b ∈ a.blockStarts) (hacc : (c.blocks b).access = true)
    {k : ℕ} (hk : (c.copied b)[k]? = some o) :
    c.assembled[c.offset b + k]? = some (o.mapTargets c.offset) := by
  have hlt := (List.getElem?_eq_some_iff.mp hk).1
  have hget := ZendCfg.getElem?_offset (hc.sorted h) (hc.mem_kept.mpr ⟨hb, hacc⟩) hlt
  have hget' : ((c.kept.flatMap c.copied).map (·.mapTargets c.offset))[c.offset b + k]? =
      some (o.mapTargets c.offset) := by
    rw [List.getElem?_map, hget, hk]
    rfl
  rw [hc.assembled_eq h hfinally,
    List.getElem?_append_left (List.getElem?_eq_some_iff.mp hget').1, hget']

omit hfinally in
/-- An opline that is not stripped is copied. -/
theorem Built.copied_getElem? (hb : a.InBlock b i) (hi : a.opcodes[i]? = some o)
    (hkeep : o.opcode = .jmp → ∀ t, (c.blocks b).op1To = some t → c.nextAccess b ≠ some t) :
    (c.copied b)[i - b]? = some o := by
  have hlen := h.blockOps_length (b := b)
  obtain ⟨hbs, hle, hlt⟩ := hb
  have hk : (a.blockOps b)[i - b]? = some o := by
    rw [blockOps_getElem? (by omega), Nat.add_sub_of_le hle, hi]
  rcases hc.copied_cases hbs with ⟨-, hcopied, -⟩ | ⟨o', t, ho', hjmp, ht, hnext, hcopied, -⟩
  · rw [hcopied, hk]
  · have hne : i - b ≠ (a.blockOps b).length - 1 := fun heq => by
      rw [List.getLast?_eq_getElem?, ← heq, hk] at ho'
      obtain rfl := Option.some.inj ho'
      exact hkeep hjmp t ht hnext
    rw [hcopied, List.getElem?_dropLast, if_pos (by omega), hk]

omit hfinally in
/-- Where a block falls through, the copy of the next one comes next. -/
theorem Built.placed_follow (hacc : (c.blocks b).access = true) (hb : a.InBlock b i)
    (hi : a.opcodes[i]? = some o) (hjmp : o.opcode ≠ .jmp) (hnext : a.nextStart b = some (i + 1))
    (hfollow : (a.codeBlock b (a.nextStart b)).followTo = some (i + 1)) :
    a.Placed c (i + 1) (c.offset b + (i - b) + 1) := by
  obtain ⟨hbs, hle, hlt⟩ := hb
  obtain ⟨hlt', hmem, hmin⟩ := nextStart_spec hnext
  have hend : a.blockEnd b = i + 1 := by simp [blockEnd, hnext]
  have hsucc := ZendCfg.followTo_mem_successors hfollow
  have hnacc : (c.blocks (i + 1)).access = true :=
    hc.closed b hacc _ (by rwa [ZendCfg.successors_eq_of_edges (hc.block_eq hbs).2])
  have hnextAccess : c.nextAccess b = some (i + 1) := by
    have ho : i + 1 ∈ c.order := by simp [hc.order, hmem]
    refine ZendCfg.nextAccess_eq (hc.sorted h) ho hlt' hnacc fun m hm hbm => ?_
    rw [hc.order, List.mem_append, List.mem_singleton] at hm
    rcases hm with hm | rfl
    · exact hmin m hm hbm
    · have := h.lt_length hmem
      omega
  refine ⟨i + 1, hnacc, h.inBlock_start hmem, ?_⟩
  rw [ZendCfg.offset_nextAccess (hc.sorted h) (hc.mem_kept.mpr ⟨hbs, hacc⟩) hnextAccess]
  have hlen := h.blockOps_length (b := b)
  have hcopied : c.copied b = a.blockOps b := by
    rcases hc.copied_cases hbs with ⟨-, hcopied, -⟩ | ⟨o', t, ho', hop, -⟩
    · exact hcopied
    · rw [h.getLast?_blockOps hbs, hend, Nat.add_sub_cancel, hi] at ho'
      exact absurd (Option.some.inj ho' ▸ hop) hjmp
  rw [hcopied, hlen, hend]
  omega

/-- Where control goes on, the copies of both oplines are neighbours. -/
theorem Built.placed_next (hacc : (c.blocks b).access = true) (hb : a.InBlock b i)
    (hi : a.opcodes[i]? = some o) (hgo : o.goesOn = true) :
    a.Placed c (i + 1) (c.offset b + (i - b) + 1) := by
  have hin : a.InBlock b (i + 1) → a.Placed c (i + 1) (c.offset b + (i - b) + 1) := fun hin =>
    ⟨b, hacc, hin, by have := hb.2.1; omega⟩
  have hjmp : o.opcode ≠ .jmp := fun hjmp => by simp [ZendOp.goesOn, hjmp] at hgo
  have hfast := h.not_fast hfinally (List.mem_of_getElem? hi)
  by_cases hstart : o.startBlocks i = []
  · by_cases hend : a.InBlock b (i + 1)
    · exact hin hend
    · obtain ⟨hnext, hfollow⟩ := h.followTo_of_plain hfinally hb hi hstart hend
      exact hc.placed_follow h hacc hb hi hjmp hnext hfollow
  · have htargets := ZendOp.targets_ne_nil hstart hgo hfast
    obtain ⟨e, hnext, hlast, rfl | ⟨-, rfl, -⟩⟩ := h.jump_last hb hi htargets
    · refine hc.placed_follow h hacc hb hi hjmp hnext ?_
      rw [codeBlock_of_last hnext hlast]
      exact ZendOp.followTo_setEdges hgo hfast
    · exact hin ⟨hb.1, by have := hb.2.1; omega, by simp [blockEnd, hnext]⟩

/-- The targets of an opline are accessible. -/
theorem Built.targets_access (hacc : (c.blocks b).access = true) (hb : a.InBlock b i)
    (hi : a.opcodes[i]? = some o) (ht : t ∈ o.targets) :
    t ∈ a.blockStarts ∧ (c.blocks t).access = true := by
  obtain ⟨e, hnext, hlast, -⟩ := h.jump_last hb hi (List.ne_nil_of_mem ht)
  have hsucc : t ∈ (a.codeBlock b (a.nextStart b)).successors := by
    rw [codeBlock_of_last hnext hlast, ZendCodeBlock.mem_successors, ZendCfg.mem_edges]
    unfold ZendOp.targets at ht
    unfold ZendOp.setEdges
    split at ht <;> simp_all
    tauto
  refine ⟨h.successor_mem hfinally hsucc, hc.closed b hacc t ?_⟩
  rwa [ZendCfg.successors_eq_of_edges (hc.block_eq hb.1).2]

theorem Built.placed_targets (hacc : (c.blocks b).access = true) (hb : a.InBlock b i)
    (hi : a.opcodes[i]? = some o) : ∀ t ∈ o.targets, a.Placed c t (c.offset t) := by
  intro t ht
  obtain ⟨hts, htacc⟩ := hc.targets_access h hfinally hacc hb hi ht
  exact ⟨t, htacc, h.inBlock_start hts, by simp⟩

omit hfinally in
theorem Built.op1To_of_jmp (hb : a.InBlock b i) (hi : a.opcodes[i]? = some o)
    (hjmp : o.opcode = .jmp) (ht : (c.blocks b).op1To = some t) : t = o.op1.num := by
  obtain ⟨e, hnext, hlast, -⟩ := h.jump_last hb hi (by simp [ZendOp.targets, hjmp])
  have hedges := (hc.block_eq hb.1).2
  simp only [ZendCodeBlock.edges, List.cons.injEq, and_true] at hedges
  rw [hedges.1, codeBlock_of_last hnext hlast] at ht
  simpa [ZendOp.setEdges, hjmp, eq_comm] using ht

/-- The new code follows the old one, and leaves out the jumps that are stripped. -/
theorem Built.follows : Follows (ZendOp.move a.opcodes) (ZendOp.move c.assembled)
    (fun i => a.opcodes.length - i) (a.Placed c) := by
  rintro i p ⟨b, hacc, hb, rfl⟩
  have hle := h.blockEnd_le (b := b)
  obtain ⟨o, hi⟩ : ∃ o, a.opcodes[i]? = some o :=
    ⟨_, List.getElem?_eq_getElem (by have := hb.2.2; omega)⟩
  have hmove : ZendOp.move a.opcodes i = if o.opcode = .jmp then .silent o.op1.num
      else .shows (o.mapTargets fun _ => 0) (o.next i) := by rw [ZendOp.move, hi]
  have hplaced := hc.placed_targets h hfinally hacc hb hi
  -- what is copied moves alike
  have hcopy : (o.opcode = .jmp → ∀ t, (c.blocks b).op1To = some t → c.nextAccess b ≠ some t) →
      Move.Rel (a.Placed c) (ZendOp.move a.opcodes i)
        (ZendOp.move c.assembled (c.offset b + (i - b))) := by
    intro hkeep
    have hget := hc.assembled_getElem? h hfinally hb.1 hacc (hc.copied_getElem? h hb hi hkeep)
    have hmove' : ZendOp.move c.assembled (c.offset b + (i - b)) = if o.opcode = .jmp
        then .silent (o.mapTargets c.offset).op1.num
        else .shows ((o.mapTargets c.offset).mapTargets fun _ => 0)
          ((o.mapTargets c.offset).next (c.offset b + (i - b))) := by
      rw [ZendOp.move, hget]
      simp
    rw [hmove, hmove']
    split_ifs with hjmp
    · have htarget : (o.mapTargets c.offset).op1.num = c.offset o.op1.num := by
        simp [ZendOp.mapTargets, hjmp]
      rw [htarget]
      exact .silent (hplaced _ (by simp [ZendOp.targets, hjmp]))
    · rw [ZendOp.mapTargets_mapTargets]
      exact .shows (ZendOp.next_mapTargets hplaced (hc.placed_next h hfinally hacc hb hi))
  by_cases hjmp : o.opcode = .jmp
  · by_cases hstrip : (c.blocks b).op1To = some o.op1.num ∧ c.nextAccess b = some o.op1.num
    · -- the jump is stripped
      obtain ⟨hop, hnextAccess⟩ := hstrip
      obtain ⟨hbt, hto, htacc, -⟩ := ZendCfg.nextAccess_spec (hc.sorted h) hnextAccess
      obtain ⟨e, hnext, -, he⟩ := h.jump_last hb hi (by simp [ZendOp.targets, hjmp])
      obtain rfl : e = i + 1 := he.resolve_right fun hfetch => by simp [hjmp] at hfetch
      have hend : a.blockEnd b = i + 1 := by simp [blockEnd, hnext]
      have hts := hc.starts _ hto htacc
      have hit : i < o.op1.num := by
        have := blockEnd_le_of_mem hts hbt
        omega
      have hlt : a.opcodes.length - o.op1.num < a.opcodes.length - i := by
        have := hb.2.2
        omega
      refine .inr ⟨o.op1.num, by rw [hmove, if_pos hjmp],
        ⟨o.op1.num, htacc, h.inBlock_start hts, ?_⟩, hlt⟩
      have hoffset :=
        ZendCfg.offset_nextAccess (hc.sorted h) (hc.mem_kept.mpr ⟨hb.1, hacc⟩) hnextAccess
      have hlast : (a.blockOps b).getLast? = some o := by
        rw [h.getLast?_blockOps hb.1, hend, Nat.add_sub_cancel, hi]
      have hlen := h.blockOps_length (b := b)
      rcases hc.copied_cases hb.1 with ⟨-, -, hno⟩ | ⟨-, -, -, -, -, -, hcopied, -⟩
      · exact absurd hnextAccess (hno o hlast hjmp _ hop)
      · rw [hoffset, hcopied, List.length_dropLast, hlen, hend]
        omega
    · refine .inl (hcopy fun _ t ht hnext => hstrip ?_)
      exact hc.op1To_of_jmp h hb hi hjmp ht ▸ ⟨ht, hnext⟩
  · exact .inl (hcopy fun hop => absurd hop hjmp)

end Simulation

section Buffer

theorem nextStart_of_split {x : ℕ} {l₁ l₂ : List ℕ} (hsplit : a.blockStarts = l₁ ++ x :: l₂) :
    a.nextStart x = l₂.head? := by
  have hpair := a.blockStarts_sorted
  rw [hsplit, List.pairwise_append, List.pairwise_cons] at hpair
  obtain ⟨-, ⟨hafter, -⟩, hbefore⟩ := hpair
  have hnone : l₁.find? (x < ·) = none := List.find?_eq_none.mpr fun y hy => by
    have := hbefore y hy x List.mem_cons_self
    simp
    omega
  rw [nextStart, hsplit, List.find?_append, hnone, Option.none_or]
  cases l₂ with
  | nil => simp
  | cons y l₂ => simp [hafter y List.mem_cons_self]

/-- The blocks make up the code. -/
theorem flatMap_blockOps : ∀ (l₂ l₁ : List ℕ) (x : ℕ),
    a.blockStarts = l₁ ++ x :: l₂ → (x :: l₂).flatMap a.blockOps = a.opcodes.drop x := by
  intro l₂
  induction l₂ with
  | nil =>
    intro l₁ x hsplit
    have hend : a.blockEnd x = a.opcodes.length := by
      simp [blockEnd, nextStart_of_split hsplit]
    simp [blockOps, hend, List.take_of_length_le]
  | cons y l₂ ih =>
    intro l₁ x hsplit
    have hnext : a.nextStart x = some y := nextStart_of_split hsplit
    have hend : a.blockEnd x = y := by simp [blockEnd, hnext]
    have hxy := (nextStart_spec hnext).1
    have hsplit' : a.blockStarts = (l₁ ++ [x]) ++ y :: l₂ := by
      rw [hsplit, List.append_assoc]
      rfl
    rw [List.flatMap_cons, ih (l₁ ++ [x]) y hsplit', blockOps, hend]
    conv_rhs => rw [← List.take_append_drop (y - x) (a.opcodes.drop x), List.drop_drop,
      show x + (y - x) = y by omega]

/-- What is copied is part of the code. -/
theorem Built.copied_sublist (h : a.WellFormed) (hc : a.Built c) :
    (c.kept.flatMap c.copied).Sublist a.opcodes := by
  have hkept : c.kept.Sublist a.blockStarts := by
    have hno : (c.blocks (a.opcodes.length + 1)).access = false := by
      rw [← Bool.not_eq_true]
      intro hacc
      have := h.lt_length (hc.starts _ (by simp [hc.order]) hacc)
      omega
    rw [ZendCfg.kept, hc.order, List.filter_append, List.filter_singleton, hno]
    simp
  have hall : a.blockStarts.flatMap a.blockOps = a.opcodes :=
    flatMap_blockOps _ [] 0 rfl
  rw [← hall]
  refine .trans (List.Sublist.flatMap_right _ fun b hb => ?_) (hkept.flatMap _)
  rcases hc.copied_cases (hkept.subset hb) with ⟨-, hcopied, -⟩ | ⟨-, -, -, -, -, -, hcopied, -⟩
  · rw [hcopied]
  · rw [hcopied]
    exact List.dropLast_sublist _

/-- The new code fits into the buffer, with the `NOP` after a final `THROW`. -/
theorem Built.assembled_length (h : a.WellFormed) (hfinally : a.hasFinallyBlock = false)
    (hc : a.Built c) : c.assembled.length ≤ a.opcodes.length := by
  have hsub := hc.copied_sublist h
  have hle := hsub.length_le
  rw [hc.assembled_eq h hfinally, List.length_append, List.length_map]
  split_ifs with hthrow
  · obtain ⟨o, ho, hret⟩ := h.last
    obtain ⟨init, hinit⟩ := List.getLast?_eq_some_iff.mp ho
    rw [hinit] at hsub
    obtain ⟨l₁, l₂, hsplit, h₁, h₂⟩ := List.sublist_append_iff.mp hsub
    have hnil : l₂ = [] := by
      rcases List.sublist_singleton.mp h₂ with rfl | rfl
      · rfl
      · simp [hsplit, hret] at hthrow
    rw [hsplit, hnil, List.append_nil, hinit, List.length_append]
    have := h₁.length_le
    simp
    omega
  · simpa using hle

end Buffer

/-- The code that is assembled without a rewriting executes the same oplines. -/
theorem assembled_executes (h : a.WellFormed) (hfinally : a.hasFinallyBlock = false)
    (hfind : a.findCodeBlocks = some c₀) : ∃ c, c₀.rebuildAccessPath false = some c ∧
    (∀ outcomes shown, Trace (ZendOp.move a.opcodes) 0 outcomes shown ↔
      Trace (ZendOp.move (c.assembleCodeBlocks a).opcodes) 0 outcomes shown) ∧
    (c.assembleCodeBlocks a).opcodes.length ≤ a.opcodes.length ∧
    ∀ b i o, (c.blocks b).access = true → a.InBlock b i → a.opcodes[i]? = some o →
      (∀ t ∈ o.targets, t ∈ a.blockStarts ∧ (c.blocks t).access = true) ∧
      ((o.opcode = .jmp ∧ c.nextAccess b = some o.op1.num) ∨
        (c.assembleCodeBlocks a).opcodes[c.offset b + (i - b)]? =
          some (o.mapTargets c.offset)) := by
  obtain ⟨c, hrebuild, hc⟩ := h.exists_built hfinally hfind
  have h0 : 0 ∈ a.blockStarts := mem_blockStarts.mpr (.inl rfl)
  have hplaced : a.Placed c 0 0 := by
    obtain ⟨l, hl⟩ : ∃ l, c.kept = [] ++ 0 :: l := by
      rw [ZendCfg.kept, hc.order]
      exact ⟨_, List.filter_cons_of_pos hc.entry⟩
    exact ⟨0, hc.entry, h.inBlock_start h0, by simp [ZendCfg.offset_of_split (hc.sorted h) hl]⟩
  refine ⟨c, hrebuild, fun outcomes shown => (hc.follows h hfinally).trace_iff hplaced,
    hc.assembled_length h hfinally, fun b i o hacc hb hi => ⟨fun t ht => ?_, ?_⟩⟩
  · exact hc.targets_access h hfinally hacc hb hi ht
  · by_cases hstrip : o.opcode = .jmp ∧ c.nextAccess b = some o.op1.num
    · exact .inl hstrip
    · refine .inr (hc.assembled_getElem? h hfinally hb.1 hacc ?_)
      refine hc.copied_getElem? h hb hi fun hjmp t ht hnext => hstrip ⟨hjmp, ?_⟩
      rw [hnext, hc.op1To_of_jmp h hb hi hjmp ht]

theorem assembled_executes_whileLoop : ∃ c₀ c, whileLoop.findCodeBlocks = some c₀ ∧
    c₀.rebuildAccessPath false = some c ∧
    (∀ outcomes shown, Trace (ZendOp.move whileLoop.opcodes) 0 outcomes shown ↔
      Trace (ZendOp.move (c.assembleCodeBlocks whileLoop).opcodes) 0 outcomes shown) ∧
    (c.assembleCodeBlocks whileLoop).opcodes.length ≤ whileLoop.opcodes.length := by
  have h : whileLoop.WellFormed := by
    constructor
    · exact ⟨_, rfl, rfl⟩
    · decide
    · decide
    · decide
    · intro b _ o ho
      have hno : ∀ o ∈ whileLoop.opcodes, o.opcode ≠ .opData := by decide
      exact hno o (List.mem_of_getElem? ho)
    · intro i o ho hfetch
      have hno : ∀ o ∈ whileLoop.opcodes, o.opcode ≠ .feFetch := by decide
      exact absurd hfetch (hno o (List.mem_of_getElem? ho))
    · decide
  obtain ⟨c, hrebuild, htrace, hlen, -⟩ := assembled_executes h rfl (Option.some_get rfl).symm
  exact ⟨_, c, (Option.some_get rfl).symm, hrebuild, htrace, hlen⟩

end ZendOpArray

end ZendOpcache
