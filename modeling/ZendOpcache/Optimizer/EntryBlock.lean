import ZendOpcache.Optimizer.JmpInvariant

/-! # The block where execution starts

No list of sources has the edge by which execution enters the code. The theorem is about
the runs in which `del_source` takes the access of no block that is still needed: in every round,
the block that the code starts with is reached from the one it started with before through blocks of
`NOP`s.
-/

namespace ZendOpcache

/-- The second computation has the result of the first one, if there is one. -/
def Extends {α : Type*} (x y : Option α) : Prop := ∀ r, x = some r → y = some r

namespace Extends

variable {α β : Type*}

theorem refl (x : Option α) : Extends x x := fun _ h => h

theorem bind_of {x y : Option α} {f g : α → Option β} (h : Extends x y)
    (hf : ∀ a, x = some a → Extends (f a) (g a)) : Extends (x.bind f) (y.bind g) := by
  intro r hr
  obtain ⟨a, ha, hr⟩ := Option.bind_eq_some_iff.mp hr
  rw [h a ha]
  exact hf a ha r hr

theorem bind {x y : Option α} {f g : α → Option β} (h : Extends x y)
    (hf : ∀ a, Extends (f a) (g a)) : Extends (x.bind f) (y.bind g) :=
  h.bind_of fun a _ => hf a

theorem foldlM {f g : α → β → Option α} (h : ∀ x b, Extends (f x b) (g x b)) (l : List β) :
    ∀ x, Extends (l.foldlM f x) (l.foldlM g x) := by
  induction l with
  | nil => exact fun x => refl _
  | cons b l ih =>
    intro x
    simp only [List.foldlM_cons]
    exact (h x b).bind ih

end Extends

/-- The code does what it does with another `del_source`, wherever that has a value. -/
def DelSource.Extends (del del' : DelSource) : Prop :=
  ∀ c fromb tob kept new, ZendOpcache.Extends (del c fromb tob kept new) (del' c fromb tob kept new)

namespace ZendCfg

section Extends

variable {del del' : DelSource} (h : DelSource.Extends del del') (c : ZendCfg) (b : ℕ)

include h

variable [ZendEngine]

end Extends

variable {c c' c'' : ZendCfg} {L : Set ℕ} {e p : ℕ}

section Round

variable [ZendEngine] {T lastVar : ℕ}

theorem Live.optimizeBlocks {usedExt : ℕ → Bool} {l : List ℕ} (h : c.Live ∅ L e)
    (hfold : l.foldlM (fun c b =>
      if (c.blocks b).access then zendOptimizeBlock T usedExt c b else some c) c = some c') :
    c'.Live ∅ L e ∧ c'.order = c.order := by
  refine foldlM_preserves (P := fun x => ZendCfg.Live x ∅ L e ∧ x.order = c.order) _
    (fun x b x' _ hstep hx => ?_) hfold ⟨h, rfl⟩
  split_ifs at hstep with hacc
  · obtain ⟨hlive, horder⟩ := hx.1.optimizeBlock hacc hstep
    exact ⟨hlive, horder.trans hx.2⟩
  · exact Option.some.inj hstep ▸ hx

theorem Live.jmpOptimizations {l : List ℕ} (h : c.Live ∅ L e) (hl : ∀ b ∈ l, b ∈ c.order)
    (hfold : l.foldlM (fun c b =>
      if (c.blocks b).access then zendJmpOptimization guardedDel T lastVar c b else some c) c =
        some c') : ∃ L', c'.Live ∅ L' e ∧ c'.order = c.order := by
  refine foldlM_preserves (P := fun x => ∃ L', ZendCfg.Live x ∅ L' e ∧ x.order = c.order) _
    (fun x b x' hb hstep hx => ?_) hfold ⟨L, h, rfl⟩
  obtain ⟨L', hlive, horder⟩ := hx
  split_ifs at hstep with hacc
  · obtain ⟨L'', hlive', horder'⟩ := hlive.jmpOptimization hacc (horder ▸ hl b hb) hstep
    exact ⟨L'', hlive', horder'.trans horder⟩
  · exact Option.some.inj hstep ▸ ⟨L', hlive, horder⟩

/-- A round keeps the invariant. -/
theorem Live.blockRound (h : c.Live ∅ L e)
    (hround : blockRound guardedDel T lastVar c = some c') :
    ∃ L', c'.Live ∅ L' e ∧ c'.order = c.order := by
  simp only [ZendCfg.blockRound, Option.bind_eq_bind, Option.bind_eq_some_iff] at hround
  obtain ⟨⟨used, c₁⟩, husage, c₂, hopt, hjmp⟩ := hround
  have hr := zendTUsage_rewritten husage
  obtain ⟨h₂, horder₂⟩ := (h.rewritten hr).optimizeBlocks hopt
  obtain ⟨L', hlive, horder⟩ := h₂.jmpOptimizations (fun _ hb => hb) hjmp
  exact ⟨L', hlive, horder.trans (horder₂.trans hr.order)⟩

end Round

/-- The first accessible block is reached from the first block that may be entered. -/
theorem Live.exists_firstAccess (h : c.Live ∅ L e) :
    ∃ p, c.firstAccess = some p ∧ p ∈ L ∧ c.Meets ∅ e p := by
  have hacc : ∃ x ∈ c.order, (c.blocks x).access = true := by
    cases he : (c.blocks e).access with
    | true => exact ⟨e, h.entry_mem.2, he⟩
    | false =>
      obtain ⟨-, t, ht⟩ := h.deleted e h.entry_mem.1 (by simp) he
      exact ⟨t, (h.follow e (by simp) t ht).2,
        (h.edge e h.entry_mem.1 (by simp) t (followTo_mem_successors ht)).1⟩
  obtain ⟨x, hx, hxacc⟩ := hacc
  obtain ⟨p, hp⟩ := ZendCfg.exists_firstAccess hx hxacc
  obtain ⟨hpo, hpacc, hmin⟩ := (firstAccess_eq_some_iff h.sorted).mp hp
  have hpL := h.access p hpacc
  refine ⟨p, hp, hpL, h.meets_of_le h.entry_mem.1 h.entry_mem.2 (by simp) hpL hpo
    (h.entry_le p hpL hpo) fun m hm _ hlt => ?_⟩
  by_contra hne
  have := hmin m hm (by simpa using hne)
  omega

/-- The search for unreachable blocks after a round starts with that block, and the first block that
it leaves is reached from there as well. -/
theorem Live.rebuildAccessPath (h : c.Live ∅ L e) : ∃ p c' e', c.firstAccess = some p ∧
    c.Meets ∅ e p ∧ c.rebuildAccessPath true = some c' ∧ c'.firstAccess = some e' ∧
      c'.Meets ∅ p e' ∧ ∃ L', c'.Live ∅ L' e' := by
  obtain ⟨p, hp, hpL, hmeets⟩ := h.exists_firstAccess
  obtain ⟨hpo, hpacc, hmin⟩ := (firstAccess_eq_some_iff h.sorted).mp hp
  obtain ⟨hshape, horder, e', he'L, he'o, hle, hacc, hlive⟩ := h.layout.remark hpL hpo
  have hrebuild : c.rebuildAccessPath true = some (c.remark p) :=
    rebuildAccessPath_eq_some.mpr ⟨p, by simpa using hp, rfl⟩
  refine ⟨p, c.remark p, e', hp, hmeets, hrebuild, hlive.firstAccess hacc, ?_, _, hlive⟩
  have hback : c.Meets ∅ e' p :=
    h.meets_of_le he'L he'o (by simp) hpL hpo hle fun m hm _ hlt => by
      by_contra hne
      have := hmin m hm (by simpa using hne)
      omega
  exact (hback.mono fun _ _ hf => falls_of_shape hshape hf).symm

end ZendCfg

namespace ZendOpArray

variable {a : ZendOpArray} {c : ZendCfg} {x t : ℕ}

theorem blockStarts_sorted (a : ZendOpArray) : a.blockStarts.Pairwise (· < ·) := by
  refine List.pairwise_cons.mpr ⟨fun y hy => ?_, List.pairwise_lt_range.filter _⟩
  have := List.of_mem_filter hy
  simp only [Bool.and_eq_true, decide_eq_true_eq] at this
  exact this.1

theorem mem_blockStarts : x ∈ a.blockStarts ↔
    x = 0 ∨ x < a.opcodes.length ∧ 0 < x ∧ a.startsBlock x = true := by
  simp [blockStarts]

theorem nextStart_spec (h : a.nextStart x = some t) :
    x < t ∧ t ∈ a.blockStarts ∧ ∀ m ∈ a.blockStarts, x < m → t ≤ m := by
  obtain ⟨ht, hpred, hmin⟩ := ZendCfg.find?_sorted a.blockStarts_sorted h
  simp only [decide_eq_true_eq] at hpred hmin
  exact ⟨hpred, ht, hmin⟩

theorem mem_startBlocks {o : ZendOp} {i : ℕ} (h : x ∈ o.startBlocks i) :
    x = o.op1.num ∨ x = o.op2.num ∨ x = o.extendedValue ∨ x = i + 1 ∨ x = i + 2 := by
  unfold ZendOp.startBlocks at h
  split at h <;> grind

theorem mem_namedBlocks_of_startsBlock (h : a.startsBlock x = true) : x ∈ a.namedBlocks := by
  have hlt : x < a.opcodes.length → x ∈ a.blockStarts := fun hlt => by
    rw [mem_blockStarts]
    rcases Nat.eq_zero_or_pos x with hx | hx
    · exact .inl hx
    · exact .inr ⟨hlt, hx, h⟩
  simp only [startsBlock, Bool.or_eq_true, List.any_eq_true, beq_iff_eq, List.contains_iff_mem] at h
  simp only [namedBlocks, List.mem_append, List.mem_flatMap]
  rcases h with (⟨⟨o, i⟩, ho, hx⟩ | ⟨el, hel, hx⟩) | ⟨l, hl, hx⟩
  · obtain ⟨hi, hoi⟩ := List.mem_zipIdx' ho
    have hmem : o ∈ a.opcodes := hoi ▸ List.getElem_mem hi
    rcases mem_startBlocks hx with hx | hx | hx | hx | hx
    · exact .inl (.inl (.inr ⟨_, hmem, by simp [hx]⟩))
    · exact .inl (.inl (.inr ⟨_, hmem, by simp [hx]⟩))
    · exact .inl (.inl (.inr ⟨_, hmem, by simp [hx]⟩))
    -- a block after the last opline
    all_goals
      by_cases h : x < a.opcodes.length
      · exact .inl (.inl (.inl (.inl (hlt h))))
      · refine .inl (.inl (.inl (.inr ?_)))
        simp only [List.mem_cons, List.not_mem_nil, or_false]
        omega
  · exact .inr ⟨el, hel, by simp; omega⟩
  · exact .inl (.inr ⟨l, hl, by simp; omega⟩)

theorem setEdges_successors {o : ZendOp} {next : ℕ} {b : ZendCodeBlock} (hb : b.successors = [])
    (ht : t ∈ (o.setEdges next b).successors) :
    t = o.op1.num ∨ t = o.op2.num ∨ t = o.extendedValue ∨ t = next := by
  have hnone : ∀ y, some y ∉ b.edges := fun y hy => by
    simpa [hb] using ZendCodeBlock.mem_successors.mpr hy
  have hedge := hnone t
  rw [ZendCodeBlock.mem_successors] at ht
  rw [ZendCfg.mem_edges] at ht hedge
  unfold ZendOp.setEdges at ht
  split at ht <;> grind

theorem setEdges_followTo {o : ZendOp} {next : ℕ} {b : ZendCodeBlock} (hb : b.followTo = none)
    (ht : (o.setEdges next b).followTo = some t) : t = next := by
  unfold ZendOp.setEdges at ht
  split at ht <;> simp_all

/-- What a block is before the sources are listed. -/
structure IsCodeBlock (a : ZendOpArray) (x : ℕ) (b : ZendCodeBlock) : Prop where
  sources : b.sources = []
  access : b.access = true → a.startsBlock x = true
  successors : ∀ t ∈ b.successors, t ∈ a.namedBlocks
  next : ∀ t ∈ b.successors, (x = 0 ∨ a.startsBlock x = true) ∧ ∃ y, a.nextStart x = some y
  follow : ∀ t, b.followTo = some t → a.nextStart x = some t

theorem isCodeBlock_zero (a : ZendOpArray) (x : ℕ) : a.IsCodeBlock x .zero := by
  constructor <;> simp [ZendCodeBlock.zero, ZendCodeBlock.mem_successors, ZendCodeBlock.edges]

theorem setEdges_frame (o : ZendOp) (next : ℕ) (b : ZendCodeBlock) :
    (o.setEdges next b).sources = b.sources ∧ (o.setEdges next b).access = b.access := by
  unfold ZendOp.setEdges
  split <;> exact ⟨rfl, rfl⟩

theorem lastOpline_mem {next : ℕ} {o : ZendOp} (h : a.lastOpline next = some o) :
    o ∈ a.opcodes := by
  unfold lastOpline at h
  split at h
  · split_ifs at h
    · exact List.mem_of_getElem? h
    · rename_i hget _
      exact Option.some.inj h ▸ List.mem_of_getElem? hget
  · simp at h

theorem isCodeBlock_codeBlock (hx : x = 0 ∨ a.startsBlock x = true) :
    a.IsCodeBlock x (a.codeBlock x (a.nextStart x)) := by
  unfold codeBlock
  dsimp only
  generalize hb : ({ ZendCodeBlock.zero with access := _, oplines := _, isProtected := _ } :
    ZendCodeBlock) = b
  have hzero : b.sources = [] ∧ b.access = a.startsBlock x ∧ b.successors = [] ∧
      b.followTo = none := by
    subst hb
    exact ⟨rfl, rfl, rfl, rfl⟩
  obtain ⟨hsrc, hacc, hsucc, hfollow⟩ := hzero
  have hbase : a.IsCodeBlock x b :=
    ⟨hsrc, fun h => hacc ▸ h, by simp [hsucc], by simp [hsucc], by simp [hfollow]⟩
  cases hnext : a.nextStart x with
  | none => exact hbase
  | some next =>
    dsimp only
    cases hlast : a.lastOpline next with
    | none => exact hbase
    | some o =>
      have hmem := lastOpline_mem hlast
      obtain ⟨hsrc', hacc'⟩ := setEdges_frame o next b
      simp only [Option.map_some, Option.getD_some]
      refine ⟨hsrc'.trans hsrc, fun h => hacc ▸ hacc' ▸ h, fun t ht => ?_,
        fun t ht => ⟨hx, next, hnext⟩, fun t ht => ?_⟩
      · simp only [namedBlocks, List.mem_append, List.mem_flatMap]
        rcases setEdges_successors hsucc ht with rfl | rfl | rfl | rfl
        · exact .inl (.inl (.inr ⟨o, hmem, by simp⟩))
        · exact .inl (.inl (.inr ⟨o, hmem, by simp⟩))
        · exact .inl (.inl (.inr ⟨o, hmem, by simp⟩))
        · exact .inl (.inl (.inl (.inl (nextStart_spec hnext).2.1)))
      · rw [hnext, setEdges_followTo hfollow ht]

theorem findCodeBlocks_blocks (h : a.findCodeBlocks = some c) :
    c.order = a.blockStarts ++ [a.opcodes.length + 1] ∧ c.size = a.namedBlocks.length ∧
      (∀ r ∈ c.roots, r ∈ a.namedBlocks) ∧ ∀ x, a.IsCodeBlock x (c.blocks x) := by
  unfold findCodeBlocks at h
  split_ifs at h
  obtain rfl := Option.some.inj h
  refine ⟨rfl, rfl, fun r hr => ?_, fun x => ?_⟩
  · simp only [ZendCfg.roots, List.mem_append, List.mem_flatMap, List.map_map, List.mem_map] at hr
    simp only [namedBlocks, List.mem_append, List.mem_flatMap]
    rcases hr with ⟨l, hl, hr⟩ | ⟨el, hel, rfl⟩
    · exact .inl (.inr ⟨l, hl, hr⟩)
    · exact .inr ⟨el, hel, by simp⟩
  · dsimp only
    split_ifs with hx
    · exact isCodeBlock_codeBlock hx
    · exact isCodeBlock_zero a x

theorem findCodeBlocks_layout (h : a.findCodeBlocks = some c) :
    c.Layout {x | x ∈ a.namedBlocks} ∧ 0 ∈ c.order := by
  obtain ⟨horder, hsize, hroots, hblocks⟩ := findCodeBlocks_blocks h
  have hlt : ∀ x ∈ a.blockStarts, x < a.opcodes.length + 1 := fun x hx => by
    rcases mem_blockStarts.mp hx with rfl | hx
    · omega
    · omega
  have hstarts : ∀ x ∈ a.blockStarts, x ∈ c.order := fun x hx => by simp [horder, hx]
  refine ⟨?_, hstarts 0 (mem_blockStarts.mpr (.inl rfl))⟩
  constructor
  · rw [horder, List.pairwise_append]
    exact ⟨a.blockStarts_sorted, List.pairwise_singleton _ _, by simpa using hlt⟩
  · refine ⟨a.namedBlocks.toFinset, hsize ▸ List.toFinset_card_le _, fun x hx => ?_,
      fun x t ht => ?_⟩
    · exact List.mem_toFinset.mpr hx
    · exact List.mem_toFinset.mpr ((hblocks x).successors t ht)
  · intro x hx
    rw [List.eq_nil_iff_forall_not_mem]
    intro t ht
    obtain ⟨hstart, y, hy⟩ := (hblocks x).next t ht
    obtain ⟨hxy, hyo, -⟩ := nextStart_spec hy
    refine hx (hstarts x (mem_blockStarts.mpr ?_))
    rcases Nat.eq_zero_or_pos x with hx | hpos
    · exact .inl hx
    · have := mem_blockStarts.mp hyo
      exact .inr ⟨by omega, hpos, hstart.resolve_left (by omega)⟩
  · intro x t ht
    obtain ⟨hxt, ht, -⟩ := nextStart_spec ((hblocks x).follow t ht)
    exact ⟨hxt, hstarts t ht⟩
  · exact fun x _ hx => mem_namedBlocks_of_startsBlock ((hblocks x).access hx)
  · exact fun x _ t ht => (hblocks x).successors t ht
  · intro x _ t ht m _ hmo hxm hmt
    -- there is no block between a block and the next one
    obtain ⟨-, hto, hmin⟩ := nextStart_spec ((hblocks x).follow t ht)
    have := hlt t hto
    rw [horder] at hmo
    rcases List.mem_append.mp hmo with hm | hm
    · exact absurd (hmin m hm hxm) (by omega)
    · rw [List.mem_singleton.mp hm] at hmt
      omega
  · exact fun x => (hblocks x).sources ▸ List.nodup_nil
  · exact hroots

section Rounds

variable [ZendEngine]

end Rounds

section Runs

/-- `strtol` with base 10 -/
def strtol (s : List UInt8) : Int64 :=
  let s := s.dropWhile fun ch => ch == 32 || 9 ≤ ch && ch ≤ 13
  let digits := (if s.head? = some 43 ∨ s.head? = some 45 then s.tail else s).takeWhile fun ch =>
    48 ≤ ch && ch ≤ 57
  let n : ℤ := digits.foldl (fun n ch => 10 * n + (ch.toNat - 48)) 0
  Int64.ofInt (if s.head? = some 45 then max (-n) (-2 ^ 63) else min n (2 ^ 63 - 1))

/-- `convert_to_boolean`, of arrays that are not empty -/
def convertToBoolean : Zval → Bool
  | .null | .constant _ => false
  | .bool b => b
  | .long n => n != 0
  | .double bits => bits &&& 0x7fffffffffffffff != 0
  | .string s => s != [] && s != [48]
  | .resource handle => handle != 0
  | .array _ | .object _ => true

/-- `convert_to_long`, of arrays that are not empty -/
def convertToLong : Zval → Int64
  | .null | .constant _ => 0
  | .bool b => if b then 1 else 0
  | .long n => n
  | .double bits => (Float.ofBits bits).toInt64
  | .string s => strtol s
  | .resource handle => Int64.ofNat handle
  | .array _ | .object _ => 1

/-- An engine that evaluates nothing, and converts to booleans and integers only. -/
@[reducible] def plainEngine : ZendEngine where
  zendHashFunc _ := 0
  zendHandleNumeric _ := none
  binaryOp _ _ _ := none
  unaryOp _ _ := none
  convertTo type v :=
    if type = isBool then .bool (convertToBoolean v)
    else if type = isLong then .long (convertToLong v)
    else v
  persistentConstant _ := none

local instance plainZendEngine : ZendEngine := plainEngine

/-- `while ($x) echo 1;` after a `NOP` -/
def whileLoop : ZendOpArray where
  opcodes := [⟨.nop, .none, .none, .none, 0⟩,
    ⟨.jmpz, ⟨.cv, 0, false⟩, ⟨.unused, 4, false⟩, .none, 0⟩,
    ⟨.echo, ⟨.const, 0, false⟩, .none, .none, 0⟩,
    ⟨.jmp, ⟨.unused, 1, false⟩, .none, .none, 0⟩,
    ⟨.ret, ⟨.const, 1, false⟩, .none, .none, 0⟩]
  literals := [⟨.long 1, 0, -1⟩, ⟨.null, 0, -1⟩]
  brkContArray := []
  tryCatchArray := []
  hasFinallyBlock := false
  T := 1
  lastVar := 1
  lastCacheSlot := 0

end Runs

end ZendOpArray

end ZendOpcache
