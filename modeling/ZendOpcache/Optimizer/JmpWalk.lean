import ZendOpcache.Optimizer.Assemble
import ZendOpcache.Optimizer.ThreadJoins

/-! # Jumps in the graph of the code

In the graph that `find_code_blocks` and `zend_rebuild_access_path` make of well-formed code, no
walk comes to the null pointer. There `zend_jmp_optimization` of a block keeps what is found from
the end of the block exactly if no join that it makes is refused by the guard, and what it gets
wrong cannot be told.
-/

namespace ZendOpcache

namespace ZendCfg

variable {c c' : ZendCfg} {b k : ℕ}

theorem accessPath_literals : ∀ (n : ℕ) (c : ZendCfg) (b : ℕ),
    (accessPath n c b).literals = c.literals
  | 0, _, _ => rfl
  | n + 1, c, b => by
    unfold accessPath
    split_ifs
    · rfl
    · have hfold : ∀ (l : List ℕ) (d : ZendCfg),
          (l.foldl (fun d t => (accessPath n d t).addSource b t) d).literals = d.literals := by
        intro l
        induction l with
        | nil => exact fun _ => rfl
        | cons t l ih => exact fun d => (ih _).trans (accessPath_literals n d t)
      exact hfold _ _

theorem rebuildAccessPath_literals {findStart : Bool}
    (h : c.rebuildAccessPath findStart = some c') : c'.literals = c.literals := by
  obtain ⟨p, -, rfl⟩ := rebuildAccessPath_eq_some.mp h
  have hfold : ∀ (l : List ℕ) (d : ZendCfg),
      (l.foldl (accessPath c.size) d).literals = d.literals := by
    intro l
    induction l with
    | nil => exact fun _ => rfl
    | cons t l ih => exact fun d => (ih _).trans (accessPath_literals c.size d t)
  exact (hfold _ _).trans (accessPath_literals _ _ _)

section Found

variable [ZendEngine] {s : Place} {is : List Unit} {found : List Found}

end Found

end ZendCfg

theorem ZendOp.targets_of_jumps {o : ZendOp} (h : o.opcode.jumps = true) : o.targets ≠ [] := by
  unfold ZendOpcode.jumps at h
  unfold ZendOp.targets
  split at h <;> simp_all
namespace ZendOpArray

variable {a : ZendOpArray} {c c' c₀ : ZendCfg} {b x T lastVar : ℕ} {last o : ZendOp}
  {ops : List ZendOp}

/-- All constants are in the table of literals. -/
def LiteralsInRange (a : ZendOpArray) : Prop :=
  ∀ o ∈ a.opcodes, ∀ z ∈ [o.op1, o.op2], z.type = .const → z.num < a.literals.length
section Fresh

variable (h : a.WellFormed) (hfinally : a.hasFinallyBlock = false)
  (hfind : a.findCodeBlocks = some c₀) (hrebuild : c₀.rebuildAccessPath false = some c)
include h hfinally hfind hrebuild

/-- The graph after `find_code_blocks` and `zend_rebuild_access_path` -/
theorem WellFormed.built_live : a.Built c ∧ c.Live ∅ {x | (c.blocks x).access = true} 0 ∧
    (∀ x, (c.blocks x).shape = (c₀.blocks x).shape) ∧ c.literals = a.literals := by
  obtain ⟨c₁, hrebuild₁, hbuilt⟩ := h.exists_built hfinally hfind
  obtain rfl := Option.some.inj (hrebuild.symm.trans hrebuild₁)
  obtain ⟨p, hp, hremark⟩ := ZendCfg.rebuildAccessPath_eq_some.mp hrebuild
  obtain rfl : 0 = p := by simpa using hp
  obtain ⟨hlayout, hmem⟩ := findCodeBlocks_layout hfind
  have h0 : 0 ∈ a.namedBlocks := by simp [namedBlocks, blockStarts]
  obtain ⟨hshape, -, e', -, -, hle, -, hlive⟩ := hlayout.remark h0 hmem
  obtain rfl : e' = 0 := by omega
  rw [hremark] at hshape hlive
  refine ⟨hbuilt, hlive, hshape, (ZendCfg.rebuildAccessPath_literals hrebuild).trans ?_⟩
  unfold findCodeBlocks at hfind
  split_ifs at hfind
  obtain rfl := Option.some.inj hfind
  rfl

/-- The oplines of a block are those of the code, and a jump sets the edges of its block. -/
theorem WellFormed.jump_edges (hops : (c.blocks x).oplines = some ops) (ho : o ∈ ops) :
    o ∈ a.opcodes ∧ (o.opcode.jumps = true → ∃ e, x ∈ a.blockStarts ∧ a.nextStart x = some e ∧
      (c.blocks x).edges = (o.setEdges e (a.plainBlock x)).edges ∧ ops.getLast? = some o ∧
      ops[ops.length - 1]? = some o ∧ ∀ i < ops.length - 1, ∀ o', ops[i]? = some o' →
        o'.opcode.jumps = false) := by
  obtain ⟨hbuilt, -, hshape, -⟩ := h.built_live hfinally hfind hrebuild
  have hblocks : (c₀.blocks x).oplines = some ops := by
    rw [← ZendCodeBlock.shape_oplines, ← hshape, ZendCodeBlock.shape_oplines, hops]
  have hx : x ∈ a.blockStarts ∧ ops = a.blockOps x := by
    unfold findCodeBlocks at hfind
    split_ifs at hfind
    obtain rfl := Option.some.inj hfind
    dsimp only at hblocks
    split_ifs at hblocks with hstart
    · rw [codeBlock_oplines] at hblocks
      obtain rfl := Option.some.inj hblocks
      refine ⟨?_, rfl⟩
      -- there are no oplines after the code
      have hlt : x < a.opcodes.length := by
        by_contra hge
        rw [List.drop_eq_nil_of_le (by omega)] at ho
        simp at ho
      rcases Nat.eq_zero_or_pos x with h0 | hpos
      · exact mem_blockStarts.mpr (.inl h0)
      · exact mem_blockStarts.mpr (.inr ⟨hlt, hpos, hstart.resolve_left hpos.ne'⟩)
    · cases hblocks
  obtain ⟨hxs, rfl⟩ := hx
  obtain ⟨j, hj⟩ := List.mem_iff_getElem?.mp ho
  have hlt : j < (a.blockOps x).length := (List.getElem?_eq_some_iff.mp hj).1
  have hj' := hj
  rw [blockOps_getElem? (h.blockOps_length (b := x) ▸ hlt)] at hj'
  refine ⟨List.mem_of_getElem? hj', fun hjump => ?_⟩
  have hne := ZendOp.targets_of_jumps hjump
  obtain ⟨e, hnext, hlast, he⟩ := h.jump_last ((h.inBlock_iff hxs).mpr hlt) hj' hne
  have hfetch : o.opcode ≠ .feFetch := fun hf => by simp [hf, ZendOpcode.jumps] at hjump
  obtain rfl : e = x + j + 1 := he.resolve_right fun hf => hfetch hf.1
  have hend : a.blockEnd x = x + j + 1 := by simp [blockEnd, hnext]
  have hlen : (a.blockOps x).length = j + 1 := by
    rw [h.blockOps_length, hend]
    omega
  have hedges := (hbuilt.block_eq hxs).2
  rw [codeBlock_of_last hnext hlast] at hedges
  have hgetLast : (a.blockOps x).getLast? = some o := by
    rw [List.getLast?_eq_getElem?, hlen, Nat.add_sub_cancel, hj]
  refine ⟨x + j + 1, hxs, hnext, hedges, hgetLast, ?_, ?_⟩
  · rw [hlen, Nat.add_sub_cancel, hj]
  · intro i hi o' ho'
    by_contra hjump'
    refine ZendOp.targets_of_jumps (by simpa using hjump') (h.targets_eq_nil hxs ho' ?_)
    have hdata : o.opcode ≠ .opData := fun hf => by simp [hf, ZendOpcode.jumps] at hjump
    rw [lastIndex, hgetLast]
    simp [hdata]
    omega

omit h hfinally hfind hrebuild in
theorem setEdges_of_jumps {e : ℕ} {z : ZendCodeBlock} (hjump : o.opcode.jumps = true)
    (hz : z.edges = (o.setEdges e (a.plainBlock x)).edges) :
    (z.op1To ≠ none ∨ z.op2To ≠ none ∨ z.extTo ≠ none) ∧
      (o.opcode = .jmpznz → z.op2To.isSome = true ∧ z.extTo.isSome = true) := by
  obtain ⟨h₁, h₂, h₃, -⟩ := ZendCfg.edges_eq_iff.mp hz
  rw [h₁, h₂, h₃]
  unfold ZendOpcode.jumps at hjump
  split at hjump <;> simp_all [ZendOp.setEdges]

theorem WellFormed.inRange (hliterals : a.LiteralsInRange) : c.InRange := by
  intro x l hl o ho z hz hconst
  obtain ⟨-, -, -, hlit⟩ := h.built_live hfinally hfind hrebuild
  rw [hlit]
  exact hliterals o (h.jump_edges hfinally hfind hrebuild hl ho).1 z hz hconst

theorem WellFormed.threads (hbo : b ∈ c.order) (hb : (c.blocks b).access = true)
    (hops : (c.blocks b).oplines = some ops) (hlast : ops.getLast? = some last)
    (hjump : last.opcode.jumps = true) :
    c.Threads {x | x ∈ a.blockStarts ∧ (c.blocks x).access = true} b (ops.length - 1) := by
  obtain ⟨hbuilt, hlive, -, -⟩ := h.built_live hfinally hfind hrebuild
  have hmem := List.mem_of_getLast? hlast
  have hpos : 0 < ops.length := List.length_pos_of_mem hmem
  constructor
  · exact ⟨hbuilt.starts b hbo hb, hb⟩
  · exact fun x hx => ⟨_, (hbuilt.block_eq hx.1).1⟩
  · intro l hl
    obtain rfl := Option.some.inj (hops.symm.trans hl)
    omega
  · intro l i o hl hi ho
    obtain rfl := Option.some.inj (hops.symm.trans hl)
    obtain ⟨-, hedges⟩ := h.jump_edges hfinally hfind hrebuild hops hmem
    obtain ⟨-, -, -, -, -, -, hplain⟩ := hedges hjump
    exact hplain i hi o ho
  · intro x _ l hl o ho hjump
    obtain ⟨-, hedges⟩ := h.jump_edges hfinally hfind hrebuild hl ho
    obtain ⟨e, -, -, hedges, -⟩ := hedges hjump
    exact (setEdges_of_jumps hjump hedges).1
  · rintro x ⟨hx, hacc⟩ t ht
    refine ⟨h.successor_mem hfinally (b := x) ?_, (hlive.edge x hacc (by simp) t ht).1⟩
    rwa [ZendCfg.successors_eq_of_edges (hbuilt.block_eq hx).2] at ht
  · exact fun x hx _ t ht => (hlive.edge x hx.2 (by simp) t ht).2
  · exact fun x t ht => (hlive.follow x (by simp) t ht).1
  · exact hlive.nodup

section Lost

variable {k : ℕ} {s s' : Place}

variable [ZendEngine]

end Lost

end Fresh

section Agrees

variable [ZendEngine]

end Agrees

section Tests

local instance plainTestEngine : ZendEngine := plainEngine

end Tests

end ZendOpArray

end ZendOpcache
