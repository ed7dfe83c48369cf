import ZendOpcache.Optimizer.EntryBlock
import ZendOpcache.Transition.Trace

/-! # Execution of oplines

Where control goes from an opline, given which way its branch goes. A `JMP` is a silent move; any
other opline is shown, without the numbers of the oplines that it jumps to. `OP_DATA` counts as an
opline of its own. `FAST_CALL` and `FAST_RET` are left out: only code with a `finally` block has
them.
-/

namespace ZendOpcache

namespace ZendOp

/-- The numbers of the oplines that an opline may jump to. -/
def targets (o : ZendOp) : List ℕ :=
  match o.opcode with
  | .jmp => [o.op1.num]
  | .jmpznz => [o.op2.num, o.extendedValue]
  | .catch => [o.extendedValue]
  | .jmpz | .jmpnz | .jmpzEx | .jmpnzEx | .feReset | .new | .jmpSet | .jmpSetVar | .feFetch =>
    [o.op2.num]
  | _ => []

/-- The opline with other numbers for its targets. -/
def mapTargets (f : ℕ → ℕ) (o : ZendOp) : ZendOp :=
  match o.opcode with
  | .jmp => { o with op1 := { o.op1 with num := f o.op1.num } }
  | .jmpznz =>
    { o with op2 := { o.op2 with num := f o.op2.num }, extendedValue := f o.extendedValue }
  | .catch => { o with extendedValue := f o.extendedValue }
  | .jmpz | .jmpnz | .jmpzEx | .jmpnzEx | .feReset | .new | .jmpSet | .jmpSetVar | .feFetch =>
    { o with op2 := { o.op2 with num := f o.op2.num } }
  | _ => o

/-- The next opline after opline `i`, by the way that its branch goes. -/
def next (o : ZendOp) (i : ℕ) (taken : Bool) : Option ℕ :=
  match o.opcode with
  | .ret | .returnByRef | .generatorReturn | .exit | .throw => none
  | .jmp => some o.op1.num
  | .jmpznz => some (if taken then o.op2.num else o.extendedValue)
  | .catch => some (if taken then o.extendedValue else i + 1)
  | .jmpz | .jmpnz | .jmpzEx | .jmpnzEx | .feReset | .new | .jmpSet | .jmpSetVar | .feFetch =>
    some (if taken then o.op2.num else i + 1)
  | _ => some (i + 1)

/-- One move of the code at opline `i` -/
def move (ops : List ZendOp) (i : ℕ) : Move ℕ Bool ZendOp :=
  match ops[i]? with
  | none => .stuck
  | some o => if o.opcode = .jmp then .silent o.op1.num
    else .shows (o.mapTargets fun _ => 0) (o.next i)

variable {o : ZendOp} {f g : ℕ → ℕ} {i : ℕ}

@[simp] theorem mapTargets_opcode : (o.mapTargets f).opcode = o.opcode := by
  unfold mapTargets
  split <;> rfl

theorem mapTargets_of_targets (h : o.targets = []) : o.mapTargets f = o := by
  unfold targets at h
  unfold mapTargets
  split <;> simp_all

theorem mapTargets_mapTargets : (o.mapTargets f).mapTargets g = o.mapTargets (g ∘ f) := by
  unfold mapTargets
  cases h : o.opcode <;> simp [h]

/-- Control may go on with the next opline. -/
def goesOn (o : ZendOp) : Bool :=
  match o.opcode with
  | .ret | .returnByRef | .generatorReturn | .exit | .throw | .jmp | .jmpznz => false
  | _ => true

/-- An opline that starts a block and goes on has a target. -/
theorem targets_ne_nil (hstart : o.startBlocks i ≠ []) (hgo : o.goesOn = true)
    (hfast : o.opcode ≠ .fastCall ∧ o.opcode ≠ .fastRet) : o.targets ≠ [] := by
  obtain ⟨opcode, op1, op2, result, extendedValue⟩ := o
  unfold startBlocks at hstart
  unfold goesOn at hgo
  unfold targets
  cases opcode <;> simp_all

theorem followTo_setEdges {next : ℕ} {b : ZendCodeBlock} (hgo : o.goesOn = true)
    (hfast : o.opcode ≠ .fastCall ∧ o.opcode ≠ .fastRet) :
    (o.setEdges next b).followTo = some next := by
  obtain ⟨opcode, op1, op2, result, extendedValue⟩ := o
  unfold goesOn at hgo
  unfold setEdges
  cases opcode <;> simp_all

/-- Where control goes, if the targets are moved and the opline is. -/
theorem next_mapTargets {R : ℕ → ℕ → Prop} {p : ℕ} (htargets : ∀ t ∈ o.targets, R t (f t))
    (hgo : o.goesOn = true → R (i + 1) (p + 1)) (taken : Bool) :
    Option.Rel R (o.next i taken) ((o.mapTargets f).next p taken) := by
  obtain ⟨opcode, op1, op2, result, extendedValue⟩ := o
  unfold targets at htargets
  unfold goesOn at hgo
  unfold next mapTargets
  cases opcode <;> cases taken <;> simp_all

end ZendOp

namespace ZendOpArray

/-- What the compiler promises: all jumps and tables stay in the code, which ends with `RETURN`, and
`OP_DATA` belongs to the opline before it, so that no block starts there. -/
structure WellFormed (a : ZendOpArray) : Prop where
  last : ∃ o, a.opcodes.getLast? = some o ∧ o.opcode = .ret
  targets : ∀ o ∈ a.opcodes, ∀ t ∈ o.targets, t < a.opcodes.length
  tries : ∀ e ∈ a.tryCatchArray, e.tryOp < a.opcodes.length ∧ e.catchOp < a.opcodes.length
  loops : ∀ l ∈ a.keptLoops,
    l.1 < a.opcodes.length ∧ l.2.1 < a.opcodes.length ∧ l.2.2 < a.opcodes.length
  data : ∀ b ∈ a.blockStarts, ∀ o, a.opcodes[b]? = some o → o.opcode ≠ .opData
  fetch : ∀ i o, a.opcodes[i]? = some o → o.opcode = .feFetch →
    ∃ d, a.opcodes[i + 1]? = some d ∧ d.opcode = .opData
  fast : ∀ o ∈ a.opcodes, o.opcode = .fastCall ∨ o.opcode = .fastRet → a.hasFinallyBlock = true

/-- The first opline after a block. -/
def blockEnd (a : ZendOpArray) (b : ℕ) : ℕ := (a.nextStart b).getD a.opcodes.length

/-- The opline is one of the block's. -/
def InBlock (a : ZendOpArray) (b i : ℕ) : Prop := b ∈ a.blockStarts ∧ b ≤ i ∧ i < a.blockEnd b

variable {a : ZendOpArray} {b e i t : ℕ} {o : ZendOp}

theorem WellFormed.length_pos (h : a.WellFormed) : 0 < a.opcodes.length := by
  obtain ⟨o, ho, -⟩ := h.last
  exact List.length_pos_of_mem (List.mem_of_getLast? ho)

theorem WellFormed.getLast (h : a.WellFormed) (ho : a.opcodes[a.opcodes.length - 1]? = some o) :
    o.opcode = .ret := by
  obtain ⟨o', ho', hret⟩ := h.last
  rw [List.getLast?_eq_getElem?] at ho'
  rwa [Option.some.inj (ho.symm.trans ho')]

theorem WellFormed.lt_length (h : a.WellFormed) (hb : b ∈ a.blockStarts) :
    b < a.opcodes.length := by
  rcases mem_blockStarts.mp hb with rfl | ⟨hlt, -⟩
  · exact h.length_pos
  · exact hlt

theorem mem_blockStarts_of (hi : a.opcodes[i]? = some o) (ht : t ∈ o.startBlocks i)
    (hlt : t < a.opcodes.length) : t ∈ a.blockStarts := by
  rw [mem_blockStarts]
  rcases Nat.eq_zero_or_pos t with h0 | hpos
  · exact .inl h0
  · refine .inr ⟨hlt, hpos, ?_⟩
    simp only [startsBlock, Bool.or_eq_true, List.any_eq_true]
    exact .inl (.inl ⟨(o, i), List.mem_zipIdx_iff_getElem?.mpr hi, by simpa using ht⟩)

theorem nextStart_eq_none (h : a.nextStart b = none) (ht : t ∈ a.blockStarts) : t ≤ b := by
  have := List.find?_eq_none.mp h t ht
  simpa using this

theorem WellFormed.blockEnd_le (h : a.WellFormed) : a.blockEnd b ≤ a.opcodes.length := by
  unfold blockEnd
  cases hnext : a.nextStart b with
  | none => rfl
  | some e => exact (h.lt_length (nextStart_spec hnext).2.1).le

theorem blockEnd_le_of_mem (ht : t ∈ a.blockStarts) (hbt : b < t) : a.blockEnd b ≤ t := by
  unfold blockEnd
  cases hnext : a.nextStart b with
  | none => exact absurd (nextStart_eq_none hnext ht) (by omega)
  | some e => exact (nextStart_spec hnext).2.2 t ht hbt

theorem WellFormed.inBlock_start (h : a.WellFormed) (hb : b ∈ a.blockStarts) : a.InBlock b b := by
  refine ⟨hb, le_rfl, ?_⟩
  unfold blockEnd
  cases hnext : a.nextStart b with
  | none => exact h.lt_length hb
  | some e => exact (nextStart_spec hnext).1

theorem nextStart_of_blockEnd (hlt : a.blockEnd b < a.opcodes.length) :
    a.nextStart b = some (a.blockEnd b) := by
  unfold blockEnd at hlt ⊢
  cases hnext : a.nextStart b with
  | none => simp [hnext] at hlt
  | some e => rfl

theorem startBlocks_of_targets (h : o.targets ≠ []) (hfetch : o.opcode ≠ .feFetch) :
    i + 1 ∈ o.startBlocks i := by
  unfold ZendOp.targets at h
  unfold ZendOp.startBlocks
  split <;> simp_all

theorem WellFormed.lt_of_getElem? (h : a.WellFormed) (hi : a.opcodes[i]? = some o)
    (ho : o.opcode ≠ .ret) : i + 1 < a.opcodes.length := by
  obtain ⟨hlt, -⟩ := List.getElem?_eq_some_iff.mp hi
  by_contra hge
  obtain rfl : i = a.opcodes.length - 1 := by omega
  exact ho (h.getLast hi)

/-- A block ends where another would start. -/
theorem WellFormed.blockEnd_eq (h : a.WellFormed) (hb : a.InBlock b i)
    (ht : i + 1 ∈ a.blockStarts) : a.nextStart b = some (i + 1) := by
  obtain ⟨-, hle, hlt⟩ := hb
  have hend : a.blockEnd b = i + 1 := by
    have := blockEnd_le_of_mem ht (by omega : b < i + 1)
    omega
  rw [← hend]
  exact nextStart_of_blockEnd (hend ▸ h.lt_length ht)

/-- An opline that jumps is the last one of its block, but for `OP_DATA` after `FE_FETCH`. -/
theorem WellFormed.jump_last (h : a.WellFormed) (hb : a.InBlock b i)
    (hi : a.opcodes[i]? = some o) (ho : o.targets ≠ []) :
    ∃ e, a.nextStart b = some e ∧ a.lastOpline e = some o ∧
      (e = i + 1 ∨ (o.opcode = .feFetch ∧ e = i + 2 ∧
        ∃ d, a.opcodes[i + 1]? = some d ∧ d.opcode = .opData)) := by
  have hret : o.opcode ≠ .ret := fun hret => by simp [ZendOp.targets, hret] at ho
  have hdata : o.opcode ≠ .opData := fun hdata => by simp [ZendOp.targets, hdata] at ho
  have hlt := h.lt_of_getElem? hi hret
  by_cases hfetch : o.opcode = .feFetch
  · obtain ⟨d, hd, hop⟩ := h.fetch i o hi hfetch
    have hlt' := h.lt_of_getElem? hd (by simp [hop])
    have hstart : i + 1 + 1 ∈ a.blockStarts :=
      mem_blockStarts_of hi (by simp [ZendOp.startBlocks, hfetch]) hlt'
    -- no block starts at the `OP_DATA`
    have hin : a.InBlock b (i + 1) := by
      obtain ⟨hbs, hle, hend⟩ := hb
      refine ⟨hbs, by omega, ?_⟩
      have hne : a.blockEnd b ≠ i + 1 := fun heq => by
        have hnext : a.nextStart b = some (a.blockEnd b) := nextStart_of_blockEnd (by omega)
        rw [heq] at hnext
        exact h.data (i + 1) (nextStart_spec hnext).2.1 d hd hop
      omega
    refine ⟨i + 2, h.blockEnd_eq hin hstart, ?_, .inr ⟨hfetch, rfl, d, hd, hop⟩⟩
    simp [lastOpline, hd, hop, hi]
  · have hstart : i + 1 ∈ a.blockStarts :=
      mem_blockStarts_of hi (startBlocks_of_targets ho hfetch) hlt
    refine ⟨i + 1, h.blockEnd_eq hb hstart, ?_, .inl rfl⟩
    simp [lastOpline, hi, hdata]

/-- A block as it is before its edges are set -/
def plainBlock (a : ZendOpArray) (b : ℕ) : ZendCodeBlock :=
  { ZendCodeBlock.zero with
    access := a.startsBlock b
    oplines := some ((a.opcodes.drop b).take (a.blockEnd b - b))
    isProtected := (a.tryCatchArray.any fun e => e.tryOp == b) ||
      a.keptLoops.any fun l => l.1 == b || l.2.2 == b }

theorem codeBlock_of_last (hnext : a.nextStart b = some e) (hlast : a.lastOpline e = some o) :
    a.codeBlock b (a.nextStart b) = o.setEdges e (a.plainBlock b) := by
  simp [codeBlock, plainBlock, blockEnd, hnext, hlast]

theorem codeBlock_of_none (hnext : a.nextStart b = none) :
    a.codeBlock b (a.nextStart b) = a.plainBlock b := by
  simp [codeBlock, plainBlock, blockEnd, hnext]

/-- Control falls through from an opline that starts no block. -/
theorem WellFormed.followTo_of_plain (h : a.WellFormed) (hfinally : a.hasFinallyBlock = false)
    (hb : a.InBlock b i) (hi : a.opcodes[i]? = some o) (ho : o.startBlocks i = [])
    (hend : ¬a.InBlock b (i + 1)) : a.nextStart b = some (i + 1) ∧
      (a.codeBlock b (a.nextStart b)).followTo = some (i + 1) := by
  have hret : o.opcode ≠ .ret := fun hret => by simp [ZendOp.startBlocks, hret] at ho
  have hlt := h.lt_of_getElem? hi hret
  have heq : a.blockEnd b = i + 1 := by
    obtain ⟨hbs, hle, hlt'⟩ := hb
    have : ¬i + 1 < a.blockEnd b := fun hlt => hend ⟨hbs, by omega, hlt⟩
    omega
  have hnext : a.nextStart b = some (i + 1) := by
    rw [← heq]
    exact nextStart_of_blockEnd (by omega)
  refine ⟨hnext, ?_⟩
  by_cases hdata : o.opcode = .opData
  · -- the opline before it is in the block
    have hbi : b ≠ i := fun hbi => h.data b hb.1 o (hbi ▸ hi) hdata
    obtain ⟨j, rfl⟩ : ∃ j, i = j + 1 := ⟨i - 1, by have := hb.2.1; omega⟩
    have hj : a.InBlock b j := ⟨hb.1, by have := hb.2.1; omega, by have := hb.2.2; omega⟩
    obtain ⟨o', ho'⟩ : ∃ o', a.opcodes[j]? = some o' :=
      ⟨_, List.getElem?_eq_getElem (by omega)⟩
    rw [codeBlock_of_last hnext (show a.lastOpline (j + 1 + 1) = some o' by
      simp [lastOpline, hi, hdata, ho'])]
    have hno : j + 1 ∉ o'.startBlocks j := fun hmem => by
      have := blockEnd_le_of_mem (b := b) (mem_blockStarts_of ho' hmem (by omega))
        (by have := hb.2.1; omega)
      omega
    have hfast := h.fast o' (List.mem_of_getElem? ho')
    revert hno hfast
    unfold ZendOp.startBlocks ZendOp.setEdges
    split <;> simp_all
  · rw [codeBlock_of_last hnext (show a.lastOpline (i + 1) = some o by
      simp [lastOpline, hi, hdata])]
    revert ho
    unfold ZendOp.startBlocks ZendOp.setEdges
    split <;> simp_all

end ZendOpArray

end ZendOpcache
