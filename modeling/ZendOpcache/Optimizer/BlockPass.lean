import ZendOpcache.Optimizer.BrkCont
import ZendOpcache.Optimizer.JmpOptimization

/-! # The block pass

`zend_t_usage`, which finds the temporaries that are used outside of their block and
drops results that nothing uses, the rounds of `zend_block_optimization` and
`assemble_code_blocks`.
-/

namespace ZendOpcache

def Znode.isTmpOrVar (x : Znode) : Bool := x.type == .tmpVar || x.type == .var

namespace ZendOp

/-- Opcodes that use their result as an argument. -/
def usesResult (o : ZendOp) : Bool :=
  o.opcode == .recv || o.opcode == .recvInit || o.opcode == .recvVariadic ||
    (o.opcode == .opData && o.result.type == .tmpVar) || o.opcode == .addArrayElement

/-- `RES_NEVER_USED` -/
def resNeverUsed (o : ZendOp) (usage : ℕ → Bool) : Bool :=
  o.result.type == .unused || (o.result.isTmpOrVar && !usage o.result.num)

/-- Opcodes whose result can be left out. -/
def dropsResult : ZendOpcode → Bool
  | .assignAdd | .assignSub | .assignMul | .assignDiv | .assignMod | .assignSl | .assignSr
  | .assignConcat | .assignBwOr | .assignBwAnd | .assignBwXor | .preInc | .preDec | .postInc
  | .postDec | .assign | .assignRef | .doFcall | .doFcallByName => true
  | _ => false

/-- An opline whose result is never used. -/
def withoutResult (o : ZendOp) : ZendOp :=
  if dropsResult o.opcode then
    if o.result.type = .var then { o with result := { o.result with extUnused := true } } else o
  else
    match o.opcode with
    | .qmAssign | .bool | .boolNot => o.makeNop
    | .print => { o with opcode := .echo, result := o.result.setUnused }
    | .jmpzEx | .jmpnzEx =>
      { o with opcode := o.opcode.withoutResult, result := o.result.setUnused }
    | _ => o

/-- What is used before the opline, if `usage` is used after it. -/
def usageBefore (o : ZendOp) (usage : ℕ → Bool) : ℕ → Bool :=
  let usage :=
    if o.opcode = .recv ∨ o.opcode = .recvInit ∨ o.opcode = .recvVariadic ∨
        o.opcode = .addArrayElement then
      if o.op1.isTmpOrVar then Function.update usage o.result.num true else usage
    else if o.resultUsed then Function.update usage o.result.num false
    else usage
  let usage := if o.op1.isTmpOrVar then Function.update usage o.op1.num true else usage
  if o.op2.isTmpOrVar then Function.update usage o.op2.num true else usage

/-- A result that is used after all. -/
def restoreResult (o : ZendOp) (usage : ℕ → Bool) : ZendOp :=
  if o.result.type = .var ∧ o.result.extUnused ∧ usage o.result.num then
    { o with result := { o.result with extUnused := false } }
  else o

end ZendOp

/-- `T_USAGE` of an operand -/
def tUsage (defined used : ℕ → Bool) (x : Znode) : ℕ → Bool :=
  if x.isTmpOrVar && !defined x.num then Function.update used x.num true else used

/-- One opline of the first loop of `zend_t_usage`: the temporaries that are defined in the block,
and those that are used outside of theirs. -/
def usageStep (s : (ℕ → Bool) × (ℕ → Bool)) (o : ZendOp) : (ℕ → Bool) × (ℕ → Bool) :=
  let (defined, used) := s
  let used := tUsage defined (tUsage defined used o.op1) o.op2
  if o.resultUsed then
    (Function.update defined o.result.num true,
      if !defined o.result.num && o.usesResult then Function.update used o.result.num true
        else used)
  else (defined, used)

/-- The second loop of `zend_t_usage` over a block, from its end: the oplines with what is used
before them, and the constants that are freed. -/
def dropResults (used : ℕ → Bool) (ops : List ZendOp) : List ZendOp × (ℕ → Bool) × List Znode :=
  ops.foldr
    (fun o (ops, usage, freed) =>
      let o' := if o.resNeverUsed usage then o.withoutResult else o
      let usage' := o'.usageBefore usage
      let gone := o.resNeverUsed usage && o'.opcode == .nop && o.op1.type == .const
      (o'.restoreResult usage' :: ops, usage', if gone then freed ++ [o.op1] else freed))
    ([], used, [])

namespace ZendCfg

/-- The temporaries that some block uses that does not define them. -/
def usedExt (c : ZendCfg) : Option (ℕ → Bool) :=
  (c.order.drop 1).foldlM (fun used b =>
    if (c.blocks b).access then do
      let ops ← (c.blocks b).oplines
      some (ops.foldl usageStep (fun _ => false, used)).2
    else some used) fun _ => false

/-- `zend_t_usage`, with the vector of the temporaries that are used outside of their block -/
def zendTUsage (T : ℕ) (c : ZendCfg) : Option ((ℕ → Bool) × ZendCfg) :=
  if T = 0 then some (fun _ => false, c)
  else do
    let used ← c.usedExt
    let c ← c.order.foldlM (fun c b =>
      if (c.blocks b).access then do
        let ops ← (c.blocks b).oplines
        let (ops, _, freed) := dropResults used ops
        some ((freed.foldl literalDtor c).modify b ({ · with oplines := some ops }))
      else some c) c
    some (used, c)

section Rounds

variable [ZendEngine] (del : DelSource)

/-- One pass over all blocks, without the search for unreachable blocks at its end. -/
def blockRound (T lastVar : ℕ) (c : ZendCfg) : Option ZendCfg := do
  let (used, c) ← c.zendTUsage T
  let c ← c.order.foldlM (fun c b =>
    if (c.blocks b).access then zendOptimizeBlock T used c b else some c) c
  c.order.foldlM (fun c b =>
    if (c.blocks b).access then zendJmpOptimization del T lastVar c b else some c) c

/-- The graph after a number of rounds, each but the last with `zend_rebuild_access_path` at its
end. -/
def blockRounds (T lastVar : ℕ) : ℕ → ZendCfg → Option ZendCfg
  | 0, c => blockRound del T lastVar c
  | n + 1, c => do
    let c ← blockRound del T lastVar c
    let c ← c.rebuildAccessPath true
    blockRounds T lastVar n c

end Rounds

section Assemble

/-- A block as it is copied: without a jump to the block that comes next. -/
def stripJmp (c : ZendCfg) (b : ℕ) : ZendCodeBlock :=
  let x := c.blocks b
  match x.oplines.bind (·.getLast?), x.op1To with
  | some last, some t =>
    if last.opcode = .jmp ∧ c.nextAccess b = some t then
      { x with followTo := some t, op1To := none, oplines := x.oplines.map (·.dropLast) }
    else x
  | _, _ => x

/-- The blocks that are copied, in order. -/
def emitted (c : ZendCfg) : List (ℕ × ZendCodeBlock) :=
  (c.order.filter fun b => (c.blocks b).access).map fun b => (b, c.stripJmp b)

/-- Where a block starts in the new code. -/
def offset (c : ZendCfg) (b : ℕ) : ℕ :=
  ((c.emitted.takeWhile (·.1 != b)).map fun x => (x.2.oplines.getD []).length).sum

/-- The oplines of a block with the new jump targets. -/
def retarget (c : ZendCfg) (x : ZendCodeBlock) : List ZendOp :=
  let ops := x.oplines.getD []
  let last := if ops.getLast?.any (·.opcode == .opData) then ops.length - 2 else ops.length - 1
  ops.modify last fun o =>
    { o with
      op1 := match x.op1To with | some t => { o.op1 with num := c.offset t } | none => o.op1
      op2 := match x.op2To with | some t => { o.op2 with num := c.offset t } | none => o.op2
      extendedValue := match x.extTo with | some t => c.offset t | none => o.extendedValue }

/-- The constants of the blocks that are not used. -/
def unusedConstants (c : ZendCfg) : List Znode :=
  (c.order.filter fun b => !(c.blocks b).access).flatMap fun b =>
    ((c.blocks b).oplines.getD []).flatMap fun o => [o.op1, o.op2].filter (·.type == .const)

/-- The code of all blocks, with a `NOP` after a final `THROW`. -/
def assembled (c : ZendCfg) : List ZendOp :=
  let ops := c.emitted.flatMap fun x => c.retarget x.2
  if ops.getLast?.any (·.opcode == .throw) then ops ++ [⟨.nop, .none, .none, .none, 0⟩] else ops

/-- `assemble_code_blocks`, whose array has the loops that `find_code_blocks` left -/
def assembleCodeBlocks (a : ZendOpArray) (c : ZendCfg) : ZendOpArray :=
  { a with
    opcodes := c.assembled
    literals := (c.unusedConstants.foldl literalDtor c).literals
    lastCacheSlot := c.lastCacheSlot
    tryCatchArray := (c.tryCatch.filter fun x => (c.blocks x.1).access).map fun x =>
      ⟨c.offset x.1, c.offset x.2⟩
    brkContArray := (c.loops.zip a.brkContArray).map fun x =>
      { x.2 with start := c.offset x.1.1, cont := c.offset x.1.2.1, brk := c.offset x.1.2.2 } }

end Assemble

end ZendCfg

/-- The number of rounds -/
def passes : ℕ := 3

section

variable [ZendEngine] (del : DelSource)

/-- `zend_block_optimization` -/
def zendBlockOptimization (a : ZendOpArray) : Option ZendOpArray :=
  if a.hasFinallyBlock then some a
  else
    match a.findCodeBlocks with
    | none => some a
    | some c => do
      -- the climb over the parents ends within so many turns or not at all
      let brkCont ← a.compactBrkCont (a.brkContArray.length + 1)
      let c ← c.rebuildAccessPath false
      let c ← c.blockRounds del a.T a.lastVar (passes - 1)
      let c ← c.rebuildAccessPath true
      let (_, c) ← c.zendTUsage a.T
      some (c.assembleCodeBlocks { a with brkContArray := brkCont })

end

/-- `del_source` as the code calls it. -/
def delSource : DelSource := fun c fromb tob _ _ => c.delSource fromb tob

end ZendOpcache
