import Mathlib.Logic.Function.Basic
import ZendOpcache.Optimizer.Opline

/-! # Code blocks and their sources

The control flow graph of the block pass: `find_code_blocks`, the lists of sources and
`zend_rebuild_access_path`. A block goes by the number of its first opline. An
operation has no value where the code reads through a null pointer.
-/

namespace ZendOpcache

structure ZendCodeBlock where
  access : Bool
  /-- the oplines from `start_opline` on, which is null once the block has been joined -/
  oplines : Option (List ZendOp)
  op1To : Option ℕ
  op2To : Option ℕ
  extTo : Option ℕ
  followTo : Option ℕ
  sources : List ℕ
  /-- not to be merged with other blocks -/
  isProtected : Bool

namespace ZendCodeBlock

/-- A block as `ecalloc` leaves it. -/
def zero : ZendCodeBlock := ⟨false, none, none, none, none, none, [], false⟩

def edges (b : ZendCodeBlock) : List (Option ℕ) := [b.op1To, b.op2To, b.extTo, b.followTo]

/-- The blocks that control may go to. -/
def successors (b : ZendCodeBlock) : List ℕ := b.edges.reduceOption

end ZendCodeBlock

structure ZendCfg where
  blocks : ℕ → ZendCodeBlock
  /-- the blocks that `next` links, in order -/
  order : List ℕ
  /-- a bound on the number of blocks -/
  size : ℕ
  /-- the blocks of the `try` and `catch` oplines -/
  tryCatch : List (ℕ × ℕ)
  /-- the blocks where loops start, continue and end -/
  loops : List (ℕ × ℕ × ℕ)
  literals : List ZendLiteral
  lastCacheSlot : ℕ

namespace ZendOp

/-- The blocks that an opline starts, in `find_code_blocks`. -/
def startBlocks (o : ZendOp) (opno : ℕ) : List ℕ :=
  match o.opcode with
  | .fastCall => o.op1.num :: (if o.extendedValue ≠ 0 then [o.op2.num] else []) ++ [opno + 1]
  | .fastRet => (if o.extendedValue ≠ 0 then [o.op2.num] else []) ++ [opno + 1]
  | .jmp => [o.op1.num, opno + 1]
  | .ret | .returnByRef | .generatorReturn | .exit | .throw => [opno + 1]
  | .catch => [o.extendedValue, opno + 1]
  | .jmpznz => [o.extendedValue, o.op2.num, opno + 1]
  | .jmpz | .jmpnz | .jmpzEx | .jmpnzEx | .feReset | .new | .jmpSet | .jmpSetVar =>
    [o.op2.num, opno + 1]
  | .feFetch => [o.op2.num, opno + 2]
  | _ => []

/-- The edges of a block with this last opline; `next` is the block after it. -/
def setEdges (o : ZendOp) (next : ℕ) (b : ZendCodeBlock) : ZendCodeBlock :=
  match o.opcode with
  | .ret | .returnByRef | .generatorReturn | .exit | .throw => b
  | .fastCall =>
    { b with
      op1To := some o.op1.num
      op2To := if o.extendedValue ≠ 0 then some o.op2.num else b.op2To }
  | .fastRet => { b with op2To := if o.extendedValue ≠ 0 then some o.op2.num else b.op2To }
  | .jmp => { b with op1To := some o.op1.num }
  | .jmpznz => { b with op2To := some o.op2.num, extTo := some o.extendedValue }
  | .catch => { b with extTo := some o.extendedValue, followTo := some next }
  | .jmpz | .jmpnz | .jmpzEx | .jmpnzEx | .feReset | .new | .jmpSet | .jmpSetVar | .feFetch =>
    { b with op2To := some o.op2.num, followTo := some next }
  | _ => { b with followTo := some next }

end ZendOp

namespace ZendOpArray

variable (a : ZendOpArray)

/-- The block ends with a `FREE` of its loop variable. -/
def freesAt (i : ℕ) : Bool :=
  a.opcodes[i]?.any fun o => o.opcode == .free || o.opcode == .switchFree

/-- A loop or a switch that stays in `brk_cont_array`. -/
def keepsLoop (e : ZendBrkContElement) : Bool := 0 ≤ e.start && a.freesAt e.brk

def keptLoops : List (ℕ × ℕ × ℕ) :=
  (a.brkContArray.filter a.keepsLoop).map fun e => (e.start.toNat, e.cont, e.brk)

/-- `START_BLOCK_OP` is done for the opline. -/
def startsBlock (opno : ℕ) : Bool :=
  (a.opcodes.zipIdx.any fun x => (x.1.startBlocks x.2).contains opno) ||
    (a.tryCatchArray.any fun e => e.tryOp == opno || e.catchOp == opno) ||
    a.keptLoops.any fun l => l.1 == opno || l.2.1 == opno || l.2.2 == opno

/-- The first oplines of the blocks, in order. -/
def blockStarts : List ℕ :=
  0 :: ((List.range a.opcodes.length).filter fun opno => 0 < opno && a.startsBlock opno)

/-- The last opline of the block before `next`, without `OP_DATA`. -/
def lastOpline (next : ℕ) : Option ZendOp :=
  match a.opcodes[next - 1]? with
  | some o => if o.opcode = .opData then a.opcodes[next - 2]? else some o
  | none => none

/-- The block that starts at `start`, and ends before `next` if there is a block after it. -/
def codeBlock (start : ℕ) (next : Option ℕ) : ZendCodeBlock :=
  let b : ZendCodeBlock :=
    { ZendCodeBlock.zero with
      access := a.startsBlock start
      oplines := some ((a.opcodes.drop start).take (next.getD a.opcodes.length - start))
      isProtected := (a.tryCatchArray.any fun e => e.tryOp == start) ||
        a.keptLoops.any fun l => l.1 == start || l.2.2 == start }
  match next with
  | none => b
  | some next => ((a.lastOpline next).map fun o => o.setEdges next b).getD b

def nextStart (start : ℕ) : Option ℕ := a.blockStarts.find? (start < ·)

/-- The numbers of all blocks. -/
def namedBlocks : List ℕ :=
  a.blockStarts ++ [a.opcodes.length, a.opcodes.length + 1] ++
    (a.opcodes.flatMap fun o => [o.op1.num, o.op2.num, o.extendedValue]) ++
    (a.keptLoops.flatMap fun l => [l.1, l.2.1, l.2.2]) ++
    a.tryCatchArray.flatMap fun e => [e.tryOp, e.catchOp]

/-- `find_code_blocks`, which has no value for code with `BRK`, `CONT` or `GOTO`. -/
def findCodeBlocks : Option ZendCfg :=
  if a.opcodes.any fun o => o.opcode == .brk || o.opcode == .cont || o.opcode == .goto then none
  else some
    { blocks := fun start =>
        if start = 0 ∨ a.startsBlock start = true then a.codeBlock start (a.nextStart start)
        else .zero
      order := a.blockStarts ++ [a.opcodes.length + 1]
      size := a.namedBlocks.length
      tryCatch := a.tryCatchArray.map fun e => (e.tryOp, e.catchOp)
      loops := a.keptLoops
      literals := a.literals
      lastCacheSlot := a.lastCacheSlot }

end ZendOpArray

namespace ZendCfg

/-- Change one block. -/
def modify (c : ZendCfg) (b : ℕ) (f : ZendCodeBlock → ZendCodeBlock) : ZendCfg :=
  { c with blocks := Function.update c.blocks b (f (c.blocks b)) }

/-- `ADD_SOURCE` -/
def addSource (c : ZendCfg) (fromb tob : ℕ) : ZendCfg :=
  c.modify tob fun b => if fromb ∈ b.sources then b else { b with sources := fromb :: b.sources }

/-- `replace_source`, where `found` is the variable of the loop. After the removal of an entry the
loop steps over the one that follows, and there must be one. -/
def replaceSource (old new : ℕ) : Bool → List ℕ → Option (List ℕ)
  | _, [] => some []
  | found, s :: ss =>
    if s = new then
      if found then
        match ss with
        | [] => none
        | s' :: ss =>
          if s' = old then
            match ss with
            | [] => none
            | s'' :: ss => (replaceSource old new true ss).map (s'' :: ·)
          else (replaceSource old new true ss).map (s' :: ·)
      else (replaceSource old new true ss).map (s :: ·)
    else if s = old then
      if found then
        match ss with
        | [] => none
        | s' :: ss => (replaceSource old new found ss).map (s' :: ·)
      else (replaceSource old new true ss).map (new :: ·)
    else (replaceSource old new found ss).map (s :: ·)

def replaceSourceOf (old new : ℕ) (c : ZendCfg) (target : Option ℕ) : Option ZendCfg :=
  match target with
  | none => some c
  | some t => (replaceSource old new false (c.blocks t).sources).map fun ss =>
      c.modify t ({ · with sources := ss })

/-- The block `to` follows its only predecessor. -/
def joinable (c : ZendCfg) (fromb tob : ℕ) : Bool :=
  !(c.blocks tob).isProtected && (c.blocks fromb).access && (c.blocks fromb).followTo == some tob &&
    (c.blocks fromb).op1To == none && (c.blocks fromb).op2To == none &&
    (c.blocks fromb).extTo == none

/-- Join a block and the one that follows it. -/
def join (c : ZendCfg) (fromb tob : ℕ) : Option ZendCfg := do
  let t := c.blocks tob
  let toOplines ← t.oplines
  let fromOplines ← (c.blocks fromb).oplines
  let c := c.modify tob ({ · with oplines := none, access := false, sources := [] })
  let c := c.modify fromb fun b =>
    { b with
      oplines := some (fromOplines ++ toOplines)
      op1To := t.op1To <|> b.op1To
      op2To := t.op2To <|> b.op2To
      extTo := t.extTo <|> b.extTo
      followTo := t.followTo }
  t.edges.foldlM (replaceSourceOf tob fromb) c

/-- `del_source` -/
def delSource (c : ZendCfg) (fromb tob : ℕ) : Option ZendCfg :=
  if (c.blocks tob).sources = [] then some (c.modify tob ({ · with access := false }))
  else
    let sources := (c.blocks tob).sources.erase fromb
    let c := c.modify tob ({ · with sources := sources })
    match sources with
    | [] => some (c.modify tob ({ · with access := false }))
    | [s] => if c.joinable s tob then c.join s tob else some c
    | _ => some c

/-- Let an edge lead to `tob` in place of `block`. -/
def redirectEdge (block tob : ℕ) (e : Option ℕ) : Option ℕ := if e = some block then some tob else e

/-- Let the edges of `fromb` lead to `tob` in place of `block`. -/
def redirect (c : ZendCfg) (block tob fromb : ℕ) : ZendCfg :=
  let b := c.blocks fromb
  let c := c.modify fromb fun b =>
    { b with
      op1To := redirectEdge block tob b.op1To
      op2To := redirectEdge block tob b.op2To
      extTo := redirectEdge block tob b.extTo
      followTo := redirectEdge block tob b.followTo }
  if some block ∈ b.edges then c.addSource fromb tob else c

/-- `delete_code_block` -/
def deleteCodeBlock (c : ZendCfg) (block : ℕ) : ZendCfg :=
  if (c.blocks block).isProtected then c
  else
    let c := match (c.blocks block).followTo with
      | none => c
      | some tob => (c.blocks block).sources.foldl (fun c s => c.redirect block tob s) c
    c.modify block ({ · with access := false })

/-- `zend_access_path`, with a bound on the depth of the recursion. -/
def accessPath : ℕ → ZendCfg → ℕ → ZendCfg
  | 0, c, _ => c
  | n + 1, c, b =>
    if (c.blocks b).access then c
    else (c.blocks b).successors.foldl (fun c t => (accessPath n c t).addSource b t)
      (c.modify b ({ · with access := true }))

/-- The first block of the list that is marked as accessible. -/
def firstAccess (c : ZendCfg) : Option ℕ := c.order.find? fun b => (c.blocks b).access

/-- The blocks that nothing in the sources leads to: those of loops and of exceptions. -/
def roots (c : ZendCfg) : List ℕ :=
  c.loops.flatMap (fun l => [l.1, l.2.1, l.2.2]) ++ c.tryCatch.map (·.2)

/-- Mark all blocks as inaccessible and destroy the back references. -/
def clearAccess (c : ZendCfg) : ZendCfg :=
  { c with blocks := fun b =>
      if b ∈ c.order then { c.blocks b with access := false, sources := [] } else c.blocks b }

/-- `zend_rebuild_access_path` -/
def rebuildAccessPath (c : ZendCfg) (findStart : Bool) : Option ZendCfg := do
  let start ← if findStart then c.firstAccess else some 0
  some (c.roots.foldl (accessPath c.size) (accessPath c.size c.clearAccess start))

/-- The next block that is marked as accessible. -/
def nextAccess (c : ZendCfg) (b : ℕ) : Option ℕ :=
  c.order.find? fun m => b < m && (c.blocks m).access

end ZendCfg

end ZendOpcache
