import ZendOpcache.Optimizer.Pass2
import ZendOpcache.Optimizer.Pass3
import ZendOpcache.Optimizer.BlockPass
import ZendOpcache.Optimizer.TempVars

/-! # The optimizer

`zend_optimizer` runs the passes that `optimization_level` turns on, one after another. The block
pass writes the list of early bindings anew.
-/

namespace ZendOpcache

/-- `ZEND_EVAL_CODE` -/
def zendEvalCode : ℕ := 4

namespace ZendBoundOpArray

/-- The first delayed declaration of a class from opline `i` on -/
def nextDelayed (ops : List ZendOp) (i : ℕ) : ℕ :=
  ((List.range' i (ops.length - i)).find? fun j =>
    (ops[j]?).any (·.opcode == .declareInheritedClassDelayed)).getD noOpline

/-- The list of early bindings after `assemble_code_blocks` -/
def relinkDelayed (a : ZendBoundOpArray) : ZendBoundOpArray :=
  if a.earlyBinding = noOpline then a
  else
    { a with
      opcodes := a.opcodes.mapIdx fun i o =>
        if o.opcode = .declareInheritedClassDelayed then
          { o with result := { o.result with num := nextDelayed a.opcodes (i + 1) } }
        else o
      earlyBinding := nextDelayed a.opcodes 0 }

/-- `zend_block_optimization`, with the list of early bindings -/
def blockOptimization [ZendEngine] (a : ZendBoundOpArray) : Option ZendBoundOpArray :=
  if a.hasFinallyBlock then some a
  else
    match a.findCodeBlocks with
    | none => some a
    | some _ =>
      (zendBlockOptimization delSource a.toZendOpArray).map fun b =>
        relinkDelayed { a with toZendOpArray := b }

end ZendBoundOpArray

namespace ZendNamedOpArray

section

variable [ExTmpVars] [ZendConversions] (outside : ℤ → ℕ) (fuel level : ℕ)

/-- The passes before the block pass -/
def passesBefore (a : ZendNamedOpArray) : Option ZendNamedOpArray :=
  let a := if hasPass level 1 then a.pass1 level else a
  let a := if hasPass level 2 then a.mapOps (·.pass2) else a
  if hasPass level 3 then (a.toZendOpArray.pass3 fuel).map fun b => a.mapOps fun _ => b else some a

/-- The passes after the block pass -/
def passesAfter (a : ZendNamedOpArray) : ZendNamedOpArray :=
  let a := if hasPass level 9 then a.mapOps (·.optimizeTemporaryVariables) else a
  if hasPass level 10 && !hasPass level 5 then
    { a with toZendBoundOpArray := a.toZendBoundOpArray.nopRemoval outside }
  else a

/-- `zend_optimizer` -/
def zendOptimizer (a : ZendNamedOpArray) : Option ZendNamedOpArray :=
  if a.type = zendEvalCode ∨ a.interactive then some a
  else do
    let a ← a.passesBefore fuel level
    let a ←
      if hasPass level 5 then
        a.toZendBoundOpArray.blockOptimization.map fun b => { a with toZendBoundOpArray := b }
      else some a
    some (a.passesAfter outside level)

end

end ZendNamedOpArray

end ZendOpcache
