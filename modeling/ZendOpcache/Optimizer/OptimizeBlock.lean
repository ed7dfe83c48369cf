import ZendOpcache.Optimizer.CodeBlocks
import ZendOpcache.Optimizer.ReplaceTmp

/-! # Rewrites inside a block

`zend_optimize_block`: one walk over the oplines of a block, which replaces uses of a
temporary by what the opline computed that wrote it. `Tsource` says which opline that
is. An operation has no value where the engine stops with a fatal error.
-/

namespace ZendOpcache

/-- `IS_LONG`, `IS_BOOL` and `IS_STRING` -/
def isLong : ℕ := 1
def isBool : ℕ := 3
def isString : ℕ := 6

/-- A block while its oplines are rewritten. -/
structure BlockState where
  ops : List ZendOp
  literals : List ZendLiteral
  lastCacheSlot : ℕ
  /-- the opline of the block that wrote a temporary -/
  Tsource : ℕ → Option ℕ
  lastOp : Option ℕ
  op2To : Option ℕ
  extTo : Option ℕ

/-- `SET_UNUSED` -/
def Znode.setUnused (x : Znode) : Znode := { x with type := .unused, extUnused := false }

namespace BlockState

variable (st : BlockState)

/-- Rewrite an opline. -/
def modifyOp (k : ℕ) (f : ZendOp → ZendOp) : BlockState := { st with ops := st.ops.modify k f }

def makeNop (k : ℕ) : BlockState := st.modifyOp k .makeNop

def addLiterals (x : List ZendLiteral × ℕ) : BlockState :=
  { st with literals := st.literals ++ x.1, lastCacheSlot := st.lastCacheSlot + x.2 }

/-- The value of a literal. -/
def literal (x : Znode) : Zval := ((st.literals[x.num]?).map (·.constant)).getD .null

def setLiteral (x : Znode) (val : Zval) : BlockState :=
  { st with literals := st.literals.modify x.num fun l => { l with constant := val } }

/-- `literal_dtor` -/
def literalDtor (x : Znode) : BlockState := st.setLiteral x .null

/-- `VAR_SOURCE` of a temporary: the opline that wrote it, with its number. -/
def tmpSource (x : Znode) : Option (ℕ × ZendOp) :=
  if x.type = .tmpVar then
    (st.Tsource x.num).bind fun p => (st.ops[p]?).map fun o => (p, o)
  else none

/-- `SET_VAR_SOURCE` -/
def setVarSource (n k : ℕ) : BlockState :=
  { st with Tsource := Function.update st.Tsource n (some k) }

/-- `VAR_UNSET` -/
def varUnset (x : Znode) : BlockState :=
  if x.type = .tmpVar ∨ x.type = .var then
    { st with Tsource := Function.update st.Tsource x.num none }
  else st

section Update

variable [ZendEngine]

/-- `update_op1_const`, for other oplines than `FREE` -/
def updateOp1Const (k : ℕ) (o : ZendOp) (val : Zval) : BlockState :=
  (st.addLiterals (op1Literals o.opcode val st.lastCacheSlot)).modifyOp k fun o =>
    { o with op1 := ⟨.const, st.literals.length, false⟩ }

/-- `update_op2_const` -/
def updateOp2Const (k : ℕ) (o : ZendOp) (val : Zval) : BlockState :=
  let prev := if k = 0 then none else st.ops[k - 1]?
  (st.addLiterals (op2Literals prev o val st.lastCacheSlot)).modifyOp k fun o =>
    { o with op2 := ⟨.const, st.literals.length, false⟩ }

end Update

/-- `LITERAL_LONG` of an operand -/
def longLiteral (n : Int64) : List ZendLiteral × ℕ := ([⟨.long n, 0, -1⟩], 0)

end BlockState

/-- Opcodes whose first operand stays a temporary. -/
def ZendOpcode.keepsTmp : ZendOpcode → Bool
  | .case | .fetchDimTmpVar | .feReset | .free => true
  | _ => false

def ZendOpcode.isAddString : ZendOpcode → Bool
  | .addString | .addChar | .addVar | .concat => true
  | _ => false

/-- Opcodes that test a value and take the test of its negation as well. -/
def ZendOpcode.isTest : ZendOpcode → Bool
  | .bool | .boolNot | .jmpz | .jmpnz | .jmpznz => true
  | _ => false

def ZendOpcode.isTestOrEx : ZendOpcode → Bool
  | .jmpzEx | .jmpnzEx => true
  | c => c.isTest

/-- The test that has the outcome of this one on the negated value. -/
def ZendOpcode.negated : ZendOpcode → ZendOpcode
  | .bool => .boolNot
  | .boolNot => .bool
  | .jmpz => .jmpnz
  | .jmpnz => .jmpz
  | c => c

/-- Opcodes whose result is a truth value. -/
def ZendOpcode.givesBool : ZendOpcode → Bool
  | .isEqual | .isNotEqual | .isSmaller | .isSmallerOrEqual | .bool | .isIdentical
  | .isNotIdentical | .issetIsemptyVar | .issetIsemptyDimObj => true
  | _ => false

def Zval.isDouble : Zval → Bool
  | .double _ => true
  | _ => false

/-- A divisor that is zero. -/
def Zval.isZero : Zval → Bool
  | .long n => n == 0
  | .double bits => bits == 0 || bits == 0x8000000000000000
  | _ => false

section Rewrite

variable [ZendEngine]

/-- The string that `convert_to_string_safe` makes of a literal. -/
def convertToStringSafe (val : Zval) : List UInt8 :=
  match val with
  | .string s => s
  | .null => []
  | _ =>
    match convertTo isString val with
    | .string s => s
    | _ => []

/-- The string with the one character that an `ADD_CHAR` adds. -/
def charString (val : Zval) : Zval :=
  match val with
  | .long n => .string [n.toBitVec.toNat.toUInt8]
  | _ => .string [0]

namespace BlockState

variable (st : BlockState) (k : ℕ) (o : ZendOp)

/-- `T = QM_ASSIGN(C), F(T) => NOP, F(C)`, for the first operand -/
def stripQmAssign1 : BlockState :=
  match st.tmpSource o.op1 with
  | some (p, src) =>
    if src.opcode = .qmAssign ∧ src.op1.type = .const ∧ o.opcode.keepsTmp = false then
      ((((st.varUnset o.op1).updateOp1Const k o (st.literal src.op1)).literalDtor src.op1)).makeNop
        p
    else st
  | none => st

/-- `T = QM_ASSIGN(C), F(T) => NOP, F(C)`, for the second operand -/
def stripQmAssign2 : BlockState :=
  match st.tmpSource o.op2 with
  | some (p, src) =>
    if src.opcode = .qmAssign ∧ src.op1.type = .const then
      ((((st.varUnset o.op2).updateOp2Const k o (st.literal src.op1)).literalDtor src.op1)).makeNop
        p
    else st
  | none => st

/-- `T = PRINT(X), F(T) => ECHO(X), F(1)`, for the first operand -/
def printResult1 : BlockState :=
  match st.tmpSource o.op1 with
  | some (_, src) =>
    if src.opcode = .print ∧ o.opcode ≠ .case ∧ o.opcode ≠ .free then
      (st.addLiterals (longLiteral 1)).modifyOp k fun o =>
        { o with op1 := ⟨.const, st.literals.length, o.op1.extUnused⟩ }
    else st
  | none => st

/-- `T = PRINT(X), F(T) => ECHO(X), F(1)`, for the second operand -/
def printResult2 : BlockState :=
  match st.tmpSource o.op2 with
  | some (_, src) =>
    if src.opcode = .print then
      (st.addLiterals (longLiteral 1)).modifyOp k fun o =>
        { o with op2 := ⟨.const, st.literals.length, o.op2.extUnused⟩ }
    else st
  | none => st

/-- `T = CAST(X, String), ECHO(T) => NOP, ECHO(X)` -/
def echoCast : BlockState :=
  match st.tmpSource o.op1 with
  | some (p, src) =>
    if (o.opcode = .echo ∨ o.opcode = .print) ∧ src.opcode = .cast ∧
        src.extendedValue = isString then
      (st.modifyOp k ({ · with op1 := src.op1 })).makeNop p
    else st
  | none => st

/-- `T = PRINT(X), FREE(T) => ECHO(X)` -/
def freePrint : BlockState :=
  match st.tmpSource o.op1 with
  | some (p, src) =>
    if o.opcode = .free ∧ src.opcode = .print then
      (st.modifyOp p fun src =>
        { src with opcode := .echo, result := src.result.setUnused }).makeNop k
    else st
  | none => st

/-- `T = BOOL(X), FREE(T) => NOP` -/
def freeBool : BlockState :=
  match st.tmpSource o.op1 with
  | some (p, src) =>
    if o.opcode = .free ∧ src.opcode = .bool then
      ((if src.op1.type = .const then st.literalDtor src.op1 else st).makeNop p).makeNop k
    else st
  | none => st

/-- The opcode that a comparison with a truth value is. -/
def equalOpcode (opcode : ZendOpcode) (b : Bool) : ZendOpcode :=
  if (opcode == .isEqual) == b then .bool else .boolNot

/-- `IS_EQ(TRUE, X) => BOOL(X)` and the like -/
def compareBool : BlockState :=
  if o.opcode = .isEqual ∨ o.opcode = .isNotEqual then
    match o.op1.type, st.literal o.op1, o.op2.type, st.literal o.op2 with
    | .const, .bool b, _, _ => st.modifyOp k fun o =>
      { o with opcode := equalOpcode o.opcode b, op1 := o.op2, op2 := o.op2.setUnused }
    | _, _, .const, .bool b => st.modifyOp k fun o =>
      { o with opcode := equalOpcode o.opcode b, op2 := o.op2.setUnused }
    | _, _, _, _ => st
  else st

/-- Do a rewrite at opline `k`, as the rewrites before have left it. -/
def rewriteAt (f : BlockState → ℕ → ZendOp → BlockState) : BlockState :=
  match st.ops[k]? with
  | some o => f st k o
  | none => st

/-- The rewrites that do not exclude each other. -/
def simpleRewrites : BlockState :=
  (((((((st.rewriteAt k stripQmAssign1).rewriteAt k stripQmAssign2).rewriteAt
    k printResult1).rewriteAt k printResult2).rewriteAt
      k echoCast).rewriteAt k freePrint).rewriteAt k freeBool).rewriteAt k compareBool

/-- `T = BOOL_NOT(X) + JMPZ(T) -> NOP, JMPNZ(X)` and the like -/
def negateTest (p : ℕ) (src : ZendOp) : BlockState :=
  let st' := st.modifyOp k fun o =>
    if o.opcode = .jmpznz then
      { o with
        op1 := src.op1
        op2 := { o.op2 with num := o.extendedValue }
        extendedValue := o.op2.num }
    else { o with opcode := o.opcode.negated, op1 := src.op1 }
  let st' := if o.opcode = .jmpznz then { st' with op2To := st.extTo, extTo := st.op2To } else st'
  (st'.varUnset src.op1).makeNop p

/-- `T = BOOL(X) + JMPZ(T) -> NOP, JMPZ(X)` -/
def testSource (p : ℕ) (src : ZendOp) : BlockState :=
  ((st.modifyOp k ({ · with op1 := src.op1 })).varUnset src.op1).makeNop p

/-- Compress consecutive `ECHO`s. -/
def mergeEcho (l : ℕ) (last : ZendOp) : BlockState :=
  let s := convertToStringSafe (st.literal last.op1) ++ convertToStringSafe (st.literal o.op1)
  ((st.setLiteral o.op1 (.string s)).setLiteral last.op1 .null).makeNop l

/-- Compress consecutive `CONCAT`s. -/
def mergeConcat (p : ℕ) (src : ZendOp) : BlockState :=
  let s := convertToStringSafe (st.literal src.op2) ++ convertToStringSafe (st.literal o.op2)
  let st' := (st.varUnset o.op1).modifyOp k fun o =>
    { o with
      opcode := if src.op1.type = .unused then .addString else o.opcode
      op1 := src.op1 }
  ((st'.setLiteral o.op2 (.string s)).setLiteral src.op2 .null).makeNop p

/-- Evaluate a constant expression. -/
def foldBinary : BlockState :=
  match binaryOp o.opcode (st.literal o.op1) (st.literal o.op2) with
  | none => st
  | some val =>
    let st := ((st.literalDtor o.op1).literalDtor o.op2).modifyOp k fun o =>
      { o with opcode := .qmAssign, op2 := o.op2.setUnused }
    st.updateOp1Const k { o with opcode := .qmAssign } val

/-- Evaluate a constant unary operation, which must succeed. -/
def foldUnary : Option BlockState := do
  let val ←
    if o.opcode = .bool then some (convertTo isBool (st.literal o.op1))
    else unaryOp o.opcode (st.literal o.op1)
  let st := (st.literalDtor o.op1).modifyOp k fun o => { o with opcode := .qmAssign }
  some (st.updateOp1Const k { o with opcode := .qmAssign } val)

/-- Take the operand of the opline that wrote the first operand. -/
def takeSource (p : ℕ) (src : ZendOp) (opcode : ZendOpcode) : BlockState :=
  ((st.varUnset o.op1).modifyOp k fun o => { o with opcode := opcode, op1 := src.op1 }).makeNop p

/-- Let an `ADD_CHAR` add a string. -/
def charToString : BlockState :=
  if o.opcode = .addChar then st.setLiteral o.op2 (charString (st.literal o.op2)) else st

/-- `T = INIT_STRING(), T = ADD_STRING(T, X)` to an opline with the operand `X` alone -/
def takeSecond (p : ℕ) (opcode : ZendOpcode) (extendedValue : ℕ) : BlockState :=
  (((st.varUnset o.op1).charToString o).modifyOp k fun o =>
    { o with
      opcode := opcode
      op1 := o.op2
      op2 := o.op2.setUnused
      extendedValue := extendedValue }).makeNop p

/-- `T = IS_SMALLER(X, Y), T1 = BOOL(T) => T1 = IS_SMALLER(X, Y)` -/
def moveResult (p : ℕ) : BlockState :=
  ((st.modifyOp p ({ · with result := o.result })).setVarSource o.result.num p).makeNop k

/-- How the loop goes on: with the next opline, with this one again, or with the next one and
without a trace in `last_op`. -/
inductive Next where
  | advance
  | again
  | skip
  deriving DecidableEq, Repr

/-- The rewrites of an opline with a constant as first operand, of which the first that applies is
done. -/
def constRewrite : Option (BlockState × Next) :=
  match st.lastOp.bind fun l => (st.ops[l]?).map fun last => (l, last) with
  | some (l, last) =>
    if o.opcode = .echo ∧ last.opcode = .echo ∧ (st.literal o.op1).isDouble = false ∧
        last.op1.type = .const ∧ (st.literal last.op1).isDouble = false then
      some (st.mergeEcho o l last, .advance)
    else constRewrite'
  | none => constRewrite'
where
  constRewrite' : Option (BlockState × Next) :=
    if o.opcode = .addString ∨ o.opcode = .addVar then
      some (st.modifyOp k ({ · with opcode := .concat }), .again)
    else if o.opcode = .addChar ∧ o.op2.type = .const then
      some ((st.setLiteral o.op2 (charString (st.literal o.op2))).modifyOp k
        ({ · with opcode := .concat }), .again)
    else if o.opcode.isFoldedBinary ∧ o.op2.type = .const then
      if (o.opcode = .div ∨ o.opcode = .mod) ∧ (st.literal o.op2).isZero then some (st, .skip)
      else some (st.foldBinary k o, .advance)
    else if o.opcode = .bool ∨ o.opcode = .boolNot ∨ o.opcode = .bwNot then
      (st.foldUnary k o).map fun st => (st, .advance)
    else some (st, .advance)

/-- The rewrites of an opline whose first operand was written by opline `p`. -/
def sourceRewrite (usedExt : ℕ → Bool) (p : ℕ) (src : ZendOp) : BlockState × Next :=
  if o.opcode.isTest ∧ usedExt o.op1.num = false ∧ src.opcode = .boolNot then
    (st.negateTest k o p src, .again)
  else if o.opcode.isTestOrEx ∧ (usedExt o.op1.num = false ∨
      o.result.type = .tmpVar ∧ o.result.num = o.op1.num) ∧
      (src.opcode = .bool ∨ src.opcode = .qmAssign) then
    (st.testSource k p src, .again)
  else if o.opcode = .concat ∧ o.op2.type = .const ∧
      (src.opcode = .concat ∨ src.opcode = .addString) ∧ src.op2.type = .const ∧
      src.result.num = o.op1.num then
    (st.mergeConcat k o p src, .advance)
  else if (o.opcode = .ret ∨ o.opcode = .exit) ∧ src.opcode = .qmAssign then
    (st.takeSource k o p src o.opcode, .advance)
  else if (o.opcode = .addString ∨ o.opcode = .addChar) ∧ src.opcode = .initString then
    (st.takeSecond k o p .qmAssign o.extendedValue, .advance)
  else if o.opcode.isAddString ∧ src.opcode = .concat ∧ src.op2.type = .const ∧
      st.literal src.op2 = .string [] then
    (((st.charToString o).takeSource k o p src .concat).literalDtor src.op2, .advance)
  else if o.opcode = .addVar ∧ src.opcode = .initString then
    (st.takeSecond k o p .cast isString, .advance)
  else if o.opcode.isAddString ∧ src.opcode = .cast ∧ src.extendedValue = isString then
    ((st.charToString o).takeSource k o p src .concat, .advance)
  else if o.opcode = .bool ∧ src.opcode.givesBool ∧ usedExt o.op1.num = false then
    (st.moveResult k o p, .advance)
  else (st, .advance)

/-- The rewrites of which the first that applies is done. -/
def chainRewrite (usedExt : ℕ → Bool) : Option (BlockState × Next) :=
  if o.op1.type = .const then st.constRewrite k o
  else if o.opcode = .qmAssign ∧ o.op1.type = .tmpVar ∧ o.result.type = .tmpVar ∧
      o.op1.num = o.result.num then
    some (st.makeNop k, .advance)
  else
    match st.tmpSource o.op1 with
    | some (p, src) => some (st.sourceRewrite k o usedExt p src)
    | none => some (st, .advance)

/-- `RESULT_USED` sets the source of the result. -/
def setSource : BlockState := if o.resultUsed then st.setVarSource o.result.num k else st

def setLastOp : BlockState := if o.opcode = .nop then st else { st with lastOp := some k }

/-- One turn of the loop, with the number of the opline to go on with. -/
def step (usedExt : ℕ → Bool) : Option (BlockState × ℕ) := do
  let st := st.simpleRewrites k
  let o ← st.ops[k]?
  let (st, next) ← st.chainRewrite k o usedExt
  let o ← st.ops[k]?
  match next with
  | .again => some (st, k)
  | .skip => some (st.setSource k o, k + 1)
  | .advance => some ((st.setSource k o).setLastOp k o, k + 1)

/-- The loop over the oplines from `k` on, with a bound on its turns. -/
def loop (usedExt : ℕ → Bool) : ℕ → ℕ → BlockState → Option BlockState
  | 0, _, _ => none
  | n + 1, k, st =>
    if k < st.ops.length then do
      let (st, k) ← st.step k usedExt
      loop usedExt n k st
    else some st

end BlockState

namespace ZendCfg

def allNops (ops : List ZendOp) : Bool := ops.all (·.opcode == .nop)

/-- The end of `strip_nop`, and the beginning of `zend_optimize_block`: a block of `NOP`s is joined
with the block that follows it. -/
def deleteNops (c : ZendCfg) (b : ℕ) (ops : List ZendOp) : ZendCfg :=
  let c := c.modify b ({ · with oplines := some (ops.drop (ops.length - 1)) })
  if (c.blocks b).followTo.isSome then c.deleteCodeBlock b else c

/-- `strip_nop` -/
def stripNop (c : ZendCfg) (b : ℕ) (ops : List ZendOp) : ZendCfg :=
  if ops ≠ [] ∧ allNops ops then c.deleteNops b ops
  else c.modify b ({ · with oplines := some (ops.filter (·.opcode != .nop)) })

/-- `zend_optimize_block`. Every turn of the loop that stays at its opline removes another opline or
makes a `CONCAT` of an `ADD` opline, which bounds the number of turns. -/
def zendOptimizeBlock (T : ℕ) (usedExt : ℕ → Bool) (c : ZendCfg) (b : ℕ) : Option ZendCfg := do
  let ops ← (c.blocks b).oplines
  if ops ≠ [] ∧ allNops ops then some (c.deleteNops b ops)
  else
    let ops := ops.dropWhile (·.opcode == .nop)
    if T = 0 then some (c.stripNop b ops)
    else
      let st ← BlockState.loop usedExt (3 * ops.length + 1) 0
        { ops := ops
          literals := c.literals
          lastCacheSlot := c.lastCacheSlot
          Tsource := fun _ => none
          lastOp := none
          op2To := (c.blocks b).op2To
          extTo := (c.blocks b).extTo }
      let c := { c with literals := st.literals, lastCacheSlot := st.lastCacheSlot }
      let c := c.modify b ({ · with op2To := st.op2To, extTo := st.extTo })
      some (c.stripNop b st.ops)

end ZendCfg

end Rewrite

end ZendOpcache
