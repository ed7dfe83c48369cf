import ZendOpcache.Optimizer.NopRemoval
import ZendOpcache.Optimizer.OptimizeBlock

/-! # Pass 1

Constant expressions, series of `ADD_STRING` and `ADD_CHAR`, casts to a truth value, calls of
functions that are known by name, and silenced reads of a variable. The folding is that of
`replace_tmp_by_const`.
-/

namespace ZendOpcache

/-- `ZEND_OPTIMIZER_PASS_k` in `optimization_level` -/
def hasPass (level k : ℕ) : Bool := level.testBit (k - 1)

/-- An op array with its compiled variables, and the fields that `zend_optimizer` looks at. -/
structure ZendNamedOpArray extends ZendBoundOpArray where
  type : ℕ
  /-- `ZEND_ACC_INTERACTIVE` -/
  interactive : Bool
  vars : List (List UInt8)

/-- Rewrite the op array itself. -/
def ZendNamedOpArray.mapOps (a : ZendNamedOpArray) (f : ZendOpArray → ZendOpArray) :
    ZendNamedOpArray :=
  { a with toZendBoundOpArray := { a.toZendBoundOpArray with toZendOpArray := f a.toZendOpArray } }

namespace ZendOpcode

/-- `ADD_STRING` and `ADD_CHAR` -/
def addsConst : ZendOpcode → Bool
  | .addString | .addChar => true
  | _ => false

def fetches : ZendOpcode → Bool
  | .fetchR | .fetchW | .fetchRw | .fetchFuncArg | .fetchIs | .fetchUnset => true
  | _ => false

end ZendOpcode

/-- The operand is the given variable of kind `IS_VAR`. -/
def Znode.isVarAt (x : Znode) (var : ℕ) : Bool := x.type == .var && x.num == var

/-- `ZEND_FETCH_LOCAL` under `ZEND_FETCH_TYPE_MASK` -/
def fetchesLocal (extendedValue : ℕ) : Bool := extendedValue / 0x10000000 % 8 == 1

/-- The name `this` -/
def thisName : List UInt8 := [116, 104, 105, 115]

namespace ZendOpArray

variable (a : ZendOpArray)

/-- The value of a literal. -/
def literal (x : Znode) : Zval := ((a.literals[x.num]?).map (·.constant)).getD .null

def setLiteral (x : Znode) (val : Zval) : ZendOpArray :=
  { a with literals := a.literals.modify x.num fun l => { l with constant := val } }

/-- What an `ADD_STRING` or an `ADD_CHAR` adds. -/
def addedBytes (o : ZendOp) : List UInt8 :=
  match o.opcode, a.literal o.op2 with
  | .addChar, .long n => [n.toBitVec.toNat.toUInt8]
  | .addChar, _ => [0]
  | _, .string s => s
  | _, _ => []

/-- The oplines after opline `i` that add to the same temporary. -/
def additions (i : ℕ) (o : ZendOp) : List ZendOp :=
  (a.opcodes.drop (i + 1)).takeWhile fun next =>
    next.opcode.addsConst && next.result.num == o.result.num

/-- An opline of a series whose constant has been copied. -/
def removeAddition (j : ℕ) : ZendOpArray :=
  match a.opcodes[j]? with
  | none => a
  | some o => (if o.opcode = .addString then a.literalDtor o.op2 else a).modifyOp j .makeNop

/-- `ADD_STRING` and `ADD_CHAR`. No two oplines share a literal, so the constants are read before
the first of them is written. -/
def mergeAdditions (level i : ℕ) (o : ZendOp) : ZendOpArray :=
  let next := a.additions i o
  let added := next.flatMap a.addedBytes
  if added = [] then a
  else
    let b := (a.setLiteral o.op2 (.string (a.addedBytes o ++ added))).modifyOp i
      ({ · with opcode := .addString })
    let b := (List.range' (i + 1) next.length).foldl removeAddition b
    -- NOP removal is disabled: a JMP over the NOPs
    if !(hasPass level 5 || hasPass level 10) && decide (2 ≤ next.length) then
      b.modifyOp (i + 1) fun o =>
        { o with opcode := .jmp, op1 := { o.op1 with num := i + 1 + next.length } }
    else b

section Engine

variable [ZendEngine]

/-- `INIT_FCALL_BY_NAME, DO_FCALL_BY_NAME => NOP, DO_FCALL` -/
def callByName (i : ℕ) (o : ZendOp) : ZendOpArray :=
  match a.opcodes[i + 1]? with
  | none => a
  | some next =>
    if o.extendedValue = 0 ∧ o.op1.type = .unused ∧ o.op2.type = .const ∧
        next.opcode = .doFcallByName ∧ next.extendedValue = 0 then
      let b := a.modifyOp (i + 1) ({ · with opcode := .doFcall, op1 := o.op2 })
      { b with
        literals := b.literals.modify o.op2.num fun l =>
          match l.constant with
          | .string s => ⟨.string (zendStrTolower s), zendHashFunc (zendStrTolower s),
              b.lastCacheSlot⟩
          | c => ⟨c, l.hashValue, b.lastCacheSlot⟩
        lastCacheSlot := b.lastCacheSlot + 1 }.modifyOp i .makeNop
    else a

end Engine

/-- The only opline that uses the variable up to the `END_SILENCE`, from opline `j` on. -/
def findUse (var : ℕ) : ℕ → ℕ → ℕ → Option ℕ → Option ℕ
  | 0, _, _, use => use
  | n + 1, j, nesting, use =>
    match a.opcodes[j]? with
    | none => use
    | some o =>
      if o.opcode = .endSilence ∧ nesting = 0 then use
      else
        let nesting :=
          if o.opcode = .beginSilence then nesting + 1
          else if o.opcode = .endSilence then nesting - 1
          else nesting
        if o.op1.isVarAt var || o.op2.isVarAt var then
          -- used more than once
          if use.isSome then none else findUse var n (j + 1) nesting (some j)
        else findUse var n (j + 1) nesting use

/-- The name of the local variable that a fetch after a `BEGIN_SILENCE` reads. -/
def silencedName (i : ℕ) (o : ZendOp) : Option (List UInt8) :=
  if i ≠ 0 ∧ (a.opcodes[i - 1]?).any (·.opcode == .beginSilence) ∧
      fetchesLocal o.extendedValue ∧ o.op1.type = .const ∧ o.op2.type = .unused then
    match a.literal o.op1 with
    | .string s => if s = thisName then none else some s
    | _ => none
  else none

end ZendOpArray

namespace ZendNamedOpArray

variable (a : ZendNamedOpArray)

/-- `zend_optimizer_lookup_cv` -/
def lookupCv (name : List UInt8) : ℕ × ZendNamedOpArray :=
  match a.vars.findIdx? (· == name) with
  | some i => (i, a)
  | none =>
    (a.vars.length,
      { a.mapOps ({ · with lastVar := a.lastVar + 1 }) with vars := a.vars ++ [name] })

/-- Let the only use of a silenced fetch read the compiled variable. -/
def fetchSilenced (i : ℕ) (o : ZendOp) : ZendNamedOpArray :=
  match a.silencedName i o with
  | none => a
  | some name =>
    match a.findUse o.result.num (a.opcodes.length - (i + 1)) (i + 1) 0 none with
    | none => a
    | some use =>
      let (cv, a) := a.lookupCv name
      a.mapOps fun a =>
        (a.modifyOp use fun u =>
          if u.op1.isVarAt o.result.num then { u with op1 := { u.op1 with type := .cv, num := cv } }
          else { u with op2 := { u.op2 with type := .cv, num := cv } }).modifyOp i .makeNop

section

variable [ZendEngine]

/-- One turn of pass 1 -/
def pass1Turn (level : ℕ) (a : ZendNamedOpArray) (i : ℕ) : ZendNamedOpArray :=
  match a.opcodes[i]? with
  | none => a
  | some o =>
    match a.foldedConst o with
    | some val => a.mapOps fun a => a.fold i o val
    | none =>
      if o.opcode = .cast then
        if o.op1.type ≠ .const ∧ o.extendedValue = isBool then
          a.mapOps fun a => a.modifyOp i ({ · with opcode := .bool, extendedValue := 0 })
        else a
      else if o.opcode.addsConst then a.mapOps fun a => a.mergeAdditions level i o
      else if o.opcode = .initFcallByName then a.mapOps fun a => a.callByName i o
      else if o.opcode.fetches then a.fetchSilenced i o
      else a

def pass1 (level : ℕ) : ZendNamedOpArray :=
  (List.range a.opcodes.length).foldl (pass1Turn level) a

end

end ZendNamedOpArray

end ZendOpcache
