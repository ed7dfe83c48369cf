import ZendOpcache.Optimizer.Opline

/-! # Replacing a temporary by a constant

`update_op1_const`, `update_op2_const` and `replace_tmp_by_const` of
`zend_optimizer.c`, and the constant folding of pass 1 that calls them. The search
stops at the first reader; only the readers of a switch are replaced together.
-/

namespace ZendOpcache

/-- The functions of the engine that the passes call. -/
class ZendEngine where
  zendHashFunc : List UInt8 → ℕ
  /-- `ZEND_HANDLE_NUMERIC_EX`: the integer key that a string stands for -/
  zendHandleNumeric : List UInt8 → Option Int64
  /-- `get_binary_op`, without a value where the operation fails -/
  binaryOp : ZendOpcode → Zval → Zval → Option Zval
  /-- `get_unary_op` -/
  unaryOp : ZendOpcode → Zval → Option Zval
  /-- the conversion to the type of a cast -/
  convertTo : ℕ → Zval → Zval
  /-- `zend_get_constant` for the halt offset and `zend_get_persistent_constant` -/
  persistentConstant : List UInt8 → Option Zval

export ZendEngine (zendHashFunc zendHandleNumeric binaryOp unaryOp convertTo persistentConstant)

/-- `zend_str_tolower` -/
def zendStrTolower (s : List UInt8) : List UInt8 :=
  s.map fun c => if 65 ≤ c ∧ c ≤ 90 then c + 32 else c

/-- The operand is the given temporary. -/
def Znode.isTmp (x : Znode) (var : ℕ) : Bool := x.type == .tmpVar && x.num == var

/-- Opcodes whose first operand gets a second literal, in lower case. -/
def ZendOpcode.pairsOp1 : ZendOpcode → Bool
  | .initStaticMethodCall | .catch | .fetchConstant => true
  | _ => false

/-- Opcodes whose second operand gets a second literal, in lower case. -/
def ZendOpcode.pairsOp2 : ZendOpcode → Bool
  | .fetchR | .fetchW | .fetchRw | .fetchIs | .fetchUnset | .fetchFuncArg | .fetchClass
  | .initFcallByName | .unsetVar | .issetIsemptyVar | .addInterface | .addTrait => true
  | _ => false

def ZendOpcode.isMethodCall : ZendOpcode → Bool
  | .initMethodCall | .initStaticMethodCall => true
  | _ => false

def ZendOpcode.isPropertyOp : ZendOpcode → Bool
  | .assignObj | .fetchObjR | .fetchObjW | .fetchObjRw | .fetchObjIs | .fetchObjUnset
  | .fetchObjFuncArg | .unsetObj | .preIncObj | .preDecObj | .postIncObj | .postDecObj
  | .issetIsemptyPropObj => true
  | _ => false

/-- The compound assignments. -/
def ZendOpcode.isAssignOp : ZendOpcode → Bool
  | .assignAdd | .assignSub | .assignMul | .assignDiv | .assignMod | .assignSl | .assignSr
  | .assignConcat | .assignBwOr | .assignBwAnd | .assignBwXor => true
  | _ => false

/-- Opcodes whose second operand is an array offset. -/
def ZendOpcode.isDimensionOp : ZendOpcode → Bool
  | .issetIsemptyDimObj | .addArrayElement | .initArray | .assignDim | .unsetDim | .fetchDimR
  | .fetchDimW | .fetchDimRw | .fetchDimIs | .fetchDimFuncArg | .fetchDimUnset
  | .fetchDimTmpVar => true
  | _ => false

/-- The opcode numbers that `extended_value` of a compound assignment holds. -/
def zendAssignObj : ℕ := 136
def zendAssignDim : ℕ := 147

/-- An opline after which `OP_DATA` has its second operand checked for an integer key. -/
def ZendOp.checksData (o : ZendOp) : Bool :=
  o.opcode == .assignDim || (o.extendedValue == zendAssignDim && o.opcode.isAssignOp)

section Update

variable [ZendEngine]

/-- The literals that `update_op1_const` adds, and the number of cache slots. The value is
lower-cased in the buffer that it shares with the first literal. -/
def op1Literals (opcode : ZendOpcode) (val : Zval) (slot : ℤ) : List ZendLiteral × ℕ :=
  match val with
  | .string s =>
    if opcode.pairsOp1 then
      ([⟨.string (zendStrTolower s), zendHashFunc s, slot⟩,
        ⟨.string (zendStrTolower s), zendHashFunc (zendStrTolower s), -1⟩], 1)
    else if opcode = .doFcall then
      ([⟨.string (zendStrTolower s), zendHashFunc (zendStrTolower s), slot⟩], 1)
    else ([⟨val, zendHashFunc s, -1⟩], 0)
  | _ => ([⟨val, 0, -1⟩], 0)

/-- The literals that `update_op2_const` adds; `prev` is the opline before. -/
def op2Literals (prev : Option ZendOp) (o : ZendOp) (val : Zval) (slot : ℤ) :
    List ZendLiteral × ℕ :=
  match val with
  | .string s =>
    if o.opcode.pairsOp2 then
      ([⟨.string (zendStrTolower s), zendHashFunc s, slot⟩,
        ⟨.string (zendStrTolower s), zendHashFunc (zendStrTolower s), -1⟩], 1)
    else if o.opcode.isMethodCall then
      ([⟨.string (zendStrTolower s), zendHashFunc s, slot⟩,
        ⟨.string (zendStrTolower s), zendHashFunc (zendStrTolower s), -1⟩], 2)
    else if o.opcode.isPropertyOp ||
        (o.opcode.isAssignOp && o.extendedValue == zendAssignObj) then
      ([⟨val, zendHashFunc s, slot⟩], 2)
    else if o.opcode.isDimensionOp || (o.opcode == .opData && prev.any (·.checksData)) then
      ([⟨((zendHandleNumeric s).map Zval.long).getD val, zendHashFunc s, -1⟩], 0)
    else ([⟨val, zendHashFunc s, -1⟩], 0)
  | _ => ([⟨val, 0, -1⟩], 0)

namespace ZendOpArray

/-- Add literals, and reserve cache slots for the first of them. -/
def addLiterals (a : ZendOpArray) (x : List ZendLiteral × ℕ) : ZendOpArray :=
  { a with literals := a.literals ++ x.1, lastCacheSlot := a.lastCacheSlot + x.2 }

def updateOp1Const (a : ZendOpArray) (i : ℕ) (val : Zval) : ZendOpArray :=
  match a.opcodes[i]? with
  | none => a
  | some o =>
    if o.opcode = .free then a.modifyOp i .makeNop
    else
      (a.addLiterals (op1Literals o.opcode val a.lastCacheSlot)).modifyOp i fun o =>
        { o with op1 := ⟨.const, a.literals.length, false⟩ }

def updateOp2Const (a : ZendOpArray) (i : ℕ) (val : Zval) : ZendOpArray :=
  match a.opcodes[i]? with
  | none => a
  | some o =>
    let prev := if i = 0 then none else a.opcodes[i - 1]?
    (a.addLiterals (op2Literals prev o val a.lastCacheSlot)).modifyOp i fun o =>
      { o with op2 := ⟨.const, a.literals.length, false⟩ }

/-- The last element of `brk_cont_array` around an opline. -/
def findSwitch (a : ZendOpArray) (i : ℕ) : Option ZendBrkContElement :=
  a.brkContArray.reverse.find? fun e => e.start ≤ i ∧ i < e.brk

/-- One step of the loop over the oplines of a switch. -/
def replaceCase (a : ZendOpArray) (var : ℕ) (val : Zval) (m : ℕ) : ZendOpArray :=
  match a.opcodes[m]? with
  | none => a
  | some o =>
    if o.op1.isTmp var then
      if o.opcode = .case then a.updateOp1Const m val
      else if o.opcode = .free then a.modifyOp m .makeNop
      else a
    else a

def replaceCases (var : ℕ) (val : Zval) : ℕ → ℕ → ZendOpArray → ZendOpArray
  | 0, _, a => a
  | n + 1, m, a => replaceCases var val n (m + 1) (a.replaceCase var val m)

/-- What is done at the first opline that reads the temporary. -/
def replaceAt (a : ZendOpArray) (var : ℕ) (val : Zval) (i : ℕ) (o : ZendOp) : ZendOpArray :=
  if o.op1.isTmp var then
    if o.opcode = .case ∨ o.opcode = .free then
      match a.findSwitch i with
      | none => a.modifyOp i .makeNop
      | some e => replaceCases var val (e.brk + 1 - i) i a
    else a.updateOp1Const i val
  else a.updateOp2Const i val

/-- The scan from opline `i` over the given number of oplines. -/
def replaceFrom (a : ZendOpArray) (var : ℕ) (val : Zval) : ℕ → ℕ → ZendOpArray
  | 0, _ => a
  | n + 1, i =>
    match a.opcodes[i]? with
    | none => a
    | some o =>
      if o.op1.isTmp var || o.op2.isTmp var then a.replaceAt var val i o
      else a.replaceFrom var val n (i + 1)

def replaceTmpByConst (a : ZendOpArray) (i : ℕ) (var : ℕ) (val : Zval) : ZendOpArray :=
  a.replaceFrom var val (a.opcodes.length - i) i

/-- The constant of an operand. -/
def constant? (a : ZendOpArray) (x : Znode) : Option Zval :=
  if x.type = .const then (a.literals[x.num]?).map (·.constant) else none

end ZendOpArray

/-- Binary operations that pass 1 evaluates. -/
def ZendOpcode.isFoldedBinary : ZendOpcode → Bool
  | .add | .sub | .mul | .div | .mod | .sl | .sr | .concat | .isEqual | .isNotEqual | .isSmaller
  | .isSmallerOrEqual | .isIdentical | .isNotIdentical | .bwOr | .bwAnd | .bwXor | .boolXor => true
  | _ => false

/-- `IS_ARRAY`, `IS_OBJECT` and `IS_RESOURCE` -/
def isCompoundType (type : ℕ) : Bool := type == 4 || type == 5 || type == 7

namespace ZendOpArray

/-- The constant that pass 1 folds an opline to. -/
def foldedConst (a : ZendOpArray) (o : ZendOp) : Option Zval :=
  if o.opcode.isFoldedBinary then
    match a.constant? o.op1, a.constant? o.op2 with
    | some x, some y => if o.opcode = .div ∧ y = .long 0 then none else binaryOp o.opcode x y
    | _, _ => none
  else if o.opcode = .bwNot ∨ o.opcode = .boolNot then
    (a.constant? o.op1).bind (unaryOp o.opcode)
  else if o.opcode = .cast then
    if isCompoundType o.extendedValue then none
    else (a.constant? o.op1).map (convertTo o.extendedValue)
  else if o.opcode = .fetchConstant ∧ o.op1.type = .unused then
    match a.constant? o.op2 with
    | some (.string s) => persistentConstant s
    | _ => none
  else none

/-- `literal_dtor` -/
def literalDtor (a : ZendOpArray) (x : Znode) : ZendOpArray :=
  if x.type = .const then
    { a with literals := a.literals.modify x.num fun l => { l with constant := .null } }
  else a

/-- Opline `d` gives up its literals and becomes a `NOP`. -/
def beforeScan (a : ZendOpArray) (d : ℕ) (o : ZendOp) : ZendOpArray :=
  let a := a.literalDtor o.op1
  let a := if o.opcode.isFoldedBinary || o.opcode == .fetchConstant then a.literalDtor o.op2 else a
  a.modifyOp d .makeNop

/-- Fold opline `d` to a constant. -/
def fold (a : ZendOpArray) (d : ℕ) (o : ZendOp) (val : Zval) : ZendOpArray :=
  (a.beforeScan d o).replaceTmpByConst (d + 1) o.result.num val

end ZendOpArray

end Update

end ZendOpcache
