import ZendOpcache.Optimizer.Pass1
import ZendOpcache.Optimizer.JmpOptimization

/-! # Pass 2

The constants of numeric operators and of `CONCAT` get the type that the operator takes,
conditional jumps on constants become jumps or nothing, and a `BRK` or `CONT` with a constant
level becomes a jump where no loop on the way owns a temporary.
-/

namespace ZendOpcache

/-- The locale's decimal point and the `precision` directive -/
structure NumericSettings where
  decimalPoint : UInt8
  precision : ℤ
  deriving DecidableEq, Repr

/-- The conversions of scalars that pass 2 does, and the one that depends on settings. -/
class ZendConversions extends ZendEngine where
  convertScalarToNumber : Zval → Zval
  /-- `convert_to_string` of a double -/
  doubleToString : NumericSettings → UInt64 → List UInt8

export ZendConversions (convertScalarToNumber doubleToString)

def Zval.isStringValue : Zval → Bool
  | .string _ => true
  | _ => false

def Zval.isLongValue : Zval → Bool
  | .long _ => true
  | _ => false

/-- The value as a C `int` -/
def intOfUint (n : ℕ) : ℤ := (n : ℤ).bmod (2 ^ 32)

/-- How pass 2 converts the constants of an operator, the first operand only of operators that are
no assignment. -/
inductive ConstantKind where
  | number
  | long
  | string
  deriving DecidableEq, Repr

namespace ZendOpcode

def firstKind : ZendOpcode → Option ConstantKind
  | .add | .sub | .mul | .div => some .number
  | .mod | .sl | .sr => some .long
  | .concat => some .string
  | _ => none

def secondKind : ZendOpcode → Option ConstantKind
  | .add | .sub | .mul | .div | .assignAdd | .assignSub | .assignMul | .assignDiv => some .number
  | .mod | .sl | .sr | .assignMod | .assignSl | .assignSr => some .long
  | .concat | .assignConcat => some .string
  | _ => none

end ZendOpcode

section Conversions

variable [ZendConversions]

def ConstantKind.convert (kind : ConstantKind) (val : Zval) : Zval :=
  match kind with
  | .number => if val.isStringValue then convertScalarToNumber val else val
  | .long => if val.isLongValue then val else convertTo isLong val
  | .string => if val.isStringValue then val else convertTo isString val

end Conversions

namespace ZendOpArray

variable (a : ZendOpArray)

/-- The element that a number of levels lead to, the first of them included, unless a loop on the
way owns a temporary. -/
def brkContTarget : ℕ → ℤ → Option ZendBrkContElement
  | levels, offset =>
    if offset < 0 then none
    else
      match a.brkContArray[offset.toNat]?, levels with
      | none, _ => none
      | some e, 0 => some e
      | some e, levels + 1 =>
        if (a.opcodes[e.brk]?).any fun o => o.opcode == .free || o.opcode == .switchFree then none
        else brkContTarget levels e.parent

/-- The level of a `BRK` or a `CONT`, as a C `int` -/
def nestLevels (val : Zval) : ℤ :=
  match val with
  | .long n => n.toInt32.toInt
  | _ => 0

section Conversions

variable [ZendConversions]

/-- Convert the constant of an operand. -/
def convertOperand (kind : Option ConstantKind) (x : Znode) : ZendOpArray :=
  match kind with
  | some kind => if x.type = .const then a.setLiteral x (kind.convert (a.literal x)) else a
  | none => a

/-- The operands of an operator. An operation on a property or an offset keeps the second one. -/
def convertOperands (o : ZendOp) : ZendOpArray :=
  let b := a.convertOperand o.opcode.firstKind o.op1
  if o.extendedValue ≠ 0 then b else b.convertOperand o.opcode.secondKind o.op2

/-- `JMPZ_EX` and `JMPNZ_EX`, where they do not jump -/
def constantJmpEx (i : ℕ) (o : ZendOp) : ZendOpArray :=
  if o.op1.type = .const ∧ ZendCfg.zendIsTrue (a.literal o.op1) = (o.opcode == .jmpzEx) then
    a.modifyOp i fun o => { o with opcode := .qmAssign, op2 := o.op2.setUnused }
  else a

/-- `JMPZ` and `JMPNZ` -/
def constantJmp (i : ℕ) (o : ZendOp) : ZendOpArray :=
  if o.op1.type = .const then
    let jumps := ZendCfg.zendIsTrue (a.literal o.op1) != (o.opcode == .jmpz)
    (a.literalDtor o.op1).modifyOp i fun o =>
      if jumps then { o with opcode := .jmp, op1 := o.op2 } else o.makeNop
  else
    match a.opcodes[i + 1]? with
    | none => a
    | some next =>
      if next.opcode ≠ .jmp then a
      else if o.op2.num = next.op1.num then
        -- JMPZ(X, L1), JMP(L1) => NOP, JMP(L1)
        a.modifyOp i .makeNop
      else if o.opcode = .jmpz then
        -- JMPZ(X, L1), JMP(L2) => JMPZNZ(X, L1, L2)
        a.modifyOp i ({ · with opcode := .jmpznz, extendedValue := next.op1.num })
      else
        -- JMPNZ(X, L1), JMP(L2) => JMPZNZ(X, L2, L1)
        a.modifyOp i fun o =>
          { o with opcode := .jmpznz, op2 := next.op1, extendedValue := o.op2.num }

/-- `JMPZNZ` -/
def constantJmpznz (i : ℕ) (o : ZendOp) : ZendOpArray :=
  if o.op1.type = .const then
    let target := if ZendCfg.zendIsTrue (a.literal o.op1) then o.extendedValue else o.op2.num
    (a.literalDtor o.op1).modifyOp i fun o =>
      { o with opcode := .jmp, op1 := { o.op1 with type := .unused, num := target } }
  else a

/-- `BRK` and `CONT` -/
def staticBrkCont (i : ℕ) (o : ZendOp) : ZendOpArray :=
  if o.op2.type ≠ .const then a
  else
    let level := convertTo isLong (a.literal o.op2)
    let b := a.setLiteral o.op2 level
    match b.brkContTarget (nestLevels level - 1).toNat (intOfUint o.op1.num) with
    | none => b
    | some e =>
      b.modifyOp i fun o =>
        { o.makeNop with
          opcode := .jmp
          op1 := { Znode.none with num := if o.opcode = .brk then e.brk else e.cont } }

/-- One turn of pass 2 -/
def pass2Turn (i : ℕ) : ZendOpArray :=
  match a.opcodes[i]? with
  | none => a
  | some o =>
    match o.opcode with
    | .jmpzEx | .jmpnzEx => a.constantJmpEx i o
    | .jmpz | .jmpnz => a.constantJmp i o
    | .jmpznz => a.constantJmpznz i o
    | .brk | .cont => a.staticBrkCont i o
    | _ => a.convertOperands o

def pass2 : ZendOpArray := (List.range a.opcodes.length).foldl (fun a i => a.pass2Turn i) a

end Conversions

end ZendOpArray

end ZendOpcache
