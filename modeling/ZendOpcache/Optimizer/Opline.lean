import Mathlib.Algebra.Ring.Nat
import Mathlib.Data.List.Basic
import Mathlib.Data.Int.Basic
import Mathlib.Tactic.Common

/-! # Oplines and op arrays

The code that the optimizer passes read and rewrite, with the operands of PHP 5.4
and later: an operand is a kind and a number, which is an index of a literal, of a
temporary or of a compiled variable, or the number of an opline.
-/

namespace ZendOpcache

inductive ZendOpcode where
  | nop | add | sub | mul | div | mod | sl | sr | concat | bwOr | bwAnd | bwXor | bwNot | boolNot
  | boolXor | isIdentical | isNotIdentical | isEqual | isNotEqual | isSmaller | isSmallerOrEqual
  | cast | qmAssign | assignAdd | assignSub | assignMul | assignDiv | assignMod | assignSl
  | assignSr | assignConcat | assignBwOr | assignBwAnd | assignBwXor | preInc | preDec | postInc
  | postDec | assign | assignRef | echo | print | jmp | jmpz | jmpnz | jmpznz | jmpzEx | jmpnzEx
  | case | switchFree | brk | cont | bool | initString | addChar | addString | addVar
  | beginSilence | endSilence | initFcallByName | doFcall | doFcallByName | ret | recv | recvInit
  | sendVal | sendVar | sendRef | new | initNsFcallByName | free | initArray | addArrayElement
  | includeOrEval | unsetVar | unsetDim | unsetObj | feReset | feFetch | exit | fetchR | fetchDimR
  | fetchObjR | fetchW | fetchDimW | fetchObjW | fetchRw | fetchDimRw | fetchObjRw | fetchIs
  | fetchDimIs | fetchObjIs | fetchFuncArg | fetchDimFuncArg | fetchObjFuncArg | fetchUnset
  | fetchDimUnset | fetchObjUnset | fetchDimTmpVar | fetchConstant | goto | extStmt | extFcallBegin
  | extFcallEnd | extNop | ticks | sendVarNoRef | catch | throw | fetchClass | clone | returnByRef
  | initMethodCall | initStaticMethodCall | issetIsemptyVar | issetIsemptyDimObj | preIncObj
  | preDecObj | postIncObj | postDecObj | assignObj | opData | instanceof | declareClass
  | declareInheritedClass | declareFunction | raiseAbstractError | declareConst | addInterface
  | declareInheritedClassDelayed | verifyAbstractClass | assignDim | issetIsemptyPropObj
  | handleException | userOpcode | jmpSet | declareLambdaFunction | addTrait | bindTraits
  | separate | qmAssignVar | jmpSetVar | discardException | yield | generatorReturn | fastCall
  | fastRet | recvVariadic | sendUnpack
  deriving DecidableEq, Repr

/-- `IS_CONST`, `IS_TMP_VAR`, `IS_VAR`, `IS_UNUSED` and `IS_CV`. -/
inductive ZnodeType where
  | const
  | tmpVar
  | var
  | unused
  | cv
  deriving DecidableEq, Repr

/-- An operand. The flag is `EXT_TYPE_UNUSED`, which only results carry. -/
structure Znode where
  type : ZnodeType
  num : ℕ
  extUnused : Bool
  deriving DecidableEq, Repr

/-- `EX_TMP_VAR_NUM`: where the engine keeps the temporary of a number. -/
class ExTmpVars where
  numVar : ℕ → ℤ

export ExTmpVars (numVar)

/-- The member `var` of the operand: temporaries are encoded, other operands are not. -/
def Znode.rawVar [ExTmpVars] (x : Znode) : ℤ :=
  match x.type with
  | .tmpVar | .var => numVar x.num
  | _ => x.num

/-- Temporaries of 32 bytes below the data of a call, as the engine keeps them from PHP 5.5 on. -/
@[reducible] def ExTmpVars.below : ExTmpVars := ⟨fun n => -32 * (n + 1)⟩

/-- The operand of zeros that `MAKE_NOP` leaves. -/
def Znode.none : Znode := ⟨.unused, 0, false⟩

structure ZendOp where
  opcode : ZendOpcode
  op1 : Znode
  op2 : Znode
  result : Znode
  extendedValue : ℕ
  deriving DecidableEq, Repr

namespace ZendOp

/-- `MAKE_NOP` -/
def makeNop (o : ZendOp) : ZendOp :=
  { o with opcode := .nop, op1 := .none, op2 := .none, result := .none }

/-- `RESULT_USED` -/
def resultUsed (o : ZendOp) : Bool :=
  (o.result.type == .var && !o.result.extUnused) || o.result.type == .tmpVar

@[simp] theorem makeNop_opcode (o : ZendOp) : o.makeNop.opcode = .nop := rfl
@[simp] theorem makeNop_op1 (o : ZendOp) : o.makeNop.op1 = .none := rfl
@[simp] theorem makeNop_op2 (o : ZendOp) : o.makeNop.op2 = .none := rfl
@[simp] theorem makeNop_result (o : ZendOp) : o.makeNop.result = .none := rfl

end ZendOp

/-- Values. Arrays, objects and resources stand by their handle, doubles by their bits. -/
inductive Zval where
  | null
  | bool (b : Bool)
  | long (n : Int64)
  | double (bits : UInt64)
  | string (s : List UInt8)
  | constant (name : List UInt8)
  | array (handle : ℕ)
  | object (handle : ℕ)
  | resource (handle : ℕ)
  deriving DecidableEq, Repr

structure ZendLiteral where
  constant : Zval
  hashValue : ℕ
  cacheSlot : ℤ
  deriving DecidableEq, Repr

/-- A loop or a switch. A loop without a loop variable has a negative start. -/
structure ZendBrkContElement where
  start : ℤ
  cont : ℕ
  brk : ℕ
  parent : ℤ
  deriving DecidableEq, Repr

structure ZendTryCatchElement where
  tryOp : ℕ
  catchOp : ℕ
  deriving DecidableEq, Repr

structure ZendOpArray where
  opcodes : List ZendOp
  literals : List ZendLiteral
  brkContArray : List ZendBrkContElement
  tryCatchArray : List ZendTryCatchElement
  hasFinallyBlock : Bool
  /-- the number of temporaries -/
  T : ℕ
  /-- the number of compiled variables -/
  lastVar : ℕ
  lastCacheSlot : ℕ
  deriving Repr

namespace ZendOpArray

/-- Rewrite the opline with the given number. -/
def modifyOp (a : ZendOpArray) (i : ℕ) (f : ZendOp → ZendOp) : ZendOpArray :=
  { a with opcodes := a.opcodes.modify i f }

variable {a : ZendOpArray} {i j : ℕ} {f : ZendOp → ZendOp}

@[simp] theorem modifyOp_literals : (a.modifyOp i f).literals = a.literals := rfl
@[simp] theorem modifyOp_brkContArray : (a.modifyOp i f).brkContArray = a.brkContArray := rfl
@[simp] theorem modifyOp_length : (a.modifyOp i f).opcodes.length = a.opcodes.length :=
  List.length_modify ..

theorem getElem?_modifyOp : (a.modifyOp i f).opcodes[j]? =
    (a.opcodes[j]?).map fun o => if i = j then f o else o := by
  rw [modifyOp, List.getElem?_modify]
  by_cases h : i = j <;> simp [h]

theorem getElem?_modifyOp_ne (h : i ≠ j) : (a.modifyOp i f).opcodes[j]? = a.opcodes[j]? := by
  simp [getElem?_modifyOp, h]

end ZendOpArray

end ZendOpcache
