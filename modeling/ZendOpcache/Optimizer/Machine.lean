import Mathlib.Logic.Function.Basic
import ZendOpcache.Optimizer.ReplaceTmp

/-! # Assignments and temporaries at run time

The meaning of arithmetic oplines, of assignments and of compound assignments on
compiled variables and temporaries. Compiled variables may be references to each
other, so a variable is a place in a store; a `VAR` slot may hold such a place. The
successors of an opline say which temporaries are read later.
-/

namespace ZendOpcache

/-- What a temporary holds: a value, or the place of a variable fetched for writing. -/
inductive Slot where
  | value (v : Zval)
  | ref (place : ℕ)
  deriving DecidableEq, Repr

structure Machine where
  /-- the place of each compiled variable -/
  cv : ℕ → ℕ
  store : ℕ → Zval
  slots : ℕ → Slot

/-- `IS_TMP_VAR` and `IS_VAR` operands are slots. -/
def Znode.slot? (x : Znode) : Option ℕ :=
  if x.type = .tmpVar ∨ x.type = .var then some x.num else Option.none

/-- The slot that the result of an opline is stored in. -/
def ZendOp.resultSlot? (o : ZendOp) : Option ℕ :=
  if o.resultUsed then some o.result.num else none

/-- The arithmetic, bitwise and concatenation opcodes with their compound assignments. -/
def ZendOpcode.assignOp? : ZendOpcode → Option ZendOpcode
  | .add => some .assignAdd
  | .sub => some .assignSub
  | .mul => some .assignMul
  | .div => some .assignDiv
  | .mod => some .assignMod
  | .concat => some .assignConcat
  | .sl => some .assignSl
  | .sr => some .assignSr
  | .bwOr => some .assignBwOr
  | .bwAnd => some .assignBwAnd
  | .bwXor => some .assignBwXor
  | _ => none

/-- The operator of a compound assignment. -/
def ZendOpcode.operator? : ZendOpcode → Option ZendOpcode
  | .assignAdd => some .add
  | .assignSub => some .sub
  | .assignMul => some .mul
  | .assignDiv => some .div
  | .assignMod => some .mod
  | .assignConcat => some .concat
  | .assignSl => some .sl
  | .assignSr => some .sr
  | .assignBwOr => some .bwOr
  | .assignBwAnd => some .bwAnd
  | .assignBwXor => some .bwXor
  | _ => none

theorem ZendOpcode.operator?_of_assignOp? {c c' : ZendOpcode} (h : c.assignOp? = some c') :
    c'.operator? = some c ∧ c'.assignOp? = none ∧ c' ≠ .nop ∧ c' ≠ .assign := by
  cases c <;> simp only [assignOp?, reduceCtorEq, Option.some.injEq] at h <;> subst h <;>
    simp [operator?, assignOp?]

namespace Machine

/-- The value of an operand. -/
def read (literals : List ZendLiteral) (s : Machine) (x : Znode) : Zval :=
  match x.type with
  | .const => ((literals[x.num]?).map (·.constant)).getD .null
  | .tmpVar | .var =>
    match s.slots x.num with
    | .value v => v
    | .ref place => s.store place
  | .cv => s.store (s.cv x.num)
  | .unused => .null

/-- The place that an operand is written to. -/
def target (s : Machine) (x : Znode) : Option ℕ :=
  match x.type with
  | .cv => some (s.cv x.num)
  | .var =>
    match s.slots x.num with
    | .ref place => some place
    | .value _ => none
  | _ => none

def setResult (s : Machine) (o : ZendOp) (v : Zval) : Machine :=
  match o.resultSlot? with
  | some n => { s with slots := Function.update s.slots n (.value v) }
  | none => s

def write (s : Machine) (place : ℕ) (v : Zval) : Machine :=
  { s with store := Function.update s.store place v }

variable [ZendEngine]

/-- One opline; it is `none` where the operation fails, or for an opline of another kind. -/
def exec (literals : List ZendLiteral) (s : Machine) (o : ZendOp) : Option Machine :=
  if o.opcode = .nop then some s
  else if o.opcode = .assign then
    (s.target o.op1).map fun place =>
      (s.write place (s.read literals o.op2)).setResult o (s.read literals o.op2)
  else if o.opcode.assignOp?.isSome then
    (binaryOp o.opcode (s.read literals o.op1) (s.read literals o.op2)).map (s.setResult o)
  else
    o.opcode.operator?.bind fun c => (s.target o.op1).bind fun place =>
      (binaryOp c (s.store place) (s.read literals o.op2)).map fun v =>
        (s.write place v).setResult o v

/-- The oplines from `p` on, one after the other. -/
def run (a : ZendOpArray) : ℕ → ℕ → Machine → Option Machine
  | 0, _, s => some s
  | n + 1, p, s => (a.opcodes[p]?).bind fun o => (exec a.literals s o).bind (run a n (p + 1))

end Machine

namespace ZendOp

/-- The oplines that an opline may jump to. -/
def jumpTargets (a : ZendOpArray) (o : ZendOp) : List ℕ :=
  match o.opcode with
  | .jmp | .goto | .fastCall => [o.op1.num]
  | .jmpz | .jmpnz | .jmpzEx | .jmpnzEx | .jmpSet | .jmpSetVar | .new | .feReset | .feFetch =>
    [o.op2.num]
  | .jmpznz => [o.op2.num, o.extendedValue]
  | .catch => [o.extendedValue]
  | .brk | .cont => a.brkContArray.flatMap fun e => [e.brk, e.cont]
  -- back to the opline after the call of the finally block
  | .fastRet => (List.range a.opcodes.length).filter fun q =>
      0 < q && a.opcodes[q - 1]?.any (·.opcode == .fastCall)
  | _ => []

/-- The opline may be followed by the next one. -/
def fallsThrough (o : ZendOp) : Bool :=
  match o.opcode with
  | .jmp | .goto | .jmpznz | .brk | .cont | .ret | .returnByRef | .generatorReturn | .exit
  | .throw | .fastRet => false
  | _ => true

def readsSlot (o : ZendOp) (n : ℕ) : Prop := o.op1.slot? = some n ∨ o.op2.slot? = some n

end ZendOp

/-- Some path from opline `p` on reads the temporary before it is written. -/
inductive ReadLater (a : ZendOpArray) (n : ℕ) : ℕ → Prop where
  | here {p : ℕ} {o : ZendOp} : a.opcodes[p]? = some o → o.readsSlot n → ReadLater a n p
  | next {p : ℕ} {o : ZendOp} : a.opcodes[p]? = some o → o.resultSlot? ≠ some n →
      o.fallsThrough = true → ReadLater a n (p + 1) → ReadLater a n p
  | jump {p q : ℕ} {o : ZendOp} : a.opcodes[p]? = some o → o.resultSlot? ≠ some n →
      q ∈ o.jumpTargets a → ReadLater a n q → ReadLater a n p

end ZendOpcache
