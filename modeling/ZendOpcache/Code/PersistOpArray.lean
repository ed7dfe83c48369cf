import ZendOpcache.Code.MovedArrays
import ZendOpcache.Optimizer.Opline
import ZendOpcache.ScriptSize.Walks

/-! # The code of a function in shared memory

The arrays of an op array, as `zend_persist_op_array_ex` copies them. An opline points to its
literals and to other oplines, so these pointers are moved by as much as the arrays are. A function
that is inherited has the arrays of the other one, which are copied once.
-/

namespace ZendOpcache

namespace Code

open ScriptSize (Sizeof)

/-- An opline in memory. An operand is a word, which may be a pointer. -/
structure MemOp where
  opcode : ZendOpcode
  op1Type : ZnodeType
  op1 : ℤ
  op2Type : ZnodeType
  op2 : ℤ
  result : Znode
  extendedValue : ℕ
  deriving DecidableEq, Repr

/-- An element of an array. A string, and what lies behind an array of a literal, are copied with
the element that leads to them. -/
inductive Cell where
  | opline (o : MemOp)
  | literal (l : ZendLiteral) (refcount : ℕ) (isRef : Bool)
  | argInfo (name className : Option (List UInt8))
  | brkCont (e : ZendBrkContElement)
  | tryCatch (e : ZendTryCatchElement)
  | var (name : List UInt8)
  deriving DecidableEq, Repr

/-- The pointers of a `zend_op_array` to its arrays -/
structure OpArray where
  /-- `ZEND_USER_FUNCTION` -/
  isUser : Bool
  /-- `ZEND_DONE_PASS_TWO` -/
  donePassTwo : Bool
  literals : Option ℤ
  lastLiteral : ℕ
  opcodes : ℤ
  last : ℕ
  argInfo : Option ℤ
  numArgs : ℕ
  brkContArray : Option ℤ
  lastBrkCont : ℕ
  tryCatchArray : Option ℤ
  lastTryCatch : ℕ
  vars : Option ℤ
  lastVar : ℕ
  deriving DecidableEq, Repr

/-- The oplines whose first operand is the address of an opline -/
def jumpsOp1 : ZendOpcode → Bool
  | .jmp | .goto | .fastCall => true
  | _ => false

/-- The oplines whose second operand is the address of an opline -/
def jumpsOp2 : ZendOpcode → Bool
  | .jmpz | .jmpnz | .jmpzEx | .jmpnzEx | .jmpSet | .jmpSetVar => true
  | _ => false

/-- `zend_protect_zval` -/
def zendProtectZval : Cell → Cell
  | .literal l _ _ => .literal l 2 true
  | c => c

def Cell.mapOpline (f : MemOp → MemOp) : Cell → Cell
  | .opline o => .opline (f o)
  | c => c

section Persist

variable (z : Sizeof)

/-- An opline of the copy, with the literals moved by some bytes and the oplines from one address to
another -/
def relocate (donePassTwo : Bool) (literals opcodes newOpcodes : ℤ) (o : MemOp) : MemOp :=
  let o := if o.op1Type = .const then { o with op1 := o.op1 + literals } else o
  let o := if o.op2Type = .const then { o with op2 := o.op2 + literals } else o
  if donePassTwo then
    if jumpsOp1 o.opcode then { o with op1 := newOpcodes + z.op * ((o.op1 - opcodes) / z.op) }
    else if jumpsOp2 o.opcode then
      { o with op2 := newOpcodes + z.op * ((o.op2 - opcodes) / z.op) }
    else o
  else o

/-- `_zend_shared_memdup` -/
def zendSharedMemdup (st : Moving Cell) (source : ℤ) (size : ℕ) (freeSource : Bool) :
    Moving Cell × ℤ :=
  match st.xlat source with
  | some p => (st, p)
  | none =>
    let st' := st.memdup source size
    (if freeSource then st'.efree source size else st', st.next)

/-- An array that is copied with `zend_accel_store`, if it is there -/
def persistArray (size : ℕ) (st : Moving Cell) (p : Option ℤ) (n : ℕ) : Moving Cell × Option ℤ :=
  match p with
  | none => (st, none)
  | some p =>
    let (st, q) := zendSharedMemdup st p (size * n) true
    (st, some q)

/-- The literals, with the new `op_array->literals` and with `orig_literals`. If they were copied
for another function, both are the copy. -/
def persistLiterals (st : Moving Cell) (op : OpArray) : Moving Cell × Option ℤ × Option ℤ :=
  match op.literals with
  | none => (st, none, none)
  | some p =>
    match st.xlat p with
    | some q => (st, some q, some q)
    | none =>
      let (st, q) := zendSharedMemdup st p (z.literal * op.lastLiteral) false
      let st := st.rewriteEach q z.literal zendProtectZval op.lastLiteral
      (st.efree p (z.literal * op.lastLiteral), some q, some p)

/-- The oplines, with `op_array->literals` and `orig_literals` -/
def persistOpcodes (st : Moving Cell) (op : OpArray) (literals origLiterals : Option ℤ) :
    Moving Cell × ℤ :=
  match st.xlat op.opcodes with
  | some q => (st, q)
  | none =>
    let (st, q) := zendSharedMemdup st op.opcodes (z.op * op.last) false
    let moved := literals.getD 0 - origLiterals.getD 0
    let st := st.rewriteEach q z.op
      (Cell.mapOpline (relocate z op.donePassTwo moved op.opcodes q)) op.last
    (st.efree op.opcodes (z.op * op.last), q)

/-- `zend_persist_op_array_ex` -/
def zendPersistOpArrayEx (st : Moving Cell) (op : OpArray) : Moving Cell × OpArray :=
  if op.isUser then
    let (st, literals, origLiterals) := persistLiterals z st op
    let (st, opcodes) := persistOpcodes z st op literals origLiterals
    let (st, argInfo) := persistArray z.argInfo st op.argInfo op.numArgs
    let (st, brkContArray) := persistArray z.brkContElement st op.brkContArray op.lastBrkCont
    let (st, tryCatchArray) := persistArray z.tryCatchElement st op.tryCatchArray op.lastTryCatch
    let (st, vars) := persistArray z.compiledVariable st op.vars op.lastVar
    (st, { op with literals, opcodes, argInfo, brkContArray, tryCatchArray, vars })
  else (st, op)

/-- The functions of a script, its methods and its main op array, one after the other -/
def persistOpArrays : Moving Cell → List OpArray → Moving Cell × List OpArray
  | st, [] => (st, [])
  | st, op :: ops =>
    let (st, op) := zendPersistOpArrayEx z st op
    let (st, ops) := persistOpArrays st ops
    (st, op :: ops)

end Persist

/-! ### What the arrays stand for -/

/-- The code of a function, with numbers of literals and of oplines as operands -/
structure FunctionCode where
  opcodes : List ZendOp
  literals : List ZendLiteral
  argInfo : List (Option (List UInt8) × Option (List UInt8))
  brkContArray : List ZendBrkContElement
  tryCatchArray : List ZendTryCatchElement
  vars : List (List UInt8)

section Represents

variable (z : Sizeof)

/-- The word of an operand, for the addresses of the literals and of the oplines -/
def operandWord (literals opcodes : ℤ) (jumps : Bool) (n : Znode) : ℤ :=
  if n.type = .const then literals + z.literal * n.num
  else if jumps then opcodes + z.op * n.num
  else n.num

def memOp (donePassTwo : Bool) (literals opcodes : ℤ) (o : ZendOp) : MemOp where
  opcode := o.opcode
  op1Type := o.op1.type
  op1 := operandWord z literals opcodes (donePassTwo && jumpsOp1 o.opcode) o.op1
  op2Type := o.op2.type
  op2 := operandWord z literals opcodes (donePassTwo && jumpsOp2 o.opcode) o.op2
  result := o.result
  extendedValue := o.extendedValue

/-- The elements of an array in memory -/
structure HoldsArray {X : Type} (m : ℤ → Option Cell) (size : ℕ) (p : Option ℤ) (n : ℕ)
    (R : X → Cell → Prop) (xs : List X) : Prop where
  length : n = xs.length
  null : p = none → xs = []
  elem : ∀ q, p = some q → ∀ (i : ℕ) (x : X), xs[i]? = some x →
    ∃ c, m (q + size * i) = some c ∧ R x c

/-- The arrays that an op array points to are those of the code. -/
structure Represents (m : ℤ → Option Cell) (op : OpArray) (code : FunctionCode) : Prop where
  opcodes : HoldsArray m z.op (some op.opcodes) op.last
    (fun o c => c = .opline (memOp z op.donePassTwo (op.literals.getD 0) op.opcodes o)) code.opcodes
  literals : HoldsArray m z.literal op.literals op.lastLiteral
    (fun l c => ∃ refcount isRef, c = .literal l refcount isRef) code.literals
  argInfo : HoldsArray m z.argInfo op.argInfo op.numArgs
    (fun a c => c = .argInfo a.1 a.2) code.argInfo
  brkContArray : HoldsArray m z.brkContElement op.brkContArray op.lastBrkCont
    (fun e c => c = .brkCont e) code.brkContArray
  tryCatchArray : HoldsArray m z.tryCatchElement op.tryCatchArray op.lastTryCatch
    (fun e c => c = .tryCatch e) code.tryCatchArray
  vars : HoldsArray m z.compiledVariable op.vars op.lastVar (fun s c => c = .var s) code.vars

/-- The address of an opline is no literal. -/
def FunctionCode.WellFormed (code : FunctionCode) : Prop :=
  ∀ o ∈ code.opcodes, (jumpsOp1 o.opcode = true → o.op1.type ≠ .const) ∧
    (jumpsOp2 o.opcode = true → o.op2.type ≠ .const)

/-- What `relocate` does to an operand -/
def relocateWord (type : ZnodeType) (jumps : Bool) (literals opcodes newOpcodes w : ℤ) : ℤ :=
  if type = .const then w + literals
  else if jumps then newOpcodes + z.op * ((w - opcodes) / z.op)
  else w

theorem relocateWord_operandWord (hz : 0 < z.op) (jumps : Bool)
    (literals opcodes literals' opcodes' : ℤ) (n : Znode) :
    relocateWord z n.type jumps (literals' - literals) opcodes opcodes'
      (operandWord z literals opcodes jumps n) = operandWord z literals' opcodes' jumps n := by
  have hne : (z.op : ℤ) ≠ 0 := by positivity
  unfold relocateWord operandWord
  split_ifs
  · ring
  · rw [add_sub_cancel_left, Int.mul_ediv_cancel_left _ hne]
  · rfl

theorem not_jumpsOp2 {c : ZendOpcode} (h : jumpsOp1 c = true) : jumpsOp2 c = false := by
  cases c <;> first | rfl | cases h

theorem relocate_eq {o : MemOp} (h₁ : jumpsOp1 o.opcode = true → o.op1Type ≠ .const)
    (h₂ : jumpsOp2 o.opcode = true → o.op2Type ≠ .const) (done : Bool)
    (literals opcodes newOpcodes : ℤ) :
    relocate z done literals opcodes newOpcodes o = { o with
      op1 := relocateWord z o.op1Type (done && jumpsOp1 o.opcode) literals opcodes newOpcodes o.op1
      op2 := relocateWord z o.op2Type (done && jumpsOp2 o.opcode) literals opcodes newOpcodes
        o.op2 } := by
  cases done with
  | false => by_cases hc₁ : o.op1Type = .const <;> by_cases hc₂ : o.op2Type = .const <;>
      simp [relocate, relocateWord, hc₁, hc₂]
  | true =>
    cases hj₁ : jumpsOp1 o.opcode with
    | true =>
      have hj₂ := not_jumpsOp2 hj₁
      by_cases hc₂ : o.op2Type = .const <;> simp [relocate, relocateWord, h₁ hj₁, hc₂, hj₁, hj₂]
    | false =>
      cases hj₂ : jumpsOp2 o.opcode with
      | true =>
        by_cases hc₁ : o.op1Type = .const <;> simp [relocate, relocateWord, h₂ hj₂, hc₁, hj₁, hj₂]
      | false => by_cases hc₁ : o.op1Type = .const <;> by_cases hc₂ : o.op2Type = .const <;>
          simp [relocate, relocateWord, hc₁, hc₂, hj₁, hj₂]

variable {z}

/-- The words of a relocated opline are those for the new addresses. -/
theorem relocate_memOp (hz : 0 < z.op) {o : ZendOp}
    (h₁ : jumpsOp1 o.opcode = true → o.op1.type ≠ .const)
    (h₂ : jumpsOp2 o.opcode = true → o.op2.type ≠ .const) (done : Bool)
    (literals opcodes literals' opcodes' : ℤ) :
    relocate z done (literals' - literals) opcodes opcodes' (memOp z done literals opcodes o) =
      memOp z done literals' opcodes' o := by
  rw [relocate_eq z h₁ h₂]
  unfold memOp
  rw [relocateWord_operandWord z hz, relocateWord_operandWord z hz]

end Represents

end Code

end ZendOpcache
