import ZendOpcache.Optimizer.CompoundAssign
import ZendOpcache.Optimizer.JmpOptimization

/-! # Pass 3

Compound assignments, jumps that lead to jumps, and increments whose old value nothing reads. The
loops that follow jumps write every step into the op array that they read. A hit list stops all of
them but that of `JMP_SET`, so they run with a bound on their turns.
-/

namespace ZendOpcache

/-- How a loop that follows jumps goes on. -/
inductive JmpTurn (σ : Type) where
  | again (s : σ)
  | done (s : σ)

/-- Follow jumps, without a result where the bound on the turns is reached. -/
def followJumps {σ : Type} (step : σ → JmpTurn σ) : ℕ → σ → Option σ
  | 0, _ => none
  | n + 1, s =>
    match step s with
    | .again s => followJumps step n s
    | .done s => some s

/-- `SAME_VAR` -/
def Znode.sameVar (x y : Znode) : Bool :=
  ((x.type == .var && y.type == .var) || (x.type == .tmpVar && y.type == .tmpVar)) &&
    x.num == y.num

/-- `SAME_OPCODE_EX` -/
def ZendOpcode.sameOpcodeEx (c d : ZendOpcode) : Bool :=
  c == d || (c == .jmpzEx && d == .jmpz) || (c == .jmpnzEx && d == .jmpnz)

/-- The op array while jumps are followed, with `jmp_hitlist` and the variable `T` that holds the
result of a `JMPZ_EX`. -/
structure JmpState where
  array : ZendOpArray
  hitlist : List ℕ
  T : Znode

namespace JmpState

variable (s : JmpState) (i : ℕ)

/-- `CHECK_JMP` and `CHECK_JMP2` of a recorded opline number, and what is done if it is new -/
def check (hit : ℕ) (f : ZendOp → ZendOp) : JmpTurn JmpState :=
  if hit ∈ s.hitlist then .done s
  else .again { s with array := s.array.modifyOp i f, hitlist := s.hitlist ++ [hit] }

def finish (f : ZendOp → ZendOp) : JmpTurn JmpState :=
  .done { s with array := s.array.modifyOp i f }

end JmpState

/-- The new targets of an opline -/
def ZendOp.setTarget1 (n : ℕ) (o : ZendOp) : ZendOp := { o with op1 := { o.op1 with num := n } }
def ZendOp.setTarget2 (n : ℕ) (o : ZendOp) : ZendOp := { o with op2 := { o.op2 with num := n } }
def ZendOp.setExtended (n : ℕ) (o : ZendOp) : ZendOp := { o with extendedValue := n }

section Steps

variable (i : ℕ) (s : JmpState)

/-- The opline at `i` and the one that it leads to -/
def JmpState.withTarget (number : ZendOp → ℕ) (f : ZendOp → ℕ → ZendOp → JmpTurn JmpState) :
    JmpTurn JmpState :=
  match s.array.opcodes[i]? with
  | none => .done s
  | some o =>
    match s.array.opcodes[number o]? with
    | none => .done s
    | some target => f o (number o) target

/-- A loop over plain `JMP`s, which sets the opline number that it follows. -/
def followJmp (number : ZendOp → ℕ) (set : ℕ → ZendOp → ZendOp) : JmpTurn JmpState :=
  s.withTarget i number fun _ _ target =>
    if target.opcode = .jmp then s.check i target.op1.num (set target.op1.num) else .done s

/-- `JMP_SET`, without the hit list -/
def followJmpSet : JmpTurn JmpState :=
  s.withTarget i (·.op2.num) fun _ _ target =>
    if target.opcode = .jmp then
      .again { s with array := s.array.modifyOp i (.setTarget2 target.op1.num) }
    else .done s

/-- `JMPZ` and `JMPNZ` -/
def followJmpz : JmpTurn JmpState :=
  s.withTarget i (·.op2.num) fun o n target =>
    if target.opcode = .jmp then
      -- JMPZ(X,L1), L1: JMP(L2) => JMPZ(X,L2)
      s.check i target.op1.num (.setTarget2 target.op1.num)
    else if target.opcode = o.opcode ∧ o.op1.sameVar target.op1 then
      -- JMPZ(X,L1), L1: JMPZ(X,L2) => JMPZ(X,L2)
      s.check i target.op2.num (.setTarget2 target.op2.num)
    else if target.opcode = o.opcode.withResult ∧ o.op1.sameVar target.op1 then
      -- JMPZ(X,L1), L1: T = JMPZ_EX(X,L2) => T = JMPZ_EX(X,L2)
      s.finish i fun o =>
        { o.setTarget2 target.op2.num with
          opcode := o.opcode.withResult, result := target.result }
    else if target.opcode = o.opcode.invCond ∧ o.op1.sameVar target.op1 then
      -- JMPZ(X,L1), L1: JMPNZ(X,L2) => JMPZ(X,L1+1)
      s.finish i (.setTarget2 (n + 1))
    else if target.opcode = o.opcode.invCondEx ∧ o.op1.sameVar target.op1 then
      -- JMPZ(X,L1), L1: T = JMPNZ_EX(X,L2) => T = JMPZ_EX(X,L1+1)
      s.finish i fun o =>
        { o.setTarget2 (n + 1) with opcode := o.opcode.withResult, result := target.result }
    else .done s

/-- `JMPZ_EX` and `JMPNZ_EX` -/
def followJmpzEx : JmpTurn JmpState :=
  s.withTarget i (·.op2.num) fun o n target =>
    if o.opcode.sameOpcodeEx target.opcode ∧ target.op1.sameVar s.T then
      let s := if target.opcode = o.opcode then { s with T := target.result } else s
      s.check i target.op2.num (.setTarget2 target.op2.num)
    else if target.opcode = .jmpznz ∧ target.op1.sameVar s.T then
      s.check i target.op2.num (.setTarget2
        (if o.opcode = .jmpzEx then target.op2.num else target.extendedValue))
    else if (target.opcode = o.opcode.invExCondEx ∨ target.opcode = o.opcode.invExCond) ∧
        o.op1.sameVar target.op1 then
      -- JMPZ_EX(X,L1), L1: JMPNZ_EX(X,L2) => JMPZ_EX(X,L1+1)
      s.finish i (.setTarget2 (n + 1))
    else .done s

end Steps

namespace ZendOpArray

variable [ExTmpVars] (fuel : ℕ) (a : ZendOpArray) (i : ℕ)

/-- Follow jumps from opline `i`, with an empty hit list. -/
def follow (step : ℕ → JmpState → JmpTurn JmpState) (T : Znode) : Option ZendOpArray :=
  (followJumps (step i) fuel ⟨a, [], T⟩).map (·.array)

/-- The jumps of pass 3, which leave op arrays with a `finally` alone -/
def pass3Jmp (o : ZendOp) : Option ZendOpArray :=
  match o.opcode with
  | .jmp =>
    -- L: JMP L+1 => NOP
    if o.op1.num = i + 1 then some (a.modifyOp i .makeNop)
    else a.follow fuel i (fun i s => followJmp i s (·.op1.num) .setTarget1) .none
  | .jmpSet | .jmpSetVar => a.follow fuel i followJmpSet .none
  | .jmpz | .jmpnz =>
    -- L: JMPZ L+1 => NOP
    if o.op2.num = i + 1 then some (a.modifyOp i .makeNop)
    else a.follow fuel i followJmpz .none
  | .jmpzEx | .jmpnzEx =>
    if o.op2.num = i + 1 then
      -- L: T = JMPZ_EX(T,L+1) => NOP
      if o.op1.rawVar = o.result.rawVar then some (a.modifyOp i .makeNop)
      -- L: T = JMPZ_EX(X,L+1) => T = BOOL(X)
      else some (a.modifyOp i fun o => { o with opcode := .bool, op2 := o.op2.setUnused })
    else a.follow fuel i followJmpzEx o.result
  | .jmpznz => do
    let s ← followJumps (fun s => followJmp i s (·.op2.num) .setTarget2) fuel ⟨a, [], .none⟩
    let s ← followJumps (fun s => followJmp i s (·.extendedValue) .setExtended) fuel s
    some s.array
  | _ => some a

/-- `POST_INC, FREE => PRE_INC` -/
def pass3Increment (o : ZendOp) : ZendOpArray :=
  match a.opcodes[i + 1]? with
  | none => a
  | some next =>
    if next.opcode = .free ∧ next.op1.rawVar = o.result.rawVar then
      (a.modifyOp (i + 1) .makeNop).modifyOp i fun o =>
        { o with
          opcode := if o.opcode = .postInc then .preInc else .preDec
          result := { o.result with type := .var, extUnused := true } }
    else a

/-- One turn of pass 3, with the number of the opline to go on with -/
def pass3Turn : Option (ZendOpArray × ℕ) :=
  match a.opcodes[i]? with
  | none => some (a, i + 1)
  | some o =>
    if o.opcode.assignOp?.isSome then
      let b := a.pass3Assign i
      let merged := (b.opcodes[i]?).any fun o' => o'.opcode != o.opcode
      some (b, if merged then i + 2 else i + 1)
    else if o.opcode = .postInc ∨ o.opcode = .postDec then some (a.pass3Increment i o, i + 1)
    else if a.hasFinallyBlock then some (a, i + 1)
    else (a.pass3Jmp fuel i o).map (·, i + 1)

/-- The turns from opline `i` on -/
def pass3From : ℕ → ZendOpArray → ℕ → Option ZendOpArray
  | 0, a, _ => some a
  | n + 1, a, i => do
    let (a, i) ← a.pass3Turn fuel i
    pass3From n a i

def pass3 : Option ZendOpArray := pass3From fuel a.opcodes.length a 0

end ZendOpArray

end ZendOpcache
