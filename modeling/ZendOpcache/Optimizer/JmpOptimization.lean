import ZendOpcache.Optimizer.OptimizeBlock

/-! # Jump optimization

`zend_jmp_optimization`: constant conditions, jumps to jumps, and conditional jumps that
know the outcome of the next one. `del_source` is a parameter. It gets the edges that
the block keeps and the ones that it gets, which only a guard looks at.
-/

namespace ZendOpcache

/-- `INV_COND`; with the other macros it tells apart the jumps on false. -/
def ZendOpcode.invCond (c : ZendOpcode) : ZendOpcode := if c = .jmpz then .jmpnz else .jmpz

/-- `INV_EX_COND` -/
def ZendOpcode.invExCond (c : ZendOpcode) : ZendOpcode := if c = .jmpzEx then .jmpnz else .jmpz

/-- `INV_COND_EX` -/
def ZendOpcode.invCondEx (c : ZendOpcode) : ZendOpcode := if c = .jmpz then .jmpnzEx else .jmpzEx

/-- `INV_EX_COND_EX` -/
def ZendOpcode.invExCondEx (c : ZendOpcode) : ZendOpcode :=
  if c = .jmpzEx then .jmpnzEx else .jmpzEx

/-- The opcode number plus three -/
def ZendOpcode.withResult (c : ZendOpcode) : ZendOpcode := if c = .jmpz then .jmpzEx else .jmpnzEx

/-- The opcode number minus three -/
def ZendOpcode.withoutResult (c : ZendOpcode) : ZendOpcode := if c = .jmpzEx then .jmpz else .jmpnz

def ZnodeType.isTmpOrCv : ZnodeType → Bool
  | .tmpVar | .cv => true
  | _ => false

/-- The two operands are the same temporary or compiled variable. -/
def Znode.sameTmpOrCv (x y : Znode) : Bool :=
  y.type.isTmpOrCv && x.type == y.type && x.num == y.num

/-- The types of the variables `x` and `result` overlap with that of `y`, as `same_t` has them. -/
def Znode.sameT (x result y : Znode) : Bool :=
  (x.num == y.num && x.type == y.type) ||
    (result.num == y.num && (result.type == y.type || (result.extUnused && y.extUnused)))

/-- `JMPZ` as a `JMPZ_EX` that writes another result. The union is copied and the kind is not. -/
def ZendOp.takeResult (o : ZendOp) (x : Znode) : ZendOp :=
  { o with opcode := o.opcode.withResult, result := { o.result with num := x.num } }

/-- `del_source` of a block from another one, with the edges that the block keeps and gets. -/
abbrev DelSource := ZendCfg → ℕ → ℕ → List (Option ℕ) → List (Option ℕ) → Option ZendCfg

namespace ZendCfg

/-- Rewrite the last opline of a block. -/
def setLast (c : ZendCfg) (b : ℕ) (f : ZendOp → ZendOp) : ZendCfg :=
  c.modify b fun x => { x with oplines := x.oplines.map fun l => l.modify (l.length - 1) f }

/-- The opline at `start_opline`. An empty block has had a jump there that is a `NOP` now. -/
def startOp (c : ZendCfg) (b : ℕ) : Option ZendOp :=
  (c.blocks b).oplines.map (·.headD ⟨.nop, .none, .none, .none, 0⟩)

def setOp1To (c : ZendCfg) (b : ℕ) (e : Option ℕ) : ZendCfg := c.modify b ({ · with op1To := e })
def setOp2To (c : ZendCfg) (b : ℕ) (e : Option ℕ) : ZendCfg := c.modify b ({ · with op2To := e })
def setExtTo (c : ZendCfg) (b : ℕ) (e : Option ℕ) : ZendCfg := c.modify b ({ · with extTo := e })
def setFollowTo (c : ZendCfg) (b : ℕ) (e : Option ℕ) : ZendCfg :=
  c.modify b ({ · with followTo := e })

/-- `ADD_SOURCE` of an edge, which must not be null. -/
def addSourceOf (c : ZendCfg) (b : ℕ) : Option ℕ → Option ZendCfg
  | none => none
  | some t => some (c.addSource b t)

/-- The value of a literal. -/
def literal (c : ZendCfg) (x : Znode) : Zval := ((c.literals[x.num]?).map (·.constant)).getD .null

/-- `literal_dtor` -/
def literalDtor (c : ZendCfg) (x : Znode) : ZendCfg :=
  { c with literals := c.literals.modify x.num fun l => { l with constant := .null } }

/-- Copy an opline with its constant over the last opline of a block. -/
def copyLast (c : ZendCfg) (b : ℕ) (target : ZendOp) : ZendCfg :=
  if target.op1.type = .const then
    let c' := c.setLast b fun _ =>
      { target with op1 := { target.op1 with num := c.literals.length } }
    { c' with literals := c.literals ++ [⟨c.literal target.op1, 0, -1⟩] }
  else c.setLast b fun _ => target

/-- `next_target`: the first opline from a block on that is not a `NOP`, with its block. -/
def skipNops (c : ZendCfg) : ℕ → ℕ → Option (ℕ × ZendOp)
  | 0, _ => none
  | n + 1, b =>
    match (c.blocks b).oplines with
    | none => none
    | some ops =>
      match ops.find? (·.opcode != .nop) with
      | some o => some (b, o)
      | none => (c.blocks b).followTo.bind (c.skipNops n)

section Jumps

variable (del : DelSource)

/-- `del_source` of the block that `op2_to` is, which becomes an edge of block `t`. -/
def moveOp2 (c : ZendCfg) (b t : ℕ) (edge : ZendCodeBlock → Option ℕ) : Option ZendCfg := do
  let x := c.blocks b
  let old ← x.op2To
  let c ← del c b old [x.op1To, x.extTo, x.followTo] [edge (c.blocks t)]
  let c := c.setOp2To b (edge (c.blocks t))
  c.addSourceOf b (c.blocks b).op2To

/-- Take over the edge of block `t` that is not null. -/
def takeEdge (c : ZendCfg) (b t : ℕ) (edge : ZendCodeBlock → Option ℕ)
    (set : ZendCfg → ℕ → Option ℕ → ZendCfg) : ZendCfg :=
  match edge (c.blocks t) with
  | some e => (set c b (some e)).addSource b e
  | none => c

/-- `JMP` -/
def optimizeJmp (c : ZendCfg) (b : ℕ) : Option ZendCfg := do
  let x := c.blocks b
  let t ← x.op1To
  if c.nextAccess b = some t then
    -- JMP(next) -> NOP
    let c := c.modify b fun x =>
      { x with followTo := x.op1To, op1To := none, oplines := x.oplines.map (·.dropLast) }
    some (if (c.blocks b).oplines = some [] then c.deleteCodeBlock b else c)
  else
    let target ← c.startOp t
    if (target.opcode = .jmp ∧ (c.blocks t).op1To ≠ some t ∨ target.opcode = .jmpznz) ∧
        (c.blocks t).isProtected = false then
      -- JMP L, L: JMP L1 -> JMP L1, and the same with JMPZNZ
      let c := c.copyLast b target
      let y := c.blocks t
      let c ← del c b t [x.op2To, x.extTo, x.followTo] [y.op2To, y.extTo, y.op1To]
      let c := c.takeEdge b t (·.op2To) setOp2To
      let c := c.takeEdge b t (·.extTo) setExtTo
      some (match (c.blocks t).op1To with
        | some e => (c.setOp1To b (some e)).addSource b e
        | none => c.setOp1To b none)
    else if target.opcode = .ret ∨ target.opcode = .returnByRef ∨ target.opcode = .fastRet ∨
        target.opcode = .exit then
      -- JMP L, L: RETURN to immediate RETURN
      let c := c.copyLast b target
      let c ← del c b t [x.op2To, x.extTo, x.followTo] []
      some (c.setOp1To b none)
    else some c

/-- A conditional jump that always jumps becomes a `JMP`. -/
def alwaysJumps (c : ZendCfg) (b : ℕ) (last : ZendOp) : Option ZendCfg := do
  let x := c.blocks b
  let c := (c.literalDtor last.op1).setLast b fun o =>
    { o with opcode := .jmp, op1 := o.op2 }
  let c := c.setOp1To b x.op2To
  let f ← x.followTo
  let c ← del c b f [x.op2To, x.extTo] []
  some ((c.setOp2To b none).setFollowTo b none)

/-- A conditional jump that never jumps goes. -/
def neverJumps (c : ZendCfg) (b : ℕ) (f : ZendOp → ZendOp) : Option ZendCfg := do
  let x := c.blocks b
  let c := c.setLast b f
  let t ← x.op2To
  let c ← del c b t [x.op1To, x.extTo, x.followTo] []
  some (c.setOp2To b none)

/-- Where `JMPZ` and `JMPNZ` jump to. The opcode is returned with the graph. -/
def threadJmpz (c : ZendCfg) (b : ℕ) (last : ZendOp) : Option (ZendCfg × ZendOpcode) :=
  match (c.blocks b).op2To with
  | none => some (c, last.opcode)
  | some t => do
    let (t, target) ← c.skipNops c.size t
    let y := c.blocks t
    if target.opcode = last.opcode.invCond ∧ last.op1.sameTmpOrCv target.op1 ∧
        y.followTo.isSome ∧ y.isProtected = false then
      -- JMPZ(X, L), L: JMPNZ(X, L2) -> JMPZ(X, L+1)
      let c ← moveOp2 del c b t (·.followTo)
      some (c, last.opcode)
    else if target.opcode = last.opcode.invCondEx ∧ last.op1.sameTmpOrCv target.op1 ∧
        y.followTo.isSome ∧ y.isProtected = false then
      -- JMPZ(X, L), L: X = JMPNZ_EX(X, L2) -> JMPZ(X, L+1)
      let c := c.setLast b (·.takeResult target.result)
      let c ← moveOp2 del c b t (·.followTo)
      some (c, last.opcode.withResult)
    else if y.op2To.isSome ∧ target.opcode = last.opcode ∧ last.op1.sameTmpOrCv target.op1 ∧
        y.isProtected = false then
      -- JMPZ(X, L), L: JMPZ(X, L2) -> JMPZ(X, L2)
      let c ← moveOp2 del c b t (·.op2To)
      some (c, last.opcode)
    else if y.op1To.isSome ∧ target.opcode = .jmp ∧ y.isProtected = false then
      -- JMPZ(X, L), L: JMP(L2) -> JMPZ(X, L2)
      let c ← moveOp2 del c b t (·.op1To)
      some (c, last.opcode)
    else if y.op2To.isSome ∧ y.extTo.isSome ∧ target.opcode = .jmpznz ∧
        last.op1.sameTmpOrCv target.op1 ∧ y.isProtected = false then
      -- JMPZ(X, L), L: JMPZNZ(X, L2, L3) -> JMPZ(X, L2)
      let c ← moveOp2 del c b t fun y => if last.opcode = .jmpz then y.op2To else y.extTo
      some (c, last.opcode)
    else some (c, last.opcode)

/-- Let a block follow to the next block that has another opline than `NOP`, which is returned with
that opline. -/
def followNops (b : ℕ) : ℕ → ZendCfg → Option (ZendCfg × ℕ × ZendOp)
  | 0, _ => none
  | n + 1, c => do
    let x := c.blocks b
    let f ← x.followTo
    let ops ← (c.blocks f).oplines
    match ops.find? (·.opcode != .nop) with
    | some o => some (c, f, o)
    | none =>
      let c ← del c b f [x.op1To, x.op2To, x.extTo] [(c.blocks f).followTo]
      let c := c.setFollowTo b (c.blocks f).followTo
      let c ← c.addSourceOf b (c.blocks b).followTo
      followNops b n c

/-- `JMPZ(X,L1), JMP(L2) -> JMPZNZ(X,L1,L2)` -/
def followJmpz (c : ZendCfg) (b : ℕ) (opcode : ZendOpcode) : Option ZendCfg :=
  if (c.blocks b).followTo.isSome ∧ (opcode = .jmpz ∨ opcode = .jmpnz) then do
    let (c, f, target) ← followNops del b c.size c
    let x := c.blocks b
    if target.opcode = .jmp ∧ (c.blocks f).op1To.isSome ∧ (c.blocks f).isProtected = false then
      let c ← del c b f [x.op1To, x.op2To] [(c.blocks f).op1To]
      let e := (c.blocks f).op1To
      let c := if opcode = .jmpz then c.setExtTo b e
        else (c.setExtTo b (c.blocks b).op2To).setOp2To b e
      let c ← c.addSourceOf b e
      let c := c.setFollowTo b none
      some (c.setLast b ({ · with opcode := .jmpznz }))
    else some c
  else some c

variable [ZendEngine]

/-- `zend_is_true` -/
def zendIsTrue (val : Zval) : Bool := convertTo isBool val == .bool true

/-- `JMPZ` and `JMPNZ` -/
def optimizeJmpz (c : ZendCfg) (b : ℕ) (last : ZendOp) : Option ZendCfg :=
  if last.op1.type = .const then
    if zendIsTrue (c.literal last.op1) != (last.opcode == .jmpz) then alwaysJumps del c b last
    else neverJumps del (c.literalDtor last.op1) b .makeNop
  else do
    let (c, opcode) ← threadJmpz del c b last
    followJmpz del c b opcode

/-- `JMPZ_EX` and `JMPNZ_EX` -/
def optimizeJmpzEx (T lastVar : ℕ) (c : ZendCfg) (b : ℕ) (last : ZendOp) : Option ZendCfg :=
  if last.op1.type = .const then
    if zendIsTrue (c.literal last.op1) != (last.opcode == .jmpzEx) then some c
    else neverJumps del c b fun o => { o with opcode := .qmAssign, op2 := o.op2.setUnused }
  else
    match (c.blocks b).op2To with
    | none => some c
    | some t =>
      if max T lastVar = 0 then some c
      else do
        let (t, target) ← c.skipNops c.size t
        let y := c.blocks t
        let same : Bool := target.op1.type.isTmpOrCv && last.op1.sameT last.result target.op1
        let sameResult : Bool := last.op1.sameT last.result target.result
        if y.op2To.isSome ∧ target.opcode = last.opcode.withoutResult ∧ same ∧
            y.isProtected = false then
          -- T = JMPZ_EX(X, L1), L1: JMPZ({X|T}, L2) -> T = JMPZ_EX(X, L2)
          moveOp2 del c b t (·.op2To)
        else if y.op2To.isSome ∧ target.opcode = last.opcode.invExCond ∧ same ∧
            y.isProtected = false then
          -- T = JMPZ_EX(X, L1), L1: JMPNZ({X|T1}, L2) -> T = JMPZ_EX(X, L1+1)
          moveOp2 del c b t (·.followTo)
        else if y.op2To.isSome ∧ target.opcode = last.opcode.invExCondEx ∧ same ∧ sameResult ∧
            y.isProtected = false then
          -- T = JMPZ_EX(X, L1), L1: T = JMPNZ_EX(T, L2) -> T = JMPZ_EX(X, L1+1)
          moveOp2 del c b t (·.followTo)
        else if y.op2To.isSome ∧ target.opcode = last.opcode ∧ same ∧ sameResult ∧
            y.isProtected = false then
          -- T = JMPZ_EX(X, L1), L1: T = JMPZ({X|T}, L2) -> T = JMPZ_EX(X, L2)
          moveOp2 del c b t (·.op2To)
        else if y.op1To.isSome ∧ target.opcode = .jmp ∧ y.isProtected = false then
          -- T = JMPZ_EX(X, L), L: JMP(L2) -> T = JMPZ(X, L2)
          moveOp2 del c b t (·.op1To)
        else if y.op2To.isSome ∧ y.extTo.isSome ∧ target.opcode = .jmpznz ∧ same ∧
            y.isProtected = false then
          -- T = JMPZ_EX(X, L), L: JMPZNZ({X|T}, L2, L3) -> T = JMPZ_EX(X, L2)
          moveOp2 del c b t fun y => if last.opcode = .jmpzEx then y.op2To else y.extTo
        else some c

/-- The last opline of a block as a `JMP`. -/
def becomesJmp (c : ZendCfg) (b : ℕ) (target : Option ℕ) : ZendCfg :=
  let c := c.setLast b fun o =>
    { o with opcode := .jmp, op1 := o.op1.setUnused, op2 := o.op2.setUnused }
  ((c.setOp1To b target).setOp2To b none).setExtTo b none

/-- Where `JMPZNZ` jumps to on false. The number of the variable is compared as eight bits. -/
def threadJmpznz (c : ZendCfg) (b : ℕ) (last : ZendOp) : Option ZendCfg :=
  match (c.blocks b).op2To with
  | none => some c
  | some t => do
    let (t, target) ← c.skipNops c.size t
    let y := c.blocks t
    let same := ({ last.op1 with num := last.op1.num % 256 } : Znode).sameTmpOrCv target.op1
    if y.op2To.isSome ∧ (target.opcode = .jmpz ∨ target.opcode = .jmpznz) ∧ same ∧
        y.isProtected = false then
      -- JMPZNZ(X, L1, L2), L1: JMPZ(X, L3) -> JMPZNZ(X, L3, L2)
      moveOp2 del c b t (·.op2To)
    else if target.opcode = .jmpnz ∧ same ∧ y.followTo.isSome ∧ y.isProtected = false then
      -- JMPZNZ(X, L1, L2), L1: X = JMPNZ(X, L3) -> JMPZNZ(X, L1+1, L2)
      moveOp2 del c b t (·.followTo)
    else if y.op1To.isSome ∧ target.opcode = .jmp ∧ y.isProtected = false then
      -- JMPZNZ(X, L1, L2), L1: JMP(L3) -> JMPZNZ(X, L3, L2)
      moveOp2 del c b t (·.op1To)
    else some c

/-- `JMPZNZ` -/
def optimizeJmpznz (c : ZendCfg) (b : ℕ) (last : ZendOp) : Option ZendCfg :=
  let x := c.blocks b
  let next := c.nextAccess b
  if last.op1.type = .const then do
    let (target, todel) := if zendIsTrue (c.literal last.op1) then (x.extTo, x.op2To)
      else (x.op2To, x.extTo)
    let c := (c.literalDtor last.op1).becomesJmp b target
    let t ← todel
    del c b t [target, x.followTo] []
  else if x.op2To = x.extTo then
    -- JMPZNZ(?,L,L) -> JMP(L)
    some (c.becomesJmp b x.op2To)
  else if x.op2To = next then
    -- JMPZNZ(X,L1,L2) L1: -> JMPNZ(X,L2)
    let c := c.setLast b ({ · with opcode := .jmpnz })
    some (((c.setOp2To b x.extTo).setFollowTo b next).setExtTo b none)
  else if x.extTo = next then
    -- JMPZNZ(X,L1,L2) L2: -> JMPZ(X,L1)
    let c := c.setLast b ({ · with opcode := .jmpz })
    some ((c.setFollowTo b next).setExtTo b none)
  else threadJmpznz del c b last

/-- `zend_jmp_optimization` -/
def zendJmpOptimization (T lastVar : ℕ) (c : ZendCfg) (b : ℕ) : Option ZendCfg := do
  let ops ← (c.blocks b).oplines
  match ops.getLast? with
  | none => some c
  | some last =>
    match last.opcode with
    | .jmp => optimizeJmp del c b
    | .jmpz | .jmpnz => optimizeJmpz del c b last
    | .jmpzEx | .jmpnzEx => optimizeJmpzEx del T lastVar c b last
    | .jmpznz => optimizeJmpznz del c b last
    | _ => some c

end Jumps

end ZendCfg

end ZendOpcache
