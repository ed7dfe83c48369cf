import Mathlib.Tactic.IntervalCases
import ZendOpcache.Optimizer.Execution
import ZendOpcache.Optimizer.FoldUses
import ZendOpcache.Optimizer.Pass2

/-! # Control flow through pass 2

An executor goes from opline to opline: it tests operands, and at a `BRK` or a `CONT` it walks up
the loops and frees the temporaries that they own. Each turn of pass 2 keeps where it goes from any
opline, for any values that variables take on the way.
-/

namespace ZendOpcache

/-- Where execution is, and which variables are true. -/
structure ExecState where
  opno : ℕ
  truth : ZnodeType × ℕ → Bool

/-- What is up to the data: the way a branch goes, the level of a `BRK` that is no constant, and
which variables are true afterwards. -/
structure ExecInput where
  taken : Bool
  level : ℤ
  truth : ZnodeType × ℕ → Bool

/-- The opline after a test -/
def ZendOp.afterTest (o : ZendOp) (i : ℕ) (v : Bool) : ℕ :=
  match o.opcode with
  | .jmpz | .jmpzEx => if v then i + 1 else o.op2.num
  | .jmpznz => if v then o.extendedValue else o.op2.num
  | _ => if v then o.op2.num else i + 1

/-- The literal that decides where control goes -/
def ZendOp.controlLiteral? (o : ZendOp) : Option ℕ :=
  match o.opcode with
  | .jmpz | .jmpnz | .jmpznz | .jmpzEx | .jmpnzEx =>
    if o.op1.type = .const then some o.op1.num else none
  | .brk | .cont => if o.op2.type = .const then some o.op2.num else none
  | _ => none

def ZendOp.usesLiteral (o : ZendOp) (n : ℕ) : Prop :=
  (o.op1.type = .const ∧ o.op1.num = n) ∨ (o.op2.type = .const ∧ o.op2.num = n)

namespace ZendOpArray

variable (a : ZendOpArray)

/-- No other opline uses a literal that decides where control goes. -/
def ControlOwned : Prop :=
  ∀ (i j : ℕ) (o o' : ZendOp) (n : ℕ), a.opcodes[i]? = some o → a.opcodes[j]? = some o' →
    i ≠ j → o.controlLiteral? = some n → ¬o'.usesLiteral n

/-- The loop of an offset, which is negative outside of all loops -/
def loopAt (offset : ℤ) : Option ZendBrkContElement :=
  if offset < 0 then none else a.brkContArray[offset.toNat]?

/-- The walk of the executor up a number of loops, the first of them not counted: the last one, and
the `brk` oplines of those on the way that free a temporary -/
def unwind : ℕ → ℤ → Option (ZendBrkContElement × List ℕ)
  | 0, offset => (a.loopAt offset).map (·, [])
  | levels + 1, offset => (a.loopAt offset).bind fun e =>
    (unwind levels e.parent).map fun r => (r.1, if a.freesAt e.brk then e.brk :: r.2 else r.2)

/-- Levels below 1 count as 1. -/
def unwindFrom (o : ZendOp) (level : ℤ) : Option (ZendBrkContElement × List ℕ) :=
  a.unwind (level - 1).toNat (intOfUint o.op1.num)

/-- The opline that a `BRK` or a `CONT` of a loop goes on with -/
def leave (o : ZendOp) (e : ZendBrkContElement) : ℕ := if o.opcode = .brk then e.brk else e.cont

/-- The `JMP` that a `BRK` or a `CONT` becomes -/
def leaveJmp (e : ZendBrkContElement) (o : ZendOp) : ZendOp :=
  { o.makeNop with opcode := .jmp, op1 := { Znode.none with num := leave o e } }

section Flow

variable [ZendConversions]

/-- The constant level of a `BRK` or a `CONT`, as a C `int` -/
def constantLevel (o : ZendOp) : ℤ := nestLevels (convertTo isLong (a.literal o.op2))

def isTrue (truth : ZnodeType × ℕ → Bool) (x : Znode) : Bool :=
  if x.type = .const then ZendCfg.zendIsTrue (a.literal x) else truth (x.type, x.num)

/-- A `BRK` or a `CONT` is seen where it frees something or fails. -/
def flowLeave (s : ExecState) (o : ZendOp) : Move ExecState ExecInput ℕ :=
  if o.op2.type = .const then
    match a.unwindFrom o (a.constantLevel o) with
    | some (e, []) => .silent ⟨leave o e, s.truth⟩
    | some (e, _ :: _) => .shows s.opno fun x => some ⟨leave o e, x.truth⟩
    | none => .shows s.opno fun _ => none
  else .shows s.opno fun x => (a.unwindFrom o x.level).map fun r => ⟨leave o r.1, x.truth⟩

/-- One move of the executor. What is seen are the numbers of the oplines that do more than pass
control on. -/
def flow (s : ExecState) : Move ExecState ExecInput ℕ :=
  match a.opcodes[s.opno]? with
  | none => .stuck
  | some o =>
    match o.opcode with
    | .nop => .silent ⟨s.opno + 1, s.truth⟩
    | .jmp => .silent ⟨o.op1.num, s.truth⟩
    | .jmpz | .jmpnz | .jmpznz =>
      .silent ⟨o.afterTest s.opno (a.isTrue s.truth o.op1), s.truth⟩
    | .jmpzEx | .jmpnzEx =>
      .shows s.opno fun x => some ⟨o.afterTest s.opno (a.isTrue s.truth o.op1), x.truth⟩
    | .brk | .cont => a.flowLeave s o
    | _ => .shows s.opno fun x => (o.next s.opno x.taken).map (⟨·, x.truth⟩)

end Flow

variable {a} {b : ZendOpArray} {i j n : ℕ} {o o' next : ZendOp} {x : Znode} {s : ExecState}

theorem unwind_congr (hbrk : b.brkContArray = a.brkContArray)
    (hfrees : ∀ p, b.freesAt p = a.freesAt p) (levels : ℕ) (offset : ℤ) :
    b.unwind levels offset = a.unwind levels offset := by
  induction levels generalizing offset with
  | zero => simp only [unwind, loopAt, hbrk]
  | succ levels ih => simp only [unwind, loopAt, hbrk, hfrees, ih]

theorem brkContTarget_zero (offset : ℤ) : a.brkContTarget 0 offset = a.loopAt offset := by
  unfold brkContTarget loopAt
  split_ifs
  · rfl
  · cases a.brkContArray[offset.toNat]? <;> rfl

theorem brkContTarget_succ (levels : ℕ) (offset : ℤ) : a.brkContTarget (levels + 1) offset =
    (a.loopAt offset).bind fun e =>
      if a.freesAt e.brk then none else a.brkContTarget levels e.parent := by
  rw [brkContTarget.eq_def]
  unfold loopAt
  dsimp only
  split_ifs
  · rfl
  · cases a.brkContArray[offset.toNat]? <;> rfl

/-- The static walk finds the loop that the executor comes to without freeing anything. -/
theorem brkContTarget_eq_some_iff {levels : ℕ} {offset : ℤ} {e : ZendBrkContElement} :
    a.brkContTarget levels offset = some e ↔ a.unwind levels offset = some (e, []) := by
  induction levels generalizing offset with
  | zero => rw [brkContTarget_zero, unwind]; simp
  | succ levels ih =>
    rw [brkContTarget_succ, unwind]
    cases a.loopAt offset with
    | none => simp
    | some e' =>
      simp only [Option.bind_some]
      by_cases hfree : a.freesAt e'.brk = true
      · simp [hfree]
      · rw [if_neg hfree, ih]
        simp only [hfree, Bool.false_eq_true, if_false, Option.map_eq_some_iff, Prod.mk.injEq]
        constructor
        · intro h
          exact ⟨(e, []), h, rfl, rfl⟩
        · rintro ⟨⟨e₁, l⟩, h, rfl, rfl⟩
          exact h

theorem modify_eq {l : List ZendOp} {f : ZendOp → ZendOp} (ho : l[i]? = some o) :
    l.modify i f = l.modify i fun _ => f o := by
  apply List.ext_getElem?
  intro j
  rw [List.getElem?_modify, List.getElem?_modify]
  by_cases hj : i = j
  · subst hj
    simp [ho]
  · simp [hj]

theorem modify_self {l : List ZendOp} (ho : l[i]? = some o) : l.modify i (fun _ => o) = l := by
  apply List.ext_getElem?
  intro j
  rw [List.getElem?_modify]
  by_cases hj : i = j
  · subst hj
    simp [ho]
  · simp [hj]

section Literals

theorem literal_congr (h : b.literals[x.num]? = a.literals[x.num]?) :
    b.literal x = a.literal x := by
  rw [literal, literal, h]

theorem getElem?_literalDtor (h : ¬(x.type = .const ∧ x.num = n)) :
    (a.literalDtor x).literals[n]? = a.literals[n]? := by
  unfold literalDtor
  split_ifs with hconst
  · simp [show x.num ≠ n from fun hn => h ⟨hconst, hn⟩]
  · rfl

theorem getElem?_setLiteral {val : Zval} (h : x.num ≠ n) :
    (a.setLiteral x val).literals[n]? = a.literals[n]? := by
  simp [setLiteral, h]

end Literals

/-- What a turn at the opline `o` of number `i` changes: the opline, which becomes `o'`, and its own
literals -/
structure TurnOf (a b : ZendOpArray) (i : ℕ) (o o' : ZendOp) : Prop where
  opcodes : b.opcodes = a.opcodes.modify i fun _ => o'
  brkContArray : b.brkContArray = a.brkContArray
  literals : ∀ n, ¬o.usesLiteral n → b.literals[n]? = a.literals[n]?
  frees : (o'.opcode == .free || o'.opcode == .switchFree) =
    (o.opcode == .free || o.opcode == .switchFree)
  control : ∀ n, o'.controlLiteral? = some n → o.controlLiteral? = some n
  uses : ∀ n, o'.usesLiteral n → o.usesLiteral n ∨
    ∃ next, a.opcodes[i + 1]? = some next ∧ next.opcode = .jmp ∧ next.usesLiteral n

namespace TurnOf

variable (h : a.TurnOf b i o o') (ho : a.opcodes[i]? = some o)
include h ho

theorem self : b.opcodes[i]? = some o' := by
  rw [h.opcodes, List.getElem?_modify, ho]
  simp

omit ho in
theorem other (hj : j ≠ i) : b.opcodes[j]? = a.opcodes[j]? := by
  rw [h.opcodes, List.getElem?_modify]
  simp [Ne.symm hj]

theorem freesAt (p : ℕ) : b.freesAt p = a.freesAt p := by
  unfold ZendOpArray.freesAt
  by_cases hp : p = i
  · subst hp
    rw [h.self ho, ho, Option.any_some, Option.any_some, h.frees]
  · rw [h.other hp]

/-- The literals that decide where control goes at other oplines are kept. -/
theorem literal (howned : a.ControlOwned) (hj : j ≠ i) (ho₁ : a.opcodes[j]? = some next)
    (hn : next.controlLiteral? = some n) : b.literals[n]? = a.literals[n]? :=
  h.literals n (howned j i next o n ho₁ ho hj hn)

theorem controlOwned (howned : a.ControlOwned) : b.ControlOwned := by
  intro j k p q n hp hq hjk hn huses
  by_cases hji : j = i
  · subst hji
    obtain rfl := Option.some.inj ((h.self ho).symm.trans hp)
    rw [h.other (Ne.symm hjk)] at hq
    exact howned j k o q n ho hq hjk (h.control n hn) huses
  · rw [h.other hji] at hp
    by_cases hki : k = i
    · subst hki
      obtain rfl := Option.some.inj ((h.self ho).symm.trans hq)
      rcases h.uses n huses with huses | ⟨next, hnext, hjmp, huses⟩
      · exact howned j k p o n hp ho hji hn huses
      · by_cases hj : j = k + 1
        · subst hj
          obtain rfl := Option.some.inj (hp.symm.trans hnext)
          simp [ZendOp.controlLiteral?, hjmp] at hn
        · exact howned j (k + 1) p next n hp hnext hj hn huses
    · rw [h.other hki] at hq
      exact howned j k p q n hp hq hjk hn huses

end TurnOf

/-- Where the opline stays, only its own literals may change. -/
theorem turnOf_literals (ho : a.opcodes[i]? = some o) (hopcodes : b.opcodes = a.opcodes)
    (hbrk : b.brkContArray = a.brkContArray)
    (hliterals : ∀ n, ¬o.usesLiteral n → b.literals[n]? = a.literals[n]?) : a.TurnOf b i o o where
  opcodes := by rw [hopcodes, modify_self ho]
  brkContArray := hbrk
  literals := hliterals
  frees := rfl
  control _ hn := hn
  uses _ hn := .inl hn

section Flow

variable [ZendConversions]

theorem isTrue_congr (h : x.type = .const → b.literals[x.num]? = a.literals[x.num]?)
    (truth : ZnodeType × ℕ → Bool) : b.isTrue truth x = a.isTrue truth x := by
  unfold isTrue
  split_ifs with hconst
  · rw [literal_congr (h hconst)]
  · rfl

/-- What decides about the move at an opline -/
theorem flow_congr (ho : b.opcodes[s.opno]? = a.opcodes[s.opno]?)
    (hliterals : ∀ o n, a.opcodes[s.opno]? = some o → o.controlLiteral? = some n →
      b.literals[n]? = a.literals[n]?)
    (hbrk : b.brkContArray = a.brkContArray) (hfrees : ∀ p, b.freesAt p = a.freesAt p) :
    b.flow s = a.flow s := by
  unfold flow
  rw [ho]
  cases hs : a.opcodes[s.opno]? with
  | none => rfl
  | some o =>
    have hcontrol : ∀ n, o.controlLiteral? = some n → b.literals[n]? = a.literals[n]? :=
      fun n => hliterals o n hs
    unfold ZendOp.controlLiteral? at hcontrol
    dsimp only
    split
    case h_3 hop | h_4 hop | h_5 hop | h_6 hop | h_7 hop =>
      simp only [hop] at hcontrol
      rw [isTrue_congr fun hconst => hcontrol _ (by simp [hconst])]
    case h_8 hop | h_9 hop =>
      simp only [hop] at hcontrol
      unfold flowLeave unwindFrom constantLevel
      simp only [unwind_congr hbrk hfrees]
      split_ifs with hconst
      · rw [literal_congr (hcontrol _ (by simp [hconst]))]
      · rfl
    all_goals rfl

/-- A turn keeps where control goes if it keeps where it goes from its own opline. -/
theorem TurnOf.tracks (h : a.TurnOf b i o o') (ho : a.opcodes[i]? = some o)
    (howned : a.ControlOwned) (hself : ∀ truth, Move.Rel (Converge a.flow b.flow Eq)
      (a.flow ⟨i, truth⟩) (b.flow ⟨i, truth⟩)) : Tracks a.flow b.flow Eq := by
  rintro s t rfl
  refine .of_rel ?_
  by_cases hs : s.opno = i
  · subst hs
    exact hself s.truth
  · rw [flow_congr (h.other hs) (fun _ _ ho₁ hn => h.literal ho howned hs ho₁ hn) h.brkContArray
      (h.freesAt ho)]
    exact .refl (fun _ => .of_rel rfl) _

/-- A turn of pass 2 that keeps where control goes -/
def KeepsFlow (a b : ZendOpArray) (i : ℕ) (o : ZendOp) : Prop :=
  ∃ o', a.TurnOf b i o o' ∧ ∀ truth, Move.Rel (Converge a.flow b.flow Eq)
    (a.flow ⟨i, truth⟩) (b.flow ⟨i, truth⟩)

theorem keepsFlow_self (ho : a.opcodes[i]? = some o) : a.KeepsFlow a i o :=
  ⟨o, turnOf_literals ho rfl rfl fun _ _ => rfl, fun _ => .refl (fun _ => .of_rel rfl) _⟩

section Moves

variable {truth : ZnodeType × ℕ → Bool} (ho : a.opcodes[i]? = some o)
include ho

theorem flow_nop (hop : o.opcode = .nop) : a.flow ⟨i, truth⟩ = .silent ⟨i + 1, truth⟩ := by
  simp [flow, ho, hop]

theorem flow_jmp (hop : o.opcode = .jmp) : a.flow ⟨i, truth⟩ = .silent ⟨o.op1.num, truth⟩ := by
  simp [flow, ho, hop]

theorem flow_test (hop : o.opcode = .jmpz ∨ o.opcode = .jmpnz ∨ o.opcode = .jmpznz) :
    a.flow ⟨i, truth⟩ = .silent ⟨o.afterTest i (a.isTrue truth o.op1), truth⟩ := by
  rcases hop with hop | hop | hop <;> simp [flow, ho, hop]

theorem flow_testEx (hop : o.opcode = .jmpzEx ∨ o.opcode = .jmpnzEx) : a.flow ⟨i, truth⟩ =
    .shows i fun x => some ⟨o.afterTest i (a.isTrue truth o.op1), x.truth⟩ := by
  rcases hop with hop | hop <;> simp [flow, ho, hop]

theorem flow_leave (hop : o.opcode = .brk ∨ o.opcode = .cont) :
    a.flow ⟨i, truth⟩ = a.flowLeave ⟨i, truth⟩ o := by
  rcases hop with hop | hop <;> simp [flow, ho, hop]

theorem flow_qmAssign (hop : o.opcode = .qmAssign) :
    a.flow ⟨i, truth⟩ = .shows i fun x => some ⟨i + 1, x.truth⟩ := by
  simp [flow, ho, hop, ZendOp.next]

end Moves

/-- A jump on a constant that does not jump -/
theorem constantJmpEx_keepsFlow (ho : a.opcodes[i]? = some o)
    (hop : o.opcode = .jmpzEx ∨ o.opcode = .jmpnzEx) : a.KeepsFlow (a.constantJmpEx i o) i o := by
  unfold constantJmpEx
  split_ifs with hcond
  · obtain ⟨hconst, htrue⟩ := hcond
    have hturn : a.TurnOf (a.modifyOp i fun o =>
        { o with opcode := .qmAssign, op2 := o.op2.setUnused }) i o
        { o with opcode := .qmAssign, op2 := o.op2.setUnused } :=
      { opcodes := modify_eq ho
        brkContArray := rfl
        literals := fun _ _ => rfl
        frees := by rcases hop with hop | hop <;> rw [hop] <;> rfl
        control := fun n hn => by simp [ZendOp.controlLiteral?] at hn
        uses := fun n hn => by
          rcases hn with hn | hn
          · exact .inl (.inl hn)
          · simp [Znode.setUnused] at hn }
    refine ⟨_, hturn, fun truth => ?_⟩
    have hnext : o.afterTest i (a.isTrue truth o.op1) = i + 1 := by
      rcases hop with hop | hop <;> simp [ZendOp.afterTest, isTrue, hconst, hop, htrue]
    rw [flow_testEx ho hop, hnext, flow_qmAssign (hturn.self ho) rfl]
    exact .shows fun x => .some (.of_rel rfl)
  · exact keepsFlow_self ho

omit [ZendConversions] in
/-- A test of a constant becomes a `JMP` or a `NOP`. -/
theorem turnOf_constant (ho : a.opcodes[i]? = some o) (hconst : o.op1.type = .const)
    (hop : o.opcode = .jmpz ∨ o.opcode = .jmpnz ∨ o.opcode = .jmpznz) {f : ZendOp → ZendOp}
    (hf : (f o).opcode = .nop ∨ (f o).opcode = .jmp)
    (huses : ∀ n, (f o).usesLiteral n → o.usesLiteral n) :
    a.TurnOf ((a.literalDtor o.op1).modifyOp i f) i o (f o) where
  opcodes := by
    rw [modifyOp, literalDtor_opcodes, modify_eq ho]
  brkContArray := by
    unfold literalDtor
    split_ifs
    rfl
  literals n hn := getElem?_literalDtor fun h => hn (.inl h)
  frees := by
    rcases hop with hop | hop | hop <;> rcases hf with hf | hf <;> rw [hop, hf] <;> rfl
  control n hn := by
    rcases hf with hf | hf <;> simp [ZendOp.controlLiteral?, hf] at hn
  uses n hn := .inl (huses n hn)

theorem keepsFlow_constant (ho : a.opcodes[i]? = some o) (hconst : o.op1.type = .const)
    (hop : o.opcode = .jmpz ∨ o.opcode = .jmpnz ∨ o.opcode = .jmpznz) {f : ZendOp → ZendOp}
    (huses : ∀ n, (f o).usesLiteral n → o.usesLiteral n)
    (hf : ((f o).opcode = .nop ∧ o.afterTest i (ZendCfg.zendIsTrue (a.literal o.op1)) = i + 1) ∨
      ((f o).opcode = .jmp ∧
        o.afterTest i (ZendCfg.zendIsTrue (a.literal o.op1)) = (f o).op1.num)) :
    a.KeepsFlow ((a.literalDtor o.op1).modifyOp i f) i o := by
  have hturn := turnOf_constant ho hconst hop (hf.imp And.left And.left) huses
  have htest : ∀ truth, a.isTrue truth o.op1 = ZendCfg.zendIsTrue (a.literal o.op1) :=
    fun truth => if_pos hconst
  refine ⟨_, hturn, fun truth => ?_⟩
  rw [flow_test ho hop, htest]
  rcases hf with ⟨hnop, hnext⟩ | ⟨hjmp, hnext⟩
  · rw [flow_nop (hturn.self ho) hnop, hnext]
    exact .silent (.of_rel rfl)
  · rw [flow_jmp (hturn.self ho) hjmp, hnext]
    exact .silent (.of_rel rfl)

theorem constantJmp_constant (ho : a.opcodes[i]? = some o) (hconst : o.op1.type = .const)
    (hop : o.opcode = .jmpz ∨ o.opcode = .jmpnz) : a.KeepsFlow (a.constantJmp i o) i o := by
  unfold constantJmp
  rw [if_pos hconst]
  refine keepsFlow_constant ho hconst (by rcases hop with hop | hop <;> simp [hop])
    (fun n hn => ?_) ?_
  · split_ifs at hn
    · rcases hn with hn | hn <;> exact .inr hn
    · rcases hn with hn | hn <;> simp [Znode.none] at hn
  · cases htrue : ZendCfg.zendIsTrue (a.literal o.op1) <;> rcases hop with hop | hop <;>
      simp [hop, ZendOp.afterTest]

theorem constantJmpznz_keepsFlow (ho : a.opcodes[i]? = some o) (hop : o.opcode = .jmpznz) :
    a.KeepsFlow (a.constantJmpznz i o) i o := by
  unfold constantJmpznz
  by_cases hconst : o.op1.type = .const
  · rw [if_pos hconst]
    refine keepsFlow_constant ho hconst (.inr (.inr hop)) (fun n hn => ?_) (.inr ⟨rfl, ?_⟩)
    · rcases hn with hn | hn
      · simp at hn
      · exact .inr hn
    · simp [ZendOp.afterTest, hop]
  · rw [if_neg hconst]
    exact keepsFlow_self ho

/-- A test and the `JMP` behind it become a `JMPZNZ` with both destinations. -/
theorem keepsFlow_fused (ho : a.opcodes[i]? = some o) (hconst : o.op1.type ≠ .const)
    (hop : o.opcode = .jmpz ∨ o.opcode = .jmpnz) (hnext : a.opcodes[i + 1]? = some next)
    (hjmp : next.opcode = .jmp) {f : ZendOp → ZendOp} (hf : (f o).opcode = .jmpznz)
    (hop1 : (f o).op1 = o.op1) (hop2 : (f o).op2 = o.op2 ∨ (f o).op2 = next.op1)
    (htargets : ∀ v, (f o).afterTest i v = o.afterTest i v ∨
      (o.afterTest i v = i + 1 ∧ (f o).afterTest i v = next.op1.num)) :
    a.KeepsFlow (a.modifyOp i f) i o := by
  have hturn : a.TurnOf (a.modifyOp i f) i o (f o) :=
    { opcodes := modify_eq ho
      brkContArray := rfl
      literals := fun _ _ => rfl
      frees := by rcases hop with hop | hop <;> rw [hop, hf] <;> rfl
      control := fun n hn => by simp [ZendOp.controlLiteral?, hf, hop1, hconst] at hn
      uses := fun n hn => by
        rcases hn with hn | hn
        · exact .inl (.inl (hop1 ▸ hn))
        · rcases hop2 with hop2 | hop2
          · exact .inl (.inr (hop2 ▸ hn))
          · exact .inr ⟨next, hnext, hjmp, .inl (hop2 ▸ hn)⟩ }
  refine ⟨_, hturn, fun truth => ?_⟩
  have htrue : (a.modifyOp i f).isTrue truth (f o).op1 = a.isTrue truth o.op1 := by
    rw [hop1]
    exact isTrue_congr (fun hc => (hconst hc).elim) truth
  rw [flow_test ho (by rcases hop with hop | hop <;> simp [hop]),
    flow_test (hturn.self ho) (.inr (.inr hf)), htrue]
  refine .silent ?_
  rcases htargets (a.isTrue truth o.op1) with hsame | ⟨hold, hnew⟩
  · rw [hsame]
    exact .of_rel rfl
  · rw [hold, hnew]
    exact ⟨1, 0, _, _, .one (flow_jmp hnext hjmp), .refl _, rfl⟩

/-- A test before a `JMP` keeps both destinations. -/
theorem constantJmp_keepsFlow (ho : a.opcodes[i]? = some o)
    (hop : o.opcode = .jmpz ∨ o.opcode = .jmpnz) : a.KeepsFlow (a.constantJmp i o) i o := by
  by_cases hconst : o.op1.type = .const
  · exact constantJmp_constant ho hconst hop
  unfold constantJmp
  rw [if_neg hconst]
  cases hnext : a.opcodes[i + 1]? with
  | none => exact keepsFlow_self ho
  | some next =>
    dsimp only
    by_cases hjmp : next.opcode = .jmp
    swap
    · rw [if_pos hjmp]
      exact keepsFlow_self ho
    rw [if_neg (not_not_intro hjmp)]
    split_ifs with hsame hjmpz
    · -- both ways lead to the destination of the `JMP`
      have hturn : a.TurnOf (a.modifyOp i ZendOp.makeNop) i o o.makeNop :=
        { opcodes := modify_eq ho
          brkContArray := rfl
          literals := fun _ _ => rfl
          frees := by rcases hop with hop | hop <;> rw [hop] <;> rfl
          control := fun n hn => by simp [ZendOp.controlLiteral?] at hn
          uses := fun n hn => by rcases hn with hn | hn <;> simp [Znode.none] at hn }
      refine ⟨_, hturn, fun truth => ?_⟩
      have hnext' : (a.modifyOp i ZendOp.makeNop).opcodes[i + 1]? = some next :=
        (hturn.other (by omega)).trans hnext
      rw [flow_test ho (by rcases hop with hop | hop <;> simp [hop]),
        flow_nop (hturn.self ho) rfl]
      refine .silent ?_
      have hways : o.afterTest i (a.isTrue truth o.op1) = i + 1 ∨
          o.afterTest i (a.isTrue truth o.op1) = next.op1.num := by
        cases a.isTrue truth o.op1 <;> rcases hop with hop | hop <;>
          simp [ZendOp.afterTest, hop, hsame]
      rcases hways with hway | hway <;> rw [hway]
      · exact .of_rel rfl
      · exact ⟨0, 1, _, _, .refl _, .one (flow_jmp hnext' hjmp), rfl⟩
    · refine keepsFlow_fused ho hconst hop hnext hjmp rfl rfl (.inl rfl) fun v => ?_
      cases v <;> simp [ZendOp.afterTest, hjmpz]
    · have hjmpnz : o.opcode = .jmpnz := hop.resolve_left hjmpz
      refine keepsFlow_fused ho hconst hop hnext hjmp rfl rfl (.inr rfl) fun v => ?_
      cases v <;> simp [ZendOp.afterTest, hjmpnz]

theorem convert_setLiteral
    (hlong : ∀ v : Zval, convertTo isLong (convertTo isLong v) = convertTo isLong v) (x : Znode) :
    convertTo isLong ((a.setLiteral x (convertTo isLong (a.literal x))).literal x) =
      convertTo isLong (a.literal x) := by
  have hset : (a.setLiteral x (convertTo isLong (a.literal x))).literal x =
      ((a.literals[x.num]?).map fun _ => convertTo isLong (a.literal x)).getD .null := by
    simp [literal, setLiteral, Function.comp_def]
  rw [hset]
  cases hx : a.literals[x.num]? with
  | none => simp [literal, hx]
  | some l => exact hlong _

omit [ZendConversions] in
theorem unwind_setLiteral {val : Zval} (levels : ℕ) (offset : ℤ) :
    (a.setLiteral x val).unwind levels offset = a.unwind levels offset :=
  unwind_congr (a := a) (b := a.setLiteral x val) rfl (fun _ => rfl) levels offset

/-- The target of a `BRK` or a `CONT` with a constant level -/
theorem staticTarget_iff {e : ZendBrkContElement} :
    (a.setLiteral o.op2 (convertTo isLong (a.literal o.op2))).brkContTarget
        (nestLevels (convertTo isLong (a.literal o.op2)) - 1).toNat (intOfUint o.op1.num) = some e ↔
      a.unwindFrom o (a.constantLevel o) = some (e, []) := by
  rw [brkContTarget_eq_some_iff, unwind_setLiteral]
  rfl

/-- A `BRK` or a `CONT` goes where the executor's walk ends, if nothing is freed on the way. -/
theorem staticBrkCont_keepsFlow (ho : a.opcodes[i]? = some o)
    (hop : o.opcode = .brk ∨ o.opcode = .cont)
    (hlong : ∀ v : Zval, convertTo isLong (convertTo isLong v) = convertTo isLong v) :
    a.KeepsFlow (a.staticBrkCont i o) i o := by
  unfold staticBrkCont
  by_cases hconst : o.op2.type = .const
  swap
  · rw [if_pos hconst]
    exact keepsFlow_self ho
  rw [if_neg (not_not_intro hconst)]
  have hliterals : ∀ n, ¬o.usesLiteral n →
      (a.setLiteral o.op2 (convertTo isLong (a.literal o.op2))).literals[n]? = a.literals[n]? :=
    fun n hn => getElem?_setLiteral fun h => hn (.inr ⟨hconst, h⟩)
  dsimp only
  split
  case h_1 htarget =>
    have hturn := turnOf_literals (b := a.setLiteral o.op2 (convertTo isLong (a.literal o.op2)))
      ho rfl rfl hliterals
    refine ⟨o, hturn, fun truth => ?_⟩
    have hlevel : (a.setLiteral o.op2 (convertTo isLong (a.literal o.op2))).constantLevel o =
        a.constantLevel o := by
      rw [constantLevel, constantLevel, convert_setLiteral hlong]
    rw [flow_leave ho hop, flow_leave (hturn.self ho) hop]
    unfold flowLeave unwindFrom
    simp only [hlevel, unwind_setLiteral]
    exact .refl (fun _ => .of_rel rfl) _
  case h_2 e htarget =>
    change a.KeepsFlow ((a.setLiteral o.op2 (convertTo isLong (a.literal o.op2))).modifyOp i
      (leaveJmp e)) i o
    have hturn : a.TurnOf ((a.setLiteral o.op2 (convertTo isLong (a.literal o.op2))).modifyOp i
        (leaveJmp e)) i o (leaveJmp e o) :=
      { opcodes := modify_eq ho
        brkContArray := rfl
        literals := hliterals
        frees := by rcases hop with hop | hop <;> rw [hop] <;> rfl
        control := fun n hn => by simp [ZendOp.controlLiteral?, leaveJmp] at hn
        uses := fun n hn => by rcases hn with hn | hn <;> simp [leaveJmp, Znode.none] at hn }
    refine ⟨_, hturn, fun truth => ?_⟩
    have hmove : a.flow ⟨i, truth⟩ = .silent ⟨leave o e, truth⟩ := by
      rw [flow_leave ho hop, flowLeave, if_pos hconst, staticTarget_iff.mp htarget]
    rw [hmove, flow_jmp (hturn.self ho) rfl]
    exact .silent (.of_rel rfl)

theorem convertOperand_opcodes (kind : Option ConstantKind) (x : Znode) :
    (a.convertOperand kind x).opcodes = a.opcodes := by
  unfold convertOperand
  split
  · split_ifs <;> rfl
  · rfl

theorem convertOperand_brkContArray (kind : Option ConstantKind) (x : Znode) :
    (a.convertOperand kind x).brkContArray = a.brkContArray := by
  unfold convertOperand
  split
  · split_ifs <;> rfl
  · rfl

theorem getElem?_convertOperand {kind : Option ConstantKind} (h : ¬(x.type = .const ∧ x.num = n)) :
    (a.convertOperand kind x).literals[n]? = a.literals[n]? := by
  unfold convertOperand
  split
  · split_ifs with hconst
    · exact getElem?_setLiteral fun hn => h ⟨hconst, hn⟩
    · rfl
  · rfl

/-- Conversions of operands do not concern control. -/
theorem convertOperands_turnOf (ho : a.opcodes[i]? = some o) :
    a.TurnOf (a.convertOperands o) i o o := by
  unfold convertOperands
  dsimp only
  split_ifs
  · exact turnOf_literals ho (convertOperand_opcodes _ _) (convertOperand_brkContArray _ _)
      fun n hn => getElem?_convertOperand fun h => hn (.inl h)
  · refine turnOf_literals ho ?_ ?_ fun n hn => ?_
    · rw [convertOperand_opcodes, convertOperand_opcodes]
    · rw [convertOperand_brkContArray, convertOperand_brkContArray]
    · rw [getElem?_convertOperand fun h => hn (.inr h),
        getElem?_convertOperand fun h => hn (.inl h)]

theorem keepsFlow_of_turnOf (ho : a.opcodes[i]? = some o) (h : a.TurnOf b i o o)
    (hcontrol : o.controlLiteral? = none) : a.KeepsFlow b i o := by
  refine ⟨o, h, fun truth => ?_⟩
  have hsame : b.flow ⟨i, truth⟩ = a.flow ⟨i, truth⟩ := by
    refine flow_congr ((h.self ho).trans ho.symm) (fun o' n ho' hn => ?_) h.brkContArray
      (h.freesAt ho)
    obtain rfl := Option.some.inj (ho.symm.trans ho')
    simp [hcontrol] at hn
  rw [hsame]
  exact .refl (fun _ => .of_rel rfl) _

theorem pass2Turn_keepsFlow (ho : a.opcodes[i]? = some o)
    (hlong : ∀ v : Zval, convertTo isLong (convertTo isLong v) = convertTo isLong v) :
    a.KeepsFlow (a.pass2Turn i) i o := by
  unfold pass2Turn
  simp only [ho]
  split
  case h_1 hop => exact constantJmpEx_keepsFlow ho (.inl hop)
  case h_2 hop => exact constantJmpEx_keepsFlow ho (.inr hop)
  case h_3 hop => exact constantJmp_keepsFlow ho (.inl hop)
  case h_4 hop => exact constantJmp_keepsFlow ho (.inr hop)
  case h_5 hop => exact constantJmpznz_keepsFlow ho hop
  case h_6 hop => exact staticBrkCont_keepsFlow ho (.inl hop) hlong
  case h_7 hop => exact staticBrkCont_keepsFlow ho (.inr hop) hlong
  case h_8 =>
    refine keepsFlow_of_turnOf ho (convertOperands_turnOf ho) ?_
    unfold ZendOp.controlLiteral?
    split <;> first | contradiction | rfl

/-! ### The whole pass -/

/-- What holds after the first turns -/
structure Passed (a b : ZendOpArray) (k : ℕ) : Prop where
  owned : b.ControlOwned
  rest : ∀ j, k ≤ j → b.opcodes[j]? = a.opcodes[j]?
  literals : ∀ j o n, k ≤ j → a.opcodes[j]? = some o → o.controlLiteral? = some n →
    b.literals[n]? = a.literals[n]?
  brkContArray : b.brkContArray = a.brkContArray
  frees : ∀ p, b.freesAt p = a.freesAt p
  trace : ∀ s is os, Trace a.flow s is os ↔ Trace b.flow s is os
  leaves : ∀ j o, j < k → a.opcodes[j]? = some o → o.opcode = .brk ∨ o.opcode = .cont →
    o.op2.type = .const → b.opcodes[j]? = some
      (match a.unwindFrom o (a.constantLevel o) with
        | some (e, []) => leaveJmp e o
        | _ => o)

theorem Passed.zero (howned : a.ControlOwned) : a.Passed a 0 where
  owned := howned
  rest _ _ := rfl
  literals _ _ _ _ _ _ := rfl
  brkContArray := rfl
  frees _ := rfl
  trace _ _ _ := Iff.rfl
  leaves _ _ h := absurd h (Nat.not_lt_zero _)

theorem Passed.unwindFrom {k : ℕ} (h : a.Passed b k) (o : ZendOp) (level : ℤ) :
    b.unwindFrom o level = a.unwindFrom o level :=
  unwind_congr h.brkContArray h.frees _ _

/-- What a `BRK` or a `CONT` with a constant level becomes -/
theorem staticBrkCont_opcode (ho : a.opcodes[i]? = some o) (hconst : o.op2.type = .const) :
    (a.staticBrkCont i o).opcodes[i]? = some
      (match a.unwindFrom o (a.constantLevel o) with
        | some (e, []) => leaveJmp e o
        | _ => o) := by
  unfold staticBrkCont
  rw [if_neg (not_not_intro hconst)]
  dsimp only
  split
  case h_1 htarget =>
    have hnone : ∀ e, a.unwindFrom o (a.constantLevel o) ≠ some (e, []) := by
      intro e he
      rw [staticTarget_iff.mpr he] at htarget
      cases htarget
    split
    case h_1 e he => exact (hnone e he).elim
    case h_2 => exact ho
  case h_2 e htarget =>
    rw [staticTarget_iff.mp htarget, getElem?_modifyOp]
    change (a.opcodes[i]?).map _ = _
    rw [ho, Option.map_some, if_pos rfl]
    rfl

theorem Passed.succ {k : ℕ} (h : a.Passed b k)
    (hlong : ∀ v : Zval, convertTo isLong (convertTo isLong v) = convertTo isLong v) :
    a.Passed (b.pass2Turn k) (k + 1) := by
  cases ho : b.opcodes[k]? with
  | none =>
    have hsame : b.pass2Turn k = b := by simp [pass2Turn, ho]
    rw [hsame]
    refine ⟨h.owned, fun j hj => h.rest j (by omega), fun j o n hj => h.literals j o n (by omega),
      h.brkContArray, h.frees, h.trace, fun j o hj ho' hop hconst => ?_⟩
    by_cases hjk : j = k
    · subst hjk
      rw [h.rest j le_rfl, ho'] at ho
      cases ho
    · exact h.leaves j o (by omega) ho' hop hconst
  | some o =>
    have ho₀ : a.opcodes[k]? = some o := (h.rest k le_rfl).symm.trans ho
    obtain ⟨o', hturn, hself⟩ := pass2Turn_keepsFlow ho hlong
    refine ⟨hturn.controlOwned ho h.owned, fun j hj => ?_, fun j o₁ n hj ho₁ hn => ?_,
      hturn.brkContArray.trans h.brkContArray, fun p => (hturn.freesAt ho p).trans (h.frees p),
      fun s is os => ?_, fun j o₁ hj ho₁ hop hconst => ?_⟩
    · rw [hturn.other (by omega), h.rest j (by omega)]
    · have ho₁' : b.opcodes[j]? = some o₁ := (h.rest j (by omega)).trans ho₁
      rw [hturn.literal ho h.owned (by omega) ho₁' hn, h.literals j o₁ n (by omega) ho₁ hn]
    · exact (h.trace s is os).trans ((hturn.tracks ho h.owned hself).trace_iff rfl)
    · by_cases hjk : j = k
      · subst hjk
        obtain rfl := Option.some.inj (ho₀.symm.trans ho₁)
        have hturn' : b.pass2Turn j = b.staticBrkCont j o := by
          rcases hop with hop | hop <;> simp [pass2Turn, ho, hop]
        have hlevel : b.constantLevel o = a.constantLevel o := by
          unfold constantLevel
          refine congrArg (fun v => nestLevels (convertTo isLong v)) (literal_congr ?_)
          refine h.literals j o _ le_rfl ho₁ ?_
          rcases hop with hop | hop <;> simp [ZendOp.controlLiteral?, hop, hconst]
        rw [hturn', staticBrkCont_opcode ho hconst, hlevel, h.unwindFrom]
      · rw [hturn.other hjk]
        exact h.leaves j o₁ (by omega) ho₁ hop hconst

end Flow

section Tests

/-- An engine for constants that are integers -/
@[reducible] def integerEngine : ZendConversions where
  toZendEngine := plainEngine
  convertScalarToNumber v := v
  doubleToString _ _ := []

local instance : ZendConversions := integerEngine

end Tests

end ZendOpArray

end ZendOpcache
