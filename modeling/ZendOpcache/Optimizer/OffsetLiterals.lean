import ZendOpcache.Optimizer.FoldUses
import ZendOpcache.Optimizer.OptimizeBlock

/-! # Constants as array offsets

The executor looks at a string offset in a temporary and takes a canonical decimal integer as an
integer key. It does not look at a constant one, so `update_op2_const` has to. It does for the
opcodes with an offset of their own, but not for a compound assignment to an array element.
-/

namespace ZendOpcache

/-- The element that an offset stands for -/
inductive ArrayKey where
  | index (n : Int64)
  | name (s : List UInt8)
  deriving DecidableEq, Repr

/-- The decimal digits of an integer, without leading zeros -/
def decimalBytes (n : Int64) : List UInt8 :=
  (if n.toInt < 0 then [45] else []) ++
    (Nat.toDigits 10 n.toInt.natAbs).map fun c => c.toNat.toUInt8

/-- The key of an offset that is a constant -/
def Zval.constantKey : Zval → Option ArrayKey
  | .long n => some (.index n)
  | .string s => some (.name s)
  | _ => none

namespace ZendOp

variable (o : ZendOp)

/-- The second operand is the offset of an array element. -/
def hasOffset : Bool :=
  o.opcode.isDimensionOp || (o.opcode.isAssignOp && o.extendedValue == zendAssignDim)

/-- `$a[s] op= v` with a string that is an integer key -/
def MissesKey (s : List UInt8) : Prop :=
  o.opcode.isAssignOp = true ∧ o.extendedValue = zendAssignDim ∧ ∃ n, s = decimalBytes n

end ZendOp

section Offset

variable [ZendEngine]

/-- The key of an offset in a temporary -/
def runtimeKey (s : List UInt8) : ArrayKey :=
  match zendHandleNumeric s with
  | some n => .index n
  | none => .name s

/-- A literal that stands for the element of a string offset, as an integer if the string is the
decimal form of one -/
def OffsetLiteral (s : List UInt8) (val : Zval) : Prop :=
  val.constantKey = some (runtimeKey s) ∧ ((∃ n, val = .long n) ↔ ∃ n, s = decimalBytes n)

variable {s : List UInt8} {o : ZendOp}
  (hnumeric : ∀ s n, zendHandleNumeric s = some n ↔ s = decimalBytes n)
include hnumeric

theorem offsetLiteral_numeric :
    OffsetLiteral s (((zendHandleNumeric s).map .long).getD (.string s)) := by
  cases hn : zendHandleNumeric s with
  | none =>
    refine ⟨by simp [runtimeKey, hn, Zval.constantKey], ?_⟩
    simp [← hnumeric, hn]
  | some n =>
    refine ⟨by simp [runtimeKey, hn, Zval.constantKey], ?_⟩
    simp [← hnumeric, hn]

theorem offsetLiteral_string_iff :
    OffsetLiteral s (.string s) ↔ ¬∃ n, s = decimalBytes n := by
  simp only [OffsetLiteral, ← hnumeric]
  cases hn : zendHandleNumeric s <;> simp [runtimeKey, hn, Zval.constantKey]

/-- The literal of an offset is right but for a compound assignment that misses the key. -/
theorem op2Literals_offset_iff (prev : Option ZendOp) (hoffset : o.hasOffset = true) (slot : ℤ) :
    ∃ l, (op2Literals prev o (.string s) slot).1 = [l] ∧
      (OffsetLiteral s l.constant ↔ ¬o.MissesKey s) := by
  unfold ZendOp.hasOffset at hoffset
  by_cases hdim : o.opcode.isDimensionOp = true
  · have hplain : o.opcode.isAssignOp = false ∧ o.opcode.pairsOp2 = false ∧
        o.opcode.isMethodCall = false ∧ o.opcode.isPropertyOp = false := by
      unfold ZendOpcode.isDimensionOp at hdim
      split at hdim <;> simp_all [ZendOpcode.isAssignOp, ZendOpcode.pairsOp2,
        ZendOpcode.isMethodCall, ZendOpcode.isPropertyOp]
    obtain ⟨hassign, hpairs, hcall, hprop⟩ := hplain
    refine ⟨_, by simp [op2Literals, hassign, hpairs, hcall, hprop, hdim]; rfl, ?_⟩
    simp only [offsetLiteral_numeric hnumeric, ZendOp.MissesKey, hassign, Bool.false_eq_true,
      false_and, not_false_eq_true]
  · simp only [hdim, Bool.false_or, Bool.and_eq_true, beq_iff_eq] at hoffset
    obtain ⟨hassign, hext⟩ := hoffset
    have hplain : o.opcode.pairsOp2 = false ∧ o.opcode.isMethodCall = false ∧
        o.opcode.isPropertyOp = false ∧ o.opcode ≠ .opData := by
      unfold ZendOpcode.isAssignOp at hassign
      split at hassign <;> simp_all [ZendOpcode.pairsOp2, ZendOpcode.isMethodCall,
        ZendOpcode.isPropertyOp]
    obtain ⟨hpairs, hcall, hprop, hdata⟩ := hplain
    refine ⟨⟨.string s, zendHashFunc s, -1⟩, ?_, ?_⟩
    · simp [op2Literals, hpairs, hcall, hprop, hdim, hdata, hext, zendAssignDim, zendAssignObj]
    · rw [offsetLiteral_string_iff hnumeric]
      simp [ZendOp.MissesKey, hassign, hext]

namespace ZendOpArray

omit hnumeric in
/-- The scan stops at the first reader. -/
theorem replaceFrom_at {a : ZendOpArray} {var i j n : ℕ} {val : Zval} (ho : a.opcodes[j]? = some o)
    (hreads : o.readsTmp var = true) (hfirst : ∀ (m : ℕ) (o' : ZendOp), i ≤ m → m < j →
      a.opcodes[m]? = some o' → o'.readsTmp var = false) (hij : i ≤ j) (hn : j < i + n) :
    a.replaceFrom var val n i = a.replaceAt var val j o := by
  induction n generalizing i with
  | zero => omega
  | succ n ih =>
    by_cases hji : i = j
    · subst hji
      simp only [ZendOp.readsTmp] at hreads
      simp [replaceFrom, ho, hreads]
    · obtain ⟨hj, -⟩ := List.getElem?_eq_some_iff.mp ho
      obtain ⟨o', ho'⟩ : ∃ o', a.opcodes[i]? = some o' := ⟨_, List.getElem?_eq_getElem (by omega)⟩
      have hr := hfirst i o' le_rfl (by omega) ho'
      simp only [ZendOp.readsTmp] at hr
      simpa [replaceFrom, ho', hr] using
        ih (fun m o' hm => hfirst m o' (by omega)) (by omega) (by omega)

/-- Pass 1 puts a string where the opline at `j` reads the temporary as an offset. -/
theorem replaceTmpByConst_offset_iff (a : ZendOpArray) {var i j : ℕ}
    (ho : a.opcodes[j]? = some o) (hoffset : o.hasOffset = true) (hij : i ≤ j)
    (hop1 : o.op1.isTmp var = false) (hop2 : o.op2.isTmp var = true)
    (hfirst : ∀ (m : ℕ) (o' : ZendOp), i ≤ m → m < j → a.opcodes[m]? = some o' →
      o'.readsTmp var = false) :
    ∃ o' val, (a.replaceTmpByConst i var (.string s)).opcodes[j]? = some o' ∧
      (a.replaceTmpByConst i var (.string s)).constant? o'.op2 = some val ∧
      (OffsetLiteral s val ↔ ¬o.MissesKey s) := by
  obtain ⟨hj, -⟩ := List.getElem?_eq_some_iff.mp ho
  have hreads : o.readsTmp var = true := by simp [ZendOp.readsTmp, hop2]
  have heq : a.replaceTmpByConst i var (.string s) = a.updateOp2Const j (.string s) := by
    rw [replaceTmpByConst, replaceFrom_at ho hreads hfirst hij (by omega), replaceAt, hop1]
    rfl
  obtain ⟨l, hl, hiff⟩ := op2Literals_offset_iff (s := s) hnumeric
    (if j = 0 then none else a.opcodes[j - 1]?) hoffset a.lastCacheSlot
  refine ⟨{ o with op2 := ⟨.const, a.literals.length, false⟩ }, l.constant, ?_, ?_, hiff⟩
  · rw [heq]
    simp [updateOp2Const, ho, getElem?_modifyOp]
  · rw [heq]
    simp [updateOp2Const, ho, constant?, hl]

end ZendOpArray

namespace BlockState

omit [ZendEngine] hnumeric in
theorem varUnset_frame (st : BlockState) (x : Znode) : (st.varUnset x).ops = st.ops ∧
    (st.varUnset x).literals = st.literals ∧ (st.varUnset x).lastCacheSlot = st.lastCacheSlot := by
  unfold varUnset
  split_ifs <;> exact ⟨rfl, rfl, rfl⟩

/-- The block pass puts a string where an opline reads the result of a `QM_ASSIGN` as an offset. -/
theorem stripQmAssign2_offset_iff (st : BlockState) {k p : ℕ} {src : ZendOp}
    (ho : st.ops[k]? = some o) (hoffset : o.hasOffset = true)
    (hsrc : st.tmpSource o.op2 = some (p, src)) (hqm : src.opcode = .qmAssign)
    (hconst : src.op1.type = .const) (hs : st.literal src.op1 = .string s) :
    ∃ o', (st.stripQmAssign2 k o).ops[k]? = some o' ∧ o'.op2.type = .const ∧
      (OffsetLiteral s ((st.stripQmAssign2 k o).literal o'.op2) ↔ ¬o.MissesKey s) := by
  obtain ⟨hops, hliterals, hslot⟩ := varUnset_frame st o.op2
  obtain ⟨l, hl, hiff⟩ := op2Literals_offset_iff (s := s) hnumeric
    (if k = 0 then none else st.ops[k - 1]?) hoffset st.lastCacheSlot
  have hrange : src.op1.num < st.literals.length := by
    by_contra hge
    simp [literal, List.getElem?_eq_none (Nat.le_of_not_lt hge)] at hs
  have hp : st.ops[p]? = some src := by
    unfold tmpSource at hsrc
    split_ifs at hsrc
    obtain ⟨q, -, hq⟩ := Option.bind_eq_some_iff.mp hsrc
    obtain ⟨o₁, ho₁, heq⟩ := Option.map_eq_some_iff.mp hq
    obtain ⟨rfl, rfl⟩ := Prod.mk.inj heq
    exact ho₁
  have hpk : p ≠ k := by
    rintro rfl
    obtain rfl := Option.some.inj (ho.symm.trans hp)
    simp [ZendOp.hasOffset, hqm, ZendOpcode.isDimensionOp, ZendOpcode.isAssignOp] at hoffset
  have hstrip : st.stripQmAssign2 k o = ((((st.varUnset o.op2).updateOp2Const k o
      (.string s)).literalDtor src.op1)).makeNop p := by
    unfold stripQmAssign2
    rw [hsrc]
    simp only [hqm, hconst, and_self, if_true, hs]
  refine ⟨{ o with op2 := ⟨.const, st.literals.length, false⟩ }, ?_, rfl, ?_⟩
  · rw [hstrip]
    simp [makeNop, modifyOp, literalDtor, setLiteral, updateOp2Const, addLiterals, hops, hliterals,
      ho, hpk]
  · have hval : (st.stripQmAssign2 k o).literal ⟨.const, st.literals.length, false⟩ =
        l.constant := by
      rw [hstrip]
      simp [makeNop, modifyOp, literalDtor, setLiteral, updateOp2Const, addLiterals, hops,
        hliterals, hslot, literal, hl, Nat.ne_of_lt hrange]
    rw [hval]
    exact hiff

end BlockState

/-- Both passes put the right literal where a string is an offset, but for a compound assignment to
an array element whose offset is an integer key. -/
theorem offset_constants_iff :
    (∀ (a : ZendOpArray) (var i j : ℕ) (o : ZendOp) (s : List UInt8), a.opcodes[j]? = some o →
      o.hasOffset = true → i ≤ j → o.op1.isTmp var = false → o.op2.isTmp var = true →
      (∀ (m : ℕ) (o' : ZendOp), i ≤ m → m < j → a.opcodes[m]? = some o' →
        o'.readsTmp var = false) →
      ∃ o' val, (a.replaceTmpByConst i var (.string s)).opcodes[j]? = some o' ∧
        (a.replaceTmpByConst i var (.string s)).constant? o'.op2 = some val ∧
        (OffsetLiteral s val ↔ ¬o.MissesKey s)) ∧
    (∀ (st : BlockState) (k p : ℕ) (o src : ZendOp) (s : List UInt8), st.ops[k]? = some o →
      o.hasOffset = true → st.tmpSource o.op2 = some (p, src) → src.opcode = .qmAssign →
      src.op1.type = .const → st.literal src.op1 = .string s →
      ∃ o', (st.stripQmAssign2 k o).ops[k]? = some o' ∧ o'.op2.type = .const ∧
        (OffsetLiteral s ((st.stripQmAssign2 k o).literal o'.op2) ↔ ¬o.MissesKey s)) :=
  ⟨fun a _ _ _ _ _ ho hoffset hij hop1 hop2 hfirst =>
    ZendOpArray.replaceTmpByConst_offset_iff hnumeric a ho hoffset hij hop1 hop2 hfirst,
    fun st _ _ _ _ _ ho hoffset hsrc hqm hconst hs =>
      BlockState.stripQmAssign2_offset_iff hnumeric st ho hoffset hsrc hqm hconst hs⟩

end Offset

section Tests

def digitValue (s : List UInt8) : ℕ := Nat.ofDigitChars 10 (s.map fun b => Char.ofNat b.toNat) 0

/-- The integer that a string is the decimal form of -/
def decimalValue? (s : List UInt8) : Option Int64 :=
  let n := Int64.ofInt (if s.head? = some 45 then -(digitValue s.tail : ℤ) else digitValue s)
  if s = decimalBytes n then some n else none

theorem digit_byte {c : Char} (hc : c.isDigit = true) :
    Char.ofNat c.toNat.toUInt8.toNat = c ∧ c.toNat.toUInt8 ≠ 45 := by
  simp only [Char.isDigit, Bool.and_eq_true, decide_eq_true_eq] at hc
  have hlow : 48 ≤ c.toNat := hc.1
  have hhigh : c.toNat ≤ 57 := hc.2
  have hbyte : c.toNat.toUInt8.toNat = c.toNat := by simp; omega
  refine ⟨by rw [hbyte, Char.ofNat_toNat], fun h => ?_⟩
  rw [h] at hbyte
  have : (45 : UInt8).toNat = 45 := rfl
  omega

theorem digitValue_toDigits (m : ℕ) :
    digitValue ((Nat.toDigits 10 m).map fun c => c.toNat.toUInt8) = m := by
  have hback : ((Nat.toDigits 10 m).map fun c => c.toNat.toUInt8).map
      (fun b => Char.ofNat b.toNat) = Nat.toDigits 10 m := by
    rw [List.map_map]
    exact (List.map_congr_left fun c hc =>
      (digit_byte (Nat.isDigit_of_mem_toDigits (by omega) le_rfl hc)).1).trans (List.map_id _)
  rw [digitValue, hback, Nat.ofDigitChars_ten_toDigits]

theorem head?_digits_ne (m : ℕ) :
    ((Nat.toDigits 10 m).map fun c => c.toNat.toUInt8).head? ≠ some 45 := by
  intro h
  rw [List.head?_map] at h
  obtain ⟨c, hc, hbyte⟩ := Option.map_eq_some_iff.mp h
  exact (digit_byte (Nat.isDigit_of_mem_toDigits (by omega) le_rfl
    (List.mem_of_mem_head? hc))).2 hbyte

theorem decimalValue?_eq_some_iff (s : List UInt8) (n : Int64) :
    decimalValue? s = some n ↔ s = decimalBytes n := by
  unfold decimalValue?
  constructor
  · intro h
    dsimp only at h
    generalize Int64.ofInt _ = m at h
    split_ifs at h with hs
    exact Option.some.inj h ▸ hs
  · rintro rfl
    have hvalue : (if (decimalBytes n).head? = some 45 then
        -(digitValue (decimalBytes n).tail : ℤ) else digitValue (decimalBytes n)) = n.toInt := by
      unfold decimalBytes
      by_cases hneg : n.toInt < 0
      · simp only [if_pos hneg, List.singleton_append, List.head?_cons, if_true, List.tail_cons,
          digitValue_toDigits]
        omega
      · simp only [if_neg hneg, List.nil_append, if_neg (head?_digits_ne _), digitValue_toDigits]
        omega
    dsimp only
    rw [hvalue, Int64.ofInt_toInt, if_pos rfl]

/-- An engine with integer keys -/
@[reducible] def keyEngine : ZendEngine where
  zendHashFunc _ := 0
  zendHandleNumeric := decimalValue?
  binaryOp _ _ _ := none
  unaryOp _ _ := none
  convertTo _ v := v
  persistentConstant _ := none

local instance : ZendEngine := keyEngine

/-- `$a[T] += 1;` where `T` is the string `1` -/
def addToElement : ZendOpArray where
  opcodes := [⟨.assignAdd, ⟨.cv, 0, false⟩, ⟨.tmpVar, 0, false⟩, ⟨.unused, 0, false⟩,
      zendAssignDim⟩,
    ⟨.opData, ⟨.const, 0, false⟩, ⟨.var, 1, false⟩, .none, 0⟩,
    ⟨.ret, ⟨.const, 1, false⟩, .none, .none, 0⟩]
  literals := [⟨.long 1, 0, -1⟩, ⟨.null, 0, -1⟩]
  brkContArray := []
  tryCatchArray := []
  hasFinallyBlock := false
  T := 2
  lastVar := 1
  lastCacheSlot := 0

/-- `echo $a[T];` where `T` is a copy of the string `1` -/
def echoElement : BlockState where
  ops := [⟨.qmAssign, ⟨.const, 0, false⟩, .none, ⟨.tmpVar, 0, false⟩, 0⟩,
    ⟨.fetchDimR, ⟨.cv, 0, false⟩, ⟨.tmpVar, 0, false⟩, ⟨.var, 1, false⟩, 0⟩,
    ⟨.echo, ⟨.var, 1, false⟩, .none, .none, 0⟩]
  literals := [⟨.string [49], 0, -1⟩]
  lastCacheSlot := 0
  Tsource := Function.update (fun _ => none) 0 (some 0)
  lastOp := none
  op2To := none
  extTo := none

/-- Pass 1 puts the wrong literal into the compound assignment, and the block pass the right one
into the read. -/
theorem offset_constants_iff_keyEngine :
    (∃ o val, (addToElement.replaceTmpByConst 0 0 (.string [49])).opcodes[0]? = some o ∧
      (addToElement.replaceTmpByConst 0 0 (.string [49])).constant? o.op2 = some val ∧
      ¬OffsetLiteral [49] val) ∧
    ∃ o, (echoElement.stripQmAssign2 1 ⟨.fetchDimR, ⟨.cv, 0, false⟩, ⟨.tmpVar, 0, false⟩,
        ⟨.var, 1, false⟩, 0⟩).ops[1]? = some o ∧ o.op2.type = .const ∧
      OffsetLiteral [49] ((echoElement.stripQmAssign2 1 ⟨.fetchDimR, ⟨.cv, 0, false⟩,
        ⟨.tmpVar, 0, false⟩, ⟨.var, 1, false⟩, 0⟩).literal o.op2) := by
  obtain ⟨hpass1, hblock⟩ := offset_constants_iff decimalValue?_eq_some_iff
  constructor
  · obtain ⟨o, val, ho, hval, hiff⟩ := hpass1 addToElement 0 0 0 _ [49] rfl rfl le_rfl rfl rfl
      (fun m _ _ hm => absurd hm (Nat.not_lt_zero m))
    exact ⟨o, val, ho, hval, fun h => hiff.mp h ⟨rfl, rfl, 1, by decide⟩⟩
  · obtain ⟨o, ho, hconst, hiff⟩ := hblock echoElement 1 0 _ _ [49] rfl rfl rfl rfl rfl rfl
    exact ⟨o, ho, hconst, hiff.mpr fun h => absurd h.1 (by decide)⟩

/-- The offset stays the string, which names another element than the integer that the executor
takes at run time. -/
theorem replaceTmpByConst_addToElement :
    decimalBytes 1 = [49] ∧ runtimeKey [49] = .index 1 ∧
    (addToElement.replaceTmpByConst 0 0 (.string [49])).literals.map (·.constant) =
      [.long 1, .null, .string [49]] ∧
    ((addToElement.replaceTmpByConst 0 0 (.string [49])).opcodes[0]?).map (·.op2) =
      some ⟨.const, 2, false⟩ ∧
    (Zval.string [49]).constantKey = some (.name [49]) := by
  decide

end Tests

end ZendOpcache
