import Mathlib.Order.Basic
import ZendOpcache.Optimizer.Machine

/-! # Compound assignments

Pass 3 turns an operation and the assignment after it into a compound assignment. It
compares the variables of the two oplines and not the temporary between them, so it
is sound exactly when the assignment takes the result of the operation.
-/

namespace ZendOpcache

/-- Operations whose operands pass 3 swaps. -/
def ZendOpcode.isSwapped : ZendOpcode → Bool
  | .add | .mul | .bwOr | .bwAnd | .bwXor => true
  | _ => false

def ZnodeType.isVariable : ZnodeType → Bool
  | .var | .cv => true
  | _ => false

namespace ZendOp

variable (o next : ZendOp)

def sameVariable : Bool :=
  o.op1.type.isVariable && o.op1.num == next.op1.num && o.op1.type == next.op1.type

theorem sameVariable_iff : o.sameVariable next = true ↔
    o.op1.type.isVariable = true ∧ o.op1.num = next.op1.num ∧ o.op1.type = next.op1.type := by
  simp [sameVariable, and_assoc]

/-- The operation as a compound assignment with the result of the assignment. -/
def toCompound : ZendOp :=
  { o with opcode := o.opcode.assignOp?.getD o.opcode, result := next.result }

variable [ExTmpVars]

/-- An addition is swapped only if its first operand is a constant: that of arrays is not
commutative. -/
def swaps : Bool :=
  o.op2.type.isVariable && o.op2.rawVar == next.op1.rawVar && o.opcode.isSwapped &&
    (o.opcode != .add || o.op1.type == .const)

def swapOperands : ZendOp := if o.swaps next then { o with op1 := o.op2, op2 := o.op1 } else o

@[simp] theorem swapOperands_opcode : (o.swapOperands next).opcode = o.opcode := by
  unfold swapOperands; split_ifs <;> rfl

@[simp] theorem swapOperands_result : (o.swapOperands next).result = o.result := by
  unfold swapOperands; split_ifs <;> rfl

@[simp] theorem swapOperands_resultSlot? : (o.swapOperands next).resultSlot? = o.resultSlot? := by
  simp [resultSlot?, resultUsed]

end ZendOp

namespace ZendOpArray

/-- The first opline from `j` on that is not a `NOP`, with its number. -/
def nextFrom (a : ZendOpArray) : ℕ → ℕ → Option (ℕ × ZendOp)
  | 0, _ => none
  | n + 1, j =>
    match a.opcodes[j]? with
    | none => none
    | some o => if o.opcode = .nop then a.nextFrom n (j + 1) else some (j, o)

def nextOpline (a : ZendOpArray) (i : ℕ) : Option (ℕ × ZendOp) :=
  a.nextFrom (a.opcodes.length - i) (i + 1)

/-- The case of pass 3 for an operation at opline `i`. -/
def pass3Assign [ExTmpVars] (a : ZendOpArray) (i : ℕ) : ZendOpArray :=
  match a.opcodes[i]?, a.nextOpline i with
  | some o, some (j, next) =>
    if o.opcode.assignOp?.isSome ∧ next.opcode = .assign then
      if (o.swapOperands next).sameVariable next then
        (a.modifyOp i fun _ => (o.swapOperands next).toCompound next).modifyOp j .makeNop
      else a.modifyOp i fun _ => o.swapOperands next
    else a
  | _, _ => a

variable {a : ZendOpArray} {i j n p : ℕ} {o next : ZendOp}

theorem nextFrom_spec : ∀ {n p : ℕ}, a.nextFrom n p = some (j, next) →
    p ≤ j ∧ a.opcodes[j]? = some next ∧ next.opcode ≠ .nop ∧
      ∀ m, p ≤ m → m < j → ∃ o, a.opcodes[m]? = some o ∧ o.opcode = .nop
  | 0, _, h => by simp [nextFrom] at h
  | n + 1, p, h => by
    unfold nextFrom at h
    cases ho : a.opcodes[p]? with
    | none => simp [ho] at h
    | some o =>
      simp only [ho] at h
      split_ifs at h with hn
      · obtain ⟨hle, hj, hne, hnop⟩ := nextFrom_spec h
        refine ⟨by omega, hj, hne, fun m hm hmj => ?_⟩
        rcases Nat.eq_or_lt_of_le hm with rfl | hm
        · exact ⟨o, ho, hn⟩
        · exact hnop m hm hmj
      · obtain ⟨rfl, rfl⟩ : p = j ∧ o = next := by simpa using h
        exact ⟨le_rfl, ho, hn, fun m hm hmj => by omega⟩

theorem nextOpline_spec (h : a.nextOpline i = some (j, next)) :
    i < j ∧ a.opcodes[j]? = some next ∧ next.opcode ≠ .nop ∧
      ∀ m, i < m → m < j → ∃ o, a.opcodes[m]? = some o ∧ o.opcode = .nop :=
  nextFrom_spec h

/-- Some opline jumps to this one. -/
def Entered (a : ZendOpArray) (e : ℕ) : Prop :=
  ∃ (p : ℕ) (o : ZendOp), a.opcodes[p]? = some o ∧ e ∈ o.jumpTargets a

end ZendOpArray

def Zval.isArray : Zval → Bool
  | .array _ => true
  | _ => false

/-- The operators that pass 3 swaps are commutative, but for the addition of arrays, which is
always defined. -/
structure ZendEngine.Commutative (E : ZendEngine) : Prop where
  swap : ∀ (c : ZendOpcode) (x y : Zval), c.isSwapped = true →
    (c = .add → x.isArray = false ∨ y.isArray = false) → E.binaryOp c x y = E.binaryOp c y x
  addArrays : ∀ (x y : Zval), x.isArray = true → y.isArray = true → (E.binaryOp .add x y).isSome

/-- Both runs fail, or both end with the same variables and the same values in the slots `K`. -/
def Agree (K : ℕ → Prop) : Option Machine → Option Machine → Prop
  | none, none => True
  | some s, some s' => s.cv = s'.cv ∧ s.store = s'.store ∧ ∀ n, K n → s.slots n = s'.slots n
  | _, _ => False

theorem Agree.refl (K : ℕ → Prop) : ∀ x, Agree K x x
  | none => trivial
  | some _ => ⟨rfl, rfl, fun _ _ => rfl⟩

/-- The oplines from `i` to the one that follows it after the `NOP`s do the same in both arrays,
wherever they are entered: they leave the same variables, the same result, and the same values
in the temporaries that are read later. -/
def Preserves [ZendEngine] (a a' : ZendOpArray) (i : ℕ) : Prop :=
  ∀ (j : ℕ) (next : ZendOp), a.nextOpline i = some (j, next) →
    ∀ e, (e = i ∨ i < e ∧ e ≤ j ∧ a.Entered e) → ∀ s,
      Agree (fun n => next.resultSlot? = some n ∨ ReadLater a n (j + 1))
        (Machine.run a (j + 1 - e) e s) (Machine.run a' (j + 1 - e) e s)

/-- The assignment, or what comes after it, depends on the value of the temporary. -/
def Observes (a : ZendOpArray) (j : ℕ) (next : ZendOp) (t : ℕ) : Prop :=
  (next.op1.type = .cv ∨ next.op1.type = .var ∧ next.op1.num ≠ t) ∧
    (next.op2.slot? = some t ∨ next.resultSlot? ≠ some t ∧ ReadLater a t (j + 1))

/-- The assignment takes the result of the operation, which nothing else reads. -/
structure Consumes (a : ZendOpArray) (i j : ℕ) (o next : ZendOp) (t : ℕ) : Prop where
  result : o.resultSlot? = some t
  operand : next.op2.slot? = some t
  variable_ne : next.op1.type = .var → next.op1.num ≠ t
  last : ReadLater a t (j + 1) → next.resultSlot? = some t

/-- When the rewrite of opline `i` is sound. -/
def CompoundSound [ExTmpVars] (a : ZendOpArray) (i : ℕ) : Prop :=
  ∀ (o next : ZendOp) (j : ℕ), a.opcodes[i]? = some o → a.nextOpline i = some (j, next) →
    o.opcode.assignOp?.isSome → next.opcode = .assign →
      (o.swaps next = true → o.opcode = .add → (a.constant? o.op1).any Zval.isArray = true →
        ∀ t, o.resultSlot? = some t → ¬ Observes a j next t) ∧
      ((o.swapOperands next).sameVariable next = true →
        (∀ e, i < e → e ≤ j → ¬ a.Entered e) ∧ ∃ t, Consumes a i j o next t)

namespace Machine

variable {a a' : ZendOpArray} {ls : List ZendLiteral} {s s' : Machine} {x : Znode}
  {o o' next : ZendOp} {v : Zval} {t i j n m p : ℕ}

@[simp] theorem setResult_cv : (s.setResult o v).cv = s.cv := by
  unfold setResult; split <;> rfl

@[simp] theorem setResult_store : (s.setResult o v).store = s.store := by
  unfold setResult; split <;> rfl

theorem setResult_slots (h : o.resultSlot? = some t) :
    (s.setResult o v).slots = Function.update s.slots t (.value v) := by
  rw [setResult, h]

theorem setResult_slots_of_ne (h : o.resultSlot? ≠ some t) :
    (s.setResult o v).slots t = s.slots t := by
  unfold setResult
  split
  next n hn => exact Function.update_of_ne (by rintro rfl; exact h hn) _ _
  next => rfl

theorem setResult_congr (h : o.result = o'.result) : s.setResult o v = s.setResult o' v := by
  simp [setResult, ZendOp.resultSlot?, ZendOp.resultUsed, h]

@[simp] theorem write_cv : (s.write p v).cv = s.cv := rfl
@[simp] theorem write_slots : (s.write p v).slots = s.slots := rfl
@[simp] theorem write_store : (s.write p v).store = Function.update s.store p v := rfl

/-- The place that an operand denotes holds the value of the operand. -/
theorem read_of_target (h : s.target x = some p) : s.read ls x = s.store p := by
  unfold target at h
  unfold read
  split at h <;> simp_all
  split at h <;> simp_all

theorem read_setResult_self (ht : o.resultSlot? = some t) (hx : x.slot? = some t) :
    (s.setResult o v).read ls x = v := by
  unfold Znode.slot? at hx
  split_ifs at hx with htmp
  obtain rfl : x.num = t := by simpa using hx
  rcases htmp with htmp | htmp <;> simp [read, htmp, setResult_slots ht]

theorem read_setResult_of_ne (h : ∀ t, o.resultSlot? = some t → x.slot? ≠ some t) :
    (s.setResult o v).read ls x = s.read ls x := by
  unfold read
  split
  · rfl
  · rw [setResult_slots_of_ne fun ht => h x.num ht (by simp [Znode.slot?, *]), setResult_store]
  · rw [setResult_slots_of_ne fun ht => h x.num ht (by simp [Znode.slot?, *]), setResult_store]
  · rw [setResult_cv, setResult_store]
  · rfl

theorem target_setResult_self (ht : o.resultSlot? = some t) (hx : x.type = .var)
    (hn : x.num = t) : (s.setResult o v).target x = none := by
  simp [target, hx, hn, setResult_slots ht]

theorem target_setResult_of_ne (hx : x.type.isVariable = true)
    (h : ∀ t, o.resultSlot? = some t → x.type = .var → x.num ≠ t) :
    (s.setResult o v).target x = s.target x := by
  cases hcase : x.type with
  | cv => simp [target, hcase]
  | var =>
    have hslot : (s.setResult o v).slots x.num = s.slots x.num :=
      setResult_slots_of_ne fun ht => h _ ht hcase rfl
    simp only [target, hcase, hslot]
  | _ => simp [hcase, ZnodeType.isVariable] at hx

variable [ZendEngine]

theorem run_add : run a (m + n) p s = (run a m p s).bind (run a n (p + m)) := by
  induction m generalizing p s with
  | zero => simp [run]
  | succ m ih =>
    rw [Nat.add_right_comm, run, run, Option.bind_assoc]
    congr 1
    funext o
    rw [Option.bind_assoc]
    congr 1
    funext s'
    rw [ih, Nat.add_assoc, Nat.add_comm 1 m]

theorem run_one (h : a.opcodes[p]? = some o) : run a 1 p s = exec a.literals s o := by
  simp [run, h]

theorem run_nops (h : ∀ m, p ≤ m → m < p + n → ∃ o, a.opcodes[m]? = some o ∧ o.opcode = .nop) :
    run a n p s = some s := by
  induction n generalizing p with
  | zero => rfl
  | succ n ih =>
    obtain ⟨o, ho, hn⟩ := h p le_rfl (by omega)
    have hexec : exec a.literals s o = some s := by simp [exec, hn]
    rw [run, ho, Option.bind_some, hexec, Option.bind_some]
    exact ih fun m hm hmn => h m (by omega) (by omega)

/-- `NOP`s and an opline. -/
theorem run_tail (hpj : p ≤ j) (hnext : a.opcodes[j]? = some next)
    (hnop : ∀ m, p ≤ m → m < j → ∃ o, a.opcodes[m]? = some o ∧ o.opcode = .nop) :
    run a (j + 1 - p) p s = exec a.literals s next := by
  obtain ⟨k, rfl⟩ : ∃ k, j = p + k := ⟨j - p, by omega⟩
  have hk : p + k + 1 - p = k + 1 := by omega
  rw [hk, run_add, run_nops hnop, Option.bind_some, run_one hnext]

/-- An opline, `NOP`s and an opline. -/
theorem run_pair (hij : i < j) (ho : a.opcodes[i]? = some o) (hnext : a.opcodes[j]? = some next)
    (hnop : ∀ m, i < m → m < j → ∃ o, a.opcodes[m]? = some o ∧ o.opcode = .nop) :
    run a (j + 1 - i) i s =
      (exec a.literals s o).bind fun s => exec a.literals s next := by
  have hn : j + 1 - i = 1 + (j + 1 - (i + 1)) := by omega
  rw [hn, run_add, run_one ho]
  congr 1
  funext s'
  exact run_tail hij hnext hnop

/-- What an operation does. -/
theorem exec_binary (h : o.opcode.assignOp?.isSome) : exec ls s o =
    (binaryOp o.opcode (s.read ls o.op1) (s.read ls o.op2)).map (s.setResult o) := by
  have h₁ : o.opcode ≠ .nop := by rintro h'; simp [h', ZendOpcode.assignOp?] at h
  have h₂ : o.opcode ≠ .assign := by rintro h'; simp [h', ZendOpcode.assignOp?] at h
  rw [exec, if_neg h₁, if_neg h₂, if_pos h]

theorem exec_assign (h : next.opcode = .assign) : exec ls s next = (s.target next.op1).map
    fun place => (s.write place (s.read ls next.op2)).setResult next (s.read ls next.op2) := by
  have h₁ : next.opcode ≠ .nop := by simp [h]
  rw [exec, if_neg h₁, if_pos h]

theorem exec_toCompound (h : o.opcode.assignOp?.isSome) : exec ls s (o.toCompound next) =
    (s.target o.op1).bind fun place =>
      (binaryOp o.opcode (s.store place) (s.read ls o.op2)).map fun v =>
        (s.write place v).setResult next v := by
  obtain ⟨c, hc⟩ := Option.isSome_iff_exists.mp h
  obtain ⟨hop, hna, hn, hn'⟩ := ZendOpcode.operator?_of_assignOp? hc
  have hopcode : (o.toCompound next).opcode = c := by simp [ZendOp.toCompound, hc]
  have hres : ∀ (s : Machine) v, s.setResult (o.toCompound next) v = s.setResult next v :=
    fun s v => setResult_congr rfl
  rw [exec, hopcode, if_neg hn, if_neg hn', if_neg (by simp [hna]), hop]
  simp only [hres, Option.bind_some]
  rfl

/-- The value that a swapped operation computes is the same, but for the addition of arrays. -/
theorem exec_swapOperands [ExTmpVars] (hc : ‹ZendEngine›.Commutative)
    (h : o.opcode.assignOp?.isSome) :
    exec ls s (o.swapOperands next) = exec ls s o ∨
      o.swaps next = true ∧ o.opcode = .add ∧ (s.read ls o.op1).isArray = true ∧
        ∃ v v', exec ls s (o.swapOperands next) = some (s.setResult o v) ∧
          exec ls s o = some (s.setResult o v') := by
  rw [exec_binary h, exec_binary (by simpa using h)]
  unfold ZendOp.swapOperands
  split_ifs with hs
  swap
  · exact .inl rfl
  have hsw : o.opcode.isSwapped = true := by
    simp only [ZendOp.swaps, Bool.and_eq_true] at hs
    exact hs.1.2
  by_cases harr : o.opcode = .add ∧ (s.read ls o.op1).isArray = true ∧
      (s.read ls o.op2).isArray = true
  · obtain ⟨hadd, h₁, h₂⟩ := harr
    obtain ⟨v, hv⟩ := Option.isSome_iff_exists.mp (hc.addArrays _ _ h₂ h₁)
    obtain ⟨v', hv'⟩ := Option.isSome_iff_exists.mp (hc.addArrays _ _ h₁ h₂)
    refine .inr ⟨hs, hadd, h₁, v, v', ?_, ?_⟩
    · simp only [hadd, hv, Option.map_some]
      exact congrArg some (setResult_congr rfl)
    · simp only [hadd, hv', Option.map_some]
  · left
    rw [hc.swap o.opcode (s.read ls o.op1) (s.read ls o.op2) hsw fun hadd => by
      simp only [hadd, true_and, not_and_or, Bool.not_eq_true] at harr
      exact harr]
    rfl

/-- The rewritten operation does what the two oplines do, if the assignment takes its result. -/
theorem exec_compound_agree {K : ℕ → Prop} (h : o.opcode.assignOp?.isSome)
    (hassign : next.opcode = .assign) (hv : o.sameVariable next = true)
    (ht : o.resultSlot? = some t) (h₂ : next.op2.slot? = some t)
    (hne : next.op1.type = .var → next.op1.num ≠ t)
    (hK : ∀ n, K n → n = t → next.resultSlot? = some t) :
    Agree K ((exec ls s o).bind fun s => exec ls s next) (exec ls s (o.toCompound next)) := by
  obtain ⟨hvar, hnum, htype⟩ := (ZendOp.sameVariable_iff o next).mp hv
  rw [exec_binary h, exec_toCompound h]
  -- the variable denotes the same place before and after the operation
  have htarget : ∀ v, (s.setResult o v).target next.op1 = s.target o.op1 := by
    intro v
    rw [target_setResult_of_ne (htype ▸ hvar)]
    · simp only [target, htype, hnum]
    · intro t' ht' hty
      obtain rfl : t = t' := by simpa [ht] using ht'
      exact hne hty
  -- and the temporary holds the result when it is assigned
  have hread : ∀ v, (s.setResult o v).read ls next.op2 = v := fun v => read_setResult_self ht h₂
  cases hp : s.target o.op1 with
  | none =>
    cases hb : binaryOp o.opcode (s.read ls o.op1) (s.read ls o.op2) with
    | none => trivial
    | some v => simp [exec_assign hassign, htarget, hp, Agree]
  | some place =>
    rw [read_of_target hp]
    cases hb : binaryOp o.opcode (s.store place) (s.read ls o.op2) with
    | none => simp [hb, Agree]
    | some v =>
      simp only [Option.map_some, Option.bind_some, exec_assign hassign, htarget, hp, hread, hb]
      refine ⟨by simp, by simp, fun n hn => ?_⟩
      by_cases hr : next.resultSlot? = some n
      · rw [setResult_slots hr, setResult_slots hr, Function.update_self, Function.update_self]
      · rw [setResult_slots_of_ne hr, setResult_slots_of_ne hr, write_slots, write_slots,
          setResult_slots_of_ne]
        rintro h'
        obtain rfl : t = n := by simpa [ht] using h'
        exact hr (hK _ hn rfl)

/-- The assignment does the same if nothing observes the temporary that differs. -/
theorem exec_assign_agree (hassign : next.opcode = .assign) (hcv : s.cv = s'.cv)
    (hstore : s.store = s'.store) (hslots : ∀ n, n ≠ t → s.slots n = s'.slots n)
    (hv : ∃ v, s.slots t = .value v) (hv' : ∃ v, s'.slots t = .value v)
    (hobs : ¬ Observes a j next t) :
    Agree (fun n => next.resultSlot? = some n ∨ ReadLater a n (j + 1))
      (exec ls s next) (exec ls s' next) := by
  rw [exec_assign hassign, exec_assign hassign]
  by_cases htarget : next.op1.type = .cv ∨ next.op1.type = .var ∧ next.op1.num ≠ t
  · have hop : next.op2.slot? ≠ some t := fun h => hobs ⟨htarget, .inl h⟩
    have hlast : ReadLater a t (j + 1) → next.resultSlot? = some t := fun h =>
      not_not.mp fun h' => hobs ⟨htarget, .inr ⟨h', h⟩⟩
    have hread : s.read ls next.op2 = s'.read ls next.op2 := by
      unfold Znode.slot? at hop
      unfold read
      split <;> simp_all
    have hplace : s.target next.op1 = s'.target next.op1 := by
      rcases htarget with h | ⟨h, hne⟩
      · simp [target, h, hcv]
      · simp [target, h, hslots _ hne]
    rw [hread, hplace]
    cases hp : s'.target next.op1 with
    | none => trivial
    | some place =>
      refine ⟨by simp [hcv], by simp [hstore], fun n hn => ?_⟩
      by_cases hr : next.resultSlot? = some n
      · rw [setResult_slots hr, setResult_slots hr, Function.update_self, Function.update_self]
      · rw [setResult_slots_of_ne hr, setResult_slots_of_ne hr, write_slots, write_slots]
        refine hslots n ?_
        rintro rfl
        exact hr (hn.elim id hlast)
  · -- the operand is no place, or it is the temporary itself
    have hnone : ∀ s : Machine, (∃ v, s.slots t = .value v) → s.target next.op1 = none := by
      rintro s ⟨v, hv⟩
      unfold target
      split <;> simp_all
    rw [hnone s hv, hnone s' hv']
    trivial

end Machine

namespace ZendOpArray

variable [ExTmpVars] [ZendEngine] {a : ZendOpArray} {i j e : ℕ} {o next : ZendOp} {s : Machine}

section Rewritten

variable (ho : a.opcodes[i]? = some o) (hnext : a.nextOpline i = some (j, next))
  (hop : o.opcode.assignOp?.isSome) (hassign : next.opcode = .assign)

include ho hnext hop hassign

omit [ZendEngine] in
theorem pass3Assign_fired (hv : (o.swapOperands next).sameVariable next = true) :
    a.pass3Assign i =
      (a.modifyOp i fun _ => (o.swapOperands next).toCompound next).modifyOp j .makeNop := by
  simp [pass3Assign, ho, hnext, hop, hassign, hv]

omit [ZendEngine] in
theorem pass3Assign_swapped (hv : (o.swapOperands next).sameVariable next = false) :
    a.pass3Assign i = a.modifyOp i fun _ => o.swapOperands next := by
  simp [pass3Assign, ho, hnext, hop, hassign, hv]

theorem run_pass3Assign_fired (hv : (o.swapOperands next).sameVariable next = true) :
    Machine.run (a.pass3Assign i) (j + 1 - i) i s =
      Machine.exec a.literals s ((o.swapOperands next).toCompound next) := by
  obtain ⟨hij, hj, -, hnop⟩ := nextOpline_spec hnext
  have heq := pass3Assign_fired ho hnext hop hassign hv
  have hi' : (a.pass3Assign i).opcodes[i]? = some ((o.swapOperands next).toCompound next) := by
    simp [heq, getElem?_modifyOp, ho, hij.ne']
  have hj' : (a.pass3Assign i).opcodes[j]? = some next.makeNop := by
    simp [heq, getElem?_modifyOp, hj, hij.ne]
  have hlits : (a.pass3Assign i).literals = a.literals := by simp [heq]
  rw [Machine.run_pair hij hi' hj', hlits]
  · simp [Machine.exec]
  · intro m hm hmj
    obtain ⟨o', ho', hn⟩ := hnop m hm hmj
    exact ⟨o', by simp [heq, getElem?_modifyOp, ho', hm.ne, hmj.ne'], hn⟩

theorem run_pass3Assign_entered (hv : (o.swapOperands next).sameVariable next = true)
    (hie : i < e) (hej : e ≤ j) :
    Machine.run (a.pass3Assign i) (j + 1 - e) e s = some s := by
  obtain ⟨hij, hj, -, hnop⟩ := nextOpline_spec hnext
  rw [pass3Assign_fired ho hnext hop hassign hv, Machine.run_nops]
  intro m hm hmj
  rcases Nat.lt_or_ge m j with hlt | hge
  · obtain ⟨o', ho', hn⟩ := hnop m (by omega) hlt
    exact ⟨o', by simp [getElem?_modifyOp, ho', hlt.ne', show i ≠ m by omega], hn⟩
  · obtain rfl : m = j := by omega
    exact ⟨next.makeNop, by simp [getElem?_modifyOp, hj, hij.ne], rfl⟩

theorem run_pass3Assign_swapped (hv : (o.swapOperands next).sameVariable next = false) :
    Machine.run (a.pass3Assign i) (j + 1 - i) i s =
      (Machine.exec a.literals s (o.swapOperands next)).bind
        fun s => Machine.exec a.literals s next := by
  obtain ⟨hij, hj, -, hnop⟩ := nextOpline_spec hnext
  have heq := pass3Assign_swapped ho hnext hop hassign hv
  have hi' : (a.pass3Assign i).opcodes[i]? = some (o.swapOperands next) := by
    simp [heq, getElem?_modifyOp, ho]
  have hj' : (a.pass3Assign i).opcodes[j]? = some next := by
    simp [heq, getElem?_modifyOp, hj, hij.ne]
  have hlits : (a.pass3Assign i).literals = a.literals := by simp [heq]
  rw [Machine.run_pair hij hi' hj', hlits]
  intro m hm hmj
  obtain ⟨o', ho', hn⟩ := hnop m hm hmj
  exact ⟨o', by simp [heq, getElem?_modifyOp, ho', hm.ne], hn⟩

theorem run_pass3Assign_swapped_entered (hv : (o.swapOperands next).sameVariable next = false)
    (hie : i < e) (hej : e ≤ j) :
    Machine.run (a.pass3Assign i) (j + 1 - e) e s = Machine.run a (j + 1 - e) e s := by
  obtain ⟨hij, hj, -, hnop⟩ := nextOpline_spec hnext
  have hnop' : ∀ m, e ≤ m → m < j → ∃ o, a.opcodes[m]? = some o ∧ o.opcode = .nop :=
    fun m hm hmj => hnop m (by omega) hmj
  have hj' : (a.modifyOp i fun _ => o.swapOperands next).opcodes[j]? = some next := by
    simp [getElem?_modifyOp, hj, hij.ne]
  rw [pass3Assign_swapped ho hnext hop hassign hv, Machine.run_tail hej hj hnop',
    Machine.run_tail hej hj']
  · rfl
  · intro m hm hmj
    obtain ⟨o', ho', hn⟩ := hnop' m hm hmj
    exact ⟨o', by simp [getElem?_modifyOp, ho', show i ≠ m by omega], hn⟩

end Rewritten

omit [ZendEngine] in
theorem pass3Assign_self (h : ∀ o next j, a.opcodes[i]? = some o → a.nextOpline i = some (j, next) →
    o.opcode.assignOp?.isSome → next.opcode ≠ .assign) : a.pass3Assign i = a := by
  unfold pass3Assign
  split
  next o j next ho hnext => exact if_neg fun hand => h o next j ho hnext hand.1 hand.2
  next => rfl

omit [ZendEngine] in
/-- The addition that pass 3 swaps has no array as first operand, if the condition holds and its
value matters. -/
theorem isArray_eq_false_of_sound (hs : CompoundSound a i) (ho : a.opcodes[i]? = some o)
    (hnext : a.nextOpline i = some (j, next)) (hop : o.opcode.assignOp?.isSome)
    (hassign : next.opcode = .assign) {t : ℕ} (ht : o.resultSlot? = some t)
    (hobs : Observes a j next t) (hsw : o.swaps next = true) (hadd : o.opcode = .add) :
    (s.read a.literals o.op1).isArray = false := by
  have hconst : o.op1.type = .const := by
    simp only [ZendOp.swaps, Bool.and_eq_true, Bool.or_eq_true, bne_iff_ne, beq_iff_eq] at hsw
    exact hsw.2.resolve_left fun h => h hadd
  have hnot := fun h => (hs o next j ho hnext hop hassign).1 hsw hadd h t ht hobs
  cases hl : a.literals[o.op1.num]? with
  | none => simp [Machine.read, hconst, hl, Zval.isArray]
  | some l => simpa [Machine.read, constant?, hconst, hl] using hnot

/-- The condition is enough. -/
theorem preserves_of_sound (hc : ‹ZendEngine›.Commutative) (hs : CompoundSound a i) :
    Preserves a (a.pass3Assign i) i := by
  intro j next hnext e he s
  by_cases hpair : ∃ o, a.opcodes[i]? = some o ∧ o.opcode.assignOp?.isSome ∧ next.opcode = .assign
  swap
  · have hself : a.pass3Assign i = a := pass3Assign_self fun o next' j' ho hn hop hassign => by
      obtain ⟨-, rfl⟩ : j' = j ∧ next' = next := by simpa [hnext] using hn.symm
      exact hpair ⟨o, ho, hop, hassign⟩
    rw [hself]
    exact .refl _ _
  obtain ⟨o, ho, hop, hassign⟩ := hpair
  obtain ⟨hij, hj, -, hnop⟩ := nextOpline_spec hnext
  have hsound := hs o next j ho hnext hop hassign
  cases hv : (o.swapOperands next).sameVariable next with
  | true =>
    obtain ⟨hentry, t, hcons⟩ := hsound.2 hv
    obtain rfl : e = i := he.resolve_right fun h => hentry e h.1 h.2.1 h.2.2
    have htarget : next.op1.type = .cv ∨ next.op1.type = .var ∧ next.op1.num ≠ t := by
      obtain ⟨hvar, -, htype⟩ := (ZendOp.sameVariable_iff _ next).mp hv
      rw [htype] at hvar
      cases hty : next.op1.type with
      | cv => exact .inl rfl
      | var => exact .inr ⟨rfl, hcons.variable_ne hty⟩
      | _ => simp [hty, ZnodeType.isVariable] at hvar
    have hswap : Machine.exec a.literals s (o.swapOperands next) =
        Machine.exec a.literals s o := by
      refine (Machine.exec_swapOperands hc hop).resolve_right ?_
      rintro ⟨hsw, hadd, harr, -⟩
      simp [isArray_eq_false_of_sound hs ho hnext hop hassign hcons.result
        ⟨htarget, .inl hcons.operand⟩ hsw hadd] at harr
    rw [run_pass3Assign_fired ho hnext hop hassign hv, Machine.run_pair hij ho hj hnop, ← hswap]
    refine Machine.exec_compound_agree (by simpa using hop) hassign hv (by simpa using hcons.result)
      hcons.operand hcons.variable_ne ?_
    rintro n hn rfl
    exact hn.elim id hcons.last
  | false =>
    rcases he with rfl | ⟨hie, hej, -⟩
    swap
    · rw [run_pass3Assign_swapped_entered ho hnext hop hassign hv hie hej]
      exact .refl _ _
    rw [run_pass3Assign_swapped ho hnext hop hassign hv, Machine.run_pair hij ho hj hnop]
    have hcases : Machine.exec a.literals s (o.swapOperands next) =
        Machine.exec a.literals s o ∨ _ :=
      Machine.exec_swapOperands hc hop
    rcases hcases with heq | ⟨hsw, hadd, harr, v, v', h, h'⟩
    · rw [heq]
      exact .refl _ _
    rw [h, h']
    cases ht : o.resultSlot? with
    | none =>
      simp only [Machine.setResult, ht]
      exact .refl _ _
    | some t =>
      -- two arrays were added: nothing observes the sum
      have hobs : ¬ Observes a j next t := fun hobs => by
        simp [isArray_eq_false_of_sound hs ho hnext hop hassign ht hobs hsw hadd] at harr
      refine Machine.exec_assign_agree hassign (by simp) (by simp) (fun n hn => ?_)
        ⟨v', by simp [Machine.setResult_slots ht]⟩ ⟨v, by simp [Machine.setResult_slots ht]⟩ hobs
      rw [Machine.setResult_slots ht, Machine.setResult_slots ht, Function.update_of_ne hn,
        Function.update_of_ne hn]

end ZendOpArray

/-- An engine whose binary operators are always defined. -/
@[reducible] def ZendEngine.ofBinary (f : ZendOpcode → Zval → Zval → Zval) : ZendEngine where
  zendHashFunc _ := 0
  zendHandleNumeric _ := none
  binaryOp c x y := some (f c x y)
  unaryOp _ _ := none
  convertTo _ v := v
  persistentConstant _ := none

theorem ZendEngine.ofBinary_const (v : Zval) : (ofBinary fun _ _ _ => v).Commutative where
  swap _ _ _ _ _ := rfl
  addArrays _ _ _ _ := rfl

/-- Only the sum of two arrays has a value: the first of them. -/
def leftArray (c : ZendOpcode) (x y : Zval) : Zval :=
  if c = .add ∧ x.isArray = true ∧ y.isArray = true then x else .null

theorem ZendEngine.ofBinary_leftArray : (ofBinary leftArray).Commutative where
  swap c x y _ hadd := by
    have hxy : ¬ (c = .add ∧ x.isArray = true ∧ y.isArray = true) := by
      rintro ⟨h, hx, hy⟩
      simpa [hx, hy] using hadd h
    have hyx : ¬ (c = .add ∧ y.isArray = true ∧ x.isArray = true) := fun h =>
      hxy ⟨h.1, h.2.2, h.2.1⟩
    change some (leftArray c x y) = some (leftArray c y x)
    rw [leftArray, leftArray, if_neg hxy, if_neg hyx]
  addArrays _ _ _ _ := rfl

namespace Machine

/-- Every variable is the same place, and every slot refers to it. -/
def uniform (v : Zval) : Machine := ⟨fun _ => 0, fun _ => v, fun _ => .ref 0⟩

variable {ls : List ZendLiteral} {x : Znode} {v : Zval}

@[simp] theorem uniform_store (n : ℕ) : (uniform v).store n = v := rfl
@[simp] theorem uniform_slots (n : ℕ) : (uniform v).slots n = .ref 0 := rfl

theorem target_uniform (h : x.type.isVariable = true) : (uniform v).target x = some 0 := by
  cases hx : x.type <;> simp_all [ZnodeType.isVariable, target, uniform]

theorem read_uniform (h : x.type.isVariable = true) : (uniform v).read ls x = v := by
  cases hx : x.type <;> simp_all [ZnodeType.isVariable, read, uniform]

end Machine

namespace ZendOpArray

variable [ExTmpVars] {a : ZendOpArray} {i j e t : ℕ} {o next : ZendOp}

section Necessary

variable (ho : a.opcodes[i]? = some o) (hnext : a.nextOpline i = some (j, next))
  (hop : o.opcode.assignOp?.isSome) (hassign : next.opcode = .assign)
  (h : ∀ E : ZendEngine, E.Commutative → Preserves a (a.pass3Assign i) i)

include ho hnext hop hassign h

/-- The engine computes a value that is neither in a variable nor the assigned constant. -/
theorem consumes_of_preserves (hv : (o.swapOperands next).sameVariable next = true) :
    ∃ t, Consumes a i j o next t := by
  obtain ⟨hij, hj, -, hnop⟩ := nextOpline_spec hnext
  obtain ⟨hvar, -, htype⟩ := (ZendOp.sameVariable_iff _ next).mp hv
  let s := Machine.uniform .null
  obtain ⟨c, hc, hc'⟩ : ∃ c : Zval, c ≠ .null ∧ c ≠ s.read a.literals next.op2 := by
    by_cases h0 : s.read a.literals next.op2 = .long 0
    · exact ⟨.long 1, by simp, by simp [h0]⟩
    · exact ⟨.long 0, by simp, Ne.symm h0⟩
  let E := ZendEngine.ofBinary fun _ _ _ => c
  have hb : ∀ op x y, E.binaryOp op x y = some c := fun _ _ _ => rfl
  have hold : Machine.run a (j + 1 - i) i s = ((s.setResult o c).target next.op1).map fun place =>
      ((s.setResult o c).write place ((s.setResult o c).read a.literals next.op2)).setResult next
        ((s.setResult o c).read a.literals next.op2) := by
    rw [Machine.run_pair hij ho hj hnop, Machine.exec_binary hop, hb, Option.map_some,
      Option.bind_some, Machine.exec_assign hassign]
  have hnew : Machine.run (a.pass3Assign i) (j + 1 - i) i s =
      some ((s.write 0 c).setResult next c) := by
    rw [run_pass3Assign_fired ho hnext hop hassign hv, Machine.exec_toCompound (by simpa using hop),
      Machine.target_uniform hvar, Option.bind_some, hb, Option.map_some]
  have hagree := h E (ZendEngine.ofBinary_const c) j next hnext i (.inl rfl) s
  rw [hold, hnew] at hagree
  -- the assignment finds a place, so its variable is not the temporary
  have hne : ∀ t, o.resultSlot? = some t → next.op1.type = .var → next.op1.num ≠ t := by
    intro t ht hty hn
    rw [Machine.target_setResult_self ht hty hn] at hagree
    exact hagree
  rw [Machine.target_setResult_of_ne (htype ▸ hvar) hne, Machine.target_uniform (htype ▸ hvar)]
    at hagree
  obtain ⟨-, hstore, hslots⟩ := hagree
  -- and it takes the value that the operation computes
  have hread : (s.setResult o c).read a.literals next.op2 = c := by
    simpa using congrFun hstore 0
  obtain ⟨t, ht, hop2⟩ : ∃ t, o.resultSlot? = some t ∧ next.op2.slot? = some t := by
    by_contra hno
    rw [Machine.read_setResult_of_ne fun t ht hx => hno ⟨t, ht, hx⟩] at hread
    exact hc' hread.symm
  refine ⟨t, ht, hop2, hne t ht, fun hlater => by_contra fun hr => ?_⟩
  have hslot := hslots t (.inr hlater)
  rw [Machine.setResult_slots_of_ne hr, Machine.setResult_slots_of_ne hr, Machine.write_slots,
    Machine.write_slots, Machine.setResult_slots ht] at hslot
  simp [s] at hslot

/-- An assignment of the temporary that is entered by a jump is lost. -/
theorem not_entered_of_preserves (hv : (o.swapOperands next).sameVariable next = true)
    (ht : Consumes a i j o next t) (hie : i < e) (hej : e ≤ j) : ¬ a.Entered e := by
  intro hentered
  obtain ⟨hij, hj, -, hnop⟩ := nextOpline_spec hnext
  obtain ⟨hvar, -, htype⟩ := (ZendOp.sameVariable_iff _ next).mp hv
  let s := (Machine.uniform .null).setResult o (.long 1)
  let E := ZendEngine.ofBinary fun _ _ _ => .null
  have hold : Machine.run a (j + 1 - e) e s =
      some ((s.write 0 (.long 1)).setResult next (.long 1)) := by
    rw [Machine.run_tail hej hj fun m hm hmj => hnop m (by omega) hmj, Machine.exec_assign hassign,
      Machine.target_setResult_of_ne (htype ▸ hvar), Machine.target_uniform (htype ▸ hvar),
      Machine.read_setResult_self ht.result ht.operand, Option.map_some]
    rintro t' ht' hty
    obtain rfl : t = t' := by simpa [ht.result] using ht'
    exact ht.variable_ne hty
  have hagree := h E (ZendEngine.ofBinary_const _) j next hnext e (.inr ⟨hie, hej, hentered⟩) s
  rw [hold, run_pass3Assign_entered ho hnext hop hassign hv hie hej] at hagree
  simpa [s] using congrFun hagree.2.1 0

/-- The engine adds two different arrays. -/
theorem not_observes_of_preserves (hsw : o.swaps next = true) (hadd : o.opcode = .add)
    (harr : (a.constant? o.op1).any Zval.isArray = true) (ht : o.resultSlot? = some t) :
    ¬ Observes a j next t := by
  rintro ⟨htarget, hobs⟩
  obtain ⟨hij, hj, -, hnop⟩ := nextOpline_spec hnext
  obtain ⟨hop2, hconst⟩ : o.op2.type.isVariable = true ∧ o.op1.type = .const := by
    simp only [ZendOp.swaps, Bool.and_eq_true, Bool.or_eq_true, bne_iff_ne, beq_iff_eq] at hsw
    exact ⟨hsw.1.1.1, hsw.2.resolve_left fun h => h hadd⟩
  obtain ⟨n, hlit⟩ : ∃ n, ∀ s : Machine, s.read a.literals o.op1 = .array n := by
    cases hl : a.literals[o.op1.num]? with
    | none => simp [constant?, hconst, hl] at harr
    | some l =>
      cases hv : l.constant with
      | array n => exact ⟨n, fun s => by simp [Machine.read, hconst, hl, hv]⟩
      | _ => simp [constant?, hconst, hl, hv, Zval.isArray] at harr
  let s := Machine.uniform (.array (n + 1))
  let E := ZendEngine.ofBinary leftArray
  have hb : ∀ x y, E.binaryOp .add (.array x) (.array y) = some (.array x) := fun _ _ => rfl
  have hread : s.read a.literals o.op2 = .array (n + 1) := Machine.read_uniform hop2
  have htarget' : ∀ v, (s.setResult o v).target next.op1 = some 0 := fun v => by
    have hvar : next.op1.type.isVariable = true := by
      rcases htarget with h | ⟨h, -⟩ <;> simp [h, ZnodeType.isVariable]
    rw [Machine.target_setResult_of_ne hvar, Machine.target_uniform hvar]
    rintro t' ht' hty
    obtain rfl : t = t' := by simpa [ht] using ht'
    exact (htarget.resolve_left (by simp [hty])).2
  have hold : Machine.run a (j + 1 - i) i s =
      Machine.exec a.literals (s.setResult o (.array n)) next := by
    rw [Machine.run_pair hij ho hj hnop, Machine.exec_binary hop, hadd, hlit, hread, hb,
      Option.map_some, Option.bind_some]
  have hagree := h E ZendEngine.ofBinary_leftArray j next hnext i (.inl rfl) s
  have hswapped : o.swapOperands next = { o with op1 := o.op2, op2 := o.op1 } := if_pos hsw
  cases hv : (o.swapOperands next).sameVariable next with
  | true =>
    obtain ⟨t', ht'⟩ := consumes_of_preserves ho hnext hop hassign h hv
    have hnew : Machine.run (a.pass3Assign i) (j + 1 - i) i s =
        some ((s.write 0 (.array (n + 1))).setResult next (.array (n + 1))) := by
      rw [run_pass3Assign_fired ho hnext hop hassign hv,
        Machine.exec_toCompound (by simpa using hop), hswapped]
      simp only [Machine.target_uniform hop2, Option.bind_some, hlit, hadd, s,
        Machine.uniform_store, hb, Option.map_some]
    rw [hold, hnew, Machine.exec_assign hassign, htarget',
      Machine.read_setResult_self ht'.result ht'.operand] at hagree
    simpa [s] using congrFun hagree.2.1 0
  | false =>
    have hnew : Machine.run (a.pass3Assign i) (j + 1 - i) i s =
        Machine.exec a.literals (s.setResult o (.array (n + 1))) next := by
      rw [run_pass3Assign_swapped ho hnext hop hassign hv, Machine.exec_binary (by simpa using hop),
        hswapped]
      simp only [hadd, hlit, hread, hb, Option.map_some, Option.bind_some]
      exact congrArg (Machine.exec a.literals · next) (Machine.setResult_congr rfl)
    rw [hold, hnew, Machine.exec_assign hassign, Machine.exec_assign hassign, htarget', htarget']
      at hagree
    obtain ⟨-, hstore, hslots⟩ := hagree
    rcases hobs with hslot | ⟨hr, hlater⟩
    · rw [Machine.read_setResult_self ht hslot, Machine.read_setResult_self ht hslot] at hstore
      simpa [s] using congrFun hstore 0
    · have hslot := hslots t (.inr hlater)
      rw [Machine.setResult_slots_of_ne hr, Machine.setResult_slots_of_ne hr, Machine.write_slots,
        Machine.write_slots, Machine.setResult_slots ht, Machine.setResult_slots ht] at hslot
      simp at hslot

end Necessary

/-- **Pass 3 compound assignment.** With commutative operators the rewrite of an opline preserves
what the code does, from every state, if and only if the assignment consumes the result of the
operation, no jump enters between the two, and no constant array is swapped. -/
theorem pass3Assign_preserves_iff (a : ZendOpArray) (i : ℕ) :
    (∀ E : ZendEngine, E.Commutative → Preserves a (a.pass3Assign i) i) ↔ CompoundSound a i := by
  constructor
  · intro h o next j ho hnext hop hassign
    refine ⟨fun hsw hadd harr t ht => ?_, fun hv => ?_⟩
    · exact not_observes_of_preserves ho hnext hop hassign h hsw hadd harr ht
    · obtain ⟨t, ht⟩ := consumes_of_preserves ho hnext hop hassign h hv
      exact ⟨fun e hie hej => not_entered_of_preserves ho hnext hop hassign h hv ht hie hej, t, ht⟩
  · exact fun hs E hc => preserves_of_sound hc hs

/-- `($a + 1) . ($a = 5)`: the assignment does not take the sum. -/
def sumThenAssign : ZendOpArray where
  opcodes :=
    [⟨.add, ⟨.cv, 0, false⟩, ⟨.const, 0, false⟩, ⟨.tmpVar, 1, false⟩, 0⟩,
     ⟨.assign, ⟨.cv, 0, false⟩, ⟨.const, 1, false⟩, ⟨.var, 2, false⟩, 0⟩,
     ⟨.concat, ⟨.tmpVar, 1, false⟩, ⟨.var, 2, false⟩, ⟨.tmpVar, 3, false⟩, 0⟩]
  literals := [⟨.long 1, 0, -1⟩, ⟨.long 5, 0, -1⟩]
  brkContArray := []
  tryCatchArray := []
  hasFinallyBlock := false
  T := 4
  lastVar := 1
  lastCacheSlot := 0

/-- Integers are added; two arrays give the first of them. -/
def addLongs (c : ZendOpcode) (x y : Zval) : Zval :=
  match c, x, y with
  | .add, .long m, .long n => .long (m + n)
  | .add, .array m, .array _ => .array m
  | _, _, _ => .null

omit [ExTmpVars] in
theorem addLongs_of_ne {c : ZendOpcode} (h : c ≠ .add) (x y : Zval) : addLongs c x y = .null := by
  unfold addLongs
  split
  · exact absurd rfl h
  · exact absurd rfl h
  · rfl

omit [ExTmpVars] in
theorem ofBinary_addLongs : (ZendEngine.ofBinary addLongs).Commutative where
  swap c x y _ hadd := by
    change some (addLongs c x y) = some (addLongs c y x)
    by_cases hc : c = .add
    · subst hc
      cases x <;> cases y <;> simp [addLongs, Int64.add_comm]
      simpa [Zval.isArray] using hadd rfl
    · rw [addLongs_of_ne hc, addLongs_of_ne hc]
  addArrays _ _ _ _ := rfl

omit [ExTmpVars] in
/-- The variable gets the sum in place of 5. -/
theorem pass3Assign_loses_assignment :
    ¬ ∀ (_ : ExTmpVars) (a : ZendOpArray) (i : ℕ) (E : ZendEngine), E.Commutative →
      Preserves a (a.pass3Assign i) i := by
  intro h
  have hagree := h .below sumThenAssign 0 _ ofBinary_addLongs 1 _ rfl 0 (.inl rfl)
    (Machine.uniform (.long 1))
  have h0 : Zval.long 5 = .long 2 := congrFun hagree.2.1 0
  exact absurd h0 (by decide)

end ZendOpArray

end ZendOpcache
