import ZendOpcache.Optimizer.ReplaceTmp

/-! # Uses of a folded temporary

After the fold no opline may read the temporary: every use has become the constant
and every `FREE` a `NOP`. The scan achieves this exactly for a single reader outside
of switches, and for the `CASE` and `FREE` oplines of the one switch it finds.
-/

namespace ZendOpcache

namespace ZendOp

/-- The opline reads the temporary. -/
def readsTmp (o : ZendOp) (var : ℕ) : Bool := o.op1.isTmp var || o.op2.isTmp var

/-- The opline ends the life of a temporary, or compares it. -/
def isSwitchUse (o : ZendOp) : Bool := o.opcode == .case || o.opcode == .free

end ZendOp

@[simp] theorem Znode.isTmp_none (var : ℕ) : Znode.none.isTmp var = false := rfl

@[simp] theorem Znode.isTmp_const (n var : ℕ) : Znode.isTmp ⟨.const, n, false⟩ var = false := rfl

section Uses

variable [ZendEngine]

/-- The literal stands for the value as an operand of the opline: it is the value, or the integer
key that the value is as an array offset. -/
def Stands (o : ZendOp) (val x : Zval) : Prop :=
  x = val ∨ (o.opcode.isDimensionOp = true ∧
    ∃ s n, val = .string s ∧ zendHandleNumeric s = some n ∧ x = .long n)

/-- The use of the temporary by opline `o` has been replaced, which gave `o'`. -/
structure Replaced (literals : List ZendLiteral) (var : ℕ) (val : Zval) (o o' : ZendOp) :
    Prop where
  free : o.opcode = .free → o.op1.isTmp var = true → o' = o.makeNop
  op1 : o.opcode ≠ .free → o.op1.isTmp var = true → o'.opcode = o.opcode ∧ o'.op1.type = .const ∧
    ∃ l, literals[o'.op1.num]? = some l ∧ l.constant = val
  op2 : ¬ (o.opcode = .free ∧ o.op1.isTmp var = true) → o.op2.isTmp var = true →
    o'.opcode = o.opcode ∧ o'.op2.type = .const ∧
    ∃ l, literals[o'.op2.num]? = some l ∧ Stands o val l.constant

/-- No opline reads the temporary any more, and every use has been replaced. -/
def AllReplaced (a a' : ZendOpArray) (var : ℕ) (val : Zval) : Prop :=
  (∀ (j : ℕ) (o' : ZendOp), a'.opcodes[j]? = some o' → o'.readsTmp var = false) ∧
  ∀ (j : ℕ) (o : ZendOp), a.opcodes[j]? = some o → o.readsTmp var = true →
    ∃ o', a'.opcodes[j]? = some o' ∧ Replaced a'.literals var val o o'

/-- The constant keeps its value as first operand: it is not lower-cased. -/
def KeepsOp1 (o : ZendOp) (val : Zval) : Prop :=
  ∀ s, val = .string s → o.opcode.pairsOp1 = true ∨ o.opcode = .doFcall → zendStrTolower s = s

/-- The constant keeps its value as second operand: it is not lower-cased, and no integer key
replaces it in an `OP_DATA` opline. -/
def KeepsOp2 (prev : Option ZendOp) (o : ZendOp) (val : Zval) : Prop :=
  ∀ s, val = .string s →
    (o.opcode.pairsOp2 = true ∨ o.opcode.isMethodCall = true → zendStrTolower s = s) ∧
    (o.opcode = .opData → prev.any (·.checksData) = true → zendHandleNumeric s = none)

theorem op1Literals_head (o : ZendOp) (val : Zval) (slot : ℤ) :
    ∃ l ls, (op1Literals o.opcode val slot).1 = l :: ls ∧
      (l.constant = val ↔ KeepsOp1 o val) := by
  cases val
  case string s =>
    simp only [op1Literals]
    split_ifs with h₁ h₂
    · exact ⟨_, _, rfl, by simp [KeepsOp1, h₁]⟩
    · exact ⟨_, _, rfl, by simp [KeepsOp1, h₂]⟩
    · exact ⟨_, _, rfl, by simp [KeepsOp1, h₁, h₂]⟩
  all_goals exact ⟨_, _, rfl, by simp [KeepsOp1]⟩

theorem op2Literals_head (prev : Option ZendOp) (o : ZendOp) (val : Zval) (slot : ℤ) :
    ∃ l ls, (op2Literals prev o val slot).1 = l :: ls ∧
      (Stands o val l.constant ↔ KeepsOp2 prev o val) := by
  cases val
  case string s =>
    simp only [op2Literals]
    split_ifs with h₁ h₂ h₃ h₄
    · have hd : o.opcode ≠ .opData := fun h => by simp [h, ZendOpcode.pairsOp2] at h₁
      exact ⟨_, _, rfl, by simp [Stands, KeepsOp2, h₁, hd]⟩
    · have hd : o.opcode ≠ .opData := fun h => by simp [h, ZendOpcode.isMethodCall] at h₂
      exact ⟨_, _, rfl, by simp [Stands, KeepsOp2, h₂, hd]⟩
    · have hd : o.opcode ≠ .opData := fun h => by
        simp [h, ZendOpcode.isPropertyOp, ZendOpcode.isAssignOp] at h₃
      exact ⟨_, _, rfl, by simp [Stands, KeepsOp2, h₁, h₂, hd]⟩
    · refine ⟨_, _, rfl, ?_⟩
      simp only [Bool.or_eq_true, Bool.and_eq_true, beq_iff_eq] at h₄
      rcases h₄ with h₄ | ⟨hd, hp⟩
      · have hd : o.opcode ≠ .opData := fun h => by simp [h, ZendOpcode.isDimensionOp] at h₄
        cases hn : zendHandleNumeric s <;> simp [Stands, KeepsOp2, h₁, h₂, hd, h₄, hn]
      · cases hn : zendHandleNumeric s <;> simp [Stands, KeepsOp2, hd, hp, hn,
          ZendOpcode.isDimensionOp, ZendOpcode.pairsOp2, ZendOpcode.isMethodCall]
    · have hd : ¬ (o.opcode = .opData ∧ prev.any (·.checksData) = true) := by
        rintro ⟨h, hp⟩
        simp [h, hp] at h₄
      refine ⟨_, _, rfl, ?_⟩
      simp only [Stands, true_or, true_iff]
      intro s' _
      exact ⟨by simp [h₁, h₂], fun h hp => absurd ⟨h, hp⟩ hd⟩
  all_goals exact ⟨_, _, rfl, by simp [Stands, KeepsOp2]⟩

namespace ZendOpArray

variable {a r : ZendOpArray} {var i j m n : ℕ} {val : Zval} {o o' : ZendOp}

omit [ZendEngine] in
@[simp] theorem addLiterals_opcodes (x : List ZendLiteral × ℕ) :
    (a.addLiterals x).opcodes = a.opcodes := rfl

omit [ZendEngine] in
@[simp] theorem addLiterals_literals (x : List ZendLiteral × ℕ) :
    (a.addLiterals x).literals = a.literals ++ x.1 := rfl

/-- The first operand becomes the literal that was added. -/
theorem updateOp1Const_spec (val : Zval) (ho : a.opcodes[i]? = some o) (hf : o.opcode ≠ .free) :
    ∃ l ls, (a.updateOp1Const i val).opcodes = a.opcodes.modify i
        (fun o => { o with op1 := ⟨.const, a.literals.length, false⟩ }) ∧
      (a.updateOp1Const i val).literals = a.literals ++ l :: ls ∧
      (l.constant = val ↔ KeepsOp1 o val) := by
  obtain ⟨l, ls, hl, hk⟩ := op1Literals_head o val a.lastCacheSlot
  refine ⟨l, ls, ?_, ?_, hk⟩ <;> simp [updateOp1Const, ho, hf, modifyOp, addLiterals, hl]

theorem updateOp2Const_spec (val : Zval) (ho : a.opcodes[i]? = some o) :
    ∃ l ls, (a.updateOp2Const i val).opcodes = a.opcodes.modify i
        (fun o => { o with op2 := ⟨.const, a.literals.length, false⟩ }) ∧
      (a.updateOp2Const i val).literals = a.literals ++ l :: ls ∧
      (Stands o val l.constant ↔
        KeepsOp2 (if i = 0 then none else a.opcodes[i - 1]?) o val) := by
  obtain ⟨l, ls, hl, hk⟩ := op2Literals_head (if i = 0 then none else a.opcodes[i - 1]?) o val
    a.lastCacheSlot
  refine ⟨l, ls, ?_, ?_, hk⟩ <;> simp [updateOp2Const, ho, modifyOp, addLiterals, hl]

/-- What the loop over a switch does to the oplines `m`, …, `m + n - 1`. -/
structure CasesReplaced (a r : ZendOpArray) (var : ℕ) (val : Zval) (m n : ℕ) : Prop where
  literals : ∃ ls, r.literals = a.literals ++ ls
  same : ∀ {j : ℕ} {o : ZendOp}, a.opcodes[j]? = some o → (j < m ∨ m + n ≤ j ∨
    o.op1.isTmp var = false ∨ o.isSwitchUse = false) → r.opcodes[j]? = some o
  free : ∀ {j : ℕ} {o : ZendOp}, a.opcodes[j]? = some o → m ≤ j → j < m + n →
    o.op1.isTmp var = true → o.opcode = .free → r.opcodes[j]? = some o.makeNop
  case : ∀ {j : ℕ} {o : ZendOp}, a.opcodes[j]? = some o → m ≤ j → j < m + n →
    o.op1.isTmp var = true → o.opcode = .case →
    ∃ k l, r.opcodes[j]? = some { o with op1 := ⟨.const, k, false⟩ } ∧
      r.literals[k]? = some l ∧ l.constant = val
  none : ∀ {j : ℕ}, a.opcodes[j]? = none → r.opcodes[j]? = none

omit [ZendEngine] in
theorem casesReplaced_refl (h : ∀ o, a.opcodes[m]? = some o →
    o.op1.isTmp var = false ∨ o.isSwitchUse = false) : a.CasesReplaced a var val m 1 where
  literals := ⟨[], by simp⟩
  same he _ := he
  free {j o} he hm hj ht hf := by
    obtain rfl : j = m := by omega
    rcases h o he with h | h <;> simp_all [ZendOp.isSwitchUse]
  case {j o} he hm hj ht hf := by
    obtain rfl : j = m := by omega
    rcases h o he with h | h <;> simp_all [ZendOp.isSwitchUse]
  none h := h

/-- One step of the loop. -/
theorem replaceCase_spec (a : ZendOpArray) (var : ℕ) (val : Zval) (m : ℕ) :
    a.CasesReplaced (a.replaceCase var val m) var val m 1 := by
  unfold replaceCase
  cases ho : a.opcodes[m]? with
  | none => exact casesReplaced_refl (by simp [ho])
  | some o =>
    have hmod : ∀ {f : ZendOp → ZendOp} {j : ℕ} {o' : ZendOp}, a.opcodes[j]? = some o' →
        (a.opcodes.modify m f)[j]? = some (if m = j then f o' else o') := by
      intro f j o' h
      simp [List.getElem?_modify, h]
    have hsame : ∀ {j : ℕ} {o' : ZendOp}, a.opcodes[j]? = some o' → o.op1.isTmp var = true →
        o.isSwitchUse = true → (j < m ∨ m + 1 ≤ j ∨ o'.op1.isTmp var = false ∨
          o'.isSwitchUse = false) → m ≠ j := by
      rintro j o' h ht hu hj rfl
      obtain rfl := Option.some.inj (ho.symm.trans h)
      rcases hj with hj | hj | hj | hj
      · omega
      · omega
      · simp [ht] at hj
      · simp [hu] at hj
    simp only
    split_ifs with ht hc hf
    · -- a comparison: its operand becomes a new literal
      obtain ⟨l, ls, hops, hlits, hk⟩ := updateOp1Const_spec val ho (by simp [hc])
      have hu : o.isSwitchUse = true := by simp [ZendOp.isSwitchUse, hc]
      constructor
      · exact ⟨_, hlits⟩
      · intro j o' h hj
        rw [hops, hmod h, if_neg (hsame h ht hu hj)]
      · intro j o' h hm hj _ hf
        obtain rfl : j = m := by omega
        obtain rfl := Option.some.inj (ho.symm.trans h)
        simp [hc] at hf
      · intro j o' h hm hj _ _
        obtain rfl : j = m := by omega
        obtain rfl := Option.some.inj (ho.symm.trans h)
        refine ⟨a.literals.length, l, ?_, ?_, hk.mpr ?_⟩
        · rw [hops, hmod h, if_pos rfl]
        · simp [hlits]
        · simp [KeepsOp1, hc, ZendOpcode.pairsOp1]
      · intro j h
        simp [hops, List.getElem?_modify, h]
    · -- the value dies here
      have hu : o.isSwitchUse = true := by simp [ZendOp.isSwitchUse, hf]
      constructor
      · exact ⟨[], by simp⟩
      · intro j o' h hj
        rw [modifyOp, hmod h, if_neg (hsame h ht hu hj)]
      · intro j o' h hm hj _ _
        obtain rfl : j = m := by omega
        rw [modifyOp, hmod h, if_pos rfl]
      · intro j o' h hm hj _ hc'
        obtain rfl : j = m := by omega
        obtain rfl := Option.some.inj (ho.symm.trans h)
        exact absurd hc' hc
      · intro j h
        simp [modifyOp, List.getElem?_modify, h]
    · exact casesReplaced_refl fun o' h => by
        obtain rfl := Option.some.inj (ho.symm.trans h)
        exact .inr (by simp [ZendOp.isSwitchUse, hc, hf])
    · exact casesReplaced_refl fun o' h => by
        obtain rfl := Option.some.inj (ho.symm.trans h)
        exact .inl (by simpa using ht)

omit [ZendEngine] in
/-- A step of the loop and the rest of it. -/
theorem CasesReplaced.trans {b : ZendOpArray} (h : a.CasesReplaced b var val m 1)
    (h' : b.CasesReplaced r var val (m + 1) n) : a.CasesReplaced r var val m (n + 1) := by
  obtain ⟨ls', hls'⟩ := h'.literals
  constructor
  · obtain ⟨ls, hls⟩ := h.literals
    exact ⟨ls ++ ls', by rw [hls', hls, List.append_assoc]⟩
  · intro j o ho hj
    refine h'.same (h.same ho ?_) ?_
    · rcases hj with hj | hj | hj
      · exact .inl hj
      · exact .inr (.inl (by omega))
      · exact .inr (.inr hj)
    · rcases hj with hj | hj | hj
      · exact .inl (by omega)
      · exact .inr (.inl (by omega))
      · exact .inr (.inr hj)
  · intro j o ho hm hj ht hf
    by_cases hjm : j = m
    · exact h'.same (h.free ho hm (by omega) ht hf) (.inl (by omega))
    · exact h'.free (h.same ho (.inr (.inl (by omega)))) (by omega) (by omega) ht hf
  · intro j o ho hm hj ht hc
    by_cases hjm : j = m
    · obtain ⟨k, l, hr, hl, hv⟩ := h.case ho hm (by omega) ht hc
      refine ⟨k, l, h'.same hr (.inl (by omega)), ?_, hv⟩
      rw [hls', List.getElem?_append_left (List.getElem?_eq_some_iff.mp hl).1, hl]
    · exact h'.case (h.same ho (.inr (.inl (by omega)))) (by omega) (by omega) ht hc
  · intro j hj
    exact h'.none (h.none hj)

theorem replaceCases_spec (a : ZendOpArray) (var : ℕ) (val : Zval) (n m : ℕ) :
    a.CasesReplaced (replaceCases var val n m a) var val m n := by
  induction n generalizing m a with
  | zero =>
    constructor
    · exact ⟨[], by simp [replaceCases]⟩
    · exact fun h _ => h
    · intro j o _ hm hj
      omega
    · intro j o _ hm hj
      omega
    · exact fun h => h
  | succ n ih =>
    exact (replaceCase_spec a var val m).trans (ih (a.replaceCase var val m) (m + 1))

/-- Opline `i` is the first that reads the temporary. -/
structure FirstReader (a : ZendOpArray) (var i : ℕ) (o : ZendOp) : Prop where
  opline : a.opcodes[i]? = some o
  reads : o.readsTmp var = true
  first : ∀ {j : ℕ} {o' : ZendOp}, j < i → a.opcodes[j]? = some o' → o'.readsTmp var = false

def OnlyReader (a : ZendOpArray) (var i : ℕ) : Prop :=
  ∀ (j : ℕ) (o : ZendOp), a.opcodes[j]? = some o → o.readsTmp var = true → j = i

/-- The readers of the temporary are of the two kinds that the scan replaces: one opline outside
of a switch, whose operand keeps the value of the constant; or the first operands of `CASE` and
`FREE` oplines up to the end of the last loop or switch around the first of them. -/
def FoldableAt (a : ZendOpArray) (var : ℕ) (val : Zval) (i : ℕ) (o : ZendOp) : Prop :=
  (o.op1.isTmp var = true → o.isSwitchUse = true →
    (a.findSwitch i = none → o.opcode = .free ∧ a.OnlyReader var i) ∧
    ∀ e, a.findSwitch i = some e → ∀ (j : ℕ) (o' : ZendOp), a.opcodes[j]? = some o' →
      o'.readsTmp var = true → j ≤ e.brk ∧ o'.op1.isTmp var = true ∧ o'.isSwitchUse = true ∧
        (o'.opcode = .case → o'.op2.isTmp var = false)) ∧
  (o.op1.isTmp var = true → o.isSwitchUse = false →
    a.OnlyReader var i ∧ o.op2.isTmp var = false ∧ KeepsOp1 o val) ∧
  (o.op1.isTmp var = false →
    a.OnlyReader var i ∧ KeepsOp2 (if i = 0 then none else a.opcodes[i - 1]?) o val)

theorem replaceFrom_first (h : a.FirstReader var i o) (hj : j ≤ i) (hn : i < j + n) :
    a.replaceFrom var val n j = a.replaceAt var val i o := by
  induction n generalizing j with
  | zero => omega
  | succ n ih =>
    by_cases hji : j = i
    · subst hji
      have hr := h.reads
      simp only [ZendOp.readsTmp] at hr
      simp [replaceFrom, h.opline, hr]
    · obtain ⟨hi, -⟩ := List.getElem?_eq_some_iff.mp h.opline
      obtain ⟨o', ho'⟩ : ∃ o', a.opcodes[j]? = some o' :=
        ⟨_, List.getElem?_eq_getElem (by omega)⟩
      have hr := h.first (by omega) ho'
      simp only [ZendOp.readsTmp] at hr
      simpa [replaceFrom, ho', hr] using ih (by omega) (by omega)

/-- The scan stops at the first reader. -/
theorem replaceTmpByConst_first (h : a.FirstReader var i o) (hj : j ≤ i) :
    a.replaceTmpByConst j var val = a.replaceAt var val i o := by
  obtain ⟨hi, -⟩ := List.getElem?_eq_some_iff.mp h.opline
  exact replaceFrom_first h hj (by omega)

theorem replaceFrom_none (h : ∀ (j : ℕ) (o : ZendOp), a.opcodes[j]? = some o →
    o.readsTmp var = false) : a.replaceFrom var val n j = a := by
  induction n generalizing j with
  | zero => rfl
  | succ n ih =>
    cases ho : a.opcodes[j]? with
    | none => simp [replaceFrom, ho]
    | some o =>
      have hr := h j o ho
      simp only [ZendOp.readsTmp] at hr
      simpa [replaceFrom, ho, hr] using ih

omit [ZendEngine] in
/-- If the temporary is read at all, one opline is the first to do it. -/
theorem exists_firstReader (ho : a.opcodes[i]? = some o) (hr : o.readsTmp var = true) :
    ∃ i o, a.FirstReader var i o := by
  induction i using Nat.strong_induction_on generalizing o with
  | _ i ih =>
    by_cases h : ∃ (j : ℕ) (o' : ZendOp), j < i ∧ a.opcodes[j]? = some o' ∧ o'.readsTmp var = true
    · obtain ⟨j, o', hj, ho', hr'⟩ := h
      exact ih j hj ho' hr'
    · refine ⟨i, o, ho, hr, fun {j o'} hj ho' => ?_⟩
      rw [Bool.eq_false_iff]
      exact fun hr' => h ⟨j, o', hj, ho', hr'⟩

/-- Replacing one opline replaces every use if and only if it is the only reader and its own uses
are replaced. -/
theorem allReplaced_modify_iff {f : ZendOp → ZendOp} (h : a.FirstReader var i o)
    (hops : r.opcodes = a.opcodes.modify i f) :
    AllReplaced a r var val ↔ a.OnlyReader var i ∧ (f o).readsTmp var = false ∧
      Replaced r.literals var val o (f o) := by
  have hi : r.opcodes[i]? = some (f o) := by simp [hops, h.opline]
  have hne : ∀ {j : ℕ}, j ≠ i → r.opcodes[j]? = a.opcodes[j]? := by
    intro j hj
    rw [hops, List.getElem?_modify_ne _ _ (Ne.symm hj)]
  constructor
  · rintro ⟨hno, hall⟩
    refine ⟨fun j o' ho' hr => ?_, hno i _ hi, ?_⟩
    · by_contra hj
      rw [← hne hj] at ho'
      simp [hno j o' ho'] at hr
    · obtain ⟨o', ho', hrep⟩ := hall i o h.opline h.reads
      obtain rfl := Option.some.inj (hi.symm.trans ho')
      exact hrep
  · rintro ⟨honly, hno, hrep⟩
    refine ⟨fun j o' ho' => ?_, fun j o' ho' hr => ?_⟩
    · by_cases hj : j = i
      · subst hj
        obtain rfl := Option.some.inj (hi.symm.trans ho')
        exact hno
      · rw [hne hj] at ho'
        rw [Bool.eq_false_iff]
        exact fun hr => hj (honly j o' ho' hr)
    · obtain rfl := honly j o' ho' hr
      obtain rfl := Option.some.inj (h.opline.symm.trans ho')
      exact ⟨_, hi, hrep⟩

/-- A `CASE` or `FREE` that is the first reader, outside of any loop or switch. -/
theorem allReplaced_nop_iff (h : a.FirstReader var i o) (ht : o.op1.isTmp var = true)
    (hu : o.isSwitchUse = true) : AllReplaced a (a.modifyOp i .makeNop) var val ↔
      o.opcode = .free ∧ a.OnlyReader var i := by
  rw [allReplaced_modify_iff h rfl]
  constructor
  · rintro ⟨honly, -, hrep⟩
    refine ⟨?_, honly⟩
    by_contra hf
    simp [ZendOp.isSwitchUse, ← (hrep.op1 hf ht).1] at hu
  · rintro ⟨hf, honly⟩
    refine ⟨honly, by simp [ZendOp.readsTmp], fun _ _ => rfl, fun hf' => absurd hf hf',
      fun hno => absurd ⟨hf, ht⟩ hno⟩

/-- The readers in a loop or switch around the first one. -/
theorem CasesReplaced.allReplaced_iff (hr : a.CasesReplaced r var val i n)
    (h : a.FirstReader var i o) : AllReplaced a r var val ↔
      ∀ (j : ℕ) (o' : ZendOp), a.opcodes[j]? = some o' → o'.readsTmp var = true →
        j < i + n ∧ o'.op1.isTmp var = true ∧ o'.isSwitchUse = true ∧
          (o'.opcode = .case → o'.op2.isTmp var = false) := by
  have hle : ∀ {j : ℕ} {o' : ZendOp}, a.opcodes[j]? = some o' → o'.readsTmp var = true → i ≤ j := by
    intro j o' ho' hreads
    by_contra hj
    simp [h.first (by omega) ho'] at hreads
  constructor
  · rintro ⟨hno, -⟩ j o' ho' hreads
    have hkept : ¬ (j < i ∨ i + n ≤ j ∨ o'.op1.isTmp var = false ∨ o'.isSwitchUse = false) := by
      intro hj
      simp [hno j o' (hr.same ho' hj)] at hreads
    simp only [not_or, not_lt, not_le, Bool.not_eq_false] at hkept
    obtain ⟨hi, hn, ht, hu⟩ := hkept
    refine ⟨hn, ht, hu, fun hc => ?_⟩
    obtain ⟨k, l, ho'', -⟩ := hr.case ho' hi hn ht hc
    simpa [ZendOp.readsTmp] using hno j _ ho''
  · intro hall
    have hreader : ∀ {j : ℕ} {o' : ZendOp}, a.opcodes[j]? = some o' → o'.readsTmp var = true →
        ∃ o'', r.opcodes[j]? = some o'' ∧ o''.readsTmp var = false ∧
          Replaced r.literals var val o' o'' := by
      intro j o' ho' hreads
      obtain ⟨hn, ht, hu, hop2⟩ := hall j o' ho' hreads
      have hi := hle ho' hreads
      by_cases hf : o'.opcode = .free
      · refine ⟨_, hr.free ho' hi hn ht hf, by simp [ZendOp.readsTmp], fun _ _ => rfl,
          fun hf' => absurd hf hf', fun hno => absurd ⟨hf, ht⟩ hno⟩
      · have hc : o'.opcode = .case := by simpa [ZendOp.isSwitchUse, hf] using hu
        obtain ⟨k, l, ho'', hl, hv⟩ := hr.case ho' hi hn ht hc
        refine ⟨_, ho'', by simpa [ZendOp.readsTmp] using hop2 hc, fun hf' => absurd hf' hf,
          fun _ _ => ⟨rfl, rfl, l, hl, hv⟩, fun _ ht' => ?_⟩
        simp [hop2 hc] at ht'
    refine ⟨fun j o'' ho'' => ?_, fun j o' ho' hreads => ?_⟩
    · cases ho' : a.opcodes[j]? with
      | none => simp [hr.none ho'] at ho''
      | some o' =>
        cases hreads : o'.readsTmp var with
        | true =>
          obtain ⟨o₂, ho₂, hno, -⟩ := hreader ho' hreads
          obtain rfl := Option.some.inj (ho''.symm.trans ho₂)
          exact hno
        | false =>
          have ht : o'.op1.isTmp var = false := by
            simp only [ZendOp.readsTmp, Bool.or_eq_false_iff] at hreads
            exact hreads.1
          obtain rfl := Option.some.inj (ho''.symm.trans (hr.same ho' (.inr (.inr (.inl ht)))))
          exact hreads
    · obtain ⟨o'', ho'', -, hrep⟩ := hreader ho' hreads
      exact ⟨o'', ho'', hrep⟩

theorem allReplaced_op1_iff (h : a.FirstReader var i o) (ht : o.op1.isTmp var = true)
    (hu : o.isSwitchUse = false) : AllReplaced a (a.updateOp1Const i val) var val ↔
      a.OnlyReader var i ∧ o.op2.isTmp var = false ∧ KeepsOp1 o val := by
  have hf : o.opcode ≠ .free := fun hf => by simp [ZendOp.isSwitchUse, hf] at hu
  obtain ⟨l, ls, hops, hlits, hk⟩ := updateOp1Const_spec val h.opline hf
  have hl : (a.updateOp1Const i val).literals[a.literals.length]? = some l := by simp [hlits]
  rw [allReplaced_modify_iff h hops, ← hk]
  simp only [ZendOp.readsTmp, Znode.isTmp_const, Bool.false_or]
  refine and_congr_right fun _ => and_congr_right fun hop2 => ⟨fun hrep => ?_, fun hv => ?_⟩
  · obtain ⟨-, -, l', hl', hv⟩ := hrep.op1 hf ht
    obtain rfl := Option.some.inj (hl.symm.trans hl')
    exact hv
  · refine ⟨fun hf' => absurd hf' hf, fun _ _ => ⟨rfl, rfl, l, hl, hv⟩, fun _ ht' => ?_⟩
    simp [hop2] at ht'

theorem allReplaced_op2_iff (h : a.FirstReader var i o) (ht : o.op1.isTmp var = false) :
    AllReplaced a (a.updateOp2Const i val) var val ↔
      a.OnlyReader var i ∧ KeepsOp2 (if i = 0 then none else a.opcodes[i - 1]?) o val := by
  have ht2 : o.op2.isTmp var = true := by simpa [ZendOp.readsTmp, ht] using h.reads
  obtain ⟨l, ls, hops, hlits, hk⟩ := updateOp2Const_spec val h.opline
  have hl : (a.updateOp2Const i val).literals[a.literals.length]? = some l := by simp [hlits]
  rw [allReplaced_modify_iff h hops, ← hk]
  simp only [ZendOp.readsTmp, Znode.isTmp_const, Bool.or_false, ht, true_and]
  refine and_congr_right fun _ => ⟨fun hrep => ?_, fun hv => ?_⟩
  · obtain ⟨-, -, l', hl', hv⟩ := hrep.op2 (by simp [ht]) ht2
    obtain rfl := Option.some.inj (hl.symm.trans hl')
    exact hv
  · refine ⟨fun _ ht' => ?_, fun _ ht' => ?_, fun _ _ => ⟨rfl, rfl, l, hl, hv⟩⟩ <;> simp [ht] at ht'

/-- The scan replaces every use exactly when the readers are of a kind it handles. -/
theorem allReplaced_replaceAt_iff (h : a.FirstReader var i o) :
    AllReplaced a (a.replaceAt var val i o) var val ↔ a.FoldableAt var val i o := by
  unfold replaceAt FoldableAt
  cases ht : o.op1.isTmp var with
  | false => simpa [ht] using allReplaced_op2_iff h ht
  | true =>
    cases hu : o.isSwitchUse with
    | false =>
      have hno : ¬ (o.opcode = .case ∨ o.opcode = .free) := by
        simpa [ZendOp.isSwitchUse] using hu
      simpa [ht, hno] using allReplaced_op1_iff h ht hu
    | true =>
      have hyes : o.opcode = .case ∨ o.opcode = .free := by simpa [ZendOp.isSwitchUse] using hu
      cases hs : a.findSwitch i with
      | none => simpa [ht, hyes, hs] using allReplaced_nop_iff h ht hu
      | some e =>
        have hlt : i < e.brk := by
          have := List.find?_some hs
          simp only [decide_eq_true_eq] at this
          exact this.2
        have hn : i + (e.brk + 1 - i) = e.brk + 1 := by omega
        simpa [ht, hyes, hs, hn, Nat.lt_succ_iff] using
          (replaceCases_spec a var val (e.brk + 1 - i) i).allReplaced_iff h

/-- Pass 1 folds opline `d` to the value. -/
structure Folds (a : ZendOpArray) (d : ℕ) (o : ZendOp) (val : Zval) : Prop where
  opline : a.opcodes[d]? = some o
  const : a.foldedConst o = some val

def Foldable (a : ZendOpArray) (var : ℕ) (val : Zval) : Prop :=
  ∀ i o, a.FirstReader var i o → a.FoldableAt var val i o

omit [ZendEngine] in
@[simp] theorem literalDtor_opcodes (x : Znode) : (a.literalDtor x).opcodes = a.opcodes := by
  unfold literalDtor
  split_ifs <;> rfl

omit [ZendEngine] in
@[simp] theorem literalDtor_brkContArray (x : Znode) :
    (a.literalDtor x).brkContArray = a.brkContArray := by
  unfold literalDtor
  split_ifs <;> rfl

omit [ZendEngine] in
theorem beforeScan_opcodes (d : ℕ) :
    (a.beforeScan d o).opcodes = a.opcodes.modify d .makeNop := by
  unfold beforeScan
  split_ifs <;> simp [modifyOp]

omit [ZendEngine] in
theorem beforeScan_findSwitch (d : ℕ) : (a.beforeScan d o).findSwitch i = a.findSwitch i := by
  unfold beforeScan findSwitch
  split_ifs <;> simp

/-- An opline that pass 1 folds has no `OP_DATA` opline. -/
theorem Folds.checksData {d : ℕ} (h : a.Folds d o val) : o.checksData = false := by
  have hc := h.const
  unfold foldedConst at hc
  unfold ZendOp.checksData
  cases hop : o.opcode <;>
    simp_all [ZendOpcode.isFoldedBinary, ZendOpcode.isAssignOp]

section Congr

variable {b : ZendOpArray}

/-- Two op arrays with the same readers of a temporary. -/
def SameReaders (a b : ZendOpArray) (var : ℕ) : Prop :=
  ∀ (j : ℕ) (o : ZendOp), o.readsTmp var = true →
    (b.opcodes[j]? = some o ↔ a.opcodes[j]? = some o)

theorem SameReaders.allReplaced_iff (hs : SameReaders a b var) :
    AllReplaced a r var val ↔ AllReplaced b r var val := by
  refine and_congr_right fun _ => forall_congr' fun j => forall_congr' fun o => ?_
  exact ⟨fun h ho hr => h ((hs j o hr).mp ho) hr, fun h ho hr => h ((hs j o hr).mpr ho) hr⟩

omit [ZendEngine] in
theorem SameReaders.onlyReader_iff (hs : SameReaders a b var) :
    a.OnlyReader var i ↔ b.OnlyReader var i := by
  refine forall_congr' fun j => forall_congr' fun o => ?_
  exact ⟨fun h ho hr => h ((hs j o hr).mp ho) hr, fun h ho hr => h ((hs j o hr).mpr ho) hr⟩

omit [ZendEngine] in
theorem SameReaders.firstReader_iff (hs : SameReaders a b var) :
    a.FirstReader var i o ↔ b.FirstReader var i o := by
  have hno : ∀ {a b : ZendOpArray}, SameReaders a b var → a.FirstReader var i o →
      b.FirstReader var i o := by
    intro a b hs h
    refine ⟨(hs i o h.reads).mpr h.opline, h.reads, fun {j o'} hj ho' => ?_⟩
    rw [Bool.eq_false_iff]
    intro hr
    simp [h.first hj ((hs j o' hr).mp ho')] at hr
  exact ⟨hno hs, hno fun j o hr => (hs j o hr).symm⟩

theorem keepsOp2_congr {p q : Option ZendOp}
    (h : p.any (·.checksData) = q.any (·.checksData)) : KeepsOp2 p o val ↔ KeepsOp2 q o val := by
  simp only [KeepsOp2, h]

end Congr

/-- Nothing but opline `d` changes before the scan, and it neither reads the temporary nor has
data. -/
theorem Folds.sameReaders {d : ℕ} (h : a.Folds d o val) (hd : o.readsTmp var = false) :
    SameReaders a (a.beforeScan d o) var := by
  intro j o' hr
  rw [beforeScan_opcodes, List.getElem?_modify]
  by_cases hj : d = j
  · subst hj
    rw [h.opline]
    constructor
    · intro ho
      obtain rfl : o.makeNop = o' := by simpa using ho
      simp [ZendOp.readsTmp] at hr
    · rintro ⟨⟩
      simp [hd] at hr
  · simp [hj]

theorem Folds.prev_checksData {d : ℕ} (h : a.Folds d o val) :
    ((a.beforeScan d o).opcodes[i]?).any (·.checksData) =
      (a.opcodes[i]?).any (·.checksData) := by
  rw [beforeScan_opcodes, List.getElem?_modify]
  by_cases hi : d = i
  · subst hi
    have hnop : o.makeNop.checksData = false := by
      simp [ZendOp.checksData, ZendOpcode.isAssignOp]
    simp [h.opline, h.checksData, hnop]
  · simp [hi]

theorem Folds.foldableAt_iff {d : ℕ} (h : a.Folds d o val) (hd : o.readsTmp var = false)
    {o' : ZendOp} {val' : Zval} :
    (a.beforeScan d o).FoldableAt var val' i o' ↔ a.FoldableAt var val' i o' := by
  have hs := h.sameReaders hd
  have hp : (if i = 0 then none else (a.beforeScan d o).opcodes[i - 1]?).any (·.checksData) =
      (if i = 0 then none else a.opcodes[i - 1]?).any (·.checksData) := by
    split_ifs
    · rfl
    · exact h.prev_checksData
  unfold FoldableAt
  rw [← hs.onlyReader_iff, beforeScan_findSwitch, keepsOp2_congr hp]
  refine and_congr_left fun _ => imp_congr_right fun _ => imp_congr_right fun _ =>
    and_congr_right fun _ => forall_congr' fun e => imp_congr_right fun _ =>
    forall_congr' fun j => forall_congr' fun o₁ => ?_
  exact ⟨fun h ho hr => h ((hs j o₁ hr).mpr ho) hr, fun h ho hr => h ((hs j o₁ hr).mp ho) hr⟩

/-- After a fold no opline reads the temporary, and every use has become the constant or a `NOP`, if
and only if the first reader is of one of the kinds the scan handles, together with all others. -/
theorem fold_replaces_iff {d : ℕ} (h : a.Folds d o val)
    (hreads : ∀ (j : ℕ) (o' : ZendOp), a.opcodes[j]? = some o' →
      o'.readsTmp o.result.num = true → d < j) :
    AllReplaced a (a.fold d o val) o.result.num val ↔ a.Foldable o.result.num val := by
  have hd : o.readsTmp o.result.num = false := by
    rw [Bool.eq_false_iff]
    exact fun hr => Nat.lt_irrefl d (hreads d o h.opline hr)
  have hs := h.sameReaders hd
  rw [hs.allReplaced_iff]
  rw [fold]
  constructor
  · intro hall i o₁ hfirst
    have hfirst' := hs.firstReader_iff.mp hfirst
    rw [replaceTmpByConst_first hfirst' (hreads i o₁ hfirst.opline hfirst.reads),
      allReplaced_replaceAt_iff hfirst'] at hall
    exact (h.foldableAt_iff hd).mp hall
  · intro hfold
    by_cases hex : ∃ i o₁, a.FirstReader o.result.num i o₁
    · obtain ⟨i, o₁, hfirst⟩ := hex
      have hfirst' := hs.firstReader_iff.mp hfirst
      rw [replaceTmpByConst_first hfirst' (hreads i o₁ hfirst.opline hfirst.reads),
        allReplaced_replaceAt_iff hfirst']
      exact (h.foldableAt_iff hd).mpr (hfold i o₁ hfirst)
    · -- nothing reads the temporary
      have hno : ∀ (j : ℕ) (o₁ : ZendOp), (a.beforeScan d o).opcodes[j]? = some o₁ →
          o₁.readsTmp o.result.num = false := by
        intro j o₁ ho₁
        rw [Bool.eq_false_iff]
        exact fun hr => hex (exists_firstReader ((hs j o₁ hr).mp ho₁) hr)
      rw [replaceTmpByConst, replaceFrom_none hno]
      refine ⟨hno, fun j o₁ ho₁ hr => ?_⟩
      simp [hno j o₁ ho₁] at hr

end ZendOpArray

end Uses

namespace ZendOpArray

/-- An engine that adds integers. -/
@[reducible] def addingEngine : ZendEngine where
  zendHashFunc _ := 0
  zendHandleNumeric _ := none
  binaryOp
    | .add, .long x, .long y => some (.long (x + y))
    | _, _, _ => none
  unaryOp _ _ := none
  convertTo _ val := val
  persistentConstant _ := none

section

local instance addingZendEngine : ZendEngine := addingEngine

/-- `T0 = 1 + 2` -/
def addOp : ZendOp :=
  ⟨.add, ⟨.const, 0, false⟩, ⟨.const, 1, false⟩, ⟨.tmpVar, 0, false⟩, 0⟩

/-- `echo 1 + 2;` -/
def echoSum : ZendOpArray where
  opcodes := [addOp, ⟨.echo, ⟨.tmpVar, 0, false⟩, .none, .none, 0⟩,
    ⟨.ret, ⟨.const, 2, false⟩, .none, .none, 0⟩]
  literals := [⟨.long 1, 0, -1⟩, ⟨.long 2, 0, -1⟩, ⟨.null, 0, -1⟩]
  brkContArray := []
  tryCatchArray := []
  hasFinallyBlock := false
  T := 1
  lastVar := 0
  lastCacheSlot := 0

theorem fold_replaces_iff_echo : AllReplaced echoSum (echoSum.fold 0 addOp (.long 3)) 0 (.long 3) ↔
    echoSum.Foldable 0 (.long 3) := by
  refine fold_replaces_iff (o := addOp) ⟨rfl, rfl⟩ fun j o' ho' hr => ?_
  cases j with
  | zero =>
    obtain rfl := Option.some.inj ho'
    exact absurd hr (by decide)
  | succ j => exact Nat.succ_pos j

/-- `list($a, $b) = 1 + 2;` -/
def listSum : ZendOpArray where
  opcodes := [addOp,
    ⟨.fetchDimTmpVar, ⟨.tmpVar, 0, false⟩, ⟨.const, 2, false⟩, ⟨.var, 1, false⟩, 0⟩,
    ⟨.assign, ⟨.cv, 0, false⟩, ⟨.var, 1, false⟩, ⟨.var, 2, true⟩, 0⟩,
    ⟨.fetchDimTmpVar, ⟨.tmpVar, 0, false⟩, ⟨.const, 3, false⟩, ⟨.var, 3, false⟩, 0⟩,
    ⟨.assign, ⟨.cv, 1, false⟩, ⟨.var, 3, false⟩, ⟨.var, 4, true⟩, 0⟩,
    ⟨.free, ⟨.tmpVar, 0, false⟩, .none, .none, 0⟩,
    ⟨.ret, ⟨.const, 4, false⟩, .none, .none, 0⟩]
  literals := [⟨.long 1, 0, -1⟩, ⟨.long 2, 0, -1⟩, ⟨.long 0, 0, -1⟩, ⟨.long 1, 0, -1⟩,
    ⟨.null, 0, -1⟩]
  brkContArray := []
  tryCatchArray := []
  hasFinallyBlock := false
  T := 5
  lastVar := 2
  lastCacheSlot := 0

/-- Only the first element fetch gets the constant; the second one and the `FREE` still read the
temporary that nobody writes any more. -/
theorem fold_leaves_reader : listSum.Folds 0 addOp (.long 3) ∧
    (∀ (j : ℕ) (o : ZendOp), listSum.opcodes[j]? = some o → o.result.isTmp 0 = true → j = 0) ∧
    (∀ (j : ℕ) (o : ZendOp), listSum.opcodes[j]? = some o → o.readsTmp 0 = true → 0 < j) ∧
    ¬ AllReplaced listSum (listSum.fold 0 addOp (.long 3)) 0 (.long 3) := by
  refine ⟨⟨rfl, rfl⟩, fun j o ho hw => ?_, fun j o ho hr => ?_, fun hall => ?_⟩
  · have hall : ∀ o ∈ listSum.opcodes.tail, o.result.isTmp 0 = false := by decide
    cases j with
    | zero => rfl
    | succ j =>
      have hmem : o ∈ listSum.opcodes.tail := List.mem_of_getElem? ho
      simp [hall o hmem] at hw
  · cases j with
    | zero =>
      obtain rfl := Option.some.inj ho
      exact absurd hr (by decide)
    | succ j => exact Nat.succ_pos j
  · exact absurd (hall.1 3 _ rfl) (by decide)

end

end ZendOpArray

end ZendOpcache
