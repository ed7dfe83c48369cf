import ZendOpcache.Optimizer.Sources

/-! # Results that are never read

`zend_t_usage` joins the upward exposed uses of all blocks but the first and goes through each block
backwards. A result that it drops is not read on any path of the new code, unless an opline reads
its own result as an argument and has no temporary as `op1`.
-/

namespace ZendOpcache

/-- The operand is the temporary `t`. -/
def Znode.IsTemp (x : Znode) (t : ℕ) : Prop := x.isTmpOrVar = true ∧ x.num = t

namespace ZendOp

variable {o : ZendOp} {t : ℕ} {usage : ℕ → Bool}

/-- Opcodes that read their result. -/
def readsResult : ZendOpcode → Bool
  | .recv | .recvInit | .recvVariadic | .addArrayElement | .opData => true
  | _ => false

def HasArg (o : ZendOp) (t : ℕ) : Prop := o.op1.IsTemp t ∨ o.op2.IsTemp t

/-- The opline reads its result `t` as an argument. -/
def HasResultArg (o : ZendOp) (t : ℕ) : Prop := readsResult o.opcode = true ∧ o.result.IsTemp t

def Reads (o : ZendOp) (t : ℕ) : Prop := o.HasArg t ∨ o.HasResultArg t

def Writes (o : ZendOp) (t : ℕ) : Prop := o.resultUsed = true ∧ o.result.num = t

/-- The oplines that `zend_t_usage` replaces by a `NOP`. -/
def removable : ZendOpcode → Bool
  | .qmAssign | .bool | .boolNot => true
  | _ => false

/-- The opcodes whose result the second loop takes for an argument if there is one in `op1`. -/
def extendsResult : ZendOpcode → Bool
  | .recv | .recvInit | .recvVariadic | .addArrayElement => true
  | _ => false

/-- `EXT_TYPE_UNUSED` is taken back. -/
def clearUnused (o : ZendOp) : ZendOp := { o with result := { o.result with extUnused := false } }

theorem usageBefore_iff : o.usageBefore usage t = true ↔
    o.HasArg t ∨ (extendsResult o.opcode = true ∧ o.op1.isTmpOrVar = true ∧ o.result.num = t) ∨
      ((o.Writes t → extendsResult o.opcode = true) ∧ usage t = true) := by
  have hext : (o.opcode = .recv ∨ o.opcode = .recvInit ∨ o.opcode = .recvVariadic ∨
      o.opcode = .addArrayElement) ↔ extendsResult o.opcode = true := by
    cases o.opcode <;> simp [extendsResult]
  simp only [usageBefore, hext, HasArg, Znode.IsTemp, Writes]
  split_ifs <;> simp_all [Function.update_apply] <;> grind

theorem resNeverUsed_iff : o.resNeverUsed usage = true ↔
    o.result.type = .unused ∨ (o.result.isTmpOrVar = true ∧ usage o.result.num = false) := by
  simp [resNeverUsed]

theorem not_resNeverUsed (hw : o.Writes t) (ht : usage t = true) :
    o.resNeverUsed usage = false := by
  obtain ⟨hused, rfl⟩ := hw
  rw [Bool.eq_false_iff]
  intro h
  rcases resNeverUsed_iff.mp h with hun | ⟨-, hfalse⟩
  · simp [resultUsed, hun] at hused
  · simp [ht] at hfalse

section WithoutResult

/-- The ways to leave out a result. -/
theorem withoutResult_cases (o : ZendOp) :
    (o.withoutResult = o ∧ removable o.opcode = false) ∨
    (dropsResult o.opcode = true ∧ o.result.type = .var ∧
      o.withoutResult = { o with result := { o.result with extUnused := true } }) ∨
    (removable o.opcode = true ∧ o.withoutResult = o.makeNop) ∨
    (o.opcode = .print ∧
      o.withoutResult = { o with opcode := .echo, result := o.result.setUnused }) ∨
    ((o.opcode = .jmpzEx ∨ o.opcode = .jmpnzEx) ∧
      o.withoutResult =
        { o with opcode := o.opcode.withoutResult, result := o.result.setUnused }) := by
  unfold withoutResult
  split_ifs with hd hvar
  · exact .inr (.inl ⟨hd, hvar, rfl⟩)
  · refine .inl ⟨rfl, ?_⟩
    revert hd
    cases o.opcode <;> simp [dropsResult, removable]
  · split <;> rename_i hc <;> simp [hc, removable]

theorem withoutResult_hasArg :
    o.withoutResult.HasArg t ↔ o.HasArg t ∧ removable o.opcode = false := by
  rcases withoutResult_cases o with ⟨h, hr⟩ | ⟨hd, -, h⟩ | ⟨hr, h⟩ | ⟨hc, h⟩ | ⟨hc, h⟩ <;> rw [h]
  · simp [hr]
  · have hr : removable o.opcode = false := by
      revert hd
      cases o.opcode <;> simp [dropsResult, removable]
    simp [HasArg, hr]
  · simp [HasArg, Znode.IsTemp, Znode.isTmpOrVar, Znode.none, hr]
  · simp [HasArg, hc, removable]
  · rcases hc with hc | hc <;> simp [HasArg, hc, removable]

theorem withoutResult_hasResultArg (h : o.withoutResult.HasResultArg t) : o.HasResultArg t := by
  rcases withoutResult_cases o with ⟨ho, -⟩ | ⟨-, -, ho⟩ | ⟨-, ho⟩ | ⟨-, ho⟩ | ⟨hc, ho⟩ <;>
    rw [ho] at h
  · exact h
  · exact h
  · exact absurd h.1 (by simp [readsResult])
  · exact absurd h.1 (by simp [readsResult])
  · refine absurd h.1 ?_
    rcases hc with hc | hc <;> simp [hc, readsResult, ZendOpcode.withoutResult]

theorem withoutResult_not_writes (h : o.withoutResult ≠ o) : ¬o.withoutResult.Writes t := by
  rintro ⟨hused, -⟩
  rcases withoutResult_cases o with ⟨ho, -⟩ | ⟨-, hvar, ho⟩ | ⟨-, ho⟩ | ⟨-, ho⟩ | ⟨-, ho⟩
  · exact h ho
  · simp [ho, resultUsed, hvar] at hused
  · simp [ho, resultUsed, Znode.none] at hused
  · simp [ho, resultUsed, Znode.setUnused] at hused
  · simp [ho, resultUsed, Znode.setUnused] at hused

theorem withoutResult_extendsResult :
    extendsResult o.withoutResult.opcode = extendsResult o.opcode := by
  rcases withoutResult_cases o with ⟨ho, -⟩ | ⟨-, -, ho⟩ | ⟨hr, ho⟩ | ⟨hc, ho⟩ | ⟨hc, ho⟩ <;>
    rw [ho]
  · revert hr
    cases o.opcode <;> simp [removable, extendsResult]
  · simp [hc, extendsResult]
  · rcases hc with hc | hc <;> simp [hc, extendsResult, ZendOpcode.withoutResult]

theorem withoutResult_of_readsResult (h : readsResult o.opcode = true) : o.withoutResult = o := by
  rcases withoutResult_cases o with ⟨ho, -⟩ | ⟨hd, -, -⟩ | ⟨hr, -⟩ | ⟨hc, -⟩ | ⟨hc, -⟩
  · exact ho
  · revert hd h
    cases o.opcode <;> simp [dropsResult, readsResult]
  · revert hr h
    cases o.opcode <;> simp [removable, readsResult]
  · simp [hc, readsResult] at h
  · rcases hc with hc | hc <;> simp [hc, readsResult] at h

theorem withoutResult_of_extendsResult (h : extendsResult o.opcode = true) :
    o.withoutResult = o := by
  refine withoutResult_of_readsResult ?_
  revert h
  cases o.opcode <;> simp [extendsResult, readsResult]

end WithoutResult

/-- The opline keeps its operands if the temporaries in `S` are needed after it. -/
def Stays (o : ZendOp) (S : Set ℕ) : Prop :=
  removable o.opcode = true → o.result.type ≠ .unused ∧
    (o.result.isTmpOrVar = true → o.result.num ∈ S)

/-- An opline with what `zend_t_usage` takes away from it, if `usage` is used after it. -/
def dropped (o : ZendOp) (usage : ℕ → Bool) : ZendOp :=
  if o.resNeverUsed usage then o.withoutResult else o

/-- The opline that `zend_t_usage` leaves. -/
def afterUsage (o : ZendOp) (usage : ℕ → Bool) : ZendOp :=
  (o.dropped usage).restoreResult ((o.dropped usage).usageBefore usage)

/-- What is needed before an opline. -/
theorem usageBefore_dropped_iff : (o.dropped usage).usageBefore usage t = true ↔
    (o.HasArg t ∧ o.Stays {x | usage x = true}) ∨
      (extendsResult o.opcode = true ∧ o.op1.isTmpOrVar = true ∧ o.result.num = t) ∨
      ((o.Writes t → extendsResult o.opcode = true) ∧ usage t = true) := by
  unfold dropped
  split_ifs with hnever
  · have hstays : o.Stays {x | usage x = true} ↔ removable o.opcode = false := by
      rw [resNeverUsed_iff] at hnever
      cases hr : removable o.opcode
      · simp [Stays, hr]
      · rcases hnever with hun | ⟨htmp, hfalse⟩
        · simp [Stays, hr, hun]
        · simp [Stays, hr, htmp, hfalse]
    rw [usageBefore_iff, withoutResult_hasArg, withoutResult_extendsResult, hstays]
    by_cases hext : extendsResult o.opcode = true
    · simp [hext, withoutResult_of_extendsResult hext]
    · have ho : usage t = true → ¬o.Writes t := fun ht hw => by
        simp [not_resNeverUsed hw ht] at hnever
      have ho' : usage t = true → ¬o.withoutResult.Writes t := fun ht hw => by
        by_cases heq : o.withoutResult = o
        · exact ho ht (heq ▸ hw)
        · exact withoutResult_not_writes heq hw
      simp only [hext, Bool.false_eq_true, false_and, false_or, imp_false]
      exact or_congr_right (and_congr_left fun ht => ⟨fun _ => ho ht, fun _ => ho' ht⟩)
  · have hstays : o.Stays {x | usage x = true} := by
      rw [resNeverUsed_iff, not_or, not_and] at hnever
      exact fun _ => ⟨hnever.1, fun htmp => by simpa using hnever.2 htmp⟩
    simp [usageBefore_iff, hstays]

end ZendOp

/-- The temporaries that are needed by oplines, if those in `E` are needed after them: an opline
without a result that is needed does not need its operands. -/
def Needed (E : Set ℕ) : List ZendOp → Set ℕ
  | [] => E
  | o :: ops => {t | (o.HasArg t ∧ o.Stays (Needed E ops)) ∨
      (ZendOp.extendsResult o.opcode = true ∧ o.op1.isTmpOrVar = true ∧ o.result.num = t) ∨
      ((o.Writes t → ZendOp.extendsResult o.opcode = true) ∧ t ∈ Needed E ops)}

section AfterUsage

variable {E : Set ℕ} {o : ZendOp} {ops : List ZendOp} {usage : ℕ → Bool} {t : ℕ}

/-- The result is left out, if the temporaries in `S` are needed after the opline. -/
def ZendOp.LeftOut (o : ZendOp) (S : Set ℕ) (t : ℕ) : Prop :=
  o.withoutResult ≠ o ∧ t ∉ S ∧ (ZendOp.dropsResult o.opcode = true → ¬o.HasArg t)

/-- `EXT_TYPE_UNUSED` is taken from the result `t`. -/
def ZendOp.Restored (o : ZendOp) (E : Set ℕ) (ops : List ZendOp) (t : ℕ) : Prop :=
  (o.result.type = .var ∧ o.result.extUnused = true ∧ o.result.num = t) ∧
    t ∈ Needed E (o :: ops) ∧ (o.withoutResult = o ∨ t ∈ Needed E ops)

theorem ZendOp.restoreResult_cases (o : ZendOp) (usage : ℕ → Bool) :
    (o.restoreResult usage = o ∧
      ¬(o.result.type = .var ∧ o.result.extUnused = true ∧ usage o.result.num = true)) ∨
    (o.restoreResult usage = o.clearUnused ∧
      o.result.type = .var ∧ o.result.extUnused = true ∧ usage o.result.num = true) := by
  unfold restoreResult
  split_ifs with h
  · exact .inr ⟨rfl, h⟩
  · exact .inl ⟨rfl, h⟩

theorem ZendOp.dropped_cases (o : ZendOp) (usage : ℕ → Bool) :
    (o.dropped usage = o ∧ (o.withoutResult = o ∨ o.resNeverUsed usage = false)) ∨
    (o.dropped usage = o.withoutResult ∧ o.withoutResult ≠ o ∧ o.resNeverUsed usage = true) := by
  unfold dropped
  by_cases heq : o.withoutResult = o
  · simp [heq]
  · by_cases hnever : o.resNeverUsed usage = true
    · exact .inr ⟨if_pos hnever, heq, hnever⟩
    · exact .inl ⟨if_neg hnever, .inr (by simpa using hnever)⟩

theorem ZendOp.usage_of_isTemp (h : o.result.IsTemp t) :
    o.resNeverUsed usage = true ↔ usage t = false := by
  obtain ⟨htmp, rfl⟩ := h
  have htype : o.result.type ≠ .unused := fun hun => by simp [Znode.isTmpOrVar, hun] at htmp
  simp [resNeverUsed_iff, htype, htmp]

theorem ZendOp.Writes.isTemp (h : o.Writes t) : o.result.IsTemp t := by
  obtain ⟨hused, rfl⟩ := h
  refine ⟨?_, rfl⟩
  simp only [resultUsed, Bool.or_eq_true, Bool.and_eq_true, beq_iff_eq] at hused
  rcases hused with ⟨hvar, -⟩ | htmp
  · simp [Znode.isTmpOrVar, hvar]
  · simp [Znode.isTmpOrVar, htmp]

/-- The operands that are left are needed. -/
theorem ZendOp.afterUsage_hasArg (h : (o.afterUsage usage).HasArg t) :
    o.HasArg t ∧ (o.dropped usage).HasArg t := by
  have hd : (o.dropped usage).HasArg t := by
    rw [afterUsage] at h
    rcases restoreResult_cases (o.dropped usage) ((o.dropped usage).usageBefore usage) with
      ⟨heq, -⟩ | ⟨heq, -⟩ <;> rw [heq] at h <;> exact h
  refine ⟨?_, hd⟩
  rcases dropped_cases o usage with ⟨heq, -⟩ | ⟨heq, -⟩
  · exact heq ▸ hd
  · exact (withoutResult_hasArg.mp (heq ▸ hd)).1

theorem ZendOp.afterUsage_hasResultArg (h : (o.afterUsage usage).HasResultArg t) :
    o.HasResultArg t := by
  have hd : (o.dropped usage).HasResultArg t := by
    rw [afterUsage] at h
    rcases restoreResult_cases (o.dropped usage) ((o.dropped usage).usageBefore usage) with
      ⟨heq, -⟩ | ⟨heq, -⟩ <;> rw [heq] at h <;> exact h
  rcases dropped_cases o usage with ⟨heq, -⟩ | ⟨heq, -⟩
  · exact heq ▸ hd
  · exact withoutResult_hasResultArg (heq ▸ hd)

theorem ZendOp.usageBefore_iff_needed (hE : {x | usage x = true} = Needed E ops) :
    (o.dropped usage).usageBefore usage t = true ↔ t ∈ Needed E (o :: ops) := by
  have ht : usage t = true ↔ t ∈ Needed E ops := by rw [← hE]; rfl
  rw [usageBefore_dropped_iff, hE, ht]
  rfl

theorem ZendOp.needed_of_afterUsage_hasArg (hE : {x | usage x = true} = Needed E ops)
    (h : (o.afterUsage usage).HasArg t) : t ∈ Needed E (o :: ops) :=
  (usageBefore_iff_needed hE).mp (usageBefore_iff.mpr (.inl (afterUsage_hasArg h).2))

/-- The new opline is the old one but for the flag, or it has no result. -/
theorem ZendOp.afterUsage_cases (hE : {x | usage x = true} = Needed E ops) :
    (o.afterUsage usage = o ∧ ∀ t, ¬o.Restored E ops t) ∨
    (o.afterUsage usage = o.clearUnused ∧ o.result.type = .var ∧
      (o.Writes o.result.num ∨ o.Restored E ops o.result.num)) ∨
    (o.afterUsage usage = o.withoutResult ∧ o.withoutResult ≠ o ∧
      ∀ t, o.result.IsTemp t → o.LeftOut (Needed E ops) t) := by
  have hneeded : ∀ {t}, usage t = true ↔ t ∈ Needed E ops := fun {t} => by rw [← hE]; rfl
  have hbefore := @usageBefore_iff_needed E o ops usage
  rw [afterUsage]
  rcases dropped_cases o usage with ⟨hd, hsame⟩ | ⟨hd, hne, hnever⟩ <;> rw [hd] at hbefore ⊢
  · rcases restoreResult_cases o (o.usageBefore usage) with
      ⟨heq, hkeep⟩ | ⟨heq, hvar, hext, hused⟩
    · refine .inl ⟨heq, ?_⟩
      rintro t ⟨⟨hvar, hext, rfl⟩, hmem, -⟩
      exact hkeep ⟨hvar, hext, (hbefore hE).mpr hmem⟩
    · refine .inr (.inl ⟨heq, hvar, .inr ⟨⟨hvar, hext, rfl⟩, (hbefore hE).mp hused, ?_⟩⟩)
      refine hsame.imp_right fun hnever => hneeded.mp ?_
      have htemp : o.result.IsTemp o.result.num := ⟨by simp [Znode.isTmpOrVar, hvar], rfl⟩
      rw [← Bool.not_eq_false, ← usage_of_isTemp htemp, hnever]
      simp
  · rcases restoreResult_cases o.withoutResult (o.withoutResult.usageBefore usage) with
      ⟨heq, hkeep⟩ | ⟨heq, hvar, hext, -⟩
    · refine .inr (.inr ⟨heq, hne, fun t ht => ⟨hne, fun hmem => ?_, fun hdrops harg => ?_⟩⟩)
      · simpa [hneeded.mpr hmem] using (usage_of_isTemp ht).mp hnever
      -- an argument that is its own result is needed
      rcases withoutResult_cases o with ⟨ho, -⟩ | ⟨-, hvar, ho⟩ | ⟨hr, ho⟩ | ⟨hc, ho⟩ | ⟨hc, ho⟩
      · exact hne ho
      · rw [ho] at hkeep
        refine hkeep ⟨hvar, rfl, usageBefore_iff.mpr (.inl ?_)⟩
        rw [show _ = t from ht.2]
        exact harg
      · revert hdrops hr
        cases o.opcode <;> simp [dropsResult, removable]
      · simp [hc, dropsResult] at hdrops
      · rcases hc with hc | hc <;> simp [hc, dropsResult] at hdrops
    · rcases withoutResult_cases o with ⟨ho, -⟩ | ⟨-, hvar', ho⟩ | ⟨-, ho⟩ | ⟨-, ho⟩ | ⟨-, ho⟩
      · exact absurd ho hne
      · have hused : o.result.extUnused = false := by
          rw [← Bool.not_eq_true]
          intro hext
          exact hne (by rw [ho, ← hext])
        refine .inr (.inl ⟨by rw [heq, ho]; rfl, hvar', .inl ⟨?_, rfl⟩⟩)
        simp [resultUsed, hvar', hused]
      · simp [ho, Znode.none] at hvar
      · simp [ho, Znode.setUnused] at hvar
      · simp [ho, Znode.setUnused] at hvar

theorem ZendOp.clearUnused_writes (hvar : o.result.type = .var) :
    o.clearUnused.Writes t ↔ o.result.num = t := by
  simp [clearUnused, Writes, resultUsed, hvar]

/-- A result that is written was written before, or its flag is taken. -/
theorem ZendOp.writes_of_afterUsage (hE : {x | usage x = true} = Needed E ops)
    (h : (o.afterUsage usage).Writes t) : o.Writes t ∨ o.Restored E ops t := by
  rcases afterUsage_cases hE with ⟨heq, -⟩ | ⟨heq, hvar, hres⟩ | ⟨heq, hne, -⟩ <;> rw [heq] at h
  · exact .inl h
  · exact (clearUnused_writes hvar).mp h ▸ hres
  · exact absurd h (withoutResult_not_writes hne)

/-- A result that is no longer written has been left out. -/
theorem ZendOp.leftOut_of_not_writes (hE : {x | usage x = true} = Needed E ops)
    (h : ¬(o.afterUsage usage).Writes t) :
    (o.Writes t → o.LeftOut (Needed E ops) t) ∧ ¬o.Restored E ops t := by
  rcases afterUsage_cases hE with ⟨heq, hres⟩ | ⟨heq, hvar, -⟩ | ⟨-, hne, hleft⟩
  · rw [heq] at h
    exact ⟨fun hw => absurd hw h, hres t⟩
  · rw [heq, clearUnused_writes hvar] at h
    exact ⟨fun hw => absurd hw.2 h, fun hres => h hres.1.2.2⟩
  · refine ⟨fun hw => hleft t hw.isTemp, ?_⟩
    rintro ⟨⟨hvar, -, rfl⟩, -, hsame⟩
    obtain ⟨-, hunused, -⟩ := hleft o.result.num ⟨by simp [Znode.isTmpOrVar, hvar], rfl⟩
    exact hsame.elim hne hunused

theorem ZendOp.afterUsage_hasResultArg_of (hE : {x | usage x = true} = Needed E ops)
    (h : o.HasResultArg t) : (o.afterUsage usage).HasResultArg t := by
  rcases afterUsage_cases hE with ⟨heq, -⟩ | ⟨heq, -, -⟩ | ⟨-, hne, -⟩
  · exact heq ▸ h
  · exact heq ▸ h
  · exact absurd (withoutResult_of_readsResult h.1) hne

/-- What is left out is neither kept nor restored. -/
theorem ZendOp.afterUsage_of_leftOut (hE : {x | usage x = true} = Needed E ops)
    (ht : o.result.IsTemp t) (h : o.LeftOut (Needed E ops) t) :
    o.afterUsage usage ≠ o ∧ o.afterUsage usage ≠ o.clearUnused := by
  obtain ⟨hne, hunused, harg⟩ := h
  have hnever : o.resNeverUsed usage = true := by
    rw [usage_of_isTemp ht, ← Bool.not_eq_true]
    rwa [← hE] at hunused
  have hd : o.dropped usage = o.withoutResult := if_pos hnever
  have hbefore := @usageBefore_iff_needed E o ops usage
  have hopcode : (o.afterUsage usage).opcode = o.withoutResult.opcode := by
    rw [afterUsage, hd]
    rcases restoreResult_cases o.withoutResult (o.withoutResult.usageBefore usage) with
      ⟨heq, -⟩ | ⟨heq, -⟩ <;> rw [heq]
    rfl
  have hother : o.withoutResult.opcode ≠ o.opcode →
      o.afterUsage usage ≠ o ∧ o.afterUsage usage ≠ o.clearUnused := fun hc =>
    ⟨fun heq => hc (by rw [← hopcode, heq]), fun heq => hc (by rw [← hopcode, heq]; rfl)⟩
  rcases withoutResult_cases o with ⟨ho, -⟩ | ⟨hdrops, -, ho⟩ | ⟨hr, ho⟩ | ⟨hc, ho⟩ | ⟨hc, ho⟩
  · exact absurd ho hne
  · have hlast : t ∉ Needed E (o :: ops) := by
      rintro (⟨hmem, -⟩ | ⟨hext, -⟩ | ⟨-, hmem⟩)
      · exact harg hdrops hmem
      · revert hdrops hext
        cases o.opcode <;> simp [dropsResult, extendsResult]
      · exact hunused hmem
    have heq : o.afterUsage usage = o.withoutResult := by
      rw [afterUsage]
      rw [hd] at hbefore ⊢
      rcases restoreResult_cases o.withoutResult (o.withoutResult.usageBefore usage) with
        ⟨heq, -⟩ | ⟨-, -, -, hmem⟩
      · exact heq
      · rw [ho, show _ = t from ht.2, ← ho, hbefore hE] at hmem
        exact absurd hmem hlast
    refine ⟨heq ▸ hne, fun hclear => ?_⟩
    rw [heq, ho] at hclear
    simpa [clearUnused] using congrArg (·.result.extUnused) hclear
  · refine hother (by rw [ho]; revert hr; cases o.opcode <;> simp [removable])
  · exact hother (by simp [ho, hc])
  · exact hother (by rw [ho]; rcases hc with hc | hc <;> simp [hc, ZendOpcode.withoutResult])

end AfterUsage

section DropResults

variable {used : ℕ → Bool} {ops : List ZendOp} {o : ZendOp} {i t : ℕ}

theorem dropResults_cons : (dropResults used (o :: ops)).1 =
    o.afterUsage (dropResults used ops).2.1 :: (dropResults used ops).1 := rfl

theorem dropResults_cons_usage : (dropResults used (o :: ops)).2.1 =
    (o.dropped (dropResults used ops).2.1).usageBefore (dropResults used ops).2.1 := rfl

/-- The vector that the second loop computes is what is needed. -/
theorem dropResults_usage : (dropResults used ops).2.1 t = true ↔
    t ∈ Needed {x | used x = true} ops := by
  induction ops generalizing t with
  | nil => rfl
  | cons o ops ih =>
    have hset : {x | (dropResults used ops).2.1 x = true} = Needed {x | used x = true} ops :=
      Set.ext fun x => ih
    rw [dropResults_cons_usage, ZendOp.usageBefore_dropped_iff, hset, ih]
    rfl

theorem dropResults_length : (dropResults used ops).1.length = ops.length := by
  induction ops with
  | nil => rfl
  | cons o ops ih => rw [dropResults_cons, List.length_cons, List.length_cons, ih]

theorem dropResults_drop : ∀ (i : ℕ) (ops : List ZendOp),
    (dropResults used ops).1.drop i = (dropResults used (ops.drop i)).1
  | 0, _ => rfl
  | _ + 1, [] => rfl
  | i + 1, o :: ops => by rw [dropResults_cons, List.drop_succ_cons, dropResults_drop i ops]; rfl

theorem dropResults_getElem? : ∀ (i : ℕ) (ops : List ZendOp), (dropResults used ops).1[i]? =
    (ops[i]?).map fun o => o.afterUsage (dropResults used (ops.drop (i + 1))).2.1
  | _, [] => rfl
  | 0, o :: ops => by simp [dropResults_cons]
  | i + 1, o :: ops => by
    rw [dropResults_cons, List.getElem?_cons_succ, dropResults_getElem? i ops]
    rfl

end DropResults

section UsedExt

/-- The first loop finds the temporary: it is used before it is defined. -/
def Exposed (t : ℕ) : List ZendOp → Prop
  | [] => False
  | o :: ops => o.HasArg t ∨ (o.Writes t ∧ o.usesResult = true) ∨ (¬o.Writes t ∧ Exposed t ops)

variable {defined used : ℕ → Bool} {ops : List ZendOp} {o : ZendOp} {t : ℕ}

theorem tUsage_iff {x : Znode} : tUsage defined used x t = true ↔
    used t = true ∨ (defined t = false ∧ x.IsTemp t) := by
  unfold tUsage Znode.IsTemp
  split_ifs with h <;> simp_all [Function.update_apply] <;> grind

theorem usageStep_iff : (usageStep (defined, used) o).2 t = true ↔
    used t = true ∨ (defined t = false ∧ (o.HasArg t ∨ (o.Writes t ∧ o.usesResult = true))) := by
  simp only [usageStep, ZendOp.HasArg, ZendOp.Writes]
  split_ifs with hused huses <;> simp_all [Function.update_apply, tUsage_iff] <;> grind

theorem usageStep_defined : (usageStep (defined, used) o).1 t = true ↔
    defined t = true ∨ o.Writes t := by
  simp only [usageStep, ZendOp.Writes]
  split_ifs with hused <;> simp [hused, Function.update_apply] <;> grind

/-- The first loop over a block -/
theorem foldl_usageStep : (ops.foldl usageStep (defined, used)).2 t = true ↔
    used t = true ∨ (defined t = false ∧ Exposed t ops) := by
  induction ops generalizing defined used with
  | nil => simp [Exposed]
  | cons o ops ih =>
    have hdef : (usageStep (defined, used) o).1 t = false ↔ defined t = false ∧ ¬o.Writes t := by
      rw [← Bool.not_eq_true, usageStep_defined, not_or, Bool.not_eq_true]
    rw [List.foldl_cons, ← Prod.mk.eta (p := usageStep (defined, used) o), ih, usageStep_iff, hdef,
      Exposed]
    tauto

end UsedExt

namespace ZendCfg

variable {c c' : ZendCfg} {used : ℕ → Bool} {T b t : ℕ}

/-- The temporaries that a block other than the first uses and does not define. -/
def ExposedIn (c : ZendCfg) (l : List ℕ) : Set ℕ :=
  {t | ∃ b ∈ l, (c.blocks b).access = true ∧ ∃ ops, (c.blocks b).oplines = some ops ∧ Exposed t ops}

theorem foldlM_usageStep {l : List ℕ} {used₀ : ℕ → Bool}
    (h : l.foldlM (fun used b => if (c.blocks b).access then do
      let ops ← (c.blocks b).oplines
      some (ops.foldl usageStep (fun _ => false, used)).2 else some used) used₀ = some used) :
    used t = true ↔ used₀ t = true ∨ t ∈ c.ExposedIn l := by
  induction l generalizing used₀ with
  | nil => obtain rfl := Option.some.inj h; simp [ExposedIn]
  | cons b l ih =>
    rw [List.foldlM_cons] at h
    obtain ⟨used₁, hstep, h⟩ := Option.bind_eq_some_iff.mp h
    have hcons : t ∈ c.ExposedIn (b :: l) ↔ ((c.blocks b).access = true ∧
        ∃ ops, (c.blocks b).oplines = some ops ∧ Exposed t ops) ∨ t ∈ c.ExposedIn l := by
      simp [ExposedIn]
    rw [ih h, hcons, ← or_assoc]
    refine or_congr_left ?_
    split_ifs at hstep with hacc
    · obtain ⟨ops, hops, hstep⟩ := Option.bind_eq_some_iff.mp hstep
      obtain rfl := Option.some.inj hstep
      simp [foldl_usageStep, hacc, hops]
    · obtain rfl := Option.some.inj hstep
      simp [hacc]

/-- The vector that the first loop computes -/
theorem usedExt_eq (h : c.usedExt = some used) :
    {t | used t = true} = c.ExposedIn (c.order.drop 1) :=
  Set.ext fun t => (foldlM_usageStep h).trans (by simp)

/-- The second loop of `zend_t_usage` for one block -/
def dropBlock (used : ℕ → Bool) (c : ZendCfg) (b : ℕ) : Option ZendCfg :=
  if (c.blocks b).access then do
    let ops ← (c.blocks b).oplines
    let (ops, _, freed) := dropResults used ops
    some ((freed.foldl literalDtor c).modify b ({ · with oplines := some ops }))
  else some c

theorem dropBlock_blocks (h : c.dropBlock used b = some c') (x : ℕ) :
    (c'.blocks x).access = (c.blocks x).access ∧ (c'.blocks x).oplines =
      if x = b ∧ (c.blocks b).access = true then
        ((c.blocks b).oplines).map fun ops => (dropResults used ops).1
      else (c.blocks x).oplines := by
  unfold dropBlock at h
  split_ifs at h with hacc
  · obtain ⟨ops, hops, h⟩ := Option.bind_eq_some_iff.mp h
    have heq : ((dropResults used ops).2.2.foldl literalDtor c).modify b
        ({ · with oplines := some (dropResults used ops).1 }) = c' := Option.some.inj h
    obtain ⟨ls, hls⟩ := foldl_literalDtor (dropResults used ops).2.2 c
    rw [← heq, hls, modify_blocks]
    split_ifs with hx hx' hx'
    · simp [hops]
    · exact absurd ⟨hx, hacc⟩ hx'
    · exact absurd hx'.1 hx
    · exact ⟨rfl, rfl⟩
  · obtain rfl := Option.some.inj h
    simp [hacc]

/-- Each listed block has its own oplines rewritten. -/
theorem dropBlocks_oplines {l : List ℕ} (hnodup : l.Nodup)
    (h : l.foldlM (dropBlock used) c = some c') (b : ℕ) :
    (c'.blocks b).oplines = if b ∈ l ∧ (c.blocks b).access = true then
      ((c.blocks b).oplines).map fun ops => (dropResults used ops).1 else (c.blocks b).oplines := by
  induction l generalizing c with
  | nil => obtain rfl := Option.some.inj h; simp
  | cons x l ih =>
    rw [List.foldlM_cons] at h
    obtain ⟨c₁, hstep, h⟩ := Option.bind_eq_some_iff.mp h
    obtain ⟨hx, hnodup⟩ := List.nodup_cons.mp hnodup
    obtain ⟨hacc, hops⟩ := dropBlock_blocks hstep b
    rw [ih hnodup h, hacc, hops]
    by_cases hbx : b = x
    · subst hbx
      simp [hx]
    · simp [hbx]

/-- What `zend_t_usage` does to the oplines -/
theorem zendTUsage_oplines (hT : T ≠ 0) (hnodup : c.order.Nodup)
    (h : c.zendTUsage T = some (used, c')) (b : ℕ) :
    {t | used t = true} = c.ExposedIn (c.order.drop 1) ∧
    (c'.blocks b).oplines = if b ∈ c.order ∧ (c.blocks b).access = true then
      ((c.blocks b).oplines).map fun ops => (dropResults used ops).1 else (c.blocks b).oplines := by
  unfold zendTUsage at h
  rw [if_neg hT] at h
  simp only [Option.bind_eq_bind, Option.bind_eq_some_iff] at h
  obtain ⟨used', hused, c₁, hfold, h⟩ := h
  obtain ⟨rfl, rfl⟩ := Prod.mk.inj (Option.some.inj h)
  exact ⟨usedExt_eq hused, dropBlocks_oplines hnodup hfold b⟩

/-- A path from the oplines of a block leads to one with `R`, over oplines that `W` does not hold
of; it holds of an opline and of those after it in the block. -/
inductive Reaches (c : ZendCfg) (R : ZendOp → Prop) (W : ZendOp → List ZendOp → Prop) :
    ℕ → List ZendOp → Prop
  | here {b : ℕ} {o : ZendOp} {ops : List ZendOp} (h : R o) : Reaches c R W b (o :: ops)
  | next {b : ℕ} {o : ZendOp} {ops : List ZendOp} (h : ¬W o ops) (hops : Reaches c R W b ops) :
      Reaches c R W b (o :: ops)
  | edge {b s : ℕ} {ops : List ZendOp} (h : s ∈ (c.blocks b).successors)
      (hs : (c.blocks s).oplines = some ops) (hops : Reaches c R W s ops) : Reaches c R W b []

/-- A path reads the temporary before it is written. -/
def ReadsFrom (c : ZendCfg) (t b : ℕ) (ops : List ZendOp) : Prop :=
  c.Reaches (·.Reads t) (fun o _ => o.Writes t) b ops

/-- A consistent graph: `next` links each block once and all that are accessible and not empty. -/
structure Linked (c : ZendCfg) : Prop where
  consistent : c.Consistent
  whole : c.Whole
  listed : ∀ b, (c.blocks b).access = true → b ∈ c.order ∨ (c.blocks b).oplines = some []
  nodup : c.order.Nodup

/-- Each opline stays as it is, gets its result back, or loses a result that no path of the new
code reads before it is written again. -/
def DropsUnread (c c' : ZendCfg) : Prop :=
  ∀ b ops, (c.blocks b).access = true → (c.blocks b).oplines = some ops →
    ∃ ops', (c'.blocks b).oplines = some ops' ∧ ops'.length = ops.length ∧
      ∀ i o o', ops[i]? = some o → ops'[i]? = some o' → o' = o ∨ o' = o.clearUnused ∨
        (o' = o.withoutResult ∧
          ∀ t, o.result.IsTemp t → ¬c'.ReadsFrom t b (ops'.drop (i + 1)))

/-- No path from an opline whose result is left out comes to one that reads the same result as an
argument, before it is written again. -/
def NoHiddenRead (c : ZendCfg) : Prop :=
  ∀ b ops, (c.blocks b).access = true → (c.blocks b).oplines = some ops →
    ∀ i o t, ops[i]? = some o → o.result.IsTemp t →
      o.LeftOut (Needed (c.ExposedIn (c.order.drop 1)) (ops.drop (i + 1))) t →
      ¬c.Reaches (·.HasResultArg t)
        (fun o ops => o.Writes t ∨ o.Restored (c.ExposedIn (c.order.drop 1)) ops t) b
        (ops.drop (i + 1))

section Paths

variable {E : Set ℕ} {ops : List ZendOp}

/-- An operand is read that no opline before defines. -/
def ArgExposed (t : ℕ) : List ZendOp → Prop
  | [] => False
  | o :: ops => o.HasArg t ∨ (¬o.Writes t ∧ ArgExposed t ops)

theorem ArgExposed.exposed (h : ArgExposed t ops) : Exposed t ops := by
  induction ops with
  | nil => exact h
  | cons o ops ih => exact h.imp_right fun h => .inr ⟨h.1, ih h.2⟩

theorem ArgExposed.readsFrom (h : ArgExposed t ops) : c.ReadsFrom t b ops := by
  induction ops with
  | nil => exact h.elim
  | cons o ops ih =>
    rcases h with h | ⟨hw, h⟩
    · exact .here (.inl h)
    · exact .next hw (ih h)

/-- No path from here reads the temporary in the new code: none comes to an opline that reads it as
its result, and as an operand it is not needed, or used in no block that does not define it. -/
structure Quiet (c : ZendCfg) (t b : ℕ) (ops : List ZendOp) : Prop where
  hidden : ¬c.Reaches (·.HasResultArg t)
    (fun o ops => o.Writes t ∨ o.Restored (c.ExposedIn (c.order.drop 1)) ops t) b ops
  unused : t ∉ Needed (c.ExposedIn (c.order.drop 1)) ops ∨
    (t ∉ c.ExposedIn (c.order.drop 1) ∧ ¬ArgExposed t ops)

theorem Linked.not_argExposed (h : c.Linked)
    (hentry : ∀ e, c.firstAccess = some e → ∀ ops, (c.blocks e).oplines = some ops →
      ∀ t, ¬c.ReadsFrom t e ops)
    (ht : t ∉ c.ExposedIn (c.order.drop 1)) (hacc : (c.blocks b).access = true)
    (hops : (c.blocks b).oplines = some ops) : ¬ArgExposed t ops := by
  intro hexp
  rcases h.listed b hacc with hb | hnil
  swap
  · obtain rfl := Option.some.inj (hnil.symm.trans hops)
    exact hexp
  cases horder : c.order with
  | nil => simp [horder] at hb
  | cons e l =>
    rw [horder] at hb
    rcases List.mem_cons.mp hb with rfl | hb
    · -- the first block is where the code is entered
      have hfirst : c.firstAccess = some b := by simp [firstAccess, horder, hacc]
      exact hentry b hfirst ops hops t hexp.readsFrom
    · exact ht ⟨b, by simpa [horder] using hb, hacc, ops, hops, hexp.exposed⟩

theorem getElem?_of_drop {l rest : List ZendOp} {o : ZendOp} {i : ℕ} (h : l.drop i = o :: rest) :
    l[i]? = some o ∧ l.drop (i + 1) = rest := by
  rw [← List.head?_drop, ← List.tail_drop, h]
  exact ⟨rfl, rfl⟩

/-- A path of the new code does not leave the quiet part. -/
theorem NoHiddenRead.not_readsFrom_of_quiet (h : c.NoHiddenRead) (hl : c.Linked)
    (hentry : ∀ e, c.firstAccess = some e → ∀ ops, (c.blocks e).oplines = some ops →
      ∀ t, ¬c.ReadsFrom t e ops)
    (hused : {t | used t = true} = c.ExposedIn (c.order.drop 1)) (hr : Rewritten c c')
    (hops : ∀ x ops, (c.blocks x).access = true → (c.blocks x).oplines = some ops →
      (c'.blocks x).oplines = some (dropResults used ops).1)
    {new : List ZendOp} (hreads : c'.ReadsFrom t b new) :
    ∀ all i, (c.blocks b).access = true → (c.blocks b).oplines = some all →
      new = (dropResults used (all.drop i)).1 → ¬c.Quiet t b (all.drop i) := by
  have hE : ∀ ops, {x | (dropResults used ops).2.1 x = true} =
      Needed (c.ExposedIn (c.order.drop 1)) ops := fun ops => by
    rw [← hused]
    exact Set.ext fun x => dropResults_usage
  unfold ReadsFrom at hreads
  induction hreads with
  | @here b o' new hread =>
    intro all i hacc hall hnew hq
    cases hdrop : all.drop i with
    | nil => rw [hdrop] at hnew; cases hnew
    | cons o rest =>
      rw [hdrop] at hnew hq
      rw [dropResults_cons] at hnew
      obtain ⟨rfl, -⟩ := List.cons.inj hnew
      rcases hread with harg | hres
      · rcases hq.unused with hun | ⟨-, hun⟩
        · exact hun (ZendOp.needed_of_afterUsage_hasArg (hE rest) harg)
        · exact hun (.inl (ZendOp.afterUsage_hasArg harg).1)
      · exact hq.hidden (.here (ZendOp.afterUsage_hasResultArg hres))
  | @next b o' new hw hreach ih =>
    intro all i hacc hall hnew hq
    cases hdrop : all.drop i with
    | nil => rw [hdrop] at hnew; cases hnew
    | cons o rest =>
      rw [hdrop] at hnew hq
      rw [dropResults_cons] at hnew
      obtain ⟨rfl, rfl⟩ := List.cons.inj hnew
      obtain ⟨ho, hrest⟩ := getElem?_of_drop hdrop
      refine ih all (i + 1) hacc hall (by rw [hrest]) ?_
      rw [hrest]
      obtain ⟨hleft, hres⟩ := ZendOp.leftOut_of_not_writes (hE rest) hw
      by_cases hwrites : o.Writes t
      · have hhidden := h b all hacc hall i o t ho hwrites.isTemp (hrest ▸ hleft hwrites)
        exact ⟨hrest ▸ hhidden, .inl (hleft hwrites).2.1⟩
      · refine ⟨fun hr => hq.hidden (.next (not_or.mpr ⟨hwrites, hres⟩) hr), ?_⟩
        exact hq.unused.imp (fun hun hmem => hun (.inr (.inr ⟨fun hw => absurd hw hwrites, hmem⟩)))
          (And.imp_right fun hun hexp => hun (.inr ⟨hwrites, hexp⟩))
  | @edge b s new hs hnew hreach ih =>
    intro all i hacc hall hnil hq
    cases hdrop : all.drop i with
    | cons o rest => rw [hdrop] at hnil; cases hnil
    | nil =>
      rw [hdrop] at hq
      have hsucc := (hr.successors b s).mp hs
      obtain ⟨hsome, hsacc, -⟩ := hl.consistent b hacc s hsucc
      obtain ⟨alls, halls⟩ := Option.isSome_iff_exists.mp hsome
      rw [hops s alls hsacc halls] at hnew
      have hout : t ∉ c.ExposedIn (c.order.drop 1) := hq.unused.elim id And.left
      refine ih alls 0 hsacc halls (Option.some.inj hnew).symm
        ⟨fun hreach => hq.hidden (.edge hsucc halls hreach), .inr ⟨hout, ?_⟩⟩
      exact hl.not_argExposed hentry hout hsacc halls

/-- The oplines that read their result keep it. -/
theorem Reaches.readsFrom (hl : c.Linked)
    (hused : {t | used t = true} = c.ExposedIn (c.order.drop 1)) (hr : Rewritten c c')
    (hops : ∀ x ops, (c.blocks x).access = true → (c.blocks x).oplines = some ops →
      (c'.blocks x).oplines = some (dropResults used ops).1)
    (hreach : c.Reaches (·.HasResultArg t)
      (fun o ops => o.Writes t ∨ o.Restored (c.ExposedIn (c.order.drop 1)) ops t) b ops) :
    (c.blocks b).access = true → c'.ReadsFrom t b (dropResults used ops).1 := by
  have hE : ∀ ops, {x | (dropResults used ops).2.1 x = true} =
      Needed (c.ExposedIn (c.order.drop 1)) ops := fun ops => by
    rw [← hused]
    exact Set.ext fun x => dropResults_usage
  induction hreach with
  | here h =>
    intro hacc
    exact .here (.inr (ZendOp.afterUsage_hasResultArg_of (hE _) h))
  | next h _ ih =>
    intro hacc
    exact .next (fun hw => h (ZendOp.writes_of_afterUsage (hE _) hw)) (ih hacc)
  | @edge b s ops h hs _ ih =>
    intro hacc
    obtain ⟨-, hsacc, -⟩ := hl.consistent b hacc s h
    exact .edge ((hr.successors b s).mpr h) (hops s ops hsacc hs) (ih hsacc)

end Paths

/-- The temporaries of the results have numbers below `T`. -/
def TempsBelow (c : ZendCfg) (T : ℕ) : Prop :=
  ∀ b ops, (c.blocks b).access = true → (c.blocks b).oplines = some ops →
    ∀ o ∈ ops, ∀ t, o.result.IsTemp t → t < T

theorem foldlM_isSome {α β : Type*} {P : α → Prop} {f : α → β → Option α} (l : List β)
    (hf : ∀ x b, P x → ∃ x', f x b = some x' ∧ P x') {x : α} (hx : P x) :
    ∃ x', l.foldlM f x = some x' := by
  induction l generalizing x with
  | nil => exact ⟨x, rfl⟩
  | cons b l ih =>
    obtain ⟨x₁, hstep, hx₁⟩ := hf x b hx
    obtain ⟨x', hx'⟩ := ih hx₁
    exact ⟨x', by rw [List.foldlM_cons, hstep]; exact hx'⟩

theorem Whole.dropBlock (h : c.Whole) (used : ℕ → Bool) (b : ℕ) :
    ∃ c', c.dropBlock used b = some c' ∧ c'.Whole := by
  unfold ZendCfg.dropBlock
  split_ifs with hacc
  · obtain ⟨ops, hops⟩ := Option.isSome_iff_exists.mp (h b hacc)
    obtain ⟨ls, hls⟩ := foldl_literalDtor (dropResults used ops).2.2 c
    have hlits : Whole { c with literals := ls } := h.of_blocks rfl
    refine ⟨_, by rw [hops]; rfl, ?_⟩
    have hw := hlits.modify (b := b) (f := ({ · with oplines := some (dropResults used ops).1 })) id
      (by simp)
    rwa [← hls] at hw
  · exact ⟨c, rfl, h⟩

/-- `zend_t_usage` returns. -/
theorem Whole.zendTUsage_isSome (h : c.Whole) (T : ℕ) :
    ∃ used c', c.zendTUsage T = some (used, c') := by
  unfold ZendCfg.zendTUsage
  split_ifs with hT
  · exact ⟨_, c, rfl⟩
  have hused : ∃ used, c.usedExt = some used := by
    refine foldlM_isSome (P := fun _ => True) _ (fun used b _ => ?_) trivial
    split_ifs with hacc
    · obtain ⟨ops, hops⟩ := Option.isSome_iff_exists.mp (h b hacc)
      exact ⟨_, by rw [hops]; rfl, trivial⟩
    · exact ⟨used, rfl, trivial⟩
  obtain ⟨used, hused⟩ := hused
  obtain ⟨c', hfold⟩ := foldlM_isSome (P := Whole) c.order (fun c₁ b hc₁ => hc₁.dropBlock used b) h
  refine ⟨used, c', ?_⟩
  simp only [Option.bind_eq_bind, Option.bind_eq_some_iff]
  exact ⟨used, hused, c', hfold, rfl⟩

/-- `zend_t_usage` drops results that no path reads, exactly if no opline reads one of them as its
own result. -/
theorem dropsUnread_iff (hl : c.Linked) (hT : c.TempsBelow T)
    (hentry : ∀ e, c.firstAccess = some e → ∀ ops, (c.blocks e).oplines = some ops →
      ∀ t, ¬c.ReadsFrom t e ops) :
    ∃ used c', c.zendTUsage T = some (used, c') ∧ (c.DropsUnread c' ↔ c.NoHiddenRead) := by
  obtain ⟨used, c', h⟩ := hl.whole.zendTUsage_isSome T
  refine ⟨used, c', h, ?_⟩
  by_cases hT0 : T = 0
  · -- there are no temporaries, and nothing is done
    subst hT0
    obtain ⟨-, rfl⟩ := Prod.mk.inj (Option.some.inj h)
    constructor
    · intro _ b ops hacc hops i o t ho htemp
      exact absurd (hT b ops hacc hops o (List.mem_of_getElem? ho) t htemp) (Nat.not_lt_zero t)
    · intro _ b ops _ hops
      exact ⟨ops, hops, rfl, fun i o o' ho ho' => .inl (Option.some.inj (ho'.symm.trans ho))⟩
  obtain ⟨hused, -⟩ := zendTUsage_oplines hT0 hl.nodup h 0
  have hr := zendTUsage_rewritten h
  have hops : ∀ x ops, (c.blocks x).access = true → (c.blocks x).oplines = some ops →
      (c'.blocks x).oplines = some (dropResults used ops).1 := fun x ops hacc hx => by
    rw [(zendTUsage_oplines hT0 hl.nodup h x).2]
    split_ifs with hlisted
    · rw [hx]; rfl
    · have hnil := (hl.listed x hacc).resolve_left fun ho => hlisted ⟨ho, hacc⟩
      obtain rfl := Option.some.inj (hx.symm.trans hnil)
      exact hx
  have hE : ∀ ops, {x | (dropResults used ops).2.1 x = true} =
      Needed (c.ExposedIn (c.order.drop 1)) ops := fun ops => by
    rw [← hused]
    exact Set.ext fun x => dropResults_usage
  constructor
  · intro hdrops b ops hacc hb i o t ho htemp hleft hreach
    obtain ⟨ops', hb', -, hall⟩ := hdrops b ops hacc hb
    obtain rfl := Option.some.inj (hb'.symm.trans (hops b ops hacc hb))
    obtain ⟨hne, hclear⟩ := ZendOp.afterUsage_of_leftOut (hE _) htemp hleft
    rcases hall i o _ ho (by rw [dropResults_getElem?, ho]; rfl) with heq | heq | ⟨-, hno⟩
    · exact hne heq
    · exact hclear heq
    · exact hno t htemp (by rw [dropResults_drop]; exact hreach.readsFrom hl hused hr hops hacc)
  · intro hhidden b ops hacc hb
    refine ⟨_, hops b ops hacc hb, dropResults_length, fun i o o' ho ho' => ?_⟩
    rw [dropResults_getElem?, ho] at ho'
    obtain rfl := Option.some.inj ho'
    rcases ZendOp.afterUsage_cases (hE (ops.drop (i + 1))) with
      ⟨heq, -⟩ | ⟨heq, -⟩ | ⟨heq, -, hleft⟩
    · exact .inl heq
    · exact .inr (.inl heq)
    · refine .inr (.inr ⟨heq, fun t htemp hreads => ?_⟩)
      exact hhidden.not_readsFrom_of_quiet hl hentry hused hr hops hreads ops (i + 1) hacc hb
        (dropResults_drop _ _)
        ⟨hhidden b ops hacc hb i o t ho htemp (hleft t htemp), .inl (hleft t htemp).2.1⟩

end ZendCfg

namespace ZendOpArray

/-- An array is assigned to a temporary, which gets an element. -/
def appended : ZendOpArray where
  opcodes := [⟨.qmAssign, ⟨.const, 0, false⟩, .none, ⟨.tmpVar, 0, false⟩, 0⟩,
    ⟨.addArrayElement, ⟨.const, 1, false⟩, .none, ⟨.tmpVar, 0, false⟩, 0⟩,
    ⟨.ret, ⟨.const, 1, false⟩, .none, .none, 0⟩]
  literals := [⟨.array 0, 0, -1⟩, ⟨.long 1, 0, -1⟩]
  brkContArray := []
  tryCatchArray := []
  hasFinallyBlock := false
  T := 1
  lastVar := 0
  lastCacheSlot := 0

theorem appended_blocks : ∃ c, appended.findCodeBlocks.bind (·.rebuildAccessPath false) = some c ∧
    c.order = [0, 4] ∧ (c.blocks 0).access = true ∧ (c.blocks 0).oplines = some appended.opcodes ∧
    (c.blocks 0).successors = [] ∧ (c.blocks 4).access = false ∧
    ∀ b, b ≠ 0 → (c.blocks b).access = true →
      (c.blocks b).oplines = some [] ∧ (c.blocks b).successors = [] := by
  let c := (appended.findCodeBlocks.get rfl).clearAccess.modify 0 ({ · with access := true })
  refine ⟨c, rfl, rfl, rfl, rfl, rfl, rfl, fun b hb hacc => ?_⟩
  have hblocks : c.blocks b = if b ∈ [0, 4] then
      { (if b = 0 ∨ appended.startsBlock b = true then
          appended.codeBlock b (appended.nextStart b) else .zero) with
        access := false, sources := [] }
      else if b = 0 ∨ appended.startsBlock b = true then
        appended.codeBlock b (appended.nextStart b) else .zero := by
    rw [ZendCfg.modify_blocks, if_neg hb]
    rfl
  have hthree : b = 3 := by
    by_contra hne
    have hstart : appended.startsBlock b = false := by
      simp [startsBlock, appended, List.zipIdx, ZendOp.startBlocks, keptLoops]
      omega
    rw [hblocks, hstart] at hacc
    simp only [hb, Bool.false_eq_true, or_false, if_false] at hacc
    split_ifs at hacc
    exact Bool.false_ne_true hacc
  subst hthree
  exact ⟨rfl, rfl⟩

/-- The graph is consistent, and the temporary is written before it is read. -/
theorem appended_linked : ∃ c, appended.findCodeBlocks.bind (·.rebuildAccessPath false) = some c ∧
    (c.order = [0, 4] ∧ (c.blocks 0).access = true ∧ (c.blocks 0).oplines = some appended.opcodes ∧
      (c.blocks 4).access = false) ∧
    c.Linked ∧ c.TempsBelow appended.T ∧
    ∀ e, c.firstAccess = some e → ∀ ops, (c.blocks e).oplines = some ops →
      ∀ t, ¬c.ReadsFrom t e ops := by
  obtain ⟨c, hc, horder, hacc, hops, hsucc, hfour, hother⟩ := appended_blocks
  have hsuccs : ∀ b, (c.blocks b).access = true → (c.blocks b).successors = [] := fun b hb => by
    by_cases h0 : b = 0
    · exact h0 ▸ hsucc
    · exact (hother b h0 hb).2
  have hlinked : c.Linked := by
    constructor
    · intro b hb s hs
      rw [hsuccs b hb] at hs
      cases hs
    · intro b hb
      by_cases h0 : b = 0
      · rw [h0, hops]; rfl
      · rw [(hother b h0 hb).1]; rfl
    · intro b hb
      by_cases h0 : b = 0
      · simp [h0, horder]
      · exact .inr (hother b h0 hb).1
    · rw [horder]
      decide
  have hentry : ∀ e, c.firstAccess = some e → ∀ ops, (c.blocks e).oplines = some ops →
      ∀ t, ¬c.ReadsFrom t e ops := by
    intro e he ops' hops' t hreads
    obtain rfl : 0 = e := by
      rw [ZendCfg.firstAccess, horder] at he
      simpa [hacc] using he
    obtain rfl := Option.some.inj (hops.symm.trans hops')
    -- the first opline writes the only temporary
    cases hreads with
    | here h => simp [ZendOp.Reads, ZendOp.HasArg, ZendOp.HasResultArg, ZendOp.readsResult,
        Znode.IsTemp, Znode.isTmpOrVar, Znode.none] at h
    | next hw hreads =>
      have ht : t ≠ 0 := fun ht => hw ⟨rfl, ht.symm⟩
      cases hreads with
      | here h =>
        simp [ZendOp.Reads, ZendOp.HasArg, ZendOp.HasResultArg, ZendOp.readsResult,
          Znode.IsTemp, Znode.isTmpOrVar, Znode.none, ht.symm] at h
      | next _ hreads =>
        cases hreads with
        | here h => simp [ZendOp.Reads, ZendOp.HasArg, ZendOp.HasResultArg, ZendOp.readsResult,
            Znode.IsTemp, Znode.isTmpOrVar, Znode.none] at h
        | next _ hreads =>
          cases hreads with
          | edge hs => rw [hsucc] at hs; cases hs
  have hT : c.TempsBelow appended.T := by
    intro b ops' hb hops' o ho t ht
    by_cases h0 : b = 0
    · subst h0
      obtain rfl := Option.some.inj (hops.symm.trans hops')
      have htype : ∀ o ∈ appended.opcodes, o.result.num = 0 := by decide
      rw [← ht.2, htype o ho]
      decide
    · obtain rfl := Option.some.inj ((hother b h0 hb).1.symm.trans hops')
      cases ho
  exact ⟨c, hc, ⟨horder, hacc, hops, hfour⟩, hlinked, hT, hentry⟩

theorem dropsUnread_iff_appended : ∃ c used c',
    appended.findCodeBlocks.bind (·.rebuildAccessPath false) = some c ∧
    c.zendTUsage appended.T = some (used, c') ∧ (c.DropsUnread c' ↔ c.NoHiddenRead) := by
  obtain ⟨c, hc, -, hlinked, hT, hentry⟩ := appended_linked
  obtain ⟨used, c', h, hiff⟩ := c.dropsUnread_iff hlinked hT hentry
  exact ⟨c, used, c', hc, h, hiff⟩

/-- The assignment is deleted, and the element is added to a temporary that nothing writes. -/
theorem appended_unwritten : ∃ c used c',
    appended.findCodeBlocks.bind (·.rebuildAccessPath false) = some c ∧ c.Linked ∧
    c.TempsBelow appended.T ∧
    (∀ e, c.firstAccess = some e → ∀ ops, (c.blocks e).oplines = some ops →
      ∀ t, ¬c.ReadsFrom t e ops) ∧
    c.zendTUsage appended.T = some (used, c') ∧
    ((c'.blocks 0).oplines.map fun ops => ops.map (·.opcode)) =
      some [.nop, .addArrayElement, .ret] ∧ ¬c.DropsUnread c' := by
  obtain ⟨c, hc, ⟨horder, hacc, hops, hfour⟩, hlinked, hT, hentry⟩ := appended_linked
  obtain ⟨used, c', h⟩ := hlinked.whole.zendTUsage_isSome appended.T
  obtain ⟨hused, hops'⟩ := ZendCfg.zendTUsage_oplines (by decide) hlinked.nodup h 0
  have hnone : used = fun _ => false := by
    funext t
    by_contra ht
    have hmem : t ∈ c.ExposedIn (c.order.drop 1) := hused ▸ (by simpa using ht)
    rw [horder] at hmem
    obtain ⟨b, hb, hbacc, ops', hbops, hexp⟩ := hmem
    obtain rfl : b = 4 := by simpa using hb
    simp [hfour] at hbacc
  rw [if_pos ⟨by simp [horder], hacc⟩, hops, hnone] at hops'
  refine ⟨c, used, c', hc, hlinked, hT, hentry, h, by rw [hops']; decide, fun hdrops => ?_⟩
  obtain ⟨new, hnew, -, hall⟩ := hdrops 0 _ hacc hops
  obtain rfl := Option.some.inj (hnew.symm.trans hops')
  rcases hall 0 _ _ rfl rfl with heq | heq | ⟨-, hno⟩
  · exact absurd heq (by decide)
  · exact absurd heq (by decide)
  · exact hno 0 ⟨rfl, rfl⟩ (.here (.inr ⟨rfl, rfl, rfl⟩))

end ZendOpArray

end ZendOpcache
