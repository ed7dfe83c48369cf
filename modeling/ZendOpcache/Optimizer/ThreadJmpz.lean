import ZendOpcache.Optimizer.Assemble
import ZendOpcache.Optimizer.Threading

/-! # Threading a conditional jump

`zend_jmp_optimization` lets `JMPZ` and `JMPNZ` lead to where the test at their target leads, and
makes a `JMPZNZ` of one that a `JMP` follows. A test at the target may be taken for a test of the
same variable that is none; then the walk finds the same exactly if the way out cannot be told.
-/

namespace ZendOpcache

namespace ZendCfg

variable {c c' c₀ c₁ c₂ : ZendCfg} {A : Set ℕ} {b k n s t x y X : ℕ} {kept new : List (Option ℕ)}
  {f : ZendOp → ZendOp} {last target o : ZendOp} {ops : List ZendOp} {T lastVar : ℕ}

/-- The first opline other than `NOP` that `op2_to` of the block leads to, in a block that is not
protected. -/
def Threaded (c : ZendCfg) (b t : ℕ) (target : ZendOp) : Prop :=
  ∃ X, (c.blocks b).op2To = some X ∧ c.skipNops c.size X = some (t, target) ∧
    (c.blocks t).isProtected = false

/-- A test that the code takes for a test of the variable at the end of the block, although it is
none. The last opline becomes `o`. -/
inductive Mistaken (c : ZendCfg) (b T lastVar : ℕ) (last : ZendOp) (t : ℕ) (target : ZendOp) :
    ZendOp → Prop
  /-- `JMPZNZ`: the numbers of the variables are the same in eight bits only. -/
  | number (hop : last.opcode = .jmpznz) (hext : (c.blocks b).op2To ≠ (c.blocks b).extTo)
      (hnext₂ : (c.blocks b).op2To ≠ c.nextAccess b) (hnext₃ : (c.blocks b).extTo ≠ c.nextAccess b)
      (ht : c.Threaded b t target)
      (htarget : target.opcode = .jmpz ∨ target.opcode = .jmpnz ∨ target.opcode = .jmpznz)
      (hto : (c.blocks t).jumpTo target.opcode false ≠ none)
      (htest : ({ last.op1 with num := last.op1.num % 256 } : Znode).sameTmpOrCv target.op1 = true)
      (hnum : last.op1.num ≠ target.op1.num) : Mistaken c b T lastVar last t target last
  /-- `JMPZ`: the inverse `_EX` jump sets another variable, or would do so at the end of the
  block. -/
  | result (hop : last.opcode = .jmpz ∨ last.opcode = .jmpnz) (ht : c.Threaded b t target)
      (hinv : target.opcode = last.opcode.invCondEx)
      (htest : last.op1.sameTmpOrCv target.op1 = true) (hto : (c.blocks t).followTo ≠ none)
      (hvar : target.resultVar ≠ last.op1.var ∨
        (last.takeResult target.result).resultVar ≠ last.op1.var) :
      Mistaken c b T lastVar last t target (last.takeResult target.result)
  /-- `JMPZ_EX`: the kinds of two variables overlap, and they are not the same. -/
  | kinds (hop : last.opcode = .jmpzEx ∨ last.opcode = .jmpnzEx) (hconst : last.op1.type ≠ .const)
      (hvars : max T lastVar ≠ 0) (ht : c.Threaded b t target)
      (htarget : target.opcode.jumps = true ∧ target.opcode ≠ .jmp)
      (hto : (c.blocks t).op2To ≠ none ∧ (target.opcode = .jmpznz → (c.blocks t).extTo ≠ none))
      (htype : target.op1.type.isTmpOrCv = true)
      (htest : last.op1.sameT last.result target.op1 = true)
      (hres : target.opcode.setsTruth = true → last.op1.sameT last.result target.result = true)
      (hvar : ¬(target.op1.var = last.op1.var ∨ target.op1.var = last.resultVar) ∨
        target.opcode.setsTruth = true ∧
          ¬(target.resultVar = last.op1.var ∨ target.resultVar = last.resultVar)) :
      Mistaken c b T lastVar last t target last

theorem Threaded.eq_of_skipNops {t' : ℕ} {target' : ZendOp} (h : c.Threaded b t' target')
    (hX : (c.blocks b).op2To = some X) (hskip : c.skipNops c.size X = some (t, target)) :
    t' = t ∧ target' = target := by
  obtain ⟨X', hX', hskip', -⟩ := h
  obtain rfl := Option.some.inj (hX.symm.trans hX')
  exact Prod.mk.inj (Option.some.inj (hskip'.symm.trans hskip))

theorem Threaded.unique {t' : ℕ} {target' : ZendOp} (h : c.Threaded b t target)
    (h' : c.Threaded b t' target') : t = t' ∧ target = target' := by
  obtain ⟨X, hX, hskip, -⟩ := h'
  exact h.eq_of_skipNops hX hskip

theorem Mistaken.threaded (h : c.Mistaken b T lastVar last t target o) : c.Threaded b t target := by
  cases h <;> assumption

theorem Mistaken.unique {t' : ℕ} {target' o' : ZendOp} (h : c.Mistaken b T lastVar last t target o)
    (h' : c.Mistaken b T lastVar last t' target' o') : t = t' ∧ target = target' ∧ o = o' := by
  obtain ⟨rfl, rfl⟩ := h.threaded.unique h'.threaded
  refine ⟨rfl, rfl, ?_⟩
  cases h with
  | number hop =>
    cases h' with
    | number | kinds => rfl
    | result hop' => simp [hop] at hop'
  | result hop =>
    cases h' with
    | result => rfl
    | number hop' => simp [hop'] at hop
    | kinds hop' => rcases hop' with hop' | hop' <;> simp [hop'] at hop
  | kinds hop =>
    cases h' with
    | number | kinds => rfl
    | result hop' => rcases hop with hop | hop <;> simp [hop] at hop'

theorem isTmpOrCv_ne {z : Znode} (h : z.type.isTmpOrCv = true) : z.type ≠ .const := by
  rintro hz
  simp [hz, ZnodeType.isTmpOrCv] at h

theorem ne_const_of_sameTmpOrCv {z z' : Znode} (h : z.sameTmpOrCv z' = true) : z.type ≠ .const := by
  simp only [Znode.sameTmpOrCv, Bool.and_eq_true, beq_iff_eq] at h
  exact h.1.2 ▸ isTmpOrCv_ne h.1.1

theorem Mistaken.ne_const (h : c.Mistaken b T lastVar last t target o) :
    last.op1.type ≠ .const := by
  cases h with
  | number _ _ _ _ _ _ _ htest => exact fun hconst => ne_const_of_sameTmpOrCv htest hconst
  | result _ _ _ htest => exact ne_const_of_sameTmpOrCv htest
  | kinds _ hconst => exact hconst

variable [ZendEngine]

/-- The way out of the block when its jump is threaded through the test in block `t`: instead of
to `op2_to` it goes where that test goes with the same truth value. -/
def threadedExit (c : ZendCfg) (b t : ℕ) (last target o : ZendOp) (truth : ZnodeType × ℕ → Bool) :
    Move Place Unit Found :=
  let v := c.isTrue truth last.op1
  enter (if takesOp2 last.opcode v then (c.blocks t).jumpTo target.opcode v
    else (c.blocks b).jumpTo last.opcode v) (c.effect o truth)

/-- The tests that are mistaken cannot be told from what is found. -/
def MistakesHarmless (c : ZendCfg) (b k T lastVar : ℕ) (last : ZendOp) : Prop :=
  ∀ t target o, c.Mistaken b T lastVar last t target o →
    c.Harmless b k (c.threadedExit b t last target o)

theorem MistakesHarmless.of_none (h : ∀ t target o, ¬c.Mistaken b T lastVar last t target o) :
    c.MistakesHarmless b k T lastVar last := fun t target o hm => absurd hm (h t target o)

/-- A jump that leads nowhere is not mistaken. -/
theorem MistakesHarmless.of_no_target (h : (c.blocks b).op2To = none) :
    c.MistakesHarmless b k T lastVar last := by
  refine .of_none fun t target o hm => ?_
  obtain ⟨X, hX, -⟩ := hm.threaded
  simp [h] at hX

theorem Mistaken.harmless_iff (h : c.Mistaken b T lastVar last t target o) :
    c.MistakesHarmless b k T lastVar last ↔ c.Harmless b k (c.threadedExit b t last target o) := by
  refine ⟨fun hall => hall t target o h, fun hharm t' target' o' h' => ?_⟩
  obtain ⟨rfl, rfl, rfl⟩ := h.unique h'
  exact hharm

theorem isTrue_of_ne {z : Znode} {truth : ZnodeType × ℕ → Bool} (h : z.type ≠ .const) :
    c.isTrue truth z = truth z.var := by
  simp [isTrue, ZendCfg.constant, h]

/-- The same variable is tested. -/
theorem isTrue_of_sameTmpOrCv {z z' : Znode} {truth : ZnodeType × ℕ → Bool}
    (h : z.sameTmpOrCv z' = true) : c.isTrue truth z' = c.isTrue truth z := by
  have hne := ne_const_of_sameTmpOrCv h
  simp only [Znode.sameTmpOrCv, Bool.and_eq_true, beq_iff_eq] at h
  obtain ⟨⟨hz, htype⟩, hnum⟩ := h
  rw [isTrue_of_ne (isTmpOrCv_ne hz), isTrue_of_ne hne, Znode.var, Znode.var, htype, hnum]

theorem effect_of_jmpz {truth : ZnodeType × ℕ → Bool}
    (h : last.opcode = .jmpz ∨ last.opcode = .jmpnz ∨ last.opcode = .jmpznz ∨ last.opcode = .jmp) :
    c.effect last truth = truth := by
  refine effect_of_not ?_
  rcases h with h | h | h | h <;> simp [h, ZendOpcode.setsTruth]

/-- The block ends with a conditional jump, and the walk from its end finds the same. -/
structure Rethreaded (c c' : ZendCfg) (A : Set ℕ) (b k : ℕ) (op : ZendOpcode) : Prop where
  agrees : c.Agrees c' b k
  threads : ∃ A' ⊆ A, c'.Threads A' b k
  last : ∃ ops o, (c'.blocks b).oplines = some ops ∧ ops[k]? = some o ∧ o.opcode = op

section Jmpz

variable {op : ZendOpcode} (h : c.Threads A b k) (hops : (c.blocks b).oplines = some ops)
  (hlast : ops[k]? = some last) (hop : last.opcode = .jmpz ∨ last.opcode = .jmpnz)
include h hops hlast hop

omit hop in
theorem Threads.jmpz_self : c.Rethreaded c A b k last.opcode :=
  ⟨.refl _ _ _, ⟨A, subset_rfl, h⟩, ops, last, hops, hlast, rfl⟩

/-- The target of `JMPZ` moves. -/
theorem Threads.jmpz_move {edge : ZendCodeBlock → Option ℕ} (hedge : IsEdge edge)
    (hX : (c.blocks b).op2To = some X) (hskip : c.skipNops n X = some (t, target))
    (htarget : target.opcode.jumps = true)
    (harm : ∀ truth, takesOp2 last.opcode (c.isTrue truth last.op1) = true →
      (c.blocks t).jumpTo target.opcode (c.isTrue truth target.op1) = edge (c.blocks t) ∧
        c.effect target truth = truth)
    (hmove : ZendCfg.moveOp2 carefulDel c b t edge = some c₂) :
    c.Rethreaded c₂ A b k last.opcode := by
  have heffect : ∀ truth, c.effect last truth = truth := fun truth =>
    effect_of_jmpz (hop.imp_right .inl)
  have hjump : last.opcode.jumps = true := by
    rcases hop with hop | hop <;> simp [hop, ZendOpcode.jumps]
  have hm := h.moveOp2_same hedge hX hskip hmove
  refine ⟨?_, hm.threads, ops, last, hm.oplines.trans (by simp [hops]), hlast, rfl⟩
  refine hm.agrees_of_thread hops hlast hjump rfl (fun _ _ => rfl) h hjump hX hskip htarget
    (fun truth htakes => ?_) fun _ _ => rfl
  simpa only [heffect, id] using harm truth htakes

omit [ZendEngine] h hops hlast in
theorem withResult_spec : last.opcode.withResult.jumps = true ∧
    last.opcode.withResult.setsTruth = true ∧ ∀ (z : ZendCodeBlock) v,
      z.jumpTo last.opcode.withResult v = z.jumpTo last.opcode v := by
  rcases hop with hop | hop <;>
    simp [hop, ZendOpcode.withResult, ZendOpcode.jumps, ZendOpcode.setsTruth, ZendCodeBlock.jumpTo]

omit hlast hop in
/-- `JMPZ` takes over the result of the inverse test. -/
theorem Threads.jmpz_takeResult (hX : (c.blocks b).op2To = some X)
    (hskip : c.skipNops n X = some (t, target))
    (hmove : ZendCfg.moveOp2 carefulDel (c.setLast b (·.takeResult target.result)) b t
      (·.followTo) = some c₂) :
    c.Moved c₂ A b k (·.takeResult target.result) (c.blocks t).followTo := by
  have hk := h.last ops hops
  exact h.moveOp2 isEdge_followTo hX hskip rewired_setLast (fun _ => setLast_edges)
    (by simp [setLast, hops, hk]) rfl hmove

/-- The result is the variable that is tested. -/
theorem Threads.jmpz_moveEx (hX : (c.blocks b).op2To = some X)
    (hskip : c.skipNops n X = some (t, target)) (hinv : target.opcode = last.opcode.invCondEx)
    (htest : last.op1.sameTmpOrCv target.op1 = true) (hvar : target.resultVar = last.op1.var)
    (hvar' : (last.takeResult target.result).resultVar = last.op1.var)
    (hmove : ZendCfg.moveOp2 carefulDel (c.setLast b (·.takeResult target.result)) b t
      (·.followTo) = some c₂) : c.Rethreaded c₂ A b k last.opcode.withResult := by
  have heffect : ∀ truth, c.effect last truth = truth := fun truth =>
    effect_of_jmpz (hop.imp_right .inl)
  have hjump : last.opcode.jumps = true := by
    rcases hop with hop | hop <;> simp [hop, ZendOpcode.jumps]
  have htype := ne_const_of_sameTmpOrCv htest
  have htarget : target.opcode.jumps = true ∧ target.opcode.setsTruth = true := by
    rcases hop with hop | hop <;>
      simp [hinv, hop, ZendOpcode.invCondEx, ZendOpcode.jumps, ZendOpcode.setsTruth]
  obtain ⟨hwith, hsets, hto⟩ := withResult_spec hop
  have hnew : ∀ truth, c.effect (last.takeResult target.result) truth =
      Function.update truth last.op1.var (c.isTrue truth last.op1) := fun truth => by
    rw [effect_of_sets (o := last.takeResult target.result) hsets, hvar']
    rfl
  have hm := h.jmpz_takeResult hops hX hskip hmove
  refine ⟨?_, hm.threads, ops.modify k (·.takeResult target.result), last.takeResult target.result,
    hm.oplines.trans (by simp [hops]), by simp [hlast], rfl⟩
  refine hm.agrees_of_thread hops hlast hwith rfl hto h hjump hX hskip htarget.1
    (fun truth htakes => ?_) fun truth _ => ?_
  · rw [heffect, hnew, effect_of_sets htarget.2, isTrue_of_sameTmpOrCv htest, hinv, hvar]
    refine ⟨?_, rfl⟩
    revert htakes
    rcases hop with hop | hop <;>
      simp +contextual [hop, takesOp2, ZendOpcode.invCondEx, ZendCodeBlock.jumpTo]
  · -- the variable has this truth value already
    rw [hnew, heffect, isTrue_of_ne htype, Function.update_eq_self]

/-- Where `JMPZ` and `JMPNZ` jump to, if no test is mistaken -/
theorem Threads.threadJmpz (hnone : ∀ t target o, ¬c.Mistaken b T lastVar last t target o)
    (hstep : ZendCfg.threadJmpz carefulDel c b last = some (c', op)) :
    c.Rethreaded c' A b k op := by
  unfold ZendCfg.threadJmpz at hstep
  split at hstep
  · obtain ⟨rfl, rfl⟩ := Prod.mk.inj (Option.some.inj hstep)
    exact h.jmpz_self hops hlast
  rename_i X hX
  simp only [Option.bind_eq_bind, Option.bind_eq_some_iff, Prod.exists] at hstep
  obtain ⟨t, target, hskip, hstep⟩ := hstep
  split_ifs at hstep with h₁ h₂ h₃ h₄ h₅ hjmpz
  · -- the inverse test
    obtain ⟨hinv, htest, -⟩ := h₁
    obtain ⟨c₂, hmove, hstep⟩ := Option.bind_eq_some_iff.mp hstep
    obtain ⟨rfl, rfl⟩ := Prod.mk.inj (Option.some.inj hstep)
    refine h.jmpz_move hops hlast hop isEdge_followTo hX hskip ?_ (fun truth htakes => ⟨?_, ?_⟩)
      hmove
    · rcases hop with hop | hop <;> simp [hinv, hop, ZendOpcode.invCond, ZendOpcode.jumps]
    · rw [isTrue_of_sameTmpOrCv htest, hinv]
      revert htakes
      rcases hop with hop | hop <;>
        simp +contextual [hop, takesOp2, ZendOpcode.invCond, ZendCodeBlock.jumpTo]
    · refine effect_of_not ?_
      rcases hop with hop | hop <;> simp [hinv, hop, ZendOpcode.invCond, ZendOpcode.setsTruth]
  · -- the inverse test, which sets a variable
    obtain ⟨hinv, htest, hfollow, hprot⟩ := h₂
    obtain ⟨c₂, hmove, hstep⟩ := Option.bind_eq_some_iff.mp hstep
    obtain ⟨rfl, rfl⟩ := Prod.mk.inj (Option.some.inj hstep)
    have hvar : target.resultVar = last.op1.var ∧
        (last.takeResult target.result).resultVar = last.op1.var := by
      by_contra hvar
      refine hnone t target _ (.result hop ⟨X, hX, hskip, hprot⟩ hinv htest
        (Option.isSome_iff_ne_none.mp hfollow) ?_)
      tauto
    exact h.jmpz_moveEx hops hlast hop hX hskip hinv htest hvar.1 hvar.2 hmove
  · -- the same test
    obtain ⟨-, hsame, htest, -⟩ := h₃
    obtain ⟨c₂, hmove, hstep⟩ := Option.bind_eq_some_iff.mp hstep
    obtain ⟨rfl, rfl⟩ := Prod.mk.inj (Option.some.inj hstep)
    refine h.jmpz_move hops hlast hop isEdge_op2To hX hskip ?_ (fun truth htakes => ⟨?_, ?_⟩) hmove
    · rcases hop with hop | hop <;> simp [hsame, hop, ZendOpcode.jumps]
    · rw [isTrue_of_sameTmpOrCv htest, hsame, jumpTo_of_takesOp2 htakes]
    · exact effect_of_jmpz (hop.elim (.inl <| hsame.trans ·) (.inr <| .inl <| hsame.trans ·))
  · -- a jump
    obtain ⟨-, hjmp, -⟩ := h₄
    obtain ⟨c₂, hmove, hstep⟩ := Option.bind_eq_some_iff.mp hstep
    obtain ⟨rfl, rfl⟩ := Prod.mk.inj (Option.some.inj hstep)
    refine h.jmpz_move hops hlast hop isEdge_op1To hX hskip ?_ (fun truth _ => ⟨?_, ?_⟩) hmove
    · rw [hjmp]
      rfl
    · rw [hjmp]
      rfl
    · exact effect_of_jmpz (.inr (.inr (.inr hjmp)))
  · -- a jump in both cases
    obtain ⟨-, -, hznz, htest, -⟩ := h₅
    obtain ⟨c₂, hmove, hstep⟩ := Option.bind_eq_some_iff.mp hstep
    obtain ⟨rfl, rfl⟩ := Prod.mk.inj (Option.some.inj hstep)
    refine h.jmpz_move hops hlast hop isEdge_op2To hX hskip ?_ (fun truth htakes => ⟨?_, ?_⟩) hmove
    · rw [hznz]
      rfl
    · rw [isTrue_of_sameTmpOrCv htest, hznz]
      revert htakes
      simp +contextual [hjmpz, takesOp2, ZendCodeBlock.jumpTo]
    · exact effect_of_jmpz (.inr (.inr (.inl hznz)))
  · obtain ⟨-, -, hznz, htest, -⟩ := h₅
    obtain ⟨c₂, hmove, hstep⟩ := Option.bind_eq_some_iff.mp hstep
    obtain ⟨rfl, rfl⟩ := Prod.mk.inj (Option.some.inj hstep)
    have hjmpnz := hop.resolve_left hjmpz
    refine h.jmpz_move hops hlast hop isEdge_extTo hX hskip ?_ (fun truth htakes => ⟨?_, ?_⟩) hmove
    · rw [hznz]
      rfl
    · rw [isTrue_of_sameTmpOrCv htest, hznz]
      revert htakes
      simp +contextual [hjmpnz, takesOp2, ZendCodeBlock.jumpTo]
    · exact effect_of_jmpz (.inr (.inr (.inl hznz)))
  · obtain ⟨rfl, rfl⟩ := Prod.mk.inj (Option.some.inj hstep)
    exact h.jmpz_self hops hlast

/-- The inverse test sets another variable. -/
theorem Threads.threadJmpz_mistaken (hm : c.Mistaken b T lastVar last t target o)
    (hedges : ∀ v, (c.blocks b).jumpTo last.opcode v ≠ none)
    (hstep : ZendCfg.threadJmpz carefulDel c b last = some (c', op)) :
    op = last.opcode.withResult ∧
      (c.Agrees c' b k ↔ c.MistakesHarmless b k T lastVar last) := by
  rw [hm.harmless_iff]
  cases hm with
  | number hop' => simp [hop'] at hop
  | kinds hop' => rcases hop' with hop' | hop' <;> simp [hop'] at hop
  | result _ ht hinv htest hto =>
    obtain ⟨X, hX, hskip, hprot⟩ := ht
    have hne : target.opcode ≠ last.opcode.invCond := by
      rcases hop with hop | hop <;>
        simp [hinv, hop, ZendOpcode.invCond, ZendOpcode.invCondEx]
    have hfollow : (c.blocks t).followTo.isSome = true := Option.isSome_iff_ne_none.mpr hto
    have hjump : last.opcode.jumps = true := by
      rcases hop with hop | hop <;> simp [hop, ZendOpcode.jumps]
    unfold ZendCfg.threadJmpz at hstep
    simp only [hX, hskip, Option.bind_eq_bind, Option.bind_some] at hstep
    rw [if_neg fun h => hne h.1, if_pos ⟨hinv, htest, hfollow, hprot⟩] at hstep
    obtain ⟨c₂, hmove, hstep⟩ := Option.bind_eq_some_iff.mp hstep
    obtain ⟨rfl, rfl⟩ := Prod.mk.inj (Option.some.inj hstep)
    obtain ⟨hwith, -, hwithTo⟩ := withResult_spec hop
    refine ⟨rfl, (h.jmpz_takeResult hops hX hskip hmove).agrees_iff hops hlast hwith rfl hwithTo h
      hjump hedges fun truth => ?_⟩
    have hthread : takesOp2 last.opcode (c.isTrue truth last.op1) = true →
        (c.blocks t).jumpTo target.opcode (c.isTrue truth last.op1) = (c.blocks t).followTo := by
      rw [hinv]
      rcases hop with hop | hop <;>
        simp +contextual [hop, takesOp2, ZendOpcode.invCondEx, ZendCodeBlock.jumpTo]
    unfold threadedExit
    dsimp only
    split_ifs with htakes
    · rw [hthread htakes]
    · rfl

/-- `JMPZ` follows past a block of `NOP`s. -/
theorem Threads.followNop {l : List ZendOp} (hX : (c.blocks b).followTo = some X)
    (hl : (c.blocks X).oplines = some l) (hno : l.find? (·.opcode != .nop) = none)
    (hdel : carefulDel c b X [(c.blocks b).op1To, (c.blocks b).op2To, (c.blocks b).extTo]
      [(c.blocks X).followTo] = some c₁)
    (hadd : (c₁.setFollowTo b (c₁.blocks X).followTo).addSourceOf b
      ((c₁.setFollowTo b (c₁.blocks X).followTo).blocks b).followTo = some c₂) :
    c.Rethreaded c₂ A b k last.opcode := by
  have hjump : last.opcode.jumps = true := by
    rcases hop with hop | hop <;> simp [hop, ZendOpcode.jumps]
  obtain ⟨y, hy, rfl⟩ := addSourceOf_spec hadd
  obtain ⟨hsame, hlater, hlit₁⟩ := h.del (.refl b c) hdel
  have hXA : X ∈ A := h.edge_mem h.mem (mem_edges.mpr (by simp [hX]))
  have hXy : (c.blocks X).followTo = some y := by
    rw [← followTo_eq_of_edges (hlater X le_rfl), ← hy]
    simp [setFollowTo]
  have hb₁ := edges_eq_iff.mp hsame.edges
  generalize hc₂ : (c₁.setFollowTo b (c₁.blocks X).followTo).addSource b y = c₂
  have hr : Rewired b c₁ c₂ := by
    rw [← hc₂]
    exact (rewired_setFollowTo _).trans (Rewired.addSource b y _)
  have he : (c₂.blocks b).op1To = (c.blocks b).op1To ∧ (c₂.blocks b).op2To = (c.blocks b).op2To ∧
      (c₂.blocks b).extTo = (c.blocks b).extTo ∧ (c₂.blocks b).followTo = some y := by
    rw [← hc₂, addSource_op1To, addSource_op2To, addSource_extTo, addSource_followTo]
    simp only [setFollowTo, modify_blocks_self, followTo_eq_of_edges (hlater X le_rfl), hXy, hb₁,
      and_self]
  have hops₂ : (c₂.blocks b).oplines = (c.blocks b).oplines := by
    rw [← hsame.oplines, ← hc₂, addSource_oplines]
    simp [setFollowTo]
  have hlit₂ : c₂.literals = c₁.literals := by rw [← hc₂]; rfl
  have hlit : SameConstants c c₂ last := .of_literals (hlit₂.trans hlit₁)
  suffices hkeep : c.Agrees c₂ b k ∧ ∃ A' ⊆ A, c₂.Threads A' b k from
    ⟨hkeep.1, hkeep.2, ops, last, hops₂.trans hops, hlast, rfl⟩
  refine h.rewrite (f := id) (.refl b c) hdel hr hlit₂ (hops₂.trans map_modify_id.symm)
    (fun z hz => ?_) (fun z hz => ?_) (fun x ops i o _ _ _ => .of_literals rfl) fun truth => ?_
  · rw [mem_edges, he.1, he.2.1, he.2.2.1, he.2.2.2] at hz
    simp only [List.cons_append, List.nil_append, List.mem_cons, List.not_mem_nil, or_false, hXy]
    rcases hz with hz | hz | hz | hz
    · exact ⟨h.edge_mem h.mem (mem_edges.mpr (.inl hz)), .inl hz.symm⟩
    · exact ⟨h.edge_mem h.mem (mem_edges.mpr (.inr (.inl hz))), .inr (.inl hz.symm)⟩
    · exact ⟨h.edge_mem h.mem (mem_edges.mpr (.inr (.inr (.inl hz)))), .inr (.inr (.inl hz.symm))⟩
    · obtain rfl := Option.some.inj hz
      exact ⟨h.edge_mem hXA (mem_edges.mpr (by simp [hXy])), .inr (.inr (.inr rfl))⟩
  · obtain rfl : y = z := Option.some.inj (he.2.2.2.symm.trans hz)
    exact (h.follow b X hX).trans (h.follow X y hXy)
  · have hold := exits_jump truth hops hlast hjump
    have hnew := exits_graft (c := c) truth (hops₂.trans hops) hlast hjump
    rw [hlit.effect, hlit.isTrue] at hnew
    cases htakes : takesOp2 last.opcode (c.isTrue truth last.op1) with
    | true =>
      rw [jumpTo_of_takesOp2 htakes] at hold hnew
      rw [he.2.1] at hnew
      exact hold.sameExit hnew
    | false =>
      have hfollow : ∀ z : ZendCodeBlock,
          z.jumpTo last.opcode (c.isTrue truth last.op1) = z.followTo := fun z => by
        revert htakes
        cases c.isTrue truth last.op1 <;> rcases hop with hop | hop <;>
          simp [hop, takesOp2, ZendCodeBlock.jumpTo]
      rw [hfollow, hX] at hold
      rw [hfollow, he.2.2.2] at hnew
      have hskip := hold.nopOnly hl hno
      rw [hXy] at hskip
      exact hskip.sameExit hnew

omit h hops hlast hop in
theorem Threads.followNops : ∀ (n : ℕ) {c : ZendCfg} {A : Set ℕ} {ops : List ZendOp}
    {last : ZendOp}, c.Threads A b k → (c.blocks b).oplines = some ops → ops[k]? = some last →
    (last.opcode = .jmpz ∨ last.opcode = .jmpnz) →
    ZendCfg.followNops carefulDel b n c = some (c', x, target) →
    c.Rethreaded c' A b k last.opcode ∧ (c'.blocks b).followTo = some x ∧
      c'.skipNops 1 x = some (x, target)
  | 0, _, _, _, _, _, _, _, _, hstep => by simp [ZendCfg.followNops] at hstep
  | n + 1, c, A, ops, last, h, hops, hlast, hop, hstep => by
    simp only [ZendCfg.followNops, Option.bind_eq_bind, Option.bind_eq_some_iff] at hstep
    obtain ⟨X, hX, l, hl, hstep⟩ := hstep
    split at hstep
    · rename_i o hfind
      simp only [Option.some.injEq, Prod.mk.injEq] at hstep
      obtain ⟨rfl, rfl, rfl⟩ := hstep
      refine ⟨h.jmpz_self hops hlast, hX, ?_⟩
      simp only [ZendCfg.skipNops, hl, hfind]
    rename_i hno
    simp only [Option.bind_eq_some_iff] at hstep
    obtain ⟨c₁, hdel, c₂, hadd, hstep⟩ := hstep
    obtain ⟨hagree, ⟨A₂, hA₂, h₂⟩, ops₂, last₂, hops₂, hlast₂, hop₂⟩ :=
      h.followNop hops hlast hop hX hl hno hdel hadd
    obtain ⟨⟨hagree', ⟨A', hA', h'⟩, hend⟩, hfollow, hskip⟩ :=
      Threads.followNops n h₂ hops₂ hlast₂ (hop₂ ▸ hop) hstep
    exact ⟨⟨hagree.trans hagree', ⟨A', hA'.trans hA₂, h'⟩, hop₂ ▸ hend⟩, hfollow, hskip⟩

/-- The end of the block becomes a `JMPZNZ`, which leads to where the `JMP` does that it followed
to. -/
theorem Threads.becomesJmpznz (hX : (c.blocks b).followTo = some X)
    (hskip : c.skipNops n X = some (X, target)) (hjmp : target.opcode = .jmp)
    (hXy : (c.blocks X).op1To = some y)
    (hdel : carefulDel c b X [(c.blocks b).op1To, (c.blocks b).op2To] [(c.blocks X).op1To] =
      some c₁)
    (hr : Rewired b c₁ c') (hlit : c'.literals = c₁.literals)
    (hops' : (c'.blocks b).oplines = some (ops.modify k ({ · with opcode := .jmpznz })))
    (he : (c'.blocks b).edges = [(c.blocks b).op1To,
      if last.opcode = .jmpz then (c.blocks b).op2To else some y,
      if last.opcode = .jmpz then some y else (c.blocks b).op2To, none]) : c.Agrees c' b k := by
  have hjump : last.opcode.jumps = true ∧ last.opcode.setsTruth = false := by
    rcases hop with hop | hop <;> simp [hop, ZendOpcode.jumps, ZendOpcode.setsTruth]
  obtain ⟨-, -, hlit₁⟩ := h.del (.refl b c) hdel
  have hXA : X ∈ A := h.edge_mem h.mem (mem_edges.mpr (by simp [hX]))
  simp only [ZendCodeBlock.edges, List.cons.injEq, and_true] at he
  let g : ZendOp → ZendOp := ({ · with opcode := .jmpznz })
  have hsame : SameConstants c c' (g last) := .of_literals (hlit.trans hlit₁)
  suffices hkeep : c.Agrees c' b k ∧ ∃ A' ⊆ A, c'.Threads A' b k from hkeep.1
  refine h.rewrite (f := g) (.refl b c) hdel hr hlit (by rw [hops', hops]; rfl)
    (fun z hz => ?_) (fun z hz => ?_) (fun x ops i o _ _ _ => .of_literals rfl) fun truth => ?_
  · have hold : ∀ z, (c.blocks b).op2To = some z → z ∈ A ∧
        some z ∈ [(c.blocks b).op1To, (c.blocks b).op2To] ++ [(c.blocks X).op1To] := fun z hz =>
      ⟨h.edge_mem h.mem (mem_edges.mpr (.inr (.inl hz))), by simp [hz]⟩
    have hnew : ∀ z, some y = some z → z ∈ A ∧
        some z ∈ [(c.blocks b).op1To, (c.blocks b).op2To] ++ [(c.blocks X).op1To] := by
      rintro z hz
      obtain rfl := Option.some.inj hz
      exact ⟨h.edge_mem hXA (mem_edges.mpr (.inl hXy)), by simp [hXy]⟩
    rw [mem_edges, he.1, he.2.1, he.2.2.1, he.2.2.2] at hz
    rcases hz with hz | hz | hz | hz
    · exact ⟨h.edge_mem h.mem (mem_edges.mpr (.inl hz)), by simp [hz]⟩
    · split_ifs at hz
      · exact hold z hz
      · exact hnew z hz
    · split_ifs at hz
      · exact hnew z hz
      · exact hold z hz
    · cases hz
  · rw [he.2.2.2] at hz
    cases hz
  · have hold := exits_jump truth hops hlast hjump.1
    have hnew := exits_graft (c := c) truth hops'
      (by rw [List.getElem?_modify_eq, hlast]; rfl : _ = some (g last)) rfl
    rw [hsame.effect, hsame.isTrue, effect_of_not (rfl : (g last).opcode.setsTruth = false),
      show (g last).op1 = last.op1 from rfl] at hnew
    rw [effect_of_not hjump.2] at hold
    -- where the jump follows, it comes to the `JMP`
    have hthread : (c.blocks b).jumpTo last.opcode (c.isTrue truth last.op1) =
        (c.blocks b).followTo → c.Exits b k truth (some y) truth := by
      intro hto
      rw [hto, hX] at hold
      have hjmpExit := hold.thread hskip (by simp [hjmp, ZendOpcode.jumps])
      rwa [hjmp, effect_of_jmpz (.inr (.inr (.inr hjmp))),
        show (c.blocks X).jumpTo .jmp _ = (c.blocks X).op1To from rfl, hXy] at hjmpExit
    rcases hop with hop | hop <;> cases hv : c.isTrue truth last.op1 <;>
      simp only [hv, ZendCodeBlock.jumpTo, g, he.2.1, he.2.2.1, hop, if_true, if_false,
        Bool.false_eq_true, reduceCtorEq] at hold hnew hthread
    · exact hold.sameExit hnew
    · exact (hthread trivial).sameExit hnew
    · exact (hthread trivial).sameExit hnew
    · exact hold.sameExit hnew

/-- `JMPZ` and a `JMP` make a `JMPZNZ`. -/
theorem Threads.followJmpz (hstep : ZendCfg.followJmpz carefulDel c b last.opcode = some c') :
    c.Agrees c' b k := by
  unfold ZendCfg.followJmpz at hstep
  split at hstep
  swap
  · obtain rfl := Option.some.inj hstep
    exact .refl _ _ _
  obtain ⟨⟨c₁, X, target⟩, hfollow, hstep⟩ := Option.bind_eq_some_iff.mp hstep
  obtain ⟨⟨hagree₁, ⟨A₁, -, h₁⟩, ops₁, last₁, hops₁, hlast₁, hop₁⟩, hX, hskip⟩ :=
    Threads.followNops c.size h hops hlast hop hfollow
  refine hagree₁.trans ?_
  simp only at hstep
  split at hstep
  swap
  · obtain rfl := Option.some.inj hstep
    exact .refl _ _ _
  rename_i hjmp
  obtain ⟨c₂, hdel, hstep⟩ := Option.bind_eq_some_iff.mp hstep
  obtain ⟨c₃, hadd, hstep⟩ := Option.bind_eq_some_iff.mp hstep
  obtain ⟨y, hy, rfl⟩ := addSourceOf_spec hadd
  obtain ⟨hsame, hlater, -⟩ := h₁.del (.refl b c₁) hdel
  have hXy : (c₁.blocks X).op1To = some y := by
    rw [← (edges_eq_iff.mp (hlater X le_rfl)).1, ← hy]
  have hb₂ := edges_eq_iff.mp hsame.edges
  have hk := h₁.last ops₁ hops₁
  generalize hmid : (if last.opcode = .jmpz then _ else _ : ZendCfg) = mid at hstep
  obtain rfl := Option.some.inj hstep
  have hrmid : Rewired b c₂ mid := by
    rw [← hmid]
    split_ifs
    · exact rewired_setExtTo _
    · exact (rewired_setExtTo _).trans (rewired_setOp2To _)
  have hemid : (mid.blocks b).op1To = (c₁.blocks b).op1To ∧
      (mid.blocks b).op2To = (if last.opcode = .jmpz then (c₁.blocks b).op2To else some y) ∧
      (mid.blocks b).extTo = (if last.opcode = .jmpz then some y else (c₁.blocks b).op2To) ∧
      (mid.blocks b).oplines = (c₁.blocks b).oplines ∧ mid.literals = c₂.literals := by
    rw [← hmid]
    split_ifs <;> simp [setExtTo, setOp2To, hy, hb₂.1, hb₂.2.1, hsame.oplines]
  refine h₁.becomesJmpznz hops₁ hlast₁ (hop₁ ▸ hop) hX hskip hjmp.1 hXy hdel
    ((hrmid.trans (Rewired.addSource b y mid)).trans
      ((rewired_setFollowTo none).trans rewired_setLast)) hemid.2.2.2.2 ?_ ?_
  · simp [ZendCfg.setLast, setFollowTo, hemid, addSource_oplines, hops₁, hk]
  · rw [hop₁]
    simp [ZendCfg.setLast, setFollowTo, ZendCodeBlock.edges, hemid]

end Jmpz


end ZendCfg

end ZendOpcache
