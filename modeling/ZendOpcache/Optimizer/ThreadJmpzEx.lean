import ZendOpcache.Optimizer.ThreadJmpz

/-! # Threading the other tests

`JMPZ_EX` and `JMPNZ_EX` set a variable to the truth value that they test, which the test at their
target may test again. `JMPZNZ` jumps in both cases; its target on false is threaded.
-/

namespace ZendOpcache

namespace ZendCfg

variable {c c' c₂ : ZendCfg} {A : Set ℕ} {b k n t X : ℕ} {last target : ZendOp} {ops : List ZendOp}
  {T lastVar : ℕ} [ZendEngine]

section Tests

variable (h : c.Threads A b k) (hops : (c.blocks b).oplines = some ops)
  (hlast : ops[k]? = some last) (hedges : ∀ v, (c.blocks b).jumpTo last.opcode v ≠ none)
  {edge : ZendCodeBlock → Option ℕ} (hedge : IsEdge edge)
  (hX : (c.blocks b).op2To = some X) (hskip : c.skipNops c.size X = some (t, target))
include h hops hlast hedges hedge hX hskip

/-- A test is threaded as if it tested the same variable. -/
theorem Threads.threaded_agrees_iff (hjump : last.opcode.jumps = true)
    (hto : ∀ v, takesOp2 last.opcode v = true →
      (c.blocks t).jumpTo target.opcode v = edge (c.blocks t))
    (hmove : ZendCfg.moveOp2 carefulDel c b t edge = some c₂) :
    c.Agrees c₂ b k ↔ c.Harmless b k (c.threadedExit b t last target last) := by
  refine (h.moveOp2_same hedge hX hskip hmove).agrees_iff hops hlast hjump rfl (fun _ _ => rfl) h
    hjump hedges fun truth => ?_
  unfold threadedExit
  dsimp only [id]
  split_ifs with htakes
  · rw [hto _ htakes]
  · rfl

end Tests

section JmpzEx

omit [ZendEngine] in
theorem update_var {y z z' : ZnodeType × ℕ} (truth : ZnodeType × ℕ → Bool) (hy : y = z ∨ y = z') :
    Function.update truth z' (truth z) y = truth z := by
  by_cases hyz : y = z'
  · rw [hyz, Function.update_self]
  · rw [Function.update_of_ne hyz, hy.resolve_right hyz]

omit [ZendEngine] in
/-- What a test is, seen from `JMPZ_EX` or `JMPNZ_EX` -/
theorem test_cases {op op' : ZendOpcode} (hop : op = .jmpzEx ∨ op = .jmpnzEx)
    (hjump : op'.jumps = true) (hne : op' ≠ .jmp) : op' = op.withoutResult ∨ op' = op.invExCond ∨
      op' = .jmpznz ∨ op'.setsTruth = true ∧ (op' = op.invExCondEx ∨ op' = op) := by
  unfold ZendOpcode.jumps at hjump
  rcases hop with rfl | rfl <;> split at hjump <;>
    simp_all [ZendOpcode.withoutResult, ZendOpcode.invExCond, ZendOpcode.invExCondEx,
      ZendOpcode.setsTruth]

variable (h : c.Threads A b k) (hops : (c.blocks b).oplines = some ops)
  (hlast : ops[k]? = some last) (hop : last.opcode = .jmpzEx ∨ last.opcode = .jmpnzEx)
  (hconst : last.op1.type ≠ .const) {edge : ZendCodeBlock → Option ℕ} (hedge : IsEdge edge)
  (hX : (c.blocks b).op2To = some X) (hskip : c.skipNops c.size X = some (t, target))
include h hops hlast hop hconst hedge hX hskip

/-- The target of `JMPZ_EX` moves. The test at the target is of a variable that has this truth value
already. -/
theorem Threads.jmpzEx_move (htarget : target.opcode.jumps = true)
    (htest : target.opcode = .jmp ∨ target.op1.type.isTmpOrCv = true ∧
      (target.op1.var = last.op1.var ∨ target.op1.var = last.resultVar))
    (hsets : target.opcode.setsTruth = true →
      target.resultVar = last.op1.var ∨ target.resultVar = last.resultVar)
    (hto : ∀ v w, takesOp2 last.opcode v = true → w = v ∨ target.opcode = .jmp →
      (c.blocks t).jumpTo target.opcode w = edge (c.blocks t))
    (hmove : ZendCfg.moveOp2 carefulDel c b t edge = some c₂) : c.Agrees c₂ b k := by
  have hlastJump : last.opcode.jumps = true ∧ last.opcode.setsTruth = true := by
    rcases hop with hop | hop <;> simp [hop, ZendOpcode.jumps, ZendOpcode.setsTruth]
  have heffect : ∀ truth, c.effect last truth =
      Function.update truth last.resultVar (truth last.op1.var) := fun truth => by
    rw [effect_of_sets hlastJump.2, isTrue_of_ne hconst]
  refine (h.moveOp2_same hedge hX hskip hmove).agrees_of_thread hops hlast hlastJump.1 rfl
    (fun _ _ => rfl) h hlastJump.1 hX hskip htarget (fun truth htakes => ?_) fun _ _ => rfl
  dsimp only [id]
  rw [isTrue_of_ne hconst] at htakes
  have htruth : target.opcode ≠ .jmp →
      c.isTrue (c.effect last truth) target.op1 = truth last.op1.var := fun hne => by
    obtain ⟨htype, hvar⟩ := htest.resolve_left hne
    rw [isTrue_of_ne (isTmpOrCv_ne htype), heffect, update_var _ hvar]
  refine ⟨hto (truth last.op1.var) _ htakes ?_, ?_⟩
  · by_cases hjmp : target.opcode = .jmp
    · exact .inr hjmp
    · exact .inl (htruth hjmp)
  · cases hset : target.opcode.setsTruth with
    | false => rw [effect_of_not hset]
    | true =>
      have hne : target.opcode ≠ .jmp := fun hjmp => by simp [hjmp, ZendOpcode.setsTruth] at hset
      -- the result has this truth value already
      rw [effect_of_sets hset, htruth hne, heffect]
      have hres := update_var truth (hsets hset)
      nth_rewrite 2 [← hres]
      exact Function.update_eq_self _ _

omit h hops hlast hconst hedge in
/-- No test is mistaken that tests and sets the right variables. -/
theorem jmpzEx_none (hright : target.opcode.jumps = true → target.opcode ≠ .jmp →
      (c.blocks t).isProtected = false → (c.blocks t).op2To ≠ none →
      (target.opcode = .jmpznz → (c.blocks t).extTo ≠ none) →
      target.op1.type.isTmpOrCv = true → last.op1.sameT last.result target.op1 = true →
      (target.opcode.setsTruth = true → last.op1.sameT last.result target.result = true) →
      (target.op1.var = last.op1.var ∨ target.op1.var = last.resultVar) ∧
        (target.opcode.setsTruth = true →
          target.resultVar = last.op1.var ∨ target.resultVar = last.resultVar)) :
    c.MistakesHarmless b k T lastVar last := by
  refine .of_none fun t' target' o hm => ?_
  obtain ⟨rfl, rfl⟩ := hm.threaded.eq_of_skipNops hX hskip
  cases hm with
  | number hop' => simp [hop'] at hop
  | result hop' => rcases hop' with hop' | hop' <;> simp [hop'] at hop
  | kinds _ _ _ ht htarget hto htype htest hres hvar =>
    obtain ⟨-, -, -, hprot⟩ := ht
    obtain ⟨htested, hsets⟩ := hright htarget.1 htarget.2 hprot hto.1 hto.2 htype htest hres
    rcases hvar with hvar | ⟨hset, hvar⟩
    · exact hvar htested
    · exact hvar (hsets hset)

/-- The target of `JMPZ_EX` moves past a test. -/
theorem Threads.jmpzEx_test (hedges : ∀ v, (c.blocks b).jumpTo last.opcode v ≠ none)
    (hvars : max T lastVar ≠ 0) (hprot : (c.blocks t).isProtected = false)
    (htarget : target.opcode.jumps = true ∧ target.opcode ≠ .jmp)
    (hto₂ : (c.blocks t).op2To ≠ none ∧ (target.opcode = .jmpznz → (c.blocks t).extTo ≠ none))
    (htype : target.op1.type.isTmpOrCv = true)
    (htest : last.op1.sameT last.result target.op1 = true)
    (hres : target.opcode.setsTruth = true → last.op1.sameT last.result target.result = true)
    (hto : ∀ v, takesOp2 last.opcode v = true →
      (c.blocks t).jumpTo target.opcode v = edge (c.blocks t))
    (hmove : ZendCfg.moveOp2 carefulDel c b t edge = some c₂) :
    c.Agrees c₂ b k ↔ c.MistakesHarmless b k T lastVar last := by
  by_cases hright : (target.op1.var = last.op1.var ∨ target.op1.var = last.resultVar) ∧
      (target.opcode.setsTruth = true →
        target.resultVar = last.op1.var ∨ target.resultVar = last.resultVar)
  · refine iff_of_true ?_ (jmpzEx_none hop hX hskip fun _ _ _ _ _ _ _ _ => hright)
    refine h.jmpzEx_move hops hlast hop hconst hedge hX hskip htarget.1 (.inr ⟨htype, hright.1⟩)
      hright.2 (fun v w hv hw => ?_) hmove
    obtain rfl := hw.resolve_right htarget.2
    exact hto w hv
  · have hm : c.Mistaken b T lastVar last t target last := by
      refine .kinds hop hconst hvars ⟨X, hX, hskip, hprot⟩ htarget hto₂ htype htest hres ?_
      rw [not_and_or, Classical.not_imp] at hright
      exact hright
    rw [hm.harmless_iff]
    refine h.threaded_agrees_iff hops hlast hedges hedge hX hskip ?_ hto hmove
    rcases hop with hop | hop <;> simp [hop, ZendOpcode.jumps]

end JmpzEx

section Jmpznz

variable (h : c.Threads A b k) (hops : (c.blocks b).oplines = some ops)
  (hlast : ops[k]? = some last) (hop : last.opcode = .jmpznz)
  {edge : ZendCodeBlock → Option ℕ} (hedge : IsEdge edge)
  (hX : (c.blocks b).op2To = some X) (hskip : c.skipNops c.size X = some (t, target))
include h hops hlast hop hedge hX hskip

omit h hops hlast hedge in
/-- No test is mistaken if the numbers are the same. -/
theorem jmpznz_none (hright : (c.blocks t).isProtected = false →
      (target.opcode = .jmpz ∨ target.opcode = .jmpnz ∨ target.opcode = .jmpznz) →
      (c.blocks t).jumpTo target.opcode false ≠ none →
      ({ last.op1 with num := last.op1.num % 256 } : Znode).sameTmpOrCv target.op1 = true →
      last.op1.num = target.op1.num) : c.MistakesHarmless b k T lastVar last := by
  refine .of_none fun t' target' o hm => ?_
  obtain ⟨rfl, rfl⟩ := hm.threaded.eq_of_skipNops hX hskip
  cases hm with
  | number _ _ _ _ ht htarget hto htest hnum =>
    obtain ⟨-, -, -, hprot⟩ := ht
    exact hnum (hright hprot htarget hto htest)
  | result hop' => simp [hop] at hop'
  | kinds hop' => simp [hop] at hop'

/-- The target of `JMPZNZ` on false moves past a test. -/
theorem Threads.jmpznz_test (hedges : ∀ v, (c.blocks b).jumpTo last.opcode v ≠ none)
    (hext : (c.blocks b).op2To ≠ (c.blocks b).extTo) (hnext₂ : (c.blocks b).op2To ≠ c.nextAccess b)
    (hnext₃ : (c.blocks b).extTo ≠ c.nextAccess b) (hprot : (c.blocks t).isProtected = false)
    (htarget : target.opcode = .jmpz ∨ target.opcode = .jmpnz ∨ target.opcode = .jmpznz)
    (htest : ({ last.op1 with num := last.op1.num % 256 } : Znode).sameTmpOrCv target.op1 = true)
    (hto : (c.blocks t).jumpTo target.opcode false = edge (c.blocks t))
    (hne : (c.blocks t).jumpTo target.opcode false ≠ none)
    (hmove : ZendCfg.moveOp2 carefulDel c b t edge = some c₂) :
    c.Agrees c₂ b k ↔ c.MistakesHarmless b k T lastVar last := by
  have hlastJump : last.opcode.jumps = true := by simp [hop, ZendOpcode.jumps]
  have htakes : ∀ v, takesOp2 last.opcode v = true → v = false := by
    intro v hv
    simpa [hop, takesOp2] using hv
  by_cases hnum : last.op1.num = target.op1.num
  · refine iff_of_true ?_ (jmpznz_none hop hX hskip fun _ _ _ _ => hnum)
    have heffect : ∀ truth, c.effect last truth = truth := fun truth =>
      effect_of_jmpz (.inr (.inr (.inl hop)))
    have hsame : last.op1.sameTmpOrCv target.op1 = true := by
      simp only [Znode.sameTmpOrCv, Bool.and_eq_true, beq_iff_eq] at htest ⊢
      exact ⟨htest.1, hnum⟩
    refine (h.moveOp2_same hedge hX hskip hmove).agrees_of_thread hops hlast hlastJump rfl
      (fun _ _ => rfl) h hlastJump hX hskip ?_ (fun truth hv => ?_) fun _ _ => rfl
    · rcases htarget with htarget | htarget | htarget <;> simp [htarget, ZendOpcode.jumps]
    · dsimp only [id]
      rw [heffect, isTrue_of_sameTmpOrCv hsame, htakes _ hv]
      refine ⟨hto, effect_of_jmpz ?_⟩
      rcases htarget with htarget | htarget | htarget <;> simp [htarget]
  · have hm : c.Mistaken b T lastVar last t target last :=
      .number hop hext hnext₂ hnext₃ ⟨X, hX, hskip, hprot⟩ htarget hne htest hnum
    rw [hm.harmless_iff]
    exact h.threaded_agrees_iff hops hlast hedges hedge hX hskip hlastJump
      (fun v hv => htakes v hv ▸ hto) hmove

end Jmpznz

section Conditional

variable (h : c.Threads A b k) (hops : (c.blocks b).oplines = some ops)
  (hlast : ops[k]? = some last) (hedges : ∀ v, (c.blocks b).jumpTo last.opcode v ≠ none)
include h hops hlast hedges

/-- Where `JMPZ_EX` and `JMPNZ_EX` jump to -/
theorem Threads.threadJmpzEx (hop : last.opcode = .jmpzEx ∨ last.opcode = .jmpnzEx)
    (hconst : last.op1.type ≠ .const)
    (hstep : ZendCfg.optimizeJmpzEx carefulDel T lastVar c b last = some c') :
    c.Agrees c' b k ↔ c.MistakesHarmless b k T lastVar last := by
  unfold ZendCfg.optimizeJmpzEx at hstep
  rw [if_neg hconst] at hstep
  split at hstep
  · rename_i hX
    obtain rfl := Option.some.inj hstep
    exact iff_of_true (.refl _ _ _) (.of_no_target hX)
  rename_i X hX
  by_cases hzero : max T lastVar = 0
  · rw [if_pos hzero] at hstep
    obtain rfl := Option.some.inj hstep
    refine iff_of_true (.refl _ _ _) (.of_none fun t target o hm => ?_)
    cases hm with
    | number hop' => simp [hop'] at hop
    | result hop' => rcases hop' with hop' | hop' <;> simp [hop'] at hop
    | kinds _ _ hvars => exact hvars hzero
  rw [if_neg hzero] at hstep
  simp only [Option.bind_eq_bind, Option.bind_eq_some_iff, Prod.exists, Bool.and_eq_true,
    Option.isSome_iff_ne_none] at hstep
  obtain ⟨t, target, hskip, hstep⟩ := hstep
  split_ifs at hstep with h₁ h₂ h₃ h₄ h₅ h₆ hjmpzEx
  · -- the same test
    obtain ⟨hop2, hsame, ⟨htype, htest⟩, hprot⟩ := h₁
    have htarget : target.opcode.jumps = true ∧ target.opcode ≠ .jmp ∧
        target.opcode ≠ .jmpznz ∧ target.opcode.setsTruth = false := by
      rcases hop with hop | hop <;>
        simp [hsame, hop, ZendOpcode.withoutResult, ZendOpcode.jumps, ZendOpcode.setsTruth]
    refine h.jmpzEx_test hops hlast hop hconst isEdge_op2To hX hskip hedges hzero hprot
      ⟨htarget.1, htarget.2.1⟩ ⟨hop2, fun hznz => absurd hznz htarget.2.2.1⟩ htype htest
      (by simp [htarget.2.2.2]) (fun v htakes => ?_) hstep
    rcases hop with hop | hop <;> simp [hop, takesOp2] at htakes <;>
      simp [hsame, hop, htakes, ZendOpcode.withoutResult, ZendCodeBlock.jumpTo]
  · -- the inverse test
    obtain ⟨hop2, hinv, ⟨htype, htest⟩, hprot⟩ := h₂
    have htarget : target.opcode.jumps = true ∧ target.opcode ≠ .jmp ∧
        target.opcode ≠ .jmpznz ∧ target.opcode.setsTruth = false := by
      rcases hop with hop | hop <;>
        simp [hinv, hop, ZendOpcode.invExCond, ZendOpcode.jumps, ZendOpcode.setsTruth]
    refine h.jmpzEx_test hops hlast hop hconst isEdge_followTo hX hskip hedges hzero hprot
      ⟨htarget.1, htarget.2.1⟩ ⟨hop2, fun hznz => absurd hznz htarget.2.2.1⟩ htype htest
      (by simp [htarget.2.2.2]) (fun v htakes => ?_) hstep
    rcases hop with hop | hop <;> simp [hop, takesOp2] at htakes <;>
      simp [hinv, hop, htakes, ZendOpcode.invExCond, ZendCodeBlock.jumpTo]
  · -- the inverse test, which sets a variable
    obtain ⟨hop2, hinv, ⟨htype, htest⟩, hres, hprot⟩ := h₃
    have htarget : target.opcode.jumps = true ∧ target.opcode ≠ .jmp ∧
        target.opcode ≠ .jmpznz := by
      rcases hop with hop | hop <;> simp [hinv, hop, ZendOpcode.invExCondEx, ZendOpcode.jumps]
    refine h.jmpzEx_test hops hlast hop hconst isEdge_followTo hX hskip hedges hzero hprot
      ⟨htarget.1, htarget.2.1⟩ ⟨hop2, fun hznz => absurd hznz htarget.2.2⟩ htype htest
      (fun _ => hres) (fun v htakes => ?_) hstep
    rcases hop with hop | hop <;> simp [hop, takesOp2] at htakes <;>
      simp [hinv, hop, htakes, ZendOpcode.invExCondEx, ZendCodeBlock.jumpTo]
  · -- the same test, which sets a variable
    obtain ⟨hop2, hsame, ⟨htype, htest⟩, hres, hprot⟩ := h₄
    have htarget : target.opcode.jumps = true ∧ target.opcode ≠ .jmp ∧
        target.opcode ≠ .jmpznz := by
      rcases hop with hop | hop <;> simp [hsame, hop, ZendOpcode.jumps]
    refine h.jmpzEx_test hops hlast hop hconst isEdge_op2To hX hskip hedges hzero hprot
      ⟨htarget.1, htarget.2.1⟩ ⟨hop2, fun hznz => absurd hznz htarget.2.2⟩ htype htest
      (fun _ => hres) (fun v htakes => ?_) hstep
    rw [hsame, jumpTo_of_takesOp2 htakes]
  · -- a jump
    obtain ⟨-, hjmp, -⟩ := h₅
    refine iff_of_true ?_ (jmpzEx_none hop hX hskip fun _ hne => absurd hjmp hne)
    refine h.jmpzEx_move hops hlast hop hconst isEdge_op1To hX hskip
      (by simp [hjmp, ZendOpcode.jumps]) (.inl hjmp) (fun hset => ?_) (fun v w _ _ => ?_) hstep
    · simp [hjmp, ZendOpcode.setsTruth] at hset
    · rw [hjmp]
      rfl
  · -- a jump in both cases
    obtain ⟨hop2, hext, hznz, ⟨htype, htest⟩, hprot⟩ := h₆
    refine h.jmpzEx_test hops hlast hop hconst isEdge_op2To hX hskip hedges hzero hprot
      (by simp [hznz, ZendOpcode.jumps]) ⟨hop2, fun _ => hext⟩ htype htest
      (by simp [hznz, ZendOpcode.setsTruth]) (fun v htakes => ?_) hstep
    simp [hjmpzEx, takesOp2] at htakes
    simp [hznz, htakes, ZendCodeBlock.jumpTo]
  · obtain ⟨hop2, hext, hznz, ⟨htype, htest⟩, hprot⟩ := h₆
    refine h.jmpzEx_test hops hlast hop hconst isEdge_extTo hX hskip hedges hzero hprot
      (by simp [hznz, ZendOpcode.jumps]) ⟨hop2, fun _ => hext⟩ htype htest
      (by simp [hznz, ZendOpcode.setsTruth]) (fun v htakes => ?_) hstep
    simp [hop.resolve_left hjmpzEx, takesOp2] at htakes
    simp [hznz, htakes, ZendCodeBlock.jumpTo]
  · -- none of the patterns
    obtain rfl := Option.some.inj hstep
    refine iff_of_true (.refl _ _ _) (jmpzEx_none hop hX hskip ?_)
    intro hjump hne hprot hop2 hext htype htest hres
    exfalso
    rcases test_cases hop hjump hne with hz | hnz | hznz | ⟨hset, hinv | hsame⟩
    · exact h₁ ⟨hop2, hz, ⟨htype, htest⟩, hprot⟩
    · exact h₂ ⟨hop2, hnz, ⟨htype, htest⟩, hprot⟩
    · exact h₆ ⟨hop2, hext hznz, hznz, ⟨htype, htest⟩, hprot⟩
    · exact h₃ ⟨hop2, hinv, ⟨htype, htest⟩, hres hset, hprot⟩
    · exact h₄ ⟨hop2, hsame, ⟨htype, htest⟩, hres hset, hprot⟩

/-- Where `JMPZNZ` jumps to on false -/
theorem Threads.threadJmpznz (hop : last.opcode = .jmpznz)
    (hext : (c.blocks b).op2To ≠ (c.blocks b).extTo) (hnext₂ : (c.blocks b).op2To ≠ c.nextAccess b)
    (hnext₃ : (c.blocks b).extTo ≠ c.nextAccess b)
    (hstep : ZendCfg.threadJmpznz carefulDel c b last = some c') :
    c.Agrees c' b k ↔ c.MistakesHarmless b k T lastVar last := by
  unfold ZendCfg.threadJmpznz at hstep
  split at hstep
  · rename_i hX
    obtain rfl := Option.some.inj hstep
    exact iff_of_true (.refl _ _ _) (.of_no_target hX)
  rename_i X hX
  simp only [Option.bind_eq_bind, Option.bind_eq_some_iff, Prod.exists,
    Option.isSome_iff_ne_none] at hstep
  obtain ⟨t, target, hskip, hstep⟩ := hstep
  split_ifs at hstep with h₁ h₂ h₃
  · -- the same test
    obtain ⟨hop2, hjmpz, htest, hprot⟩ := h₁
    have hto : (c.blocks t).jumpTo target.opcode false = (c.blocks t).op2To := by
      rcases hjmpz with hjmpz | hjmpz <;> simp [hjmpz, ZendCodeBlock.jumpTo]
    exact h.jmpznz_test hops hlast hop isEdge_op2To hX hskip hedges hext hnext₂ hnext₃ hprot
      (hjmpz.imp_right .inr) htest hto (hto ▸ hop2) hstep
  · -- the inverse test
    obtain ⟨hjmpnz, htest, hfollow, hprot⟩ := h₂
    have hto : (c.blocks t).jumpTo target.opcode false = (c.blocks t).followTo := by
      simp [hjmpnz, ZendCodeBlock.jumpTo]
    exact h.jmpznz_test hops hlast hop isEdge_followTo hX hskip hedges hext hnext₂ hnext₃ hprot
      (.inr (.inl hjmpnz)) htest hto (hto ▸ hfollow) hstep
  · -- a jump
    obtain ⟨-, hjmp, -⟩ := h₃
    have hlastJump : last.opcode.jumps = true := by simp [hop, ZendOpcode.jumps]
    have heffect : ∀ truth, c.effect last truth = truth := fun truth =>
      effect_of_jmpz (.inr (.inr (.inl hop)))
    refine iff_of_true ?_ (jmpznz_none hop hX hskip fun _ htarget => by simp [hjmp] at htarget)
    refine (h.moveOp2_same isEdge_op1To hX hskip hstep).agrees_of_thread hops hlast hlastJump rfl
      (fun _ _ => rfl) h hlastJump hX hskip (by simp [hjmp, ZendOpcode.jumps])
      (fun truth _ => ?_) fun _ _ => rfl
    dsimp only [id]
    rw [heffect]
    exact ⟨by simp [hjmp, ZendCodeBlock.jumpTo], effect_of_jmpz (.inr (.inr (.inr hjmp)))⟩
  · -- none of the patterns
    obtain rfl := Option.some.inj hstep
    refine iff_of_true (.refl _ _ _) (jmpznz_none hop hX hskip ?_)
    intro hprot htarget hto htest
    exfalso
    rcases htarget with hjmpz | hjmpnz | hznz
    · rw [hjmpz] at hto
      exact h₁ ⟨hto, .inl hjmpz, htest, hprot⟩
    · rw [hjmpnz] at hto
      exact h₂ ⟨hjmpnz, htest, hto, hprot⟩
    · rw [hznz] at hto
      exact h₁ ⟨hto, .inr hznz, htest, hprot⟩

end Conditional

end ZendCfg

end ZendOpcache
