import ZendOpcache.Optimizer.JmpStores

/-! # The jumps of pass 3

The turns of pass 3 at jumps, one after the other. They keep an op array in the form that the
compiler emits, so what the code shows is kept in every op array that they come to exactly if every
turn is harmless.
-/

namespace ZendOpcache

open Chain

namespace ZendOpArray

variable {a b c : ZendOpArray} {i j n fuel : ℕ} {o o' : ZendOp} {J : ℕ → Bool}

/-- The op arrays that the turns of pass 3 at jumps come to -/
inductive JmpComes [ExTmpVars] (a : ZendOpArray) : ZendOpArray → ℕ → Prop
  | start : JmpComes a a 0
  | jump {fuel i j : ℕ} {b c : ZendOpArray} {o : ZendOp} (h : JmpComes a b i)
      (ho : b.opcodes[i]? = some o) (hjump : o.opcode.isJump = true)
      (ht : b.pass3Turn fuel i = some (c, j)) : JmpComes a c j
  | other {i : ℕ} {b : ZendOpArray} (h : JmpComes a b i)
      (ho : ∀ o, b.opcodes[i]? = some o → o.opcode.isJump = false) : JmpComes a b (i + 1)

theorem pass3Turn_jump [ExTmpVars] (ho : a.opcodes[i]? = some o) (hjump : o.opcode.isJump = true) :
    a.pass3Turn fuel i = if a.hasFinallyBlock then some (a, i + 1)
      else (a.pass3Jmp fuel i o).map (·, i + 1) := by
  unfold pass3Turn
  rw [ho]
  unfold ZendOpcode.isJump at hjump
  split at hjump <;> simp_all [ZendOpcode.assignOp?]

/-- The opline is an `_EX` jump like one of the op array, if it is one. -/
def LikeEx (a : ZendOpArray) (o : ZendOp) : Prop :=
  o.opcode.isEx = true → ∃ t ∈ a.opcodes, t.opcode.isEx = true ∧
    o.op1.SamePlace t.op1 ∧ o.result = t.result

theorem likeEx_of_not_isEx (h : o.opcode.isEx = false) : a.LikeEx o := fun h' => by simp [h] at h'

theorem likeEx_self (ho : a.opcodes[i]? = some o) (hop1 : o'.op1 = o.op1)
    (hresult : o'.result = o.result) (hopcode : o'.opcode = o.opcode) : a.LikeEx o' := fun hex =>
  ⟨o, List.mem_of_getElem? ho, hopcode ▸ hex, ⟨by rw [hop1], by rw [hop1]⟩, hresult⟩

theorem mem_setOp (ho : o ∈ (a.setOp i o').opcodes) : o = o' ∨ o ∈ a.opcodes := by
  obtain ⟨p, hp⟩ := List.getElem?_of_mem ho
  by_cases hpi : p = i
  · subst hpi
    rw [setOp, getElem?_modifyOp] at hp
    obtain ⟨_, -, rfl⟩ := Option.map_eq_some_iff.mp hp
    exact .inl (if_pos rfl)
  · rw [setOp_of_ne hpi] at hp
    exact .inr (List.mem_of_getElem? hp)

theorem ExSame.setOp (h : a.ExSame) (hlike : a.LikeEx o') : (a.setOp i o').ExSame := by
  have hold {t : ZendOp} (ht : t ∈ (a.setOp i o').opcodes) : a.LikeEx t := by
    rcases mem_setOp ht with rfl | ht
    · exact hlike
    · exact fun hex => ⟨t, ht, hex, ⟨rfl, rfl⟩, rfl⟩
  intro t ht o ho htex hoex hsame
  obtain ⟨t₁, ht₁, htex₁, hop1, hresult⟩ := hold ht htex
  obtain ⟨o₁, ho₁, hoex₁, -, hresult'⟩ := hold ho hoex
  have hvar (x : Znode) : t.op1.sameVar x = t₁.op1.sameVar x := by
    simp only [Znode.sameVar, hop1.1, hop1.2]
  rw [hvar, hresult'] at hsame
  rw [hvar, hresult]
  exact h t₁ ht₁ o₁ ho₁ htex₁ hoex₁ hsame

/-- What the loop of a test leaves, with the store of an `_EX` jump that it has found. -/
theorem likeEx_led_jmpz (ho : a.opcodes[i]? = some o) (hop : o.opcode = .jmpz ∨ o.opcode = .jmpnz)
    (h : a.Led i o o.passJmpz o.endJmpz o') : a.LikeEx o' := by
  have hself (m : ℕ) : a.LikeEx (o.setTarget2 m) := likeEx_self ho rfl rfl rfl
  have hwith {t : ZendOp} {n : ℕ} (m : ℕ) (ht : a.target i n = some t)
      (hex : t.opcode = o.opcode.withResult ∨ t.opcode = o.opcode.invCondEx)
      (hsame : o.op1.sameVar t.op1 = true) : a.LikeEx (o.withStore m t.result) := by
    obtain ⟨-, ht'⟩ := Executor.target_of_opcode_ne ho ht (Executor.passJmpz_ex hop hex).1
    refine fun _ => ⟨t, List.mem_of_getElem? ht', ?_, Znode.samePlace_of_sameVar hsame, rfl⟩
    rcases hex with hex | hex <;> rw [hex]
    · exact ZendOpcode.isEx_withResult
    · exact ZendOpcode.isEx_invCondEx
  cases h with
  | hit => exact hself _
  | @last vs n =>
    cases ht : a.target i n with
    | none => exact hself n
    | some t =>
      unfold ZendOp.endJmpz
      dsimp only
      split_ifs with h h' h''
      · exact hwith _ ht (.inl h.1) h.2
      · exact hself _
      · exact hwith _ ht (.inr h''.1) h''.2
      · exact hself _

theorem likeEx_led_jmpzEx (ho : a.opcodes[i]? = some o)
    (h : a.Led i o o.passJmpzEx o.endJmpzEx o') : a.LikeEx o' := by
  have hself (m : ℕ) : a.LikeEx (o.setTarget2 m) := likeEx_self ho rfl rfl rfl
  cases h with
  | hit => exact hself _
  | @last vs n =>
    cases ht : a.target i n with
    | none => exact hself n
    | some t =>
      unfold ZendOp.endJmpzEx
      dsimp only
      split_ifs
      · exact hself _
      · exact hself _

/-- A turn at a jump puts another opline in its place. -/
theorem pass3Jmp_setOp [ExTmpVars] (hsame : a.ExSame) (ho : a.opcodes[i]? = some o)
    (hjump : o.opcode.isJump = true) (hb : a.pass3Jmp fuel i o = some b) :
    ∃ o', b = a.setOp i o' ∧ a.LikeEx o' := by
  have hnop : ∃ o', a.modifyOp i .makeNop = a.setOp i o' ∧ a.LikeEx o' :=
    ⟨_, setOp_eq_modifyOp ho, likeEx_of_not_isEx rfl⟩
  have htest (hop : o.opcode = .jmpz ∨ o.opcode = .jmpnz)
      (hb : (if o.op2.num = i + 1 then some (a.modifyOp i .makeNop)
        else a.follow fuel i followJmpz .none) = some b) :
          ∃ o', b = a.setOp i o' ∧ a.LikeEx o' := by
    split_ifs at hb
    · exact Option.some.inj hb ▸ hnop
    · obtain ⟨o', hled, rfl⟩ := (walksBy_jmpz ho).follow ho trivial hb
      exact ⟨o', rfl, likeEx_led_jmpz ho hop hled⟩
  have hset (hop : o.opcode ≠ .jmp) (hb : a.follow fuel i followJmpSet .none = some b) :
      ∃ o', b = a.setOp i o' ∧ a.LikeEx o' := by
    obtain ⟨m, -, rfl⟩ := follow_jmpSet ho hop hb
    exact ⟨_, rfl, likeEx_self ho rfl rfl rfl⟩
  have hstores (hex : o.opcode.isEx = true) (hb : (if o.op2.num = i + 1 then
        if o.op1.rawVar = o.result.rawVar then some (a.modifyOp i .makeNop)
        else some (a.modifyOp i fun o => { o with opcode := .bool, op2 := o.op2.setUnused })
      else a.follow fuel i followJmpzEx o.result) = some b) :
      ∃ o', b = a.setOp i o' ∧ a.LikeEx o' := by
    split_ifs at hb
    · exact Option.some.inj hb ▸ hnop
    · obtain rfl := Option.some.inj hb
      exact ⟨_, setOp_eq_modifyOp ho, likeEx_of_not_isEx rfl⟩
    · obtain ⟨o', hled, rfl⟩ := (walksBy_jmpzEx hsame ho hex).follow ho ⟨rfl, rfl⟩ hb
      exact ⟨o', rfl, likeEx_led_jmpzEx ho hled⟩
  unfold pass3Jmp at hb
  split at hb
  case h_1 hop =>
    split_ifs at hb
    · exact Option.some.inj hb ▸ hnop
    · obtain ⟨m, -, rfl⟩ := follow_jmp ho hb
      exact ⟨_, rfl, likeEx_of_not_isEx (show o.opcode.isEx = false by rw [hop]; rfl)⟩
  case h_2 hop => exact hset (by rw [hop]; decide) hb
  case h_3 hop => exact hset (by rw [hop]; decide) hb
  case h_4 hop => exact htest (.inl hop) hb
  case h_5 hop => exact htest (.inr hop) hb
  case h_6 hop => exact hstores (by rw [hop]; rfl) hb
  case h_7 hop => exact hstores (by rw [hop]; rfl) hb
  case h_8 hop =>
    obtain ⟨s, hs, hb⟩ := Option.bind_eq_some_iff.mp hb
    obtain ⟨s', hs', hb⟩ := Option.bind_eq_some_iff.mp hb
    obtain rfl := Option.some.inj hb
    obtain ⟨m, m', -, -, harray⟩ := follow_jmpznz ho (by rw [hop]; decide) hs hs'
    exact ⟨_, harray, likeEx_self ho rfl rfl rfl⟩
  case h_9 =>
    unfold ZendOpcode.isJump at hjump
    split at hjump <;> simp_all

theorem jumpsIn_jumpAt (a : ZendOpArray) : a.JumpsIn a.jumpAt := by
  intro p o ho hjump
  simp [jumpAt, ho, hjump]

theorem JumpsIn.setOp (h : a.JumpsIn J) (ho : a.opcodes[i]? = some o)
    (hjump : o.opcode.isJump = true) (o' : ZendOp) : (a.setOp i o').JumpsIn J := by
  intro p t ht htjump
  by_cases hp : p = i
  · exact hp ▸ h i o ho hjump
  · exact h p t (setOp_of_ne hp ▸ ht) htjump

/-- What the turns at jumps keep -/
theorem JmpComes.keeps [ExTmpVars] (h : a.JmpComes b i) (hsame : a.ExSame) :
    b.ExSame ∧ b.JumpsIn a.jumpAt := by
  induction h with
  | start => exact ⟨hsame, jumpsIn_jumpAt a⟩
  | @jump fuel i j b c o _ ho hjump ht ih =>
    rw [pass3Turn_jump ho hjump] at ht
    split_ifs at ht with hfinally
    · obtain ⟨rfl, rfl⟩ := Prod.mk.inj (Option.some.inj ht)
      exact ih
    · obtain ⟨c', hc, heq⟩ := Option.map_eq_some_iff.mp ht
      obtain ⟨rfl, rfl⟩ := Prod.mk.inj heq
      obtain ⟨o', rfl, hlike⟩ := pass3Jmp_setOp ih.1 ho hjump hc
      exact ⟨ih.1.setOp hlike, ih.2.setOp ho hjump o'⟩
  | other _ _ ih => exact ih

end ZendOpArray

section Pass

variable [ExTmpVars] {V ι : Type*}

/-- The jumps of pass 3 keep what the code shows, in every op array that they come to, exactly if
every turn is harmless that changes what is stored. -/
theorem pass3_jumps_iff (e : Executor V ι) (a : ZendOpArray) (hsame : a.ExSame) :
    (∀ b i, a.JmpComes b i → SameRuns (e.move a.jumpAt b) (e.move a.jumpAt a)) ↔
      ∀ b i o k, a.JmpComes b i → b.opcodes[i]? = some o → b.hasFinallyBlock = false →
        Executor.Deviates e b i o k → e.Harmless a.jumpAt b i k := by
  constructor
  · intro h b i o k hcomes ho hfinally hk
    obtain ⟨hsame', hJ⟩ := hcomes.keeps hsame
    have hcond := hk.isCondJump
    have hjump := ZendOpcode.isJump_of_isCondJump hcond
    obtain ⟨c, hc⟩ := Option.isSome_iff_exists.mp (ZendOpArray.pass3Jmp_isSome ho fun hset => by
      rcases hset with hset | hset <;> simp [hset, ZendOpcode.isCondJump] at hcond)
    have hturn : b.pass3Turn (b.opcodes.length + 1) i = some (c, i + 1) := by
      rw [ZendOpArray.pass3Turn_jump ho hjump, hfinally, hc]
      rfl
    have hruns := (h c (i + 1) (.jump hcomes ho hjump hturn)).trans (h b i hcomes).symm
    exact (Executor.sameRuns_pass3Jmp_iff hJ ho hsame' hjump hc).mp hruns k hk
  · intro h b i hcomes
    induction hcomes with
    | start => exact fun _ _ _ => Iff.rfl
    | @jump fuel i j b c o hcomes ho hjump ht ih =>
      obtain ⟨hsame', hJ⟩ := hcomes.keeps hsame
      rw [ZendOpArray.pass3Turn_jump ho hjump] at ht
      split_ifs at ht with hfinally
      · obtain ⟨rfl, rfl⟩ := Prod.mk.inj (Option.some.inj ht)
        exact ih
      · obtain ⟨c', hc, heq⟩ := Option.map_eq_some_iff.mp ht
        obtain ⟨rfl, rfl⟩ := Prod.mk.inj heq
        have hruns := (Executor.sameRuns_pass3Jmp_iff hJ ho hsame' hjump hc).mpr fun k hk =>
          h b i o k hcomes ho (Bool.eq_false_iff.mpr hfinally) hk
        exact hruns.trans ih
    | other _ _ ih => exact ih

end Pass

section Tests

local instance tmpVarsBelow : ExTmpVars := .below

/-- An executor of `ECHO` and `RETURN` on scalars -/
def echoExecutor : Executor Zval Unit where
  constant x := x.getD .null
  isTrue
    | .bool b => b
    | .long n => n != 0
    | .null => false
    | _ => true
  ofBool := .bool
  isTrue_ofBool _ := rfl
  reads o := if o.op1.type = .tmpVar then [o.op1.num] else []
  exec p o ρ _ := if o.opcode = .ret then none else some (p + 1, ρ)

/-- `T = JMPZ_EX T, 1; ECHO T;` -/
def testTemporary : ZendOpArray where
  opcodes := [⟨.jmpzEx, ⟨.tmpVar, 0, false⟩, ⟨.unused, 1, false⟩, ⟨.tmpVar, 0, false⟩, 0⟩,
    ⟨.echo, ⟨.tmpVar, 0, false⟩, .none, .none, 0⟩, ⟨.ret, ⟨.const, 0, false⟩, .none, .none, 0⟩]
  literals := [⟨.null, 0, -1⟩]
  brkContArray := []
  tryCatchArray := []
  hasFinallyBlock := false
  T := 1
  lastVar := 0
  lastCacheSlot := 0

theorem testTemporary_exSame : testTemporary.ExSame := by
  unfold ZendOpArray.ExSame
  decide

theorem pass3_jumps_iff_testTemporary :
    (∀ b i, testTemporary.JmpComes b i → SameRuns (echoExecutor.move testTemporary.jumpAt b)
      (echoExecutor.move testTemporary.jumpAt testTemporary)) ↔
      ∀ b i o k, testTemporary.JmpComes b i → b.opcodes[i]? = some o → b.hasFinallyBlock = false →
        Executor.Deviates echoExecutor b i o k →
          echoExecutor.Harmless testTemporary.jumpAt b i k :=
  pass3_jumps_iff echoExecutor testTemporary testTemporary_exSame

/-- The jump becomes a `NOP`, so `ECHO` does not show the boolean of the temporary but what it
held before. -/
theorem pass3_testTemporary :
    (∃ b, testTemporary.pass3Turn 1 0 = some (b, 1) ∧
      Trace (echoExecutor.move testTemporary.jumpAt testTemporary) (0, fun _ => .long 5) [()]
        [(1, [.bool true])] ∧
      Trace (echoExecutor.move testTemporary.jumpAt b) (0, fun _ => .long 5) [()]
        [(1, [.long 5])]) ∧
    ¬∀ b i, testTemporary.JmpComes b i → SameRuns (echoExecutor.move testTemporary.jumpAt b)
      (echoExecutor.move testTemporary.jumpAt testTemporary) := by
  have hturn : testTemporary.pass3Turn 1 0 =
      some (testTemporary.modifyOp 0 .makeNop, 1) := rfl
  have hold : Trace (echoExecutor.move testTemporary.jumpAt testTemporary) (0, fun _ => .long 5)
      [()] [(1, [.bool true])] := .silent rfl (.shows rfl rfl (.nil _))
  have hnew : Trace (echoExecutor.move testTemporary.jumpAt (testTemporary.modifyOp 0 .makeNop))
      (0, fun _ => .long 5) [()] [(1, [.long 5])] := .silent rfl (.shows rfl rfl (.nil _))
  refine ⟨⟨_, hturn, hold, hnew⟩, fun h => ?_⟩
  have hruns := h _ _ (.jump .start rfl rfl hturn)
  have heq := hold.unique ((hruns _ _ _).mp hnew)
  simp at heq

end Tests

end ZendOpcache
