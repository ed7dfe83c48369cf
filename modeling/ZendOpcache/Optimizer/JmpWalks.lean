import ZendOpcache.Optimizer.JmpFollow

/-! # Walks along jumps at run time

Where a test jumps, the oplines on the walk of its loop pass control on silently: they are `JMP`s or
test the same variable. An `_EX` jump walks along the tests of the boolean that it has stored. So a
test whose target was moved along its walk keeps what the code shows.
-/

namespace ZendOpcache

open Chain

namespace ZendOpcode

/-- The jumps that one operand decides -/
def isCondJump : ZendOpcode → Bool
  | .jmpz | .jmpnz | .jmpzEx | .jmpnzEx => true
  | _ => false

/-- The truth of the operand with which a test jumps -/
def takenBy (c : ZendOpcode) : Bool := c == .jmpnz || c == .jmpnzEx

variable {c d : ZendOpcode}

theorem isCondJump_of_isEx (h : c.isEx = true) : c.isCondJump = true := by
  rcases isEx_iff.mp h with rfl | rfl <;> rfl

theorem isJump_of_isCondJump (h : c.isCondJump = true) : c.isJump = true := by
  cases c <;> first | rfl | cases h

theorem isEx_withResult : c.withResult.isEx = true := by
  unfold withResult
  split_ifs <;> rfl

theorem isEx_invCondEx : c.invCondEx.isEx = true := by
  unfold invCondEx
  split_ifs <;> rfl

theorem takenBy_withResult (h : c = .jmpz ∨ c = .jmpnz) : c.withResult.takenBy = c.takenBy := by
  rcases h with rfl | rfl <;> rfl

theorem takenBy_invCond (h : c = .jmpz ∨ c = .jmpnz) : c.invCond.takenBy = !c.takenBy := by
  rcases h with rfl | rfl <;> rfl

theorem takenBy_invCondEx (h : c = .jmpz ∨ c = .jmpnz) : c.invCondEx.takenBy = !c.takenBy := by
  rcases h with rfl | rfl <;> rfl

theorem takenBy_inv (h : c.isEx = true) (hd : d = c.invExCondEx ∨ d = c.invExCond) :
    d.isCondJump = true ∧ d.takenBy = !c.takenBy := by
  rcases isEx_iff.mp h with rfl | rfl <;> rcases hd with rfl | rfl <;> exact ⟨rfl, rfl⟩

end ZendOpcode

namespace ZendOp

variable {o : ZendOp} {i : ℕ} {v : Bool}

theorem goesTo_test (h : o.opcode.isCondJump = true) :
    o.goesTo i v = if v = o.opcode.takenBy then o.op2.num else i + 1 := by
  unfold ZendOpcode.isCondJump at h
  unfold goesTo ZendOpcode.takenBy
  split at h <;> simp_all <;> cases v <;> rfl

end ZendOp

namespace Executor

variable {V ι : Type*} {e : Executor V ι} {J : ℕ → Bool} {a b : ZendOpArray} {i n m : ℕ}
  {o o' t : ZendOp} {ρ : Valuation V} {k : Valuation V → ℕ × Valuation V} {vs : List ℕ}
  {l : List ZendLiteral}

theorem value_sameVar {x y : Znode} (h : x.sameVar y = true) (ρ : Valuation V) :
    e.value l ρ x = e.value l ρ y := by
  obtain ⟨htype, hnum⟩ := Znode.sameVar_iff.mp h
  rcases htype with ⟨hx, hy⟩ | ⟨hx, hy⟩ <;> simp only [value, hx, hy, hnum]

/-- Jumps on one variable go the same way. -/
theorem test_sameVar (h : o.op1.sameVar t.op1 = true) (ρ : Valuation V) :
    e.test l t ρ = e.test l o ρ := by
  unfold test
  rw [value_sameVar h]

theorem store_of_plain (h : o.opcode = .jmp ∨ o.opcode = .jmpz ∨ o.opcode = .jmpnz ∨
    o.opcode = .jmpznz ∨ o.opcode = .nop) : e.store l o ρ = ρ := by
  rcases h with h | h | h | h | h <;> simp only [store, h]

theorem store_ex (h : o.opcode.isEx = true) :
    e.store l o ρ = e.storeBool o.result.num (e.test l o ρ) ρ := by
  rcases ZendOpcode.isEx_iff.mp h with h | h <;> simp only [store, h]

theorem jump_test (h : o.opcode.isCondJump = true) (ρ : Valuation V) : e.jump l o (i, ρ) =
    (if e.test l o ρ = o.opcode.takenBy then o.op2.num else i + 1, e.store l o ρ) := by
  rw [jump, ZendOp.goesTo_test h]

/-- A boolean that is stored again changes nothing. -/
theorem storeBool_eq_self {v : Bool} (h : ρ (.temp n) = e.ofBool v) : e.storeBool n v ρ = ρ := by
  rw [storeBool, ← h, Function.update_eq_self]

theorem storeBool_self (v : Bool) : e.storeBool n v ρ (.temp n) = e.ofBool v := by
  simp [storeBool]

end Executor

/-- All jumps are at the given numbers. -/
def ZendOpArray.JumpsIn (a : ZendOpArray) (J : ℕ → Bool) : Prop :=
  ∀ p o, a.opcodes[p]? = some o → o.opcode.isJump = true → J p = true

namespace Executor

variable {V ι : Type*} {e : Executor V ι} {J : ℕ → Bool} {a b : ZendOpArray} {i n m : ℕ}
  {o o' t : ZendOp} {ρ : Valuation V} {k : Valuation V → ℕ × Valuation V} {vs : List ℕ}
  {l : List ZendLiteral}

variable (hJ : a.JumpsIn J)
include hJ

theorem silent_jump (ht : a.opcodes[n]? = some t) (hjump : t.opcode.isJump = true) (hn : n ≠ i)
    (ρ : Valuation V) :
    Silent (e.moveBy J a i k) 1 (n, ρ) (e.jump a.literals t (n, ρ)) := by
  refine .one ?_
  rw [moveBy_of_ne hn]
  exact move_jump ht (hJ n t ht hjump)

/-- A chain of `JMP`s is silent. -/
theorem silent_jmps (h : Relation.ReflTransGen (Leads a.jmpNext) n m) (ρ : Valuation V) :
    ∃ l, Silent (e.move J a) l (n, ρ) (m, ρ) := by
  induction h using Relation.ReflTransGen.head_induction_on with
  | refl => exact ⟨0, .refl _⟩
  | @head n p hleads _ ih =>
    obtain ⟨l, hl⟩ := ih
    obtain ⟨t, ht, hp⟩ := Option.bind_eq_some_iff.mp hleads
    by_cases hjmp : t.opcode = .jmp
    · rw [if_pos hjmp] at hp
      obtain rfl := Option.some.inj hp
      have hmove := move_jump (e := e) (ρ := ρ) ht (hJ n t ht (by rw [hjmp]; rfl))
      have hto : e.jump a.literals t (n, ρ) = (t.op1.num, ρ) := by
        rw [jump, store_of_plain (.inl hjmp), ZendOp.goesTo, hjmp]
      exact ⟨l + 1, .head (hto ▸ hmove) hl⟩
    · simp [hjmp] at hp

/-- The walk of `JMPZ` or `JMPNZ` is silent where the test jumps. -/
theorem silent_walkJmpz (ho : a.opcodes[i]? = some o) (hop : o.opcode = .jmpz ∨ o.opcode = .jmpnz)
    (h : Walks (a.passes i o.passJmpz) n vs m) (hρ : e.test a.literals o ρ = o.opcode.takenBy) :
    ∃ l, Silent (e.moveBy J a i k) l (n, ρ) (m, ρ) := by
  induction h with
  | nil n => exact ⟨0, .refl _⟩
  | @cons n p m v vs hp _ ih =>
    obtain ⟨l, hl⟩ := ih
    obtain ⟨t, ht, hpass⟩ := Option.bind_eq_some_iff.mp hp
    by_cases hn : n = i
    · subst hn
      obtain rfl := Option.some.inj ((ZendOpArray.target_self ho).symm.trans ht)
      have hp : p = n := by
        unfold ZendOp.passJmpz at hpass
        split_ifs at hpass with hjmp
        · rcases hop with hop | hop <;> simp [ZendOp.setTarget2_opcode, hop] at hjmp
        · obtain ⟨-, rfl⟩ := Prod.mk.inj (Option.some.inj hpass)
          rfl
      exact ⟨l, hp ▸ hl⟩
    · rw [ZendOpArray.target_of_ne hn] at ht
      refine ⟨1 + l, .trans ?_ hl⟩
      unfold ZendOp.passJmpz at hpass
      split_ifs at hpass with hjmp hsame
      · obtain ⟨-, rfl⟩ := Prod.mk.inj (Option.some.inj hpass)
        have hto : e.jump a.literals t (n, ρ) = (t.op1.num, ρ) := by
          rw [jump, store_of_plain (.inl hjmp), ZendOp.goesTo, hjmp]
        exact hto ▸ silent_jump hJ ht (by rw [hjmp]; rfl) hn ρ
      · obtain ⟨-, rfl⟩ := Prod.mk.inj (Option.some.inj hpass)
        have htest : t.opcode.isCondJump = true := by
          rw [hsame.1]
          rcases hop with hop | hop <;> rw [hop] <;> rfl
        have hto : e.jump a.literals t (n, ρ) = (t.op2.num, ρ) := by
          rw [jump_test htest, test_sameVar hsame.2, hsame.1, if_pos hρ, store_of_plain]
          rw [hsame.1]
          tauto
        exact hto ▸ silent_jump hJ ht (ZendOpcode.isJump_of_isCondJump htest) hn ρ

omit hJ in
/-- A test of the temporary that the boolean was stored in -/
theorem test_result (h : t.op1.sameVar o.result = true) {v : Bool}
    (hρ : ρ (.temp o.result.num) = e.ofBool v) : e.test l t ρ = v := by
  obtain ⟨htype, hnum⟩ := Znode.sameVar_iff.mp h
  have hvalue : e.value l ρ t.op1 = e.ofBool v := by
    rcases htype with ⟨hx, -⟩ | ⟨hx, -⟩ <;> simp only [value, hx, hnum, hρ]
  rw [test, hvalue, e.isTrue_ofBool]

/-- The walk of an `_EX` jump is silent where it jumps, after it has stored the boolean. -/
theorem silent_walkJmpzEx (hsame : a.ExSame) (ho : a.opcodes[i]? = some o)
    (hex : o.opcode.isEx = true) (h : Walks (a.passes i o.passJmpzEx) n vs m)
    (hρ : ρ (.temp o.result.num) = e.ofBool o.opcode.takenBy) :
    ∃ l, Silent (e.moveBy J a i k) l (n, ρ) (m, ρ) := by
  induction h with
  | nil n => exact ⟨0, .refl _⟩
  | @cons n p m v vs hp _ ih =>
    obtain ⟨l, hl⟩ := ih
    obtain ⟨t, ht, hpass⟩ := Option.bind_eq_some_iff.mp hp
    by_cases hn : n = i
    · subst hn
      obtain rfl := Option.some.inj ((ZendOpArray.target_self ho).symm.trans ht)
      have hp : p = n := by
        have hznz : o.opcode ≠ .jmpznz := by
          intro h
          rw [h] at hex
          cases hex
        simp only [ZendOp.passJmpzEx, ZendOp.setTarget2_opcode, hznz, false_and, if_false] at hpass
        split_ifs at hpass
        obtain ⟨-, rfl⟩ := Prod.mk.inj (Option.some.inj hpass)
        rfl
      exact ⟨l, hp ▸ hl⟩
    · have hplace := hsame.samePlace ho hex ht
      rw [ZendOpArray.target_of_ne hn] at ht
      refine ⟨1 + l, .trans ?_ hl⟩
      unfold ZendOp.passJmpzEx at hpass
      by_cases hop : o.opcode.sameOpcodeEx t.opcode = true ∧ t.op1.sameVar o.result = true
      · rw [if_pos hop] at hpass
        obtain ⟨-, rfl⟩ := Prod.mk.inj (Option.some.inj hpass)
        have htest := test_result (l := a.literals) hop.2 hρ
        rcases (ZendOpcode.sameOpcodeEx_iff hex).mp hop.1 with hc | hc
        · have hcond := ZendOpcode.isCondJump_of_isEx hex
          rw [← hc] at hcond
          have hto : e.jump a.literals t (n, ρ) = (t.op2.num, ρ) := by
            rw [jump_test hcond, htest, hc, if_pos rfl, store_ex (hc ▸ hex), htest,
              storeBool_eq_self]
            rwa [(hplace (hc ▸ hex) hop.2).2]
          exact hto ▸ silent_jump hJ ht (ZendOpcode.isJump_of_isCondJump hcond) hn ρ
        · have hcond : t.opcode.isCondJump = true ∧ t.opcode.takenBy = o.opcode.takenBy := by
            rw [hc]
            rcases ZendOpcode.isEx_iff.mp hex with h | h <;> rw [h] <;> exact ⟨rfl, rfl⟩
          have hto : e.jump a.literals t (n, ρ) = (t.op2.num, ρ) := by
            rw [jump_test hcond.1, htest, hcond.2, if_pos rfl, store_of_plain]
            rw [hc]
            rcases ZendOpcode.isEx_iff.mp hex with h | h <;> simp [h, ZendOpcode.withoutResult]
          exact hto ▸ silent_jump hJ ht (ZendOpcode.isJump_of_isCondJump hcond.1) hn ρ
      rw [if_neg hop] at hpass
      by_cases hznz : t.opcode = .jmpznz ∧ t.op1.sameVar o.result = true
      · rw [if_pos hznz] at hpass
        obtain ⟨-, rfl⟩ := Prod.mk.inj (Option.some.inj hpass)
        have htest := test_result (l := a.literals) hznz.2 hρ
        have hto : e.jump a.literals t (n, ρ) =
            (if o.opcode = .jmpzEx then t.op2.num else t.extendedValue, ρ) := by
          rw [jump, store_of_plain (by tauto), htest, ZendOp.goesTo, hznz.1]
          rcases ZendOpcode.isEx_iff.mp hex with h | h <;> rw [h] <;> rfl
        exact hto ▸ silent_jump hJ ht (by rw [hznz.1]; rfl) hn ρ
      · simp [if_neg hznz] at hpass

omit hJ in
/-- The boolean that is stored does not change the test. -/
theorem test_storeBool (ρ : Valuation V) :
    e.test l o (e.storeBool n (e.test l o ρ) ρ) = e.test l o ρ := by
  have hslot (h : ∀ σ : Valuation V, e.value l σ o.op1 = σ (.temp o.op1.num)) :
      e.test l o (e.storeBool n (e.test l o ρ) ρ) = e.test l o ρ := by
    by_cases hn : o.op1.num = n
    · rw [test, h, hn, storeBool_self, e.isTrue_ofBool]
    · rw [test, h, storeBool, Function.update_of_ne (by simpa using hn), test, h]
  cases htype : o.op1.type with
  | tmpVar | var => exact hslot fun σ => by simp only [value, htype]
  | const | unused | cv => simp [test, value, htype, storeBool]

omit hJ in
/-- A jump tests the same again after it has stored. -/
theorem test_store (h : o.opcode.isCondJump = true) (ρ : Valuation V) :
    e.test l o (e.store l o ρ) = e.test l o ρ := by
  unfold ZendOpcode.isCondJump at h
  unfold store
  split at h <;> simp_all [test_storeBool]

omit hJ in
theorem jump_setTarget2 (h : o.opcode.isCondJump = true) (n : ℕ) (ρ : Valuation V) :
    e.jump l (o.setTarget2 n) (i, ρ) =
      (if e.test l o ρ = o.opcode.takenBy then n else i + 1, e.store l o ρ) :=
  jump_test (o := o.setTarget2 n) h ρ

omit hJ in
theorem jump_withStore (h : o.opcode = .jmpz ∨ o.opcode = .jmpnz) (n : ℕ) (T : Znode)
    (ρ : Valuation V) : e.jump l (o.withStore n T) (i, ρ) =
      (if e.test l o ρ = o.opcode.takenBy then n else i + 1,
        e.storeBool T.num (e.test l o ρ) ρ) := by
  have hex : (o.withStore n T).opcode.isEx = true := ZendOpcode.isEx_withResult
  have htaken : (o.withStore n T).opcode.takenBy = o.opcode.takenBy :=
    ZendOpcode.takenBy_withResult h
  rw [jump_test (ZendOpcode.isCondJump_of_isEx hex), store_ex hex, htaken]
  rfl

/-- A test with another target, to which the old one leads silently -/
theorem sameRuns_setTarget2 (ho : a.opcodes[i]? = some o) (hcond : o.opcode.isCondJump = true)
    (hreach : ∀ ρ, e.test a.literals o ρ = o.opcode.takenBy → ∃ l, Silent (e.move J a) l
      (o.op2.num, e.store a.literals o ρ) (n, e.store a.literals o ρ)) :
    SameRuns (e.move J (a.setOp i (o.setTarget2 n))) (e.move J a) := by
  have hi := hJ i o ho (ZendOpcode.isJump_of_isCondJump hcond)
  refine sameRuns_of_reaches_jump ho hi (fun _ hn => ZendOpArray.setOp_of_ne hn) rfl
    (ZendOpArray.setOp_self ho) fun ρ => ?_
  have hmove := move_jump (e := e) (ρ := ρ) ho hi
  rw [jump_test hcond] at hmove
  rw [show (a.setOp i (o.setTarget2 n)).literals = a.literals from rfl, jump_setTarget2 hcond]
  by_cases hρ : e.test a.literals o ρ = o.opcode.takenBy
  · obtain ⟨l, hl⟩ := hreach ρ hρ
    rw [if_pos hρ] at hmove ⊢
    exact ⟨l, .head hmove hl⟩
  · rw [if_neg hρ] at hmove ⊢
    exact ⟨0, .one hmove⟩

theorem reach_walkJmpz (ho : a.opcodes[i]? = some o) (hop : o.opcode = .jmpz ∨ o.opcode = .jmpnz)
    (h : Walks (a.passes i o.passJmpz) o.op2.num vs n) (ρ : Valuation V)
    (hρ : e.test a.literals o ρ = o.opcode.takenBy) : ∃ l, Silent (e.move J a) l
      (o.op2.num, e.store a.literals o ρ) (n, e.store a.literals o ρ) := by
  have hcond : o.opcode.isCondJump = true := by rcases hop with hop | hop <;> rw [hop] <;> rfl
  rw [← moveBy_jump ho (hJ i o ho (ZendOpcode.isJump_of_isCondJump hcond))]
  rw [← test_store hcond] at hρ
  exact silent_walkJmpz hJ ho hop h hρ

theorem reach_walkJmpzEx (hsame : a.ExSame) (ho : a.opcodes[i]? = some o)
    (hex : o.opcode.isEx = true) (h : Walks (a.passes i o.passJmpzEx) o.op2.num vs n)
    (ρ : Valuation V) (hρ : e.test a.literals o ρ = o.opcode.takenBy) :
    ∃ l, Silent (e.move J a) l
      (o.op2.num, e.store a.literals o ρ) (n, e.store a.literals o ρ) := by
  have hcond := ZendOpcode.isCondJump_of_isEx hex
  rw [← moveBy_jump ho (hJ i o ho (ZendOpcode.isJump_of_isCondJump hcond))]
  refine silent_walkJmpzEx hJ hsame ho hex h ?_
  rw [store_ex hex, storeBool_self, hρ]

end Executor

end ZendOpcache
