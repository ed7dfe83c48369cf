import ZendOpcache.Optimizer.JmpWalks

/-! # What the jumps of pass 3 store

Threading a jump keeps what the code shows. Three rewritings also change what is stored: a jump to
the next opline that stores its operand is dropped, a test that leads to an `_EX` jump stores even
where it falls through, and an `_EX` jump that leads to the inverse one skips what that one stores.
They keep what the code shows exactly where the difference is harmless.
-/

namespace ZendOpcache

open Chain

namespace Executor

variable {V ι : Type*} {e : Executor V ι} {J : ℕ → Bool} {a b : ZendOpArray} {i n m : ℕ}
  {o o' t : ZendOp} {ρ : Valuation V} {k : Valuation V → ℕ × Valuation V} {vs : List ℕ}

/-- A jump to the next opline goes on without its store. -/
def dropStore (i : ℕ) (ρ : Valuation V) : ℕ × Valuation V := (i + 1, ρ)

variable (e) in
/-- A test also stores the boolean of its operand where it falls through. -/
def earlyStore (a : ZendOpArray) (i : ℕ) (o : ZendOp) (n : ℕ) (ρ : Valuation V) :
    ℕ × Valuation V :=
  if e.test a.literals o ρ = o.opcode.takenBy then e.jump a.literals o (i, ρ)
  else (i + 1, e.storeBool n (e.test a.literals o ρ) ρ)

variable (e) in
/-- An `_EX` jump goes on behind the inverse jump at `n`, without its store. -/
def skipStore (a : ZendOpArray) (i : ℕ) (o : ZendOp) (n : ℕ) (ρ : Valuation V) :
    ℕ × Valuation V :=
  if e.test a.literals o ρ = o.opcode.takenBy then (n + 1, e.store a.literals o ρ)
  else e.jump a.literals o (i, ρ)

/-- The rewritings that change what is stored, by the way the jump at `i` goes on after them -/
inductive Deviates [ExTmpVars] (e : Executor V ι) (a : ZendOpArray) (i : ℕ) (o : ZendOp) :
    (Valuation V → ℕ × Valuation V) → Prop
  /-- `T = JMPZ_EX X, L+1` becomes a `NOP` if `X` and `T` have the same `var`. -/
  | drop (hex : o.opcode.isEx = true) (hnext : o.op2.num = i + 1)
      (hnum : o.op1.rawVar = o.result.rawVar) : Deviates e a i o (dropStore i)
  /-- `JMPZ X` gets the result of a `JMPZ_EX X` or a `JMPNZ_EX X` that it leads to. -/
  | early {vs : List ℕ} {n : ℕ} {t : ZendOp} (hop : o.opcode = .jmpz ∨ o.opcode = .jmpnz)
      (hnext : o.op2.num ≠ i + 1) (h : Walks (a.passes i o.passJmpz) o.op2.num vs n)
      (hnodup : vs.Nodup) (ht : a.opcodes[n]? = some t)
      (hex : t.opcode = o.opcode.withResult ∨ t.opcode = o.opcode.invCondEx)
      (hsame : o.op1.sameVar t.op1 = true) : Deviates e a i o (e.earlyStore a i o t.result.num)
  /-- `JMPZ_EX X` skips a `JMPNZ_EX X` that it leads to. -/
  | skip {vs : List ℕ} {n : ℕ} {t : ZendOp} (hex : o.opcode.isEx = true)
      (hnext : o.op2.num ≠ i + 1) (h : Walks (a.passes i o.passJmpzEx) o.op2.num vs n)
      (hnodup : vs.Nodup) (ht : a.opcodes[n]? = some t) (hinv : t.opcode = o.opcode.invExCondEx)
      (hsame : o.op1.sameVar t.op1 = true) : Deviates e a i o (e.skipStore a i o n)

section Rewrites

variable (hJ : a.JumpsIn J) (ho : a.opcodes[i]? = some o)
include hJ ho

/-- A test of the same variable that does not jump passes control on to the next opline. -/
theorem sameRuns_behind (hcond : o.opcode.isCondJump = true) (ht : a.opcodes[n]? = some t)
    (hplain : t.opcode = .jmpz ∨ t.opcode = .jmpnz) (hinv : t.opcode.takenBy = !o.opcode.takenBy)
    (hsame : o.op1.sameVar t.op1 = true)
    (hreach : ∀ ρ, e.test a.literals o ρ = o.opcode.takenBy → ∃ l, Silent (e.move J a) l
      (o.op2.num, e.store a.literals o ρ) (n, e.store a.literals o ρ)) :
    SameRuns (e.move J (a.setOp i (o.setTarget2 (n + 1)))) (e.move J a) := by
  refine sameRuns_setTarget2 hJ ho hcond fun ρ hρ => ?_
  obtain ⟨l, hl⟩ := hreach ρ hρ
  have htcond : t.opcode.isCondJump = true := by rcases hplain with h | h <;> rw [h] <;> rfl
  have hmove := move_jump (e := e) (ρ := e.store a.literals o ρ) ht
    (hJ n t ht (ZendOpcode.isJump_of_isCondJump htcond))
  rw [jump_test htcond, test_sameVar hsame, test_store hcond, hρ, hinv, if_neg (by simp),
    store_of_plain (o := t) (by tauto)] at hmove
  exact ⟨l + 1, hl.trans (.one hmove)⟩

/-- `JMPZ` becomes an `_EX` jump: it stores what the one that it leads to does, but also where it
does not jump. -/
theorem sameRuns_withStore_iff (hop : o.opcode = .jmpz ∨ o.opcode = .jmpnz)
    (h : Walks (a.passes i o.passJmpz) o.op2.num vs n) (ht : a.opcodes[n]? = some t) (hn : n ≠ i)
    (hex : t.opcode.isEx = true) (hto : t.goesTo n o.opcode.takenBy = m)
    (hsame : o.op1.sameVar t.op1 = true) :
    SameRuns (e.move J (a.setOp i (o.withStore m t.result))) (e.move J a) ↔
      e.Harmless J a i (e.earlyStore a i o t.result.num) := by
  have hcond : o.opcode.isCondJump = true := by rcases hop with hop | hop <;> rw [hop] <;> rfl
  refine sameRuns_iff_harmless ho (hJ i o ho (ZendOpcode.isJump_of_isCondJump hcond))
    (fun _ hn => ZendOpArray.setOp_of_ne hn) rfl (ZendOpArray.setOp_self ho) fun ρ => ?_
  rw [show (a.setOp i (o.withStore m t.result)).literals = a.literals from rfl, jump_withStore hop]
  have hmove : e.moveBy J a i (e.earlyStore a i o t.result.num) (i, ρ) = _ := moveBy_self
  unfold earlyStore at hmove
  by_cases hρ : e.test a.literals o ρ = o.opcode.takenBy
  · -- the walk, and the `_EX` jump at its end
    have htcond := ZendOpcode.isCondJump_of_isEx hex
    have hlast := silent_jump (e := e) (k := e.earlyStore a i o t.result.num) hJ ht
      (ZendOpcode.isJump_of_isCondJump htcond) hn ρ
    have hjump : e.jump a.literals t (n, ρ) =
        (m, e.storeBool t.result.num o.opcode.takenBy ρ) := by
      rw [jump, test_sameVar hsame, hρ, hto, store_ex hex, test_sameVar hsame, hρ]
    obtain ⟨l, hl⟩ := silent_walkJmpz hJ ho hop h hρ
    rw [if_pos hρ, jump_test hcond, if_pos hρ, store_of_plain (by tauto)] at hmove
    rw [if_pos hρ, hρ]
    exact ⟨l + 1, .head hmove (hl.trans (hjump ▸ hlast))⟩
  · rw [if_neg hρ] at hmove ⊢
    exact ⟨0, .one hmove⟩

/-- `JMPZ_EX` skips the inverse jump that it leads to, with what that one stores. -/
theorem sameRuns_skip_iff (hex : o.opcode.isEx = true) :
    SameRuns (e.move J (a.setOp i (o.setTarget2 (n + 1)))) (e.move J a) ↔
      e.Harmless J a i (e.skipStore a i o n) := by
  have hcond := ZendOpcode.isCondJump_of_isEx hex
  refine sameRuns_iff_harmless ho (hJ i o ho (ZendOpcode.isJump_of_isCondJump hcond))
    (fun _ hn => ZendOpArray.setOp_of_ne hn) rfl (ZendOpArray.setOp_self ho) fun ρ => ⟨0, .one ?_⟩
  rw [moveBy_self, show (a.setOp i (o.setTarget2 (n + 1))).literals = a.literals from rfl,
    jump_setTarget2 hcond, skipStore, jump_test hcond]
  split_ifs <;> rfl

/-- A jump that stores its operand is dropped. -/
theorem sameRuns_drop_iff (hex : o.opcode.isEx = true) :
    SameRuns (e.move J (a.setOp i o.makeNop)) (e.move J a) ↔ e.Harmless J a i (dropStore i) := by
  have hcond := ZendOpcode.isCondJump_of_isEx hex
  exact sameRuns_iff_harmless ho (hJ i o ho (ZendOpcode.isJump_of_isCondJump hcond))
    (fun _ hn => ZendOpArray.setOp_of_ne hn) rfl (ZendOpArray.setOp_self ho) fun ρ =>
    ⟨0, .one moveBy_self⟩

/-- A jump whose targets were moved along `JMP`s -/
theorem sameRuns_of_jmps (hjump : o.opcode.isJump = true)
    (hstore : ∀ ρ, e.store a.literals o' ρ = e.store a.literals o ρ)
    (hleads : ∀ ρ, Relation.ReflTransGen (Leads a.jmpNext)
      (o.goesTo i (e.test a.literals o ρ)) (o'.goesTo i (e.test a.literals o' ρ))) :
    SameRuns (e.move J (a.setOp i o')) (e.move J a) := by
  have hi := hJ i o ho hjump
  refine sameRuns_of_reaches_jump ho hi (fun _ hn => ZendOpArray.setOp_of_ne hn) rfl
    (ZendOpArray.setOp_self ho) fun ρ => ?_
  obtain ⟨l, hl⟩ := silent_jmps hJ (hleads ρ) (e.store a.literals o ρ)
  refine ⟨l, .head (move_jump ho hi) ?_⟩
  rw [show (a.setOp i o').literals = a.literals from rfl]
  simpa only [jump, hstore] using hl

/-- A jump to the next opline that stores nothing -/
theorem sameRuns_makeNop (hjump : o.opcode.isJump = true)
    (hstore : ∀ ρ, e.store a.literals o ρ = ρ) (hnext : ∀ v, o.goesTo i v = i + 1) :
    SameRuns (e.move J (a.setOp i o.makeNop)) (e.move J a) :=
  sameRuns_of_jmps hJ ho hjump (fun ρ => (hstore ρ).symm) fun ρ => by rw [hnext]; exact .refl

theorem sameRuns_jmp {fuel : ℕ} (hop : o.opcode = .jmp)
    (hb : a.follow fuel i (fun i s => followJmp i s (·.op1.num) .setTarget1) .none = some b) :
    SameRuns (e.move J b) (e.move J a) := by
  obtain ⟨m, hleads, rfl⟩ := ZendOpArray.follow_jmp ho hb
  have hop' : (o.setTarget1 m).opcode = .jmp := hop
  refine sameRuns_of_jmps hJ ho (by rw [hop]; rfl) (fun ρ => ?_) fun ρ => ?_
  · rw [store_of_plain (.inl hop), store_of_plain (.inl hop')]
  · simp only [ZendOp.goesTo, hop, hop']
    exact hleads

theorem sameRuns_jmpSet {fuel : ℕ} (hop : o.opcode = .jmpSet ∨ o.opcode = .jmpSetVar)
    (hb : a.follow fuel i followJmpSet .none = some b) :
    SameRuns (e.move J b) (e.move J a) := by
  have hjmp : o.opcode ≠ .jmp := by rcases hop with hop | hop <;> rw [hop] <;> decide
  obtain ⟨m, hleads, rfl⟩ := ZendOpArray.follow_jmpSet ho hjmp hb
  refine sameRuns_of_jmps hJ ho (by rcases hop with hop | hop <;> rw [hop] <;> rfl)
    (fun ρ => rfl) fun ρ => ?_
  have hgoes (o' : ZendOp) (h : o'.opcode = o.opcode) (v : Bool) :
      o'.goesTo i v = if v then o'.op2.num else i + 1 := by
    rcases hop with hop | hop <;> simp only [ZendOp.goesTo, h, hop]
  rw [hgoes o rfl, hgoes (o.setTarget2 m) rfl,
    show e.test a.literals (o.setTarget2 m) ρ = e.test a.literals o ρ from rfl]
  split_ifs
  · exact hleads
  · exact .refl

theorem sameRuns_jmpznz {fuel : ℕ} (hop : o.opcode = .jmpznz) {s s' : JmpState}
    (hs : followJumps (fun s => followJmp i s (·.op2.num) .setTarget2) fuel ⟨a, [], .none⟩ =
      some s)
    (hs' : followJumps (fun s => followJmp i s (·.extendedValue) .setExtended) fuel s =
      some s') : SameRuns (e.move J s'.array) (e.move J a) := by
  obtain ⟨m, m', hleads, hleads', harray⟩ :=
    ZendOpArray.follow_jmpznz ho (by rw [hop]; decide) hs hs'
  have hop' : ((o.setTarget2 m).setExtended m').opcode = .jmpznz := hop
  rw [harray]
  refine sameRuns_of_jmps hJ ho (by rw [hop]; rfl) (fun ρ => ?_) fun ρ => ?_
  · rw [store_of_plain (by tauto), store_of_plain (by tauto)]
  · rw [show e.test a.literals ((o.setTarget2 m).setExtended m') ρ = e.test a.literals o ρ from rfl]
    simp only [ZendOp.goesTo, hop, hop']
    split_ifs
    · exact hleads'
    · exact hleads

end Rewrites

section Ends

theorem target_of_opcode_ne (ho : a.opcodes[i]? = some o) (ht : a.target i n = some t)
    (hne : t.opcode ≠ o.opcode) : n ≠ i ∧ a.opcodes[n]? = some t := by
  by_cases hn : n = i
  · subst hn
    obtain rfl := Option.some.inj ((ZendOpArray.target_self ho).symm.trans ht)
    exact absurd rfl hne
  · exact ⟨hn, ZendOpArray.target_of_ne hn ▸ ht⟩

theorem target_of_getElem? (ho : a.opcodes[i]? = some o) (ht : a.opcodes[n]? = some t)
    (hne : t.opcode ≠ o.opcode) : a.target i n = some t := by
  rw [ZendOpArray.target_of_ne, ht]
  rintro rfl
  exact hne (congrArg _ (Option.some.inj (ht.symm.trans ho)))

theorem passes_eq_none (ho : a.opcodes[i]? = some o) (ht : a.opcodes[n]? = some t)
    (hne : t.opcode ≠ o.opcode) {pass : ZendOp → Option (ℕ × ℕ)} (hpass : pass t = none) :
    a.passes i pass n = none := by
  rw [ZendOpArray.passes, target_of_getElem? ho ht hne, Option.bind_some, hpass]

/-- An `_EX` jump is no way on for a test. -/
theorem passJmpz_ex (hop : o.opcode = .jmpz ∨ o.opcode = .jmpnz)
    (hex : t.opcode = o.opcode.withResult ∨ t.opcode = o.opcode.invCondEx) :
    t.opcode ≠ o.opcode ∧ o.passJmpz t = none := by
  have hne : t.opcode ≠ o.opcode ∧ t.opcode ≠ .jmp := by
    rcases hop with hop | hop <;> rcases hex with hex | hex <;> rw [hex, hop] <;> decide
  rw [ZendOp.passJmpz, if_neg hne.2, if_neg fun h => hne.1 h.1]
  exact ⟨hne.1, rfl⟩

/-- The inverse jump is no way on for an `_EX` jump. -/
theorem passJmpzEx_inv (hex : o.opcode.isEx = true) (hinv : t.opcode = o.opcode.invExCondEx) :
    t.opcode ≠ o.opcode ∧ o.passJmpzEx t = none := by
  have hne : t.opcode ≠ o.opcode ∧ ¬o.opcode.sameOpcodeEx t.opcode = true ∧
      t.opcode ≠ .jmpznz := by
    rcases ZendOpcode.isEx_iff.mp hex with hop | hop <;> rw [hinv, hop] <;> decide
  rw [ZendOp.passJmpzEx, if_neg fun h => hne.2.1 h.1, if_neg fun h => hne.2.2 h.1]
  exact ⟨hne.1, rfl⟩

variable [ExTmpVars]

/-- Where a loop stops at a number that it has recorded, its opline keeps what it stores. -/
theorem not_deviates_of_hit (ho : a.opcodes[i]? = some o) (hnext : o.op2.num ≠ i + 1) {v : ℕ}
    (hop : (o.opcode = .jmpz ∨ o.opcode = .jmpnz) ∧
        Walks (a.passes i o.passJmpz) o.op2.num vs n ∧ a.passes i o.passJmpz n = some (v, m) ∨
      o.opcode.isEx = true ∧
        Walks (a.passes i o.passJmpzEx) o.op2.num vs n ∧ a.passes i o.passJmpzEx n = some (v, m))
    (hv : v ∈ vs) : ¬Deviates e a i o k := by
  have hnot (hop : o.opcode = .jmpz ∨ o.opcode = .jmpnz) : o.opcode.isEx = false := by
    rcases hop with hop | hop <;> rw [hop] <;> rfl
  intro hk
  cases hk with
  | drop _ hnext' => exact hnext hnext'
  | early hop' _ hwalk hnodup ht hex =>
    rcases hop with ⟨-, h, hn⟩ | ⟨hex', -⟩
    · obtain ⟨hne, hpass⟩ := passJmpz_ex hop' hex
      exact h.not_nodup hn hv hwalk (passes_eq_none ho ht hne hpass) hnodup
    · simp [hnot hop'] at hex'
  | skip hex _ hwalk hnodup ht hinv =>
    rcases hop with ⟨hop', -⟩ | ⟨-, h, hn⟩
    · simp [hnot hop'] at hex
    · obtain ⟨hne, hpass⟩ := passJmpzEx_inv hex hinv
      exact h.not_nodup hn hv hwalk (passes_eq_none ho ht hne hpass) hnodup

/-- The end of the walk decides whether a test gets a store. -/
theorem deviates_jmpz_iff (ho : a.opcodes[i]? = some o) (hop : o.opcode = .jmpz ∨ o.opcode = .jmpnz)
    (hnext : o.op2.num ≠ i + 1) (h : Walks (a.passes i o.passJmpz) o.op2.num vs n)
    (hnodup : vs.Nodup) (hn : a.passes i o.passJmpz n = none) : Deviates e a i o k ↔
      ∃ t, a.target i n = some t ∧
        (t.opcode = o.opcode.withResult ∨ t.opcode = o.opcode.invCondEx) ∧
        o.op1.sameVar t.op1 = true ∧ k = e.earlyStore a i o t.result.num := by
  constructor
  · intro hk
    cases hk with
    | drop hex => rcases hop with hop | hop <;> simp [hop, ZendOpcode.isEx] at hex
    | skip hex => rcases hop with hop | hop <;> simp [hop, ZendOpcode.isEx] at hex
    | @early ws m t _ _ hwalk _ ht hex hsame =>
      obtain ⟨hne, hpass⟩ := passJmpz_ex hop hex
      obtain rfl := h.end_unique hn hwalk (passes_eq_none ho ht hne hpass)
      exact ⟨t, target_of_getElem? ho ht hne, hex, hsame, rfl⟩
  · rintro ⟨t, ht, hex, hsame, rfl⟩
    exact .early hop hnext h hnodup (target_of_opcode_ne ho ht (passJmpz_ex hop hex).1).2 hex hsame

/-- The end of the walk decides whether an `_EX` jump skips another one. -/
theorem deviates_jmpzEx_iff (ho : a.opcodes[i]? = some o) (hex : o.opcode.isEx = true)
    (hnext : o.op2.num ≠ i + 1) (h : Walks (a.passes i o.passJmpzEx) o.op2.num vs n)
    (hnodup : vs.Nodup) (hn : a.passes i o.passJmpzEx n = none) : Deviates e a i o k ↔
      ∃ t, a.target i n = some t ∧ t.opcode = o.opcode.invExCondEx ∧
        o.op1.sameVar t.op1 = true ∧ k = e.skipStore a i o n := by
  constructor
  · intro hk
    cases hk with
    | drop _ hnext' => exact absurd hnext' hnext
    | early hop => rcases hop with hop | hop <;> simp [hop, ZendOpcode.isEx] at hex
    | @skip ws m t _ _ hwalk _ ht hinv hsame =>
      obtain ⟨hne, hpass⟩ := passJmpzEx_inv hex hinv
      obtain rfl := h.end_unique hn hwalk (passes_eq_none ho ht hne hpass)
      exact ⟨t, target_of_getElem? ho ht hne, hinv, hsame, rfl⟩
  · rintro ⟨t, ht, hinv, hsame, rfl⟩
    exact .skip hex hnext h hnodup (target_of_opcode_ne ho ht (passJmpzEx_inv hex hinv).1).2 hinv
      hsame

end Ends

section Turns

variable [ExTmpVars] (hJ : a.JumpsIn J) (ho : a.opcodes[i]? = some o)
include hJ ho

/-- A test that gets a store at the end of its walk -/
theorem sameRuns_early_iff (hop : o.opcode = .jmpz ∨ o.opcode = .jmpnz)
    (hnext : o.op2.num ≠ i + 1) (h : Walks (a.passes i o.passJmpz) o.op2.num vs n)
    (hnodup : vs.Nodup) (hn : a.passes i o.passJmpz n = none) (ht : a.target i n = some t)
    (hex : t.opcode = o.opcode.withResult ∧ m = t.op2.num ∨
      t.opcode = o.opcode.invCondEx ∧ m = n + 1) (hsame : o.op1.sameVar t.op1 = true) :
    SameRuns (e.move J (a.setOp i (o.withStore m t.result))) (e.move J a) ↔
      ∀ k, Deviates e a i o k → e.Harmless J a i k := by
  have hex' : t.opcode = o.opcode.withResult ∨ t.opcode = o.opcode.invCondEx :=
    hex.imp And.left And.left
  obtain ⟨hni, ht'⟩ := target_of_opcode_ne ho ht (passJmpz_ex hop hex').1
  have htex : t.opcode.isEx = true := by
    rcases hex' with hex | hex <;> rw [hex]
    · exact ZendOpcode.isEx_withResult
    · exact ZendOpcode.isEx_invCondEx
  have hto : t.goesTo n o.opcode.takenBy = m := by
    rw [ZendOp.goesTo_test (ZendOpcode.isCondJump_of_isEx htex)]
    rcases hex with ⟨hex, rfl⟩ | ⟨hex, rfl⟩ <;> rw [hex]
    · rw [ZendOpcode.takenBy_withResult hop, if_pos rfl]
    · rw [ZendOpcode.takenBy_invCondEx hop, if_neg (by simp)]
  rw [sameRuns_withStore_iff hJ ho hop h ht' hni htex hto hsame]
  simp only [deviates_jmpz_iff ho hop hnext h hnodup hn]
  constructor
  · rintro hk k ⟨t₁, ht₁, -, -, rfl⟩
    obtain rfl := Option.some.inj (ht.symm.trans ht₁)
    exact hk
  · intro hk
    exact hk _ ⟨t, ht, hex', hsame, rfl⟩

/-- What the code shows after a turn at `JMPZ` or `JMPNZ` -/
theorem sameRuns_jmpz_iff (hop : o.opcode = .jmpz ∨ o.opcode = .jmpnz) (hnext : o.op2.num ≠ i + 1)
    (hled : a.Led i o o.passJmpz o.endJmpz o') :
    SameRuns (e.move J (a.setOp i o')) (e.move J a) ↔
      ∀ k, Deviates e a i o k → e.Harmless J a i k := by
  have hcond : o.opcode.isCondJump = true := by rcases hop with hop | hop <;> rw [hop] <;> rfl
  cases hled with
  | hit h hnodup hn hv =>
    exact iff_of_true (sameRuns_setTarget2 hJ ho hcond (reach_walkJmpz hJ ho hop h)) fun k hk =>
      absurd hk (not_deviates_of_hit ho hnext (.inl ⟨hop, h, hn⟩) hv)
  | @last vs n h hnodup hn =>
    have hplain (hno : ∀ t, a.target i n = some t → o.op1.sameVar t.op1 = true →
        ¬(t.opcode = o.opcode.withResult ∨ t.opcode = o.opcode.invCondEx)) (k) :
        Deviates e a i o k → e.Harmless J a i k := by
      rw [deviates_jmpz_iff ho hop hnext h hnodup hn]
      rintro ⟨t, ht, hex, hsame, -⟩
      exact absurd hex (hno t ht hsame)
    cases ht : a.target i n with
    | none =>
      exact iff_of_true (sameRuns_setTarget2 hJ ho hcond (reach_walkJmpz hJ ho hop h))
        (hplain fun t ht' => by simp [ht] at ht')
    | some t =>
      unfold ZendOp.endJmpz
      dsimp only
      by_cases hwith : t.opcode = o.opcode.withResult ∧ o.op1.sameVar t.op1 = true
      · rw [if_pos hwith]
        exact sameRuns_early_iff hJ ho hop hnext h hnodup hn ht (.inl ⟨hwith.1, rfl⟩) hwith.2
      by_cases hinv : t.opcode = o.opcode.invCond ∧ o.op1.sameVar t.op1 = true
      · rw [if_neg hwith, if_pos hinv]
        have hc : t.opcode ≠ o.opcode ∧ (t.opcode = .jmpz ∨ t.opcode = .jmpnz) ∧
            ¬(t.opcode = o.opcode.withResult ∨ t.opcode = o.opcode.invCondEx) := by
          rcases hop with hop | hop <;> rw [hinv.1, hop] <;> decide
        refine iff_of_true (sameRuns_behind hJ ho hcond (target_of_opcode_ne ho ht hc.1).2 hc.2.1
          (hinv.1 ▸ ZendOpcode.takenBy_invCond hop) hinv.2 (reach_walkJmpz hJ ho hop h))
          (hplain fun t₁ ht₁ _ => ?_)
        obtain rfl := Option.some.inj (ht.symm.trans ht₁)
        exact hc.2.2
      by_cases hinvEx : t.opcode = o.opcode.invCondEx ∧ o.op1.sameVar t.op1 = true
      · rw [if_neg hwith, if_neg hinv, if_pos hinvEx]
        exact sameRuns_early_iff hJ ho hop hnext h hnodup hn ht (.inr ⟨hinvEx.1, rfl⟩) hinvEx.2
      · rw [if_neg hwith, if_neg hinv, if_neg hinvEx]
        refine iff_of_true (sameRuns_setTarget2 hJ ho hcond (reach_walkJmpz hJ ho hop h))
          (hplain fun t₁ ht₁ hsame => ?_)
        obtain rfl := Option.some.inj (ht.symm.trans ht₁)
        rintro (hex | hex)
        · exact hwith ⟨hex, hsame⟩
        · exact hinvEx ⟨hex, hsame⟩

/-- What the code shows after a turn at `JMPZ_EX` or `JMPNZ_EX` -/
theorem sameRuns_jmpzEx_iff (hsame : a.ExSame) (hex : o.opcode.isEx = true)
    (hnext : o.op2.num ≠ i + 1) (hled : a.Led i o o.passJmpzEx o.endJmpzEx o') :
    SameRuns (e.move J (a.setOp i o')) (e.move J a) ↔
      ∀ k, Deviates e a i o k → e.Harmless J a i k := by
  have hcond := ZendOpcode.isCondJump_of_isEx hex
  cases hled with
  | hit h hnodup hn hv =>
    exact iff_of_true (sameRuns_setTarget2 hJ ho hcond (reach_walkJmpzEx hJ hsame ho hex h))
      fun k hk => absurd hk (not_deviates_of_hit ho hnext (.inr ⟨hex, h, hn⟩) hv)
  | @last vs n h hnodup hn =>
    have hplain (hno : ∀ t, a.target i n = some t → o.op1.sameVar t.op1 = true →
        t.opcode ≠ o.opcode.invExCondEx) (k) :
        Deviates e a i o k → e.Harmless J a i k := by
      rw [deviates_jmpzEx_iff ho hex hnext h hnodup hn]
      rintro ⟨t, ht, hinv, hsame, -⟩
      exact absurd hinv (hno t ht hsame)
    cases ht : a.target i n with
    | none =>
      exact iff_of_true (sameRuns_setTarget2 hJ ho hcond (reach_walkJmpzEx hJ hsame ho hex h))
        (hplain fun t ht' => by simp [ht] at ht')
    | some t =>
      unfold ZendOp.endJmpzEx
      dsimp only
      by_cases hinv : (t.opcode = o.opcode.invExCondEx ∨ t.opcode = o.opcode.invExCond) ∧
          o.op1.sameVar t.op1 = true
      · rw [if_pos hinv]
        by_cases hinvEx : t.opcode = o.opcode.invExCondEx
        · rw [sameRuns_skip_iff hJ ho hex]
          simp only [deviates_jmpzEx_iff ho hex hnext h hnodup hn]
          constructor
          · rintro hk k ⟨-, -, -, -, rfl⟩
            exact hk
          · intro hk
            exact hk _ ⟨t, ht, hinvEx, hinv.2, rfl⟩
        · have hinvEx' := hinv.1.resolve_left hinvEx
          have hc : t.opcode ≠ o.opcode ∧ (t.opcode = .jmpz ∨ t.opcode = .jmpnz) := by
            rcases ZendOpcode.isEx_iff.mp hex with hop | hop <;> rw [hinvEx', hop] <;> decide
          refine iff_of_true (sameRuns_behind hJ ho hcond (target_of_opcode_ne ho ht hc.1).2 hc.2
            (ZendOpcode.takenBy_inv hex hinv.1).2 hinv.2 (reach_walkJmpzEx hJ hsame ho hex h))
            (hplain fun t₁ ht₁ _ => ?_)
          obtain rfl := Option.some.inj (ht.symm.trans ht₁)
          exact hinvEx
      · rw [if_neg hinv]
        refine iff_of_true (sameRuns_setTarget2 hJ ho hcond (reach_walkJmpzEx hJ hsame ho hex h))
          (hplain fun t₁ ht₁ hsame' hinv' => ?_)
        obtain rfl := Option.some.inj (ht.symm.trans ht₁)
        exact hinv ⟨.inl hinv', hsame'⟩

omit hJ ho in
/-- Only tests deviate. -/
theorem Deviates.isCondJump (h : Deviates e a i o k) : o.opcode.isCondJump = true := by
  cases h with
  | drop hex | skip hex => exact ZendOpcode.isCondJump_of_isEx hex
  | early hop => rcases hop with hop | hop <;> rw [hop] <;> rfl

omit hJ ho in
/-- A jump to the next opline deviates only where it is an `_EX` jump that is dropped. -/
theorem deviates_next_iff (hnext : o.op2.num = i + 1) : Deviates e a i o k ↔
    o.opcode.isEx = true ∧ o.op1.rawVar = o.result.rawVar ∧ k = dropStore i := by
  constructor
  · intro h
    cases h with
    | drop hex _ hnum => exact ⟨hex, hnum, rfl⟩
    | early _ hne | skip _ hne => exact absurd hnext hne
  · rintro ⟨hex, hnum, rfl⟩
    exact .drop hex hnext hnum

theorem sameRuns_turnJmpz_iff (hop : o.opcode = .jmpz ∨ o.opcode = .jmpnz) {fuel : ℕ}
    (hb : (if o.op2.num = i + 1 then some (a.modifyOp i .makeNop)
      else a.follow fuel i followJmpz .none) = some b) :
    SameRuns (e.move J b) (e.move J a) ↔ ∀ k, Deviates e a i o k → e.Harmless J a i k := by
  have hcond : o.opcode.isCondJump = true := by rcases hop with hop | hop <;> rw [hop] <;> rfl
  split_ifs at hb with hnext
  · obtain rfl := Option.some.inj hb
    rw [ZendOpArray.setOp_eq_modifyOp ho]
    refine iff_of_true (sameRuns_makeNop hJ ho (ZendOpcode.isJump_of_isCondJump hcond)
      (fun ρ => store_of_plain (by tauto)) fun v => ?_) fun k hk => ?_
    · rw [ZendOp.goesTo_test hcond, hnext, ite_self]
    · obtain ⟨hex, -⟩ := (deviates_next_iff hnext).mp hk
      rcases hop with hop | hop <;> simp [hop, ZendOpcode.isEx] at hex
  · obtain ⟨o', hled, rfl⟩ := (ZendOpArray.walksBy_jmpz ho).follow ho trivial hb
    exact sameRuns_jmpz_iff hJ ho hop hnext hled

theorem sameRuns_turnJmpzEx_iff (hsame : a.ExSame) (hex : o.opcode.isEx = true) {fuel : ℕ}
    (hb : (if o.op2.num = i + 1 then
        if o.op1.rawVar = o.result.rawVar then some (a.modifyOp i .makeNop)
        else some (a.modifyOp i fun o => { o with opcode := .bool, op2 := o.op2.setUnused })
      else a.follow fuel i followJmpzEx o.result) = some b) :
    SameRuns (e.move J b) (e.move J a) ↔ ∀ k, Deviates e a i o k → e.Harmless J a i k := by
  have hcond := ZendOpcode.isCondJump_of_isEx hex
  split_ifs at hb with hnext hnum
  · obtain rfl := Option.some.inj hb
    simp only [ZendOpArray.setOp_eq_modifyOp ho, sameRuns_drop_iff hJ ho hex,
      deviates_next_iff hnext]
    exact ⟨fun h k ⟨_, _, hk⟩ => hk ▸ h, fun h => h _ ⟨hex, hnum, rfl⟩⟩
  · obtain rfl := Option.some.inj hb
    rw [ZendOpArray.setOp_eq_modifyOp ho]
    refine iff_of_true (sameRuns_of_jmps hJ ho (ZendOpcode.isJump_of_isCondJump hcond)
      (fun ρ => (store_ex hex).symm) fun ρ => ?_) fun k hk => ?_
    · rw [ZendOp.goesTo_test hcond, hnext, ite_self]
      exact .refl
    · exact absurd ((deviates_next_iff hnext).mp hk).2.1 hnum
  · obtain ⟨o', hled, rfl⟩ := (ZendOpArray.walksBy_jmpzEx hsame ho hex).follow ho ⟨rfl, rfl⟩ hb
    exact sameRuns_jmpzEx_iff hJ ho hsame hex hnext hled

/-- A turn at a jump keeps what the code shows exactly if what it changes in the stores is
harmless. -/
theorem sameRuns_pass3Jmp_iff (hsame : a.ExSame) (hjump : o.opcode.isJump = true) {fuel : ℕ}
    (hb : a.pass3Jmp fuel i o = some b) : SameRuns (e.move J b) (e.move J a) ↔
      ∀ k, Deviates e a i o k → e.Harmless J a i k := by
  have hplain (h : o.opcode.isCondJump = false) (k) (hk : Deviates e a i o k) :
      e.Harmless J a i k := by simp [hk.isCondJump] at h
  unfold ZendOpArray.pass3Jmp at hb
  split at hb
  case h_1 hop =>
    refine iff_of_true ?_ (hplain (by rw [hop]; rfl))
    split_ifs at hb with hnext
    · obtain rfl := Option.some.inj hb
      rw [ZendOpArray.setOp_eq_modifyOp ho]
      exact sameRuns_makeNop hJ ho hjump (fun ρ => store_of_plain (.inl hop))
        fun v => by simp only [ZendOp.goesTo, hop, hnext]
    · exact sameRuns_jmp hJ ho hop hb
  case h_2 hop =>
    exact iff_of_true (sameRuns_jmpSet hJ ho (.inl hop) hb) (hplain (by rw [hop]; rfl))
  case h_3 hop =>
    exact iff_of_true (sameRuns_jmpSet hJ ho (.inr hop) hb) (hplain (by rw [hop]; rfl))
  case h_4 hop => exact sameRuns_turnJmpz_iff hJ ho (.inl hop) hb
  case h_5 hop => exact sameRuns_turnJmpz_iff hJ ho (.inr hop) hb
  case h_6 hop => exact sameRuns_turnJmpzEx_iff hJ ho hsame (by rw [hop]; rfl) hb
  case h_7 hop => exact sameRuns_turnJmpzEx_iff hJ ho hsame (by rw [hop]; rfl) hb
  case h_8 hop =>
    obtain ⟨s, hs, hb⟩ := Option.bind_eq_some_iff.mp hb
    obtain ⟨s', hs', hb⟩ := Option.bind_eq_some_iff.mp hb
    obtain rfl := Option.some.inj hb
    exact iff_of_true (sameRuns_jmpznz hJ ho hop hs hs') (hplain (by rw [hop]; rfl))
  case h_9 =>
    unfold ZendOpcode.isJump at hjump
    split at hjump <;> simp_all

end Turns

end Executor

end ZendOpcache
