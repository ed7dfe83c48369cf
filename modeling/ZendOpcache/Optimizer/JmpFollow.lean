import ZendOpcache.Optimizer.JmpLoops
import ZendOpcache.Optimizer.JmpMachine

/-! # Where the loops of pass 3 lead

Every loop sets one target of its opline, again and again, so a loop is a walk along the oplines
that pass a jump on. The loops with a hit list end where the walk ends, or where it records a number
for the second time. An opline leads to itself whenever its own loop comes to it.
-/

namespace ZendOpcache

open Chain

namespace ZendOp

/-- The way on from a target of `JMPZ` or `JMPNZ`, with the number that is recorded -/
def passJmpz (o target : ZendOp) : Option (ℕ × ℕ) :=
  if target.opcode = .jmp then some (target.op1.num, target.op1.num)
  else if target.opcode = o.opcode ∧ o.op1.sameVar target.op1 then
    some (target.op2.num, target.op2.num)
  else none

/-- The way on from a target of `JMPZ_EX` or `JMPNZ_EX` -/
def passJmpzEx (o target : ZendOp) : Option (ℕ × ℕ) :=
  if o.opcode.sameOpcodeEx target.opcode ∧ target.op1.sameVar o.result then
    some (target.op2.num, target.op2.num)
  else if target.opcode = .jmpznz ∧ target.op1.sameVar o.result then
    some (target.op2.num, if o.opcode = .jmpzEx then target.op2.num else target.extendedValue)
  else none

/-- `JMPZ` and `JMPNZ` become `_EX` jumps -/
def withStore (n : ℕ) (T : Znode) (o : ZendOp) : ZendOp :=
  { o.setTarget2 n with opcode := o.opcode.withResult, result := T }

/-- What `JMPZ` and `JMPNZ` become at the end of their walk -/
def endJmpz (o : ZendOp) (n : ℕ) (target : Option ZendOp) : ZendOp :=
  match target with
  | none => o.setTarget2 n
  | some target =>
    if target.opcode = o.opcode.withResult ∧ o.op1.sameVar target.op1 then
      o.withStore target.op2.num target.result
    else if target.opcode = o.opcode.invCond ∧ o.op1.sameVar target.op1 then o.setTarget2 (n + 1)
    else if target.opcode = o.opcode.invCondEx ∧ o.op1.sameVar target.op1 then
      o.withStore (n + 1) target.result
    else o.setTarget2 n

/-- What `JMPZ_EX` and `JMPNZ_EX` become at the end of their walk -/
def endJmpzEx (o : ZendOp) (n : ℕ) (target : Option ZendOp) : ZendOp :=
  match target with
  | none => o.setTarget2 n
  | some target =>
    if (target.opcode = o.opcode.invExCondEx ∨ target.opcode = o.opcode.invExCond) ∧
        o.op1.sameVar target.op1 then o.setTarget2 (n + 1)
    else o.setTarget2 n

end ZendOp

namespace ZendOpArray

variable {a : ZendOpArray} {i m n fuel : ℕ} {o o' : ZendOp} {f : ZendOp → ZendOp}

/-- Put another opline at a number. -/
def setOp (a : ZendOpArray) (i : ℕ) (o : ZendOp) : ZendOpArray := a.modifyOp i fun _ => o

/-- The opline that a loop sees -/
def target (a : ZendOpArray) (i n : ℕ) : Option ZendOp := (a.modifyOp i (.setTarget2 i)).opcodes[n]?

/-- The way on from an opline, by a rule for its target -/
def passes (a : ZendOpArray) (i : ℕ) (pass : ZendOp → Option (ℕ × ℕ)) (n : ℕ) : Option (ℕ × ℕ) :=
  (a.target i n).bind pass

theorem setOp_self (ho : a.opcodes[i]? = some o) : (a.setOp i o').opcodes[i]? = some o' := by
  simp [setOp, getElem?_modifyOp, ho]

theorem setOp_of_ne (h : n ≠ i) : (a.setOp i o').opcodes[n]? = a.opcodes[n]? :=
  getElem?_modifyOp_ne (Ne.symm h)

theorem modifyOp_setOp : (a.setOp i o).modifyOp i f = a.setOp i (f o) := by
  simp only [setOp, modifyOp, List.modify_modify_eq]
  rfl

theorem setOp_eq_modifyOp (ho : a.opcodes[i]? = some o) : a.modifyOp i f = a.setOp i (f o) := by
  have : a.opcodes.modify i f = a.opcodes.modify i fun _ => f o := by
    refine List.ext_getElem? fun j => ?_
    rw [List.getElem?_modify, List.getElem?_modify]
    by_cases hj : i = j
    · subst hj
      simp [ho]
    · simp [hj]
  simp only [setOp, modifyOp, this]

theorem setOp_eq_self (ho : a.opcodes[i]? = some o) : a.setOp i o = a := by
  have h := setOp_eq_modifyOp (f := id) ho
  rw [id_eq] at h
  rw [← h, modifyOp, List.modify_id]

theorem setTarget2_op2 : o.setTarget2 o.op2.num = o := rfl

theorem target_of_ne (h : n ≠ i) : a.target i n = a.opcodes[n]? :=
  getElem?_modifyOp_ne (Ne.symm h)

theorem target_self (ho : a.opcodes[i]? = some o) : a.target i i = some (o.setTarget2 i) := by
  simp [target, getElem?_modifyOp, ho]

/-- A loop sees its own opline with the target that it has set. -/
theorem getElem?_setTarget2 (ho : a.opcodes[i]? = some o) :
    (a.setOp i (o.setTarget2 n)).opcodes[n]? = a.target i n := by
  by_cases h : n = i
  · subst h
    rw [setOp_self ho, target_self ho]
  · rw [setOp_of_ne h, target_of_ne h]

/-- The loop of `JMPZ` and `JMPNZ` at one point of its walk -/
theorem followJmpz_eq (ho : a.opcodes[i]? = some o) (vs : List ℕ) (T : Znode) (n : ℕ) :
    followJmpz i ⟨a.setOp i (o.setTarget2 n), vs, T⟩ =
      match a.passes i o.passJmpz n with
      | some (v, m) =>
        if v ∈ vs then .done ⟨a.setOp i (o.setTarget2 n), vs, T⟩
        else .again ⟨a.setOp i (o.setTarget2 m), vs ++ [v], T⟩
      | none => .done ⟨a.setOp i (o.endJmpz n (a.target i n)), vs, T⟩ := by
  have hn : (o.setTarget2 n).op2.num = n := rfl
  have hop1 : (o.setTarget2 n).op1 = o.op1 := rfl
  unfold followJmpz JmpState.withTarget passes
  simp only [setOp_self ho, hn, getElem?_setTarget2 ho]
  cases a.target i n with
  | none => rfl
  | some t =>
    simp only [Option.bind_some, ZendOp.passJmpz, ZendOp.endJmpz, ZendOp.setTarget2_opcode, hop1,
      JmpState.check, JmpState.finish, modifyOp_setOp]
    by_cases hjmp : t.opcode = .jmp
    · simp only [if_pos hjmp]
      rfl
    by_cases hsame : t.opcode = o.opcode ∧ o.op1.sameVar t.op1
    · simp only [if_neg hjmp, if_pos hsame]
      rfl
    · simp only [if_neg hjmp, if_neg hsame]
      split_ifs <;> rfl

end ZendOpArray

namespace Znode

variable {x y z : Znode}

theorem sameVar_iff : x.sameVar y = true ↔
    ((x.type = .var ∧ y.type = .var) ∨ (x.type = .tmpVar ∧ y.type = .tmpVar)) ∧ x.num = y.num := by
  simp [sameVar]

theorem sameVar_symm (h : x.sameVar y = true) : y.sameVar x = true := by
  rw [sameVar_iff] at h ⊢
  exact ⟨h.1.imp And.symm And.symm, h.2.symm⟩

theorem sameVar_trans (h : x.sameVar y = true) (h' : y.sameVar z = true) :
    x.sameVar z = true := by
  rw [sameVar_iff] at *
  refine ⟨?_, h.2.trans h'.2⟩
  rcases h.1 with ⟨hx, hy⟩ | ⟨hx, hy⟩ <;> rcases h'.1 with ⟨hy', hz⟩ | ⟨hy', hz⟩ <;>
    simp_all

/-- The same type and the same number, whatever the flag -/
def SamePlace (x y : Znode) : Prop := x.type = y.type ∧ x.num = y.num

theorem SamePlace.sameVar (h : x.SamePlace y) (z : Znode) : z.sameVar x = z.sameVar y := by
  simp [Znode.sameVar, h.1, h.2]

theorem samePlace_of_sameVar (h : x.sameVar y = true) : x.SamePlace y := by
  rw [sameVar_iff] at h
  rcases h.1 with ⟨hx, hy⟩ | ⟨hx, hy⟩ <;> exact ⟨hx.trans hy.symm, h.2⟩

end Znode

namespace ZendOpcode

variable {c d : ZendOpcode}

theorem isEx_iff : c.isEx = true ↔ c = .jmpzEx ∨ c = .jmpnzEx := by
  simp only [isEx, Bool.or_eq_true, beq_iff_eq]

theorem sameOpcodeEx_iff (h : c.isEx = true) : c.sameOpcodeEx d = true ↔
    d = c ∨ d = c.withoutResult := by
  rcases isEx_iff.mp h with rfl | rfl <;> cases d <;> decide

end ZendOpcode

namespace ZendOpArray

variable {a : ZendOpArray} {i m n fuel : ℕ} {o o' : ZendOp} {f : ZendOp → ZendOp}

/-- The compiler lets an `_EX` jump that reads a temporary write to the same one. What matters are
the temporaries that `_EX` jumps write. -/
def ExSame (a : ZendOpArray) : Prop :=
  ∀ t ∈ a.opcodes, ∀ o ∈ a.opcodes, t.opcode.isEx = true → o.opcode.isEx = true →
    t.op1.sameVar o.result = true → t.op1.sameVar t.result = true

/-- The targets of an `_EX` jump that read its result write to it. -/
theorem ExSame.samePlace (h : a.ExSame) (ho : a.opcodes[i]? = some o) (hex : o.opcode.isEx = true)
    {t : ZendOp} (ht : a.target i n = some t) (htex : t.opcode.isEx = true)
    (hsame : t.op1.sameVar o.result = true) : t.result.SamePlace o.result := by
  by_cases hn : n = i
  · subst hn
    obtain rfl := Option.some.inj ((target_self ho).symm.trans ht)
    exact ⟨rfl, rfl⟩
  · rw [target_of_ne hn] at ht
    have hwrites := h t (List.mem_of_getElem? ht) o (List.mem_of_getElem? ho) htex hex hsame
    exact Znode.samePlace_of_sameVar (Znode.sameVar_trans (Znode.sameVar_symm hwrites) hsame)

/-- The loop of `JMPZ_EX` and `JMPNZ_EX` at one point of its walk -/
theorem followJmpzEx_eq (h : a.ExSame) (ho : a.opcodes[i]? = some o) (hex : o.opcode.isEx = true)
    (vs : List ℕ) {T : Znode} (hT : T.SamePlace o.result) (n : ℕ) :
    ∃ T' : Znode, T'.SamePlace o.result ∧
      followJmpzEx i ⟨a.setOp i (o.setTarget2 n), vs, T⟩ =
        match a.passes i o.passJmpzEx n with
        | some (v, m) =>
          if v ∈ vs then .done ⟨a.setOp i (o.setTarget2 n), vs, T'⟩
          else .again ⟨a.setOp i (o.setTarget2 m), vs ++ [v], T'⟩
        | none => .done ⟨a.setOp i (o.endJmpzEx n (a.target i n)), vs, T'⟩ := by
  have hn : (o.setTarget2 n).op2.num = n := rfl
  unfold followJmpzEx JmpState.withTarget passes
  simp only [setOp_self ho, hn, getElem?_setTarget2 ho]
  cases ht : a.target i n with
  | none => exact ⟨T, hT, rfl⟩
  | some t =>
    simp only [Option.bind_some, ZendOp.passJmpzEx, ZendOp.endJmpzEx, hT.sameVar]
    by_cases hsame : o.opcode.sameOpcodeEx t.opcode = true ∧ t.op1.sameVar o.result = true
    · rw [if_pos (show (o.setTarget2 n).opcode.sameOpcodeEx t.opcode = true ∧ _ from hsame)]
      simp only [if_pos hsame]
      by_cases heq : t.opcode = (o.setTarget2 n).opcode
      · refine ⟨t.result, h.samePlace ho hex ht (by rwa [heq]) hsame.2, ?_⟩
        simp only [if_pos heq, JmpState.check, modifyOp_setOp]
        rfl
      · refine ⟨T, hT, ?_⟩
        simp only [if_neg heq, JmpState.check, modifyOp_setOp]
        rfl
    · refine ⟨T, hT, ?_⟩
      rw [if_neg (show ¬((o.setTarget2 n).opcode.sameOpcodeEx t.opcode = true ∧ _) from hsame)]
      by_cases hznz : t.opcode = .jmpznz ∧ t.op1.sameVar o.result = true
      · simp only [if_neg hsame, if_pos hznz, JmpState.check, modifyOp_setOp]
        rfl
      · simp only [if_neg hsame, if_neg hznz, JmpState.finish, modifyOp_setOp]
        split_ifs with hinv hinv' hinv'
        · rfl
        · exact absurd hinv hinv'
        · exact absurd hinv' hinv
        · rfl

/-- A loop with a hit list, at any point of its walk: it sees the opline that it leads to, and the
variable `T` has a property that the loop keeps. -/
def WalksBy (a : ZendOpArray) (i : ℕ) (o : ZendOp) (step : ℕ → JmpState → JmpTurn JmpState)
    (pass : ZendOp → Option (ℕ × ℕ)) (last : ℕ → Option ZendOp → ZendOp) (P : Znode → Prop) :
      Prop :=
  ∀ vs T n, P T → ∃ T', P T' ∧ step i ⟨a.setOp i (o.setTarget2 n), vs, T⟩ =
    match a.passes i pass n with
    | some (v, m) =>
      if v ∈ vs then .done ⟨a.setOp i (o.setTarget2 n), vs, T'⟩
      else .again ⟨a.setOp i (o.setTarget2 m), vs ++ [v], T'⟩
    | none => .done ⟨a.setOp i (last n (a.target i n)), vs, T'⟩

variable {step : ℕ → JmpState → JmpTurn JmpState} {pass : ZendOp → Option (ℕ × ℕ)}
  {last : ℕ → Option ZendOp → ZendOp} {P : Znode → Prop} {T : Znode} {b : ZendOpArray}

/-- What the opline of a loop becomes: the loop stops at a number that is recorded already, or at
the end of the walk. -/
inductive Led (a : ZendOpArray) (i : ℕ) (o : ZendOp) (pass : ZendOp → Option (ℕ × ℕ))
    (last : ℕ → Option ZendOp → ZendOp) : ZendOp → Prop
  | hit {vs : List ℕ} {n m v : ℕ} (h : Walks (a.passes i pass) o.op2.num vs n)
      (hnodup : vs.Nodup) (hn : a.passes i pass n = some (v, m)) (hv : v ∈ vs) :
      Led a i o pass last (o.setTarget2 n)
  | last {vs : List ℕ} {n : ℕ} (h : Walks (a.passes i pass) o.op2.num vs n)
      (hnodup : vs.Nodup) (hn : a.passes i pass n = none) :
      Led a i o pass last (last n (a.target i n))

theorem WalksBy.followJumps (h : a.WalksBy i o step pass last P) {vs : List ℕ} {s : JmpState}
    (hT : P T) (hwalk : Walks (a.passes i pass) o.op2.num vs n) (hnodup : vs.Nodup)
    (hs : followJumps (step i) fuel ⟨a.setOp i (o.setTarget2 n), vs, T⟩ = some s) :
    ∃ o', Led a i o pass last o' ∧ s.array = a.setOp i o' := by
  induction fuel generalizing vs n T with
  | zero => simp [ZendOpcache.followJumps] at hs
  | succ fuel ih =>
    obtain ⟨T', hT', heq⟩ := h vs T n hT
    rw [ZendOpcache.followJumps, heq] at hs
    cases hn : a.passes i pass n with
    | none =>
      rw [hn] at hs
      obtain rfl := Option.some.inj hs
      exact ⟨_, .last hwalk hnodup hn, rfl⟩
    | some p =>
      obtain ⟨v, m⟩ := p
      rw [hn] at hs
      dsimp only at hs
      by_cases hv : v ∈ vs
      · rw [if_pos hv] at hs
        obtain rfl := Option.some.inj hs
        exact ⟨_, .hit hwalk hnodup hn hv, rfl⟩
      · rw [if_neg hv] at hs
        exact ih hT' (hwalk.snoc hn)
          (hnodup.append (List.nodup_singleton v) (List.disjoint_singleton.mpr hv)) hs

theorem WalksBy.follow (h : a.WalksBy i o step pass last P) (ho : a.opcodes[i]? = some o)
    (hT : P T) (hb : a.follow fuel i step T = some b) :
    ∃ o', Led a i o pass last o' ∧ b = a.setOp i o' := by
  obtain ⟨s, hs, rfl⟩ := Option.map_eq_some_iff.mp hb
  have hs' : ZendOpcache.followJumps (step i) fuel
      ⟨a.setOp i (o.setTarget2 o.op2.num), [], T⟩ = some s := by
    rwa [setTarget2_op2, setOp_eq_self ho]
  exact h.followJumps hT (.nil _) List.nodup_nil hs'

theorem walksBy_jmpz (ho : a.opcodes[i]? = some o) :
    a.WalksBy i o followJmpz o.passJmpz o.endJmpz fun _ => True :=
  fun vs T n _ => ⟨T, trivial, followJmpz_eq ho vs T n⟩

theorem walksBy_jmpzEx (h : a.ExSame) (ho : a.opcodes[i]? = some o) (hex : o.opcode.isEx = true) :
    a.WalksBy i o followJmpzEx o.passJmpzEx o.endJmpzEx fun T => T.SamePlace o.result :=
  fun vs _ n hT => followJmpzEx_eq h ho hex vs hT n

/-- The loops over plain `JMP`s, whatever target they set -/
theorem followJmp_leads (ho : a.opcodes[i]? = some o) {number : ZendOp → ℕ}
    {set : ℕ → ZendOp → ZendOp} (hnumber : ∀ n, number (set n o) = n)
    (hset : ∀ m n, set n (set m o) = set n o)
    (hself : ∀ n, (set n o).opcode = .jmp → (set n o).op1.num = n) {s s' : JmpState}
    (hs : s.array = a.setOp i (set n o))
    (h : followJumps (fun s => followJmp i s number set) fuel s = some s') :
    ∃ m, Relation.ReflTransGen (Leads a.jmpNext) n m ∧ s'.array = a.setOp i (set m o) := by
  induction fuel generalizing s n with
  | zero => simp [followJumps] at h
  | succ fuel ih =>
    rw [followJumps] at h
    cases hstep : followJmp i s number set with
    | done t =>
      rw [hstep] at h
      obtain rfl := Option.some.inj h
      exact ⟨n, .refl, by rw [followJmp_done hstep, hs]⟩
    | again t =>
      rw [hstep] at h
      obtain ⟨o₁, t', ho₁, ht', hagain⟩ := withTarget_again hstep
      obtain rfl := Option.some.inj ((hs ▸ setOp_self ho).symm.trans ho₁)
      rw [hnumber, hs] at ht'
      split_ifs at hagain with hjmp
      unfold JmpState.check at hagain
      split_ifs at hagain
      obtain rfl := JmpTurn.again.inj hagain
      by_cases hn : n = i
      · -- the loop leads to its own opline, which leads to itself
        subst hn
        obtain rfl := Option.some.inj ((setOp_self ho).symm.trans ht')
        refine ih (n := n) ?_ h
        rw [hs, modifyOp_setOp, hself n hjmp, hset]
      · rw [setOp_of_ne hn] at ht'
        have hleads : Leads a.jmpNext n t'.op1.num := by
          simp [Leads, jmpNext, ht', hjmp]
        obtain ⟨m, hm, harray⟩ := ih (n := t'.op1.num) (by rw [hs, modifyOp_setOp, hset]) h
        exact ⟨m, .head hleads hm, harray⟩

theorem jmpNext_setOp (ho : a.opcodes[i]? = some o) (hop : o.opcode ≠ .jmp)
    {o' : ZendOp} (hop' : o'.opcode ≠ .jmp) (n : ℕ) : (a.setOp i o').jmpNext n = a.jmpNext n := by
  unfold jmpNext
  by_cases hn : n = i
  · subst hn
    rw [setOp_self ho, ho, Option.bind_some, Option.bind_some, if_neg hop, if_neg hop']
  · rw [setOp_of_ne hn]

theorem followJmpSet_leads (ho : a.opcodes[i]? = some o) (hop : o.opcode ≠ .jmp)
    {s s' : JmpState} (hs : s.array = a.setOp i (o.setTarget2 n))
    (h : followJumps (followJmpSet i) fuel s = some s') :
    ∃ m, Relation.ReflTransGen (Leads a.jmpNext) n m ∧ s'.array = a.setOp i (o.setTarget2 m) := by
  induction fuel generalizing s n with
  | zero => simp [followJumps] at h
  | succ fuel ih =>
    have ho' : s.array.opcodes[i]? = some (o.setTarget2 n) := hs ▸ setOp_self ho
    have hjmp : (a.setOp i (o.setTarget2 n)).jmpNext (o.setTarget2 n).op2.num = a.jmpNext n :=
      jmpNext_setOp ho hop (show (o.setTarget2 n).opcode ≠ .jmp from hop) n
    rw [followJumps, followJmpSet_eq ho', hs, hjmp] at h
    cases hnext : a.jmpNext n with
    | none =>
      rw [hnext] at h
      obtain rfl := Option.some.inj h
      exact ⟨n, .refl, hs⟩
    | some m =>
      rw [hnext] at h
      obtain ⟨l, hl, harray⟩ := ih (n := m) (by rw [modifyOp_setOp]; rfl) h
      exact ⟨l, .head hnext hl, harray⟩

theorem follow_jmp (ho : a.opcodes[i]? = some o)
    (hb : a.follow fuel i (fun i s => followJmp i s (·.op1.num) .setTarget1) .none = some b) :
    ∃ m, Relation.ReflTransGen (Leads a.jmpNext) o.op1.num m ∧ b = a.setOp i (o.setTarget1 m) := by
  obtain ⟨s, hs, rfl⟩ := Option.map_eq_some_iff.mp hb
  exact followJmp_leads ho (fun _ => rfl) (fun _ _ => rfl) (fun _ _ => rfl)
    (setOp_eq_self ho).symm hs

theorem follow_jmpSet (ho : a.opcodes[i]? = some o) (hop : o.opcode ≠ .jmp)
    (hb : a.follow fuel i followJmpSet .none = some b) :
    ∃ m, Relation.ReflTransGen (Leads a.jmpNext) o.op2.num m ∧ b = a.setOp i (o.setTarget2 m) := by
  obtain ⟨s, hs, rfl⟩ := Option.map_eq_some_iff.mp hb
  exact followJmpSet_leads ho hop (setOp_eq_self ho).symm hs

/-- Both loops of `JMPZNZ` -/
theorem follow_jmpznz (ho : a.opcodes[i]? = some o) (hop : o.opcode ≠ .jmp) {s s' : JmpState}
    (hs : followJumps (fun s => followJmp i s (·.op2.num) .setTarget2) fuel ⟨a, [], .none⟩ =
      some s)
    (hs' : followJumps (fun s => followJmp i s (·.extendedValue) .setExtended) fuel s =
      some s') : ∃ m m', Relation.ReflTransGen (Leads a.jmpNext) o.op2.num m ∧
        Relation.ReflTransGen (Leads a.jmpNext) o.extendedValue m' ∧
        s'.array = a.setOp i ((o.setTarget2 m).setExtended m') := by
  obtain ⟨m, hleads, harray⟩ := followJmp_leads (n := o.op2.num) ho (fun _ => rfl)
    (fun _ _ => rfl) (fun _ h => absurd h hop) (setOp_eq_self ho).symm hs
  have ho₁ : (a.setOp i (o.setTarget2 m)).opcodes[i]? = some (o.setTarget2 m) := setOp_self ho
  obtain ⟨m', hleads', harray'⟩ := followJmp_leads (n := o.extendedValue) ho₁
    (fun _ => rfl) (fun _ _ => rfl) (fun _ h => absurd h hop)
    (harray.trans (setOp_eq_self ho₁).symm) hs'
  rw [funext (jmpNext_setOp ho hop (show (o.setTarget2 m).opcode ≠ .jmp from hop))] at hleads'
  exact ⟨m, m', hleads, hleads', harray'.trans modifyOp_setOp⟩

end ZendOpArray

end ZendOpcache
