import ZendOpcache.Optimizer.Pass3
import ZendOpcache.Transition.Chain

/-! # The loops of pass 3 that follow jumps

A loop that looks into the hit list records one number for every opline it follows, and no number
twice. So the array of `last` numbers is large enough, and the loop ends. The loop of `JMP_SET`
does not look: it ends unless the `JMP`s that it follows form a cycle.
-/

namespace ZendOpcache

section Turns

variable {σ : Type} {step : σ → JmpTurn σ} {s s' t : σ}

/-- The states at the head of a loop -/
def Turns (step : σ → JmpTurn σ) : σ → σ → Prop :=
  Relation.ReflTransGen fun s s' => step s = .again s'

/-- A loop whose turns bring a measure down ends, and its turns keep what one turn keeps. -/
theorem followJumps_of_measure {P Q : σ → Prop} {μ : σ → ℕ}
    (hagain : ∀ s s', P s → step s = .again s' → P s' ∧ μ s' < μ s)
    (hdone : ∀ s s', P s → step s = .done s' → Q s') :
    ∀ n s, P s → μ s < n → ∃ s', followJumps step n s = some s' ∧ Q s' := by
  intro n
  induction n with
  | zero => intro s _ hμ; omega
  | succ n ih =>
    intro s hs hμ
    cases hstep : step s with
    | again s' =>
      obtain ⟨hs', hlt⟩ := hagain s s' hs hstep
      rw [followJumps, hstep]
      exact ih s' hs' (by omega)
    | done s' => exact ⟨s', by rw [followJumps, hstep], hdone s s' hs hstep⟩

theorem Turns.invariant {P : σ → Prop} (h : Turns step s t) (hs : P s)
    (hagain : ∀ s s', P s → step s = .again s' → P s') : P t := by
  induction h with
  | refl => exact hs
  | tail _ hstep ih => exact hagain _ _ ih hstep

/-- The bound on the turns does not matter where it is not reached. -/
theorem followJumps_unique {m n : ℕ} (h : followJumps step m s = some s')
    (h' : followJumps step n s = some t) : s' = t := by
  induction m generalizing n s with
  | zero => simp [followJumps] at h
  | succ m ih =>
    cases n with
    | zero => simp [followJumps] at h'
    | succ n =>
      rw [followJumps] at h h'
      cases hstep : step s with
      | again u =>
        rw [hstep] at h h'
        exact ih h h'
      | done u =>
        rw [hstep] at h h'
        exact Option.some.inj (h.symm.trans h')

def JmpTurn.state : JmpTurn σ → σ
  | .again s => s
  | .done s => s

theorem followJumps_invariant {P : σ → Prop} (hstep : ∀ s, P s → P (step s).state) {n : ℕ}
    (hs : P s) (h : followJumps step n s = some s') : P s' := by
  induction n generalizing s with
  | zero => simp [followJumps] at h
  | succ n ih =>
    have hnext := hstep s hs
    rw [followJumps] at h
    cases hs' : step s with
    | again u =>
      rw [hs'] at h hnext
      exact ih hnext h
    | done u =>
      rw [hs'] at h hnext
      exact Option.some.inj h ▸ hnext

/-- The states that loops run one after the other pass through -/
inductive Passes : List (σ → JmpTurn σ) → σ → σ → Prop
  | turn {step : σ → JmpTurn σ} {l : List (σ → JmpTurn σ)} {s t : σ} (h : Turns step s t) :
      Passes (step :: l) s t
  | next {step : σ → JmpTurn σ} {l : List (σ → JmpTurn σ)} {s s' s'' t : σ}
      (h : Turns step s s') (hdone : step s' = .done s'') (ht : Passes l s'' t) :
      Passes (step :: l) s t

theorem Passes.turns (h : Passes [step] s t) : Turns step s t := by
  cases h with
  | turn h => exact h
  | next _ _ ht => cases ht

end Turns

/-- The number that is recorded when an opline is followed -/
def ZendOp.recorded (o : ZendOp) : ℕ := if o.opcode = .jmp then o.op1.num else o.op2.num

theorem ZendOp.setTarget1_opcode (n : ℕ) (o : ZendOp) : (o.setTarget1 n).opcode = o.opcode := rfl
theorem ZendOp.setTarget2_opcode (n : ℕ) (o : ZendOp) : (o.setTarget2 n).opcode = o.opcode := rfl
theorem ZendOp.setExtended_opcode (n : ℕ) (o : ZendOp) : (o.setExtended n).opcode = o.opcode := rfl

/-- The loops of an opline, in order -/
def ZendOp.jmpLoops (i : ℕ) (o : ZendOp) : List (JmpState → JmpTurn JmpState) :=
  match o.opcode with
  | .jmp => [fun s => followJmp i s (·.op1.num) .setTarget1]
  | .jmpSet | .jmpSetVar => [followJmpSet i]
  | .jmpz | .jmpnz => [followJmpz i]
  | .jmpzEx | .jmpnzEx => [followJmpzEx i]
  | .jmpznz => [fun s => followJmp i s (·.op2.num) .setTarget2,
      fun s => followJmp i s (·.extendedValue) .setExtended]
  | _ => []

namespace ZendOpArray

variable (a : ZendOpArray) (i : ℕ)

/-- The opline at `i` leads to itself whenever it is followed. -/
def recorded (n : ℕ) : ℕ :=
  if n = i then i else ((a.opcodes[n]?).map ZendOp.recorded).getD 0

/-- The target of a `JMP` -/
def jmpNext (n : ℕ) : Option ℕ :=
  (a.opcodes[n]?).bind fun o => if o.opcode = .jmp then some o.op1.num else none

end ZendOpArray

/-- What holds while the jumps of the opline `o` at `i` are followed -/
structure Following (a : ZendOpArray) (i : ℕ) (o : ZendOp) (s : JmpState) : Prop where
  other : ∀ n, n ≠ i → s.array.opcodes[n]? = a.opcodes[n]?
  opcode : ∀ o', s.array.opcodes[i]? = some o' → o'.opcode = o.opcode
  length : s.array.opcodes.length = a.opcodes.length
  nodup : s.hitlist.Nodup
  recorded : ∀ v ∈ s.hitlist, ∃ n < a.opcodes.length, v = a.recorded i n

namespace Following

variable {a : ZendOpArray} {i n v : ℕ} {o o' target : ZendOp} {s s' : JmpState} {T : Znode}
  {f : ZendOp → ZendOp}

theorem init (ho : a.opcodes[i]? = some o) (T : Znode) : Following a i o ⟨a, [], T⟩ where
  other _ _ := rfl
  opcode o' ho' := by rw [Option.some.inj (ho'.symm.trans ho)]
  length := rfl
  nodup := List.nodup_nil
  recorded _ hv := by simp at hv

/-- Recorded numbers are numbers of different oplines, so there are at most `last` of them. -/
theorem hitlist_length (h : Following a i o s) : s.hitlist.length ≤ a.opcodes.length := by
  have hsub : s.hitlist ⊆ (List.range a.opcodes.length).map (a.recorded i) := by
    intro v hv
    obtain ⟨n, hn, rfl⟩ := h.recorded v hv
    exact List.mem_map.mpr ⟨n, List.mem_range.mpr hn, rfl⟩
  simpa using (List.subperm_of_subset h.nodup hsub).length_le

theorem modify (h : Following a i o s) (hf : ∀ o, (f o).opcode = o.opcode) :
    Following a i o { s with array := s.array.modifyOp i f } where
  other n hn := by rw [ZendOpArray.getElem?_modifyOp_ne (Ne.symm hn), h.other n hn]
  opcode o' ho' := by
    rw [ZendOpArray.getElem?_modifyOp] at ho'
    obtain ⟨o₀, ho₀, rfl⟩ := Option.map_eq_some_iff.mp ho'
    rw [if_pos rfl, hf]
    exact h.opcode o₀ ho₀
  length := by rw [ZendOpArray.modifyOp_length, h.length]
  nodup := h.nodup
  recorded := h.recorded

theorem setT (h : Following a i o s) (T : Znode) : Following a i o { s with T := T } :=
  ⟨h.other, h.opcode, h.length, h.nodup, h.recorded⟩

/-- What is recorded for the opline that `number` leads to. -/
theorem recorded_eq (h : Following a i o s) (number : ZendOp → ℕ)
    (ho' : s.array.opcodes[i]? = some o') (ht : s.array.opcodes[number o']? = some target)
    (hself : target = o' → target.recorded = number o') :
    number o' < a.opcodes.length ∧ target.recorded = a.recorded i (number o') := by
  have hlt := (List.getElem?_eq_some_iff.mp ht).1
  refine ⟨h.length ▸ hlt, ?_⟩
  unfold ZendOpArray.recorded
  by_cases hn : number o' = i
  · rw [if_pos hn, ← hn]
    exact hself (Option.some.inj (ht.symm.trans (hn ▸ ho')))
  · rw [if_neg hn, ← h.other _ hn, ht]
    rfl

theorem check (h : Following a i o s) (hs : s.check i v f = .again s')
    (hv : v = a.recorded i n) (hn : n < a.opcodes.length) (hf : ∀ o, (f o).opcode = o.opcode) :
    Following a i o s' ∧ s'.hitlist.length = s.hitlist.length + 1 := by
  unfold JmpState.check at hs
  split_ifs at hs with hmem
  obtain rfl := JmpTurn.again.inj hs
  refine ⟨⟨(h.modify hf).other, (h.modify hf).opcode, (h.modify hf).length, ?_, ?_⟩, by simp⟩
  · exact List.Nodup.append h.nodup (List.nodup_singleton v)
      (List.disjoint_singleton.mpr hmem)
  · intro w hw
    rcases List.mem_append.mp hw with hw | hw
    · exact h.recorded w hw
    · exact ⟨n, hn, (List.mem_singleton.mp hw).trans hv⟩

end Following

section Again

variable {a : ZendOpArray} {i : ℕ} {o : ZendOp} {s s' : JmpState}

theorem withTarget_again {number : ZendOp → ℕ} {f : ZendOp → ℕ → ZendOp → JmpTurn JmpState}
    (hs : s.withTarget i number f = .again s') : ∃ o' target, s.array.opcodes[i]? = some o' ∧
      s.array.opcodes[number o']? = some target ∧ f o' (number o') target = .again s' := by
  unfold JmpState.withTarget at hs
  cases ho : s.array.opcodes[i]? with
  | none => simp [ho] at hs
  | some o' =>
    cases ht : s.array.opcodes[number o']? with
    | none => simp [ho, ht] at hs
    | some target => exact ⟨o', target, rfl, ht, by simpa [ho, ht] using hs⟩

theorem followJmp_again (h : Following a i o s) {number : ZendOp → ℕ} {set : ℕ → ZendOp → ZendOp}
    (hset : ∀ n o, (set n o).opcode = o.opcode)
    (hnumber : o.opcode = .jmp → ∀ o' : ZendOp, number o' = o'.op1.num)
    (hs : followJmp i s number set = .again s') :
    Following a i o s' ∧ s'.hitlist.length = s.hitlist.length + 1 := by
  obtain ⟨o', target, ho', ht, hs⟩ := withTarget_again hs
  split_ifs at hs with hjmp
  have hrec : target.recorded = target.op1.num := if_pos hjmp
  obtain ⟨hlt, hv⟩ := h.recorded_eq number ho' ht fun heq => by
    rw [hrec, hnumber (h.opcode o' ho' ▸ heq ▸ hjmp), heq]
  exact h.check hs (hrec ▸ hv) hlt (hset _)

theorem followJmp_done {number : ZendOp → ℕ} {set : ℕ → ZendOp → ZendOp}
    (hs : followJmp i s number set = .done s') : s' = s := by
  unfold followJmp JmpState.withTarget JmpState.check at hs
  split at hs
  · exact (JmpTurn.done.inj hs).symm
  · split at hs
    · exact (JmpTurn.done.inj hs).symm
    · dsimp only at hs
      split_ifs at hs <;> exact (JmpTurn.done.inj hs).symm

/-- The tests that `JMPZ` and `JMPNZ` are led through record their own target. -/
theorem followJmpz_again (h : Following a i o s) (hop : o.opcode = .jmpz ∨ o.opcode = .jmpnz)
    (hs : followJmpz i s = .again s') :
    Following a i o s' ∧ s'.hitlist.length = s.hitlist.length + 1 := by
  obtain ⟨o', target, ho', ht, hs⟩ := withTarget_again hs
  have hne : o'.opcode ≠ .jmp := by
    rw [h.opcode o' ho']
    rcases hop with hop | hop <;> simp [hop]
  have hself : target = o' → target.recorded = o'.op2.num := by
    rintro rfl
    exact if_neg hne
  obtain ⟨hlt, hv⟩ := h.recorded_eq (fun o => o.op2.num) ho' ht hself
  dsimp only at hs
  split_ifs at hs with hjmp hsame
  · have hrec : target.recorded = target.op1.num := if_pos hjmp
    exact h.check hs (hrec ▸ hv) hlt (fun _ => rfl)
  · have hrec : target.recorded = target.op2.num := if_neg hjmp
    exact h.check hs (hrec ▸ hv) hlt (fun _ => rfl)
  all_goals cases hs

theorem followJmpzEx_again (h : Following a i o s)
    (hop : o.opcode = .jmpzEx ∨ o.opcode = .jmpnzEx) (hs : followJmpzEx i s = .again s') :
    Following a i o s' ∧ s'.hitlist.length = s.hitlist.length + 1 := by
  obtain ⟨o', target, ho', ht, hs⟩ := withTarget_again hs
  rw [← h.opcode o' ho'] at hop
  have hself : target = o' → target.recorded = o'.op2.num := by
    rintro rfl
    exact if_neg (by rcases hop with hop | hop <;> simp [hop])
  obtain ⟨hlt, hv⟩ := h.recorded_eq (fun o => o.op2.num) ho' ht hself
  dsimp only at hs
  split_ifs at hs with hsame heq hznz hex
  · have hrec : target.recorded = target.op2.num := if_neg (by
      rcases hop with hop | hop <;> simp [heq, hop])
    exact (h.setT target.result).check hs (hrec ▸ hv) hlt (fun _ => rfl)
  · have hrec : target.recorded = target.op2.num := if_neg (by
      have := hsame.1
      rcases hop with hop | hop <;> rw [hop] at this <;>
        simp only [ZendOpcode.sameOpcodeEx, Bool.or_eq_true, Bool.and_eq_true, beq_iff_eq] at this
      all_goals rintro hj; simp [hj] at this)
    exact h.check hs (hrec ▸ hv) hlt (fun _ => rfl)
  · have hrec : target.recorded = target.op2.num := if_neg (by simp [hznz.1])
    exact h.check hs (hrec ▸ hv) hlt (fun _ => rfl)
  · have hrec : target.recorded = target.op2.num := if_neg (by simp [hznz.1])
    exact h.check hs (hrec ▸ hv) hlt (fun _ => rfl)
  all_goals cases hs

/-- `JMP_SET` follows `JMP`s and records nothing. -/
theorem followJmpSet_again (h : Following a i o s) (hs : followJmpSet i s = .again s') :
    Following a i o s' ∧ s'.hitlist = s.hitlist := by
  obtain ⟨o', target, ho', ht, hs⟩ := withTarget_again hs
  split_ifs at hs
  obtain rfl := JmpTurn.again.inj hs
  exact ⟨h.modify fun _ => rfl, rfl⟩

end Again

section Loops

variable {a : ZendOpArray} {i : ℕ} {o : ZendOp} {s s' : JmpState}

/-- A loop that records a number on every turn ends. -/
theorem followJumps_of_recording {step : JmpState → JmpTurn JmpState} {Q : JmpState → Prop}
    (hagain : ∀ s s', Following a i o s → step s = .again s' →
      Following a i o s' ∧ s'.hitlist.length = s.hitlist.length + 1)
    (hdone : ∀ s s', Following a i o s → step s = .done s' → Q s') (h : Following a i o s) :
    ∃ s', followJumps step (a.opcodes.length + 1) s = some s' ∧ Q s' := by
  refine followJumps_of_measure (P := Following a i o)
    (μ := fun s => a.opcodes.length - s.hitlist.length) ?_ hdone _ s h (by omega)
  intro s s' hs hstep
  obtain ⟨hs', hlen⟩ := hagain s s' hs hstep
  have := hs'.hitlist_length
  exact ⟨hs', by omega⟩

/-- The `JMP`s of the op array are not changed. -/
theorem Following.jmpNext (h : Following a i o s) (ho : a.opcodes[i]? = some o)
    (hop : o.opcode ≠ .jmp) {o' : ZendOp} (ho' : s.array.opcodes[i]? = some o') (n : ℕ) :
    s.array.jmpNext n = a.jmpNext n := by
  unfold ZendOpArray.jmpNext
  by_cases hn : n = i
  · subst hn
    have hop' : o'.opcode ≠ .jmp := h.opcode o' ho' ▸ hop
    rw [ho, ho', Option.bind_some, Option.bind_some, if_neg hop, if_neg hop']
  · rw [h.other n hn]

theorem followJmpSet_eq {o' : ZendOp} (ho' : s.array.opcodes[i]? = some o') :
    followJmpSet i s = match s.array.jmpNext o'.op2.num with
      | some n => .again { s with array := s.array.modifyOp i (.setTarget2 n) }
      | none => .done s := by
  unfold followJmpSet JmpState.withTarget ZendOpArray.jmpNext
  rw [ho']
  cases ht : s.array.opcodes[o'.op2.num]? with
  | none => simp [ht]
  | some target =>
    by_cases hjmp : target.opcode = .jmp <;> simp [ht, hjmp]

/-- The turns of `JMP_SET` are the steps of a chain of `JMP`s. -/
theorem followJmpSet_isSome_iff (ho : a.opcodes[i]? = some o) (hop : o.opcode ≠ .jmp)
    (h : Following a i o s) {o' : ZendOp} (ho' : s.array.opcodes[i]? = some o') (n : ℕ) :
    (followJumps (followJmpSet i) n s).isSome ↔ Chain.after a.jmpNext n o'.op2.num = none := by
  induction n generalizing s o' with
  | zero => simp [followJumps, Chain.after]
  | succ n ih =>
    rw [followJumps, followJmpSet_eq ho', h.jmpNext ho hop ho', Chain.after]
    cases a.jmpNext o'.op2.num with
    | none => simp
    | some m =>
      have ho'' : (s.array.modifyOp i (.setTarget2 m)).opcodes[i]? = some (o'.setTarget2 m) := by
        rw [ZendOpArray.getElem?_modifyOp, ho', Option.map_some, if_pos rfl]
      exact ih (h.modify (ZendOp.setTarget2_opcode m)) ho''

/-- As many turns as there are oplines are enough for a chain of `JMP`s. -/
theorem jmpNext_after_iff (a : ZendOpArray) (n : ℕ) :
    (¬Chain.Cycles a.jmpNext n → Chain.after a.jmpNext (a.opcodes.length + 1) n = none) ∧
      ((∃ l, Chain.after a.jmpNext l n = none) → ¬Chain.Cycles a.jmpNext n) := by
  constructor
  · intro h
    have hafter := Chain.after_eq_none_of_not_cycles (S := Finset.range a.opcodes.length)
      (fun y z _ hy => ?_) h
    · rwa [Finset.card_range] at hafter
    · obtain ⟨o, ho, -⟩ := Option.bind_eq_some_iff.mp hy
      exact Finset.mem_range.mpr (List.getElem?_eq_some_iff.mp ho).1
  · rintro ⟨l, hl⟩ h
    exact h.after_ne_none l hl

end Loops

namespace ZendOpArray

variable [ExTmpVars] {a : ZendOpArray} {i : ℕ} {o : ZendOp}

/-- The chain of `JMP`s that the opline follows without a look at the hit list comes to its end. -/
def SetEnds (a : ZendOpArray) (o : ZendOp) : Prop :=
  o.opcode = .jmpSet ∨ o.opcode = .jmpSetVar → ¬Chain.Cycles a.jmpNext o.op2.num

omit [ExTmpVars] in
theorem follow_isSome {step : ℕ → JmpState → JmpTurn JmpState} {fuel : ℕ} {T : Znode}
    (h : ∃ s, followJumps (step i) fuel ⟨a, [], T⟩ = some s) : (a.follow fuel i step T).isSome := by
  obtain ⟨s, hs⟩ := h
  rw [follow, hs]
  rfl

/-- Only a `JMP_SET` that is led in a cycle takes more turns than there are oplines. -/
theorem pass3Jmp_isSome (ho : a.opcodes[i]? = some o) (hset : a.SetEnds o) :
    (a.pass3Jmp (a.opcodes.length + 1) i o).isSome := by
  have hinit : ∀ T, Following a i o ⟨a, [], T⟩ := .init ho
  have hloop : ∀ {step : ℕ → JmpState → JmpTurn JmpState} {T : Znode}, (∀ s s',
      Following a i o s → step i s = .again s' →
        Following a i o s' ∧ s'.hitlist.length = s.hitlist.length + 1) →
      (a.follow (a.opcodes.length + 1) i step T).isSome := by
    intro step T hagain
    obtain ⟨s, hs, -⟩ := followJumps_of_recording (Q := fun _ => True) hagain
      (fun _ _ _ _ => trivial) (hinit T)
    exact follow_isSome ⟨s, hs⟩
  have hchain : o.opcode = .jmpSet ∨ o.opcode = .jmpSetVar →
      (a.follow (a.opcodes.length + 1) i followJmpSet .none).isSome := by
    intro hop
    have hne : o.opcode ≠ .jmp := by rcases hop with hop | hop <;> simp [hop]
    refine follow_isSome (Option.isSome_iff_exists.mp ?_)
    rw [followJmpSet_isSome_iff ho hne (hinit _) ho]
    exact (jmpNext_after_iff a _).1 (hset hop)
  unfold pass3Jmp
  split
  case h_1 hop =>
    split_ifs
    · rfl
    · exact hloop fun s s' h hs => followJmp_again h ZendOp.setTarget1_opcode (fun _ _ => rfl) hs
  case h_2 hop => exact hchain (.inl hop)
  case h_3 hop => exact hchain (.inr hop)
  case h_4 hop =>
    split_ifs
    · rfl
    · exact hloop fun s s' h hs => followJmpz_again h (.inl hop) hs
  case h_5 hop =>
    split_ifs
    · rfl
    · exact hloop fun s s' h hs => followJmpz_again h (.inr hop) hs
  case h_6 hop =>
    split_ifs
    · rfl
    · rfl
    · exact hloop fun s s' h hs => followJmpzEx_again h (.inl hop) hs
  case h_7 hop =>
    split_ifs
    · rfl
    · rfl
    · exact hloop fun s s' h hs => followJmpzEx_again h (.inr hop) hs
  case h_8 hop =>
    -- the second loop starts with the numbers that the first one recorded
    have hne : o.opcode ≠ .jmp := by simp [hop]
    obtain ⟨s, hs, hfollow⟩ := followJumps_of_recording (Q := Following a i o)
      (fun s s' h hs => followJmp_again h ZendOp.setTarget2_opcode
        (fun hjmp => (hne hjmp).elim) hs)
      (fun s s' h hs => followJmp_done hs ▸ h) (hinit .none)
    obtain ⟨t, ht, -⟩ := followJumps_of_recording (Q := fun _ => True)
      (fun s s' h hs => followJmp_again h ZendOp.setExtended_opcode
        (fun hjmp => (hne hjmp).elim) hs)
      (fun _ _ _ _ => trivial) hfollow
    rw [hs, Option.bind_eq_bind, Option.bind_some, ht]
    rfl
  case h_9 => rfl

/-- Where a `JMP_SET` is led in a cycle, no bound on the turns is enough. -/
theorem setEnds_of_pass3Jmp {fuel : ℕ} (ho : a.opcodes[i]? = some o)
    (h : (a.pass3Jmp fuel i o).isSome) : a.SetEnds o := by
  intro hop
  have hne : o.opcode ≠ .jmp := by rcases hop with hop | hop <;> simp [hop]
  have hfollow : (a.follow fuel i followJmpSet .none).isSome := by
    rcases hop with hop | hop <;> simpa [pass3Jmp, hop] using h
  rw [follow, Option.isSome_map, followJmpSet_isSome_iff ho hne (.init ho _) ho] at hfollow
  exact (jmpNext_after_iff a _).2 ⟨fuel, hfollow⟩

omit [ExTmpVars] in
/-- The loops of an opline keep what holds while its jumps are followed. -/
theorem following_of_passes (ho : a.opcodes[i]? = some o) {T : Znode} {s : JmpState}
    (h : Passes (o.jmpLoops i) ⟨a, [], T⟩ s) : Following a i o s := by
  have hinit : Following a i o ⟨a, [], T⟩ := .init ho T
  unfold ZendOp.jmpLoops at h
  split at h
  case h_1 hop =>
    exact h.turns.invariant hinit fun s s' h hs =>
      (followJmp_again h ZendOp.setTarget1_opcode (fun _ _ => rfl) hs).1
  case h_2 hop => exact h.turns.invariant hinit fun s s' h hs => (followJmpSet_again h hs).1
  case h_3 hop => exact h.turns.invariant hinit fun s s' h hs => (followJmpSet_again h hs).1
  case h_4 hop =>
    exact h.turns.invariant hinit fun s s' h hs => (followJmpz_again h (.inl hop) hs).1
  case h_5 hop =>
    exact h.turns.invariant hinit fun s s' h hs => (followJmpz_again h (.inr hop) hs).1
  case h_6 hop =>
    exact h.turns.invariant hinit fun s s' h hs => (followJmpzEx_again h (.inl hop) hs).1
  case h_7 hop =>
    exact h.turns.invariant hinit fun s s' h hs => (followJmpzEx_again h (.inr hop) hs).1
  case h_8 hop =>
    have hne : o.opcode ≠ .jmp := by simp [hop]
    have hfirst : ∀ {t}, Turns (fun s => followJmp i s (·.op2.num) .setTarget2) ⟨a, [], T⟩ t →
        Following a i o t := fun ht => ht.invariant hinit fun s s' h hs =>
      (followJmp_again h ZendOp.setTarget2_opcode (fun hjmp => (hne hjmp).elim) hs).1
    cases h with
    | turn ht => exact hfirst ht
    | next ht hdone hrest =>
      refine hrest.turns.invariant (followJmp_done hdone ▸ hfirst ht) fun s s' h hs => ?_
      exact (followJmp_again h ZendOp.setExtended_opcode (fun hjmp => (hne hjmp).elim) hs).1
  case h_9 => cases h

end ZendOpArray

/-! ### The whole pass -/

section Length

variable {i : ℕ} {s : JmpState}

theorem withTarget_length {number : ZendOp → ℕ} {f : ZendOp → ℕ → ZendOp → JmpTurn JmpState}
    (hf : ∀ o n target, (f o n target).state.array.opcodes.length = s.array.opcodes.length) :
    (s.withTarget i number f).state.array.opcodes.length = s.array.opcodes.length := by
  unfold JmpState.withTarget
  split
  · rfl
  · split
    · rfl
    · exact hf _ _ _

theorem check_length {v : ℕ} {f : ZendOp → ZendOp} :
    (s.check i v f).state.array.opcodes.length = s.array.opcodes.length := by
  unfold JmpState.check
  split_ifs
  · rfl
  · exact ZendOpArray.modifyOp_length

theorem followJmp_length {number : ZendOp → ℕ} {set : ℕ → ZendOp → ZendOp} :
    (followJmp i s number set).state.array.opcodes.length = s.array.opcodes.length :=
  withTarget_length fun o n target => by
    split_ifs
    exacts [check_length, rfl]

theorem followJmpSet_length :
    (followJmpSet i s).state.array.opcodes.length = s.array.opcodes.length :=
  withTarget_length fun o n target => by
    split_ifs
    exacts [ZendOpArray.modifyOp_length, rfl]

theorem followJmpz_length :
    (followJmpz i s).state.array.opcodes.length = s.array.opcodes.length :=
  withTarget_length fun o n target => by
    split_ifs
    exacts [check_length, check_length, ZendOpArray.modifyOp_length, ZendOpArray.modifyOp_length,
      ZendOpArray.modifyOp_length, rfl]

theorem followJmpzEx_length :
    (followJmpzEx i s).state.array.opcodes.length = s.array.opcodes.length :=
  withTarget_length fun o n target => by
    split_ifs
    exacts [check_length, check_length, check_length, check_length, ZendOpArray.modifyOp_length,
      rfl]

end Length

namespace ZendOpArray

variable [ExTmpVars] {a b b' : ZendOpArray} {i j m n : ℕ} {o : ZendOp}

omit [ExTmpVars] in
theorem follow_length {step : ℕ → JmpState → JmpTurn JmpState} {T : Znode}
    (hstep : ∀ s, (step i s).state.array.opcodes.length = s.array.opcodes.length)
    (h : a.follow n i step T = some b) : b.opcodes.length = a.opcodes.length := by
  obtain ⟨s, hs, rfl⟩ := Option.map_eq_some_iff.mp h
  exact followJumps_invariant (P := fun s => s.array.opcodes.length = a.opcodes.length)
    (fun s hs => (hstep s).trans hs) rfl hs

theorem pass3Jmp_length (h : a.pass3Jmp n i o = some b) :
    b.opcodes.length = a.opcodes.length := by
  unfold pass3Jmp at h
  split at h
  case h_2 | h_3 => exact follow_length (fun _ => followJmpSet_length) h
  case h_8 =>
    obtain ⟨s, hs, h⟩ := Option.bind_eq_some_iff.mp h
    obtain ⟨t, ht, h⟩ := Option.bind_eq_some_iff.mp h
    obtain rfl := Option.some.inj h
    have hs' := followJumps_invariant (P := fun s => s.array.opcodes.length = a.opcodes.length)
      (fun s hs => followJmp_length.trans hs) rfl hs
    exact followJumps_invariant (P := fun s => s.array.opcodes.length = a.opcodes.length)
      (fun s hs => followJmp_length.trans hs) hs' ht
  case h_9 => rw [Option.some.inj h]
  case h_1 =>
    split_ifs at h
    · rw [← Option.some.inj h, modifyOp_length]
    · exact follow_length (fun _ => followJmp_length) h
  case h_4 | h_5 =>
    split_ifs at h
    · rw [← Option.some.inj h, modifyOp_length]
    · exact follow_length (fun _ => followJmpz_length) h
  case h_6 | h_7 =>
    split_ifs at h
    · rw [← Option.some.inj h, modifyOp_length]
    · rw [← Option.some.inj h, modifyOp_length]
    · exact follow_length (fun _ => followJmpzEx_length) h

theorem pass3Jmp_unique (h : a.pass3Jmp m i o = some b) (h' : a.pass3Jmp n i o = some b') :
    b = b' := by
  have hfollow : ∀ {step T}, a.follow m i step T = some b → a.follow n i step T = some b' →
      b = b' := by
    intro step T h h'
    obtain ⟨s, hs, rfl⟩ := Option.map_eq_some_iff.mp h
    obtain ⟨s', hs', rfl⟩ := Option.map_eq_some_iff.mp h'
    rw [followJumps_unique hs hs']
  unfold pass3Jmp at h h'
  split at h
  case h_2 hop | h_3 hop =>
    simp only [hop] at h'
    exact hfollow h h'
  case h_8 hop =>
    simp only [hop] at h'
    obtain ⟨s, hs, h⟩ := Option.bind_eq_some_iff.mp h
    obtain ⟨t, ht, h⟩ := Option.bind_eq_some_iff.mp h
    obtain ⟨s', hs', h'⟩ := Option.bind_eq_some_iff.mp h'
    obtain ⟨t', ht', h'⟩ := Option.bind_eq_some_iff.mp h'
    obtain rfl := followJumps_unique hs hs'
    obtain rfl := followJumps_unique ht ht'
    exact Option.some.inj (h.symm.trans h')
  case h_9 =>
    split at h'
    case h_9 => exact Option.some.inj (h.symm.trans h')
    all_goals contradiction
  case h_1 hop | h_4 hop | h_5 hop | h_6 hop | h_7 hop =>
    simp only [hop] at h'
    split_ifs at h h'
    all_goals first
      | exact Option.some.inj (h.symm.trans h')
      | exact hfollow h h'

theorem pass3Assign_length : (a.pass3Assign i).opcodes.length = a.opcodes.length := by
  unfold pass3Assign
  split
  · split_ifs
    · rw [modifyOp_length, modifyOp_length]
    · rw [modifyOp_length]
    · rfl
  · rfl

theorem pass3Increment_length : (a.pass3Increment i o).opcodes.length = a.opcodes.length := by
  unfold pass3Increment
  split
  · rfl
  · split_ifs
    · rw [modifyOp_length, modifyOp_length]
    · rfl

/-- A turn goes on with a later opline. -/
theorem pass3Turn_spec (h : a.pass3Turn n i = some (b, j)) :
    i < j ∧ b.opcodes.length = a.opcodes.length := by
  unfold pass3Turn at h
  split at h
  · obtain ⟨rfl, rfl⟩ := Prod.mk.inj (Option.some.inj h)
    exact ⟨Nat.lt_succ_self i, rfl⟩
  · split_ifs at h
    · obtain ⟨rfl, rfl⟩ := Prod.mk.inj (Option.some.inj h)
      refine ⟨?_, pass3Assign_length⟩
      split_ifs <;> omega
    · obtain ⟨rfl, rfl⟩ := Prod.mk.inj (Option.some.inj h)
      exact ⟨Nat.lt_succ_self i, pass3Increment_length⟩
    · obtain ⟨rfl, rfl⟩ := Prod.mk.inj (Option.some.inj h)
      exact ⟨Nat.lt_succ_self i, rfl⟩
    · obtain ⟨b', hb', heq⟩ := Option.map_eq_some_iff.mp h
      obtain ⟨rfl, rfl⟩ := Prod.mk.inj heq
      exact ⟨Nat.lt_succ_self i, pass3Jmp_length hb'⟩

theorem pass3Turn_unique {x y : ZendOpArray × ℕ} (h : a.pass3Turn m i = some x)
    (h' : a.pass3Turn n i = some y) : x = y := by
  unfold pass3Turn at h h'
  cases ho : a.opcodes[i]? with
  | none =>
    simp only [ho] at h h'
    exact Option.some.inj (h.symm.trans h')
  | some o =>
    simp only [ho] at h h'
    split_ifs at h h'
    all_goals first
      | exact Option.some.inj (h.symm.trans h')
      | skip
    obtain ⟨b, hb, rfl⟩ := Option.map_eq_some_iff.mp h
    obtain ⟨b', hb', rfl⟩ := Option.map_eq_some_iff.mp h'
    rw [pass3Jmp_unique hb hb']

theorem pass3Turn_isSome (hset : ∀ o, a.opcodes[i]? = some o → a.hasFinallyBlock = false →
    a.SetEnds o) : (a.pass3Turn (a.opcodes.length + 1) i).isSome := by
  unfold pass3Turn
  cases ho : a.opcodes[i]? with
  | none => rfl
  | some o =>
    dsimp only
    split_ifs with hassign hmerged hincrement hfinally
    · rfl
    · rfl
    · rfl
    · rfl
    · rw [Option.isSome_map]
      exact pass3Jmp_isSome ho (hset o ho (Bool.eq_false_iff.mpr hfinally))

theorem setEnds_of_pass3Turn (ho : a.opcodes[i]? = some o) (hfinally : a.hasFinallyBlock = false)
    (h : (a.pass3Turn n i).isSome) : a.SetEnds o := by
  intro hop
  have hjmp : (a.pass3Jmp n i o).isSome := by
    rcases hop with hop | hop <;>
      simpa [pass3Turn, ho, hop, hfinally, ZendOpcode.assignOp?] using h
  exact setEnds_of_pass3Jmp ho hjmp hop

/-- The oplines that pass 3 comes to, and the op array that it finds there -/
inductive Comes (a : ZendOpArray) : ZendOpArray → ℕ → Prop
  | start : Comes a a 0
  | turn {fuel i j : ℕ} {b b' : ZendOpArray} (h : Comes a b i)
      (ht : b.pass3Turn fuel i = some (b', j)) : Comes a b' j

theorem Comes.length (h : a.Comes b i) : b.opcodes.length = a.opcodes.length := by
  induction h with
  | start => rfl
  | turn _ ht ih => exact (pass3Turn_spec ht).2.trans ih

/-- The turns that are left are bounded. -/
theorem pass3From_isSome (hset : ∀ b i o, a.Comes b i → b.opcodes[i]? = some o →
    b.hasFinallyBlock = false → b.SetEnds o) (h : a.Comes b i) :
    (b.pass3From (a.opcodes.length + 1) n i).isSome := by
  induction n generalizing b i with
  | zero => rfl
  | succ n ih =>
    have hturn := pass3Turn_isSome (hset b i · h)
    rw [h.length] at hturn
    obtain ⟨⟨b', j⟩, ht⟩ := Option.isSome_iff_exists.mp hturn
    rw [pass3From, ht]
    exact ih (h.turn ht)

/-- Pass 3 makes all turns that are left from where it comes to. -/
theorem Comes.pass3From (h : a.Comes b i) (hpass : (a.pass3 m).isSome) :
    ∃ n, a.opcodes.length ≤ i + n ∧ (b.pass3From m n i).isSome := by
  induction h with
  | start => exact ⟨a.opcodes.length, by omega, hpass⟩
  | @turn fuel i j b b' _ ht ih =>
    obtain ⟨n, hn, hfrom⟩ := ih
    have hlt := (pass3Turn_spec ht).1
    cases n with
    | zero => exact ⟨0, by omega, rfl⟩
    | succ n =>
      refine ⟨n, by omega, ?_⟩
      rw [ZendOpArray.pass3From] at hfrom
      cases ht' : b.pass3Turn m i with
      | none => simp [ht'] at hfrom
      | some x =>
        obtain rfl := pass3Turn_unique ht ht'
        rw [ht'] at hfrom
        exact hfrom

/-- Every loop of pass 3 ends exactly if no `JMP_SET` that it comes to is led in a cycle, and the
hit list never holds more than `last` numbers. -/
theorem pass3_loops_iff (a : ZendOpArray) :
    ((∃ fuel b, a.pass3 fuel = some b) ↔ ∀ b i o, a.Comes b i → b.opcodes[i]? = some o →
      b.hasFinallyBlock = false → b.SetEnds o) ∧
    ∀ b i o T s, a.Comes b i → b.opcodes[i]? = some o → Passes (o.jmpLoops i) ⟨b, [], T⟩ s →
      s.hitlist.length ≤ a.opcodes.length := by
  refine ⟨⟨?_, fun hset => ?_⟩, ?_⟩
  · rintro ⟨fuel, b₀, hpass⟩ b i o hcomes ho hfinally
    obtain ⟨n, hn, hfrom⟩ := hcomes.pass3From (Option.isSome_iff_exists.mpr ⟨b₀, hpass⟩)
    have hlt := (List.getElem?_eq_some_iff.mp ho).1
    rw [hcomes.length] at hlt
    obtain ⟨n, rfl⟩ : ∃ l, n = l + 1 := ⟨n - 1, by omega⟩
    refine setEnds_of_pass3Turn ho hfinally (n := fuel) ?_
    rw [ZendOpArray.pass3From] at hfrom
    cases ht : b.pass3Turn fuel i with
    | none => simp [ht] at hfrom
    | some x => rfl
  · exact ⟨_, Option.isSome_iff_exists.mp (pass3From_isSome hset .start)⟩
  · intro b i o T s hcomes ho hs
    exact hcomes.length ▸ (following_of_passes ho hs).hitlist_length

/-- A `JMP_SET` that leads to a `JMP` to itself -/
def setToLoop : ZendOpArray where
  opcodes := [⟨.jmpSet, ⟨.cv, 0, false⟩, ⟨.unused, 2, false⟩, ⟨.tmpVar, 0, false⟩, 0⟩,
    ⟨.ret, ⟨.const, 0, false⟩, .none, .none, 0⟩, ⟨.jmp, ⟨.unused, 2, false⟩, .none, .none, 0⟩]
  literals := [⟨.null, 0, -1⟩]
  brkContArray := []
  tryCatchArray := []
  hasFinallyBlock := false
  T := 1
  lastVar := 1
  lastCacheSlot := 0

omit [ExTmpVars] in
/-- All jumps lead below `last`, and no number of turns is enough. -/
theorem pass3_setToLoop :
    (∀ o ∈ setToLoop.opcodes, ∀ t ∈ o.jumpTargets setToLoop, t < setToLoop.opcodes.length) ∧
      ∀ (_ : ExTmpVars) (fuel : ℕ), setToLoop.pass3 fuel = none := by
  refine ⟨by decide, fun _ fuel => ?_⟩
  have hself : Chain.Leads setToLoop.jmpNext 2 2 := rfl
  cases ht : setToLoop.pass3Turn fuel 0 with
  | none => rw [pass3, show setToLoop.opcodes.length = 3 from rfl, pass3From, ht]; rfl
  | some x =>
    have hends := setEnds_of_pass3Turn rfl rfl (Option.isSome_iff_exists.mpr ⟨x, ht⟩)
    exact (hends (.inl rfl) ⟨2, .refl, .single hself⟩).elim

end ZendOpArray

end ZendOpcache
