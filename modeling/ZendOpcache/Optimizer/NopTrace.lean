import ZendOpcache.Optimizer.NopTables
import ZendOpcache.Transition.Trace

/-! # Runs of the code without its NOPs

A run moves silently over NOPs and `JMP`s and shows every other opline. `BRK` and `CONT` leave a
loop of the table, and an exception goes to the handler that the table gives. The code without its
NOPs shows the same as the code before.
-/

namespace ZendOpcache

/-- What becomes of an opline: its branch is not taken or it is, it leaves the loop with the given
index, or it throws. -/
inductive Way where
  | falls
  | taken
  | leaves (e : ℕ)
  | thrown

namespace ZendOp

/-- Where the branch of an opline goes. `BRK` and `CONT` have none. -/
def branch (o : ZendOp) (i : ℕ) (taken : Bool) : Option ℕ :=
  match o.opcode with
  | .goto => some o.op1.num
  | .brk | .cont => none
  | _ => o.next i taken

variable {o : ZendOp} {f : ℕ → ℕ} {i p : ℕ}

theorem branch_mapJumps {R : ℕ → ℕ → Prop} (hjumps : ∀ t ∈ o.jumps, R t (f t))
    (hnext : R (i + 1) (p + 1)) (taken : Bool) :
    Option.Rel R (o.branch i taken) ((o.mapJumps f).branch p taken) := by
  obtain ⟨opcode, op1, op2, result, extendedValue⟩ := o
  unfold jumps at hjumps
  unfold branch next mapJumps
  cases opcode <;> cases taken <;> simp_all

end ZendOp

namespace ZendBoundOpArray

/-- The handler of an exception that the opline `i` throws -/
def catchOf (tries : List ZendTryCatchElement) (i : ℕ) : Option ℕ :=
  (((tries.takeWhile fun e => e.tryOp ≤ i).filter fun e => i < e.catchOp).getLast?).map
    ZendTryCatchElement.catchOp

/-- The opline after `o`, which has the number `i` -/
def nextOpline (a : ZendBoundOpArray) (o : ZendOp) (i : ℕ) : Way → Option ℕ
  | .falls => o.branch i false
  | .taken => o.branch i true
  | .leaves e =>
    match o.opcode with
    | .brk => (a.brkContArray[e]?).map ZendBrkContElement.brk
    | .cont => (a.brkContArray[e]?).map ZendBrkContElement.cont
    | _ => none
  | .thrown => catchOf a.tryCatchArray i

/-- One move of the code at opline `i` -/
def opMove (a : ZendBoundOpArray) (i : ℕ) : Move ℕ Way ZendOp :=
  match a.opcodes[i]? with
  | none => .stuck
  | some o =>
    if o.opcode = .nop then .silent (i + 1)
    else if o.opcode = .jmp then .silent o.op1.num
    else .shows o.shown (a.nextOpline o i)

section Trace

variable {a : ZendBoundOpArray} {l : List ℕ} {i t : ℕ} {o : ZendOp} {outside : ℤ → ℕ}

theorem branch_relink {f : ℕ → ℕ} {p : ℕ} {taken : Bool} :
    (relink f o).branch p taken = o.branch p taken := by
  unfold relink
  split_ifs <;> rfl

theorem renumber_opcode : (a.renumber l i o).opcode = o.opcode := by
  unfold renumber
  split_ifs <;> simp

/-- An opline that stays is before another number exactly if its new number is before the other. -/
theorem Stays.lt_iff (h : Stays a.opcodes i) :
    newNum a.opcodes i < newNum a.opcodes t ↔ i < t := by
  constructor
  · intro hlt
    by_contra hle
    exact absurd (newNum_mono (not_lt.mp hle)) (not_le.mpr hlt)
  · exact newNum_lt h.2

/-- The old number and the new one of what comes next -/
def Follow (a : ZendBoundOpArray) (t p : ℕ) : Prop :=
  t ≤ a.opcodes.length ∧ p = newNum a.opcodes t

theorem follow_of_hasTarget (h : HasTarget a.opcodes t) : a.Follow t (newNum a.opcodes t) :=
  ⟨h.lt_length.le, rfl⟩

/-- The same handler catches the exception. -/
theorem catchOf_map (hs : Stays a.opcodes i) (tries : List ZendTryCatchElement) :
    catchOf (tries.map fun e => ⟨newNum a.opcodes e.tryOp, newNum a.opcodes e.catchOp⟩)
      (newNum a.opcodes i) = (catchOf tries i).map (newNum a.opcodes) := by
  have hle : ∀ t, newNum a.opcodes t ≤ newNum a.opcodes i ↔ t ≤ i := fun t => by
    rw [← not_lt, ← not_lt, hs.lt_iff]
  rw [catchOf, catchOf, List.takeWhile_map, List.filter_map, List.getLast?_map]
  simp only [Option.map_map, Function.comp_def, hs.lt_iff, hle]

theorem mem_of_catchOf {tries : List ZendTryCatchElement} (h : catchOf tries i = some t) :
    ∃ e ∈ tries, e.catchOp = t := by
  obtain ⟨e, he, rfl⟩ := Option.map_eq_some_iff.mp h
  have hmem := List.mem_of_getLast? he
  exact ⟨e, (List.takeWhile_subset _ (List.mem_of_mem_filter hmem)), rfl⟩

theorem rel_map {R : ℕ → ℕ → Prop} {f : ℕ → ℕ} {x : Option ℕ} (h : ∀ t ∈ x, R t (f t)) :
    Option.Rel R x (x.map f) := by
  cases x with
  | none => exact .none
  | some t => exact .some (h t rfl)

theorem follow_getElem? {xs : List ℕ} (h : ∀ t ∈ xs, HasTarget a.opcodes t) (e : ℕ) :
    Option.Rel a.Follow xs[e]? (xs.map (newNum a.opcodes))[e]? := by
  rw [List.getElem?_map]
  exact rel_map fun t ht => follow_of_hasTarget (h t (List.mem_of_getElem? ht))

/-- What comes next is found at its new number. -/
theorem Numbered.follow_next (h : a.Numbered l) (hs : Stays a.opcodes i)
    (hi : a.opcodes[i]? = some o) (w : Way) : Option.Rel a.Follow (a.nextOpline o i w)
      ((a.nopRemoval outside).nextOpline (a.renumber l i o) (newNum a.opcodes i) w) := by
  have hbranch : ∀ taken, Option.Rel a.Follow (o.branch i taken)
      ((a.renumber l i o).branch (newNum a.opcodes i) taken) := by
    intro taken
    have hrel := ZendOp.branch_mapJumps (o := o) (R := a.Follow) (f := newNum a.opcodes)
      (fun t ht => follow_of_hasTarget (h.jumps o (List.mem_of_getElem? hi) t ht))
      ⟨hs.1, (newNum_succ_of_stays hs.2).symm⟩ taken
    rw [renumber]
    split_ifs
    · rwa [branch_relink]
    · exact hrel
  cases w with
  | falls => exact hbranch false
  | taken => exact hbranch true
  | leaves e =>
    obtain ⟨g, hloops, -, -⟩ := h.nopRemoval_loops outside
    have hbrk : (a.nopRemoval outside).brkContArray.map ZendBrkContElement.brk =
        (a.brkContArray.map ZendBrkContElement.brk).map (newNum a.opcodes) := by
      rw [hloops, List.map_map, List.map_map]
      rfl
    have hcont : (a.nopRemoval outside).brkContArray.map ZendBrkContElement.cont =
        (a.brkContArray.map ZendBrkContElement.cont).map (newNum a.opcodes) := by
      rw [hloops, List.map_map, List.map_map]
      rfl
    simp only [nextOpline, renumber_opcode, ← List.getElem?_map, hbrk, hcont]
    split
    · exact follow_getElem? (List.forall_mem_map.mpr fun e he => (h.loops e he).1) e
    · exact follow_getElem? (List.forall_mem_map.mpr fun e he => (h.loops e he).2) e
    · exact .none
  | thrown =>
    rw [nextOpline, nextOpline, h.nopRemoval_tries, catchOf_map hs]
    apply rel_map
    intro t ht
    obtain ⟨e, he, rfl⟩ := mem_of_catchOf ht
    exact follow_of_hasTarget (h.tries e he).2

/-- The code without its NOPs makes the moves of the code, but for those of the oplines that go. -/
theorem Numbered.follows (h : a.Numbered l) (outside : ℤ → ℕ) :
    Follows a.opMove (a.nopRemoval outside).opMove (fun i => a.opcodes.length - i) a.Follow := by
  rintro i _ ⟨hi, rfl⟩
  have hμ : ∀ t, i < t → t ≤ a.opcodes.length → a.opcodes.length - t < a.opcodes.length - i := by
    omega
  rcases Nat.lt_or_eq_of_le hi with hlt | rfl
  · have ho : a.opcodes[i]? = some a.opcodes[i] := List.getElem?_eq_getElem hlt
    cases hr : removed a.opcodes i with
    | true =>
      right
      rcases (removed_iff ho).mp hr with hnop | hjump
      · exact ⟨i + 1, by simp [opMove, ho, hnop], ⟨hlt, (newNum_succ_of_removed hr).symm⟩,
          hμ _ (Nat.lt_succ_self i) hlt⟩
      · obtain ⟨hjmp, hit, hnops⟩ := jumpsNops_spec hjump
        have htarget := h.jump_lt ho (t := a.opcodes[i].op1.num) (by simp [ZendOp.jumps, hjmp])
        refine ⟨a.opcodes[i].op1.num, by simp [opMove, ho, hjmp], ⟨htarget.le, ?_⟩,
          hμ _ hit htarget.le⟩
        apply newNum_eq hit.le
        intro k hik hk
        rcases Nat.lt_or_eq_of_le hik with hlt' | rfl
        · obtain ⟨o', ho', hnop⟩ := hnops k hlt' hk
          exact (removed_iff ho').mpr (.inl hnop)
        · exact hr
    | false =>
      left
      have hs : Stays a.opcodes i := ⟨hlt, hr⟩
      have hget := h.nopRemoval_getElem? outside hs ho
      have hnop : a.opcodes[i].opcode ≠ .nop := fun hnop => by
        rw [(removed_iff ho).mpr (.inl hnop)] at hr
        cases hr
      rw [opMove, opMove, ho, hget]
      simp only [renumber_opcode, hnop, if_false]
      split_ifs with hjmp
      · have hnum : (a.renumber l i a.opcodes[i]).op1.num =
            newNum a.opcodes a.opcodes[i].op1.num := by
          unfold renumber relink
          split_ifs <;> simp [ZendOp.mapJumps, hjmp]
        rw [hnum]
        have htarget := h.jumps _ (List.mem_of_getElem? ho) a.opcodes[i].op1.num
        exact .silent (follow_of_hasTarget (htarget (by simp [ZendOp.jumps, hjmp])))
      · rw [h.shown_renumber ho]
        exact .shows (h.follow_next hs ho)
  · left
    rw [opMove, opMove, List.getElem?_eq_none le_rfl,
      List.getElem?_eq_none (h.nopRemoval_length outside).le]
    exact .stuck

/-- All NOPs go, and the `JMP`s over NOPs alone. What stays is left in its order, each opline number
in it becomes that of the first opline at or after the old target that stays, and every run shows
the same as before. -/
theorem nopRemoval_refines (outside : ℤ → ℕ) (h : a.Numbered l) :
    (∀ i o, a.opcodes[i]? = some o → (removed a.opcodes i = true ↔ o.opcode = .nop ∨
      (o.opcode = .jmp ∧ i < o.op1.num ∧ ∀ k, i < k → k < o.op1.num →
        ∃ o', a.opcodes[k]? = some o' ∧ o'.opcode = .nop))) ∧
    (a.nopRemoval outside).opcodes =
      (a.opcodes.zipIdx.filter fun x => !removed a.opcodes x.2).map
        (fun x => a.renumber l x.2 x.1) ∧
    (∀ o ∈ a.opcodes, ∀ t ∈ o.jumps, ∃ j o', FirstStays a.opcodes t j ∧
      a.opcodes[j]? = some o' ∧
      (a.nopRemoval outside).opcodes[newNum a.opcodes t]? = some (a.renumber l j o')) ∧
    ∀ i ≤ a.opcodes.length, ∀ is os, Trace a.opMove i is os ↔
      Trace (a.nopRemoval outside).opMove (newNum a.opcodes i) is os := by
  refine ⟨fun i o hi => ?_, h.nopRemoval_opcodes outside, fun o ho t ht => ?_, fun i hi is os => ?_⟩
  · rw [removed_iff hi, jumpsNops_iff hi]
  · obtain ⟨j, hj⟩ := exists_firstStays h.jumps (h.jumps o ho t ht)
    have ho' := List.getElem?_eq_getElem hj.1.1
    rw [hj.newNum_eq]
    exact ⟨j, _, hj, ho', h.nopRemoval_getElem? outside hj.1 ho'⟩
  · exact (h.follows outside).trace_iff ⟨hi, rfl⟩

theorem nopRemoval_refines_foreach :
    Trace ((endlessLoop 2).nopRemoval fun _ => 0).opMove 0 [.falls, .falls, .thrown]
      [⟨.declareInheritedClassDelayed, ⟨.const, 0, false⟩, ⟨.const, 1, false⟩,
          ⟨.unused, 0, false⟩, 0⟩,
        ⟨.echo, ⟨.cv, 0, false⟩, .none, .none, 0⟩, ⟨.echo, ⟨.cv, 0, false⟩, .none, .none, 0⟩] := by
  apply ((nopRemoval_refines _ (endlessLoop_numbered 2)).2.2.2 0 (by decide) _ _).mp
  exact .silent rfl (.shows rfl rfl (.shows rfl rfl (.silent rfl (.shows rfl rfl (.nil 4)))))

end Trace

end ZendBoundOpArray

end ZendOpcache
