import Mathlib.Data.Nat.Count
import ZendOpcache.Optimizer.Execution

/-! # The removal of NOPs

`nop_removal` moves the oplines down over the NOPs in place and counts in
`shiftlist` how far each of them goes. A `JMP` over NOPs alone becomes a NOP on the
way. Then all opline numbers are brought down, in the oplines and in the tables.
-/

namespace ZendOpcache

namespace ZendOp

/-- The opline numbers of an opline, before PHP 5.5 -/
def jumps (o : ZendOp) : List ℕ :=
  match o.opcode with
  | .jmp | .goto => [o.op1.num]
  | .jmpz | .jmpnz | .jmpzEx | .jmpnzEx | .feFetch | .feReset | .new | .jmpSet | .jmpSetVar =>
    [o.op2.num]
  | .jmpznz => [o.op2.num, o.extendedValue]
  | .catch => [o.extendedValue]
  | _ => []

/-- The update of the opline numbers -/
def mapJumps (f : ℕ → ℕ) (o : ZendOp) : ZendOp :=
  match o.opcode with
  | .jmp | .goto => { o with op1 := { o.op1 with num := f o.op1.num } }
  | .jmpz | .jmpnz | .jmpzEx | .jmpnzEx | .feFetch | .feReset | .new | .jmpSet | .jmpSetVar =>
    { o with op2 := { o.op2 with num := f o.op2.num } }
  | .jmpznz =>
    { o with op2 := { o.op2 with num := f o.op2.num }, extendedValue := f o.extendedValue }
  | .catch => { o with extendedValue := f o.extendedValue }
  | _ => o

variable {o : ZendOp} {f g : ℕ → ℕ}

@[simp] theorem mapJumps_opcode : (o.mapJumps f).opcode = o.opcode := by
  unfold mapJumps
  split <;> rfl

@[simp] theorem mapJumps_result : (o.mapJumps f).result = o.result := by
  unfold mapJumps
  split <;> rfl

theorem mapJumps_congr (h : ∀ t ∈ o.jumps, f t = g t) : o.mapJumps f = o.mapJumps g := by
  unfold jumps at h
  unfold mapJumps
  split <;> simp_all

theorem mapJumps_eq_self (h : ∀ t ∈ o.jumps, f t = t) : o.mapJumps f = o := by
  rw [mapJumps_congr (g := id) h]
  unfold mapJumps
  split <;> rfl

theorem mapJumps_mapJumps : (o.mapJumps f).mapJumps g = o.mapJumps (g ∘ f) := by
  unfold mapJumps
  cases h : o.opcode <;> simp [h]

end ZendOp

/-- An op array with the list of its early bindings, which goes through the results of the
oplines. -/
structure ZendBoundOpArray extends ZendOpArray where
  earlyBinding : ℕ

/-- `(zend_uint)-1` -/
def noOpline : ℕ := 2 ^ 32 - 1

namespace ZendBoundOpArray

/-- The nearest opline at or before `i` that is no NOP. -/
def beforeNops (ops : List ZendOp) : ℕ → Option ℕ
  | 0 => (ops[0]?).bind fun o => if o.opcode = .nop then none else some 0
  | i + 1 =>
    (ops[i + 1]?).bind fun o => if o.opcode = .nop then beforeNops ops i else some (i + 1)

/-- The opline is a `JMP` over NOPs alone. -/
def jumpsNops (ops : List ZendOp) (i : ℕ) (o : ZendOp) : Bool :=
  o.opcode == .jmp && decide (i < o.op1.num) && beforeNops ops (o.op1.num - 1) == some i

structure NopState where
  opcodes : List ZendOp
  shiftlist : List ℕ
  newCount : ℕ
  shift : ℕ

/-- A `GOTO` whose label was not found yet -/
def unresolvedGoto (literals : List ZendLiteral) (o : ZendOp) : Bool :=
  o.opcode == .goto && !(literals[o.op2.num]?).any fun l =>
    match l.constant with
    | .long _ => true
    | _ => false

/-- One turn of the first loop. An unresolved `GOTO` stops it, and the oplines stay as they are. -/
def nopStep (literals : List ZendLiteral) (s : NopState) (i : ℕ) :
    Except (List ZendOp) NopState :=
  match s.opcodes[i]? with
  | none => .ok s
  | some o =>
    if unresolvedGoto literals o then .error s.opcodes
    else
      let killed := jumpsNops s.opcodes i o
      let opcodes :=
        if killed then s.opcodes.modify i fun o => { o with opcode := .nop } else s.opcodes
      if killed || o.opcode == .nop then
        .ok ⟨opcodes, s.shiftlist ++ [s.shift], s.newCount, s.shift + 1⟩
      else
        .ok ⟨if s.shift ≠ 0 then opcodes.set s.newCount o else opcodes,
          s.shiftlist ++ [s.shift], s.newCount + 1, s.shift⟩

def nopLoop (a : ZendBoundOpArray) : Except (List ZendOp) NopState :=
  (List.range a.opcodes.length).foldlM (nopStep a.literals) ⟨a.opcodes, [], 0, 0⟩

/-- An element of `shiftlist`. What lies outside of it is arbitrary. -/
def NopState.shiftAt (s : NopState) (outside : ℤ → ℕ) (n : ℤ) : ℕ :=
  if 0 ≤ n then (s.shiftlist[n.toNat]?).getD (outside n) else outside n

/-- `n -= shiftlist[n]` -/
def NopState.bringDown (s : NopState) (outside : ℤ → ℕ) (n : ℕ) : ℕ := n - s.shiftAt outside n

/-- The list of early bindings from the opline `i` on. -/
def shiftLinks (f : ℕ → ℕ) : ℕ → List ZendOp → ℕ → List ZendOp
  | 0, ops, _ => ops
  | fuel + 1, ops, i =>
    match ops[i]? with
    | none => ops
    | some o =>
      if o.result.num = noOpline then ops
      else
        shiftLinks f fuel
          (ops.modify i fun o => { o with result := { o.result with num := f o.result.num } })
          (f o.result.num)

/-- The part after the first loop: all opline numbers are brought down. -/
def shiftNumbers (outside : ℤ → ℕ) (a : ZendBoundOpArray) (s : NopState) : ZendBoundOpArray :=
  let f := s.bringDown outside
  let ops := (s.opcodes.take s.newCount).map (ZendOp.mapJumps f)
  { a with
    opcodes :=
      if a.earlyBinding = noOpline then ops else shiftLinks f ops.length ops (f a.earlyBinding)
    brkContArray := a.brkContArray.map fun e =>
      { e with brk := f e.brk, cont := f e.cont, start := e.start - s.shiftAt outside e.start }
    tryCatchArray := a.tryCatchArray.map fun e => ⟨f e.tryOp, f e.catchOp⟩
    earlyBinding := if a.earlyBinding = noOpline then noOpline else f a.earlyBinding }

/-- The opline numbers that `shiftLinks` brings down. -/
def linkReads (f : ℕ → ℕ) : ℕ → List ZendOp → ℕ → List ℕ
  | 0, _, _ => []
  | fuel + 1, ops, i =>
    match ops[i]? with
    | none => []
    | some o =>
      if o.result.num = noOpline then []
      else
        o.result.num :: linkReads f fuel
          (ops.modify i fun o => { o with result := { o.result with num := f o.result.num } })
          (f o.result.num)

/-- The indices at which `shiftNumbers` reads `shiftlist`. -/
def shiftReads (outside : ℤ → ℕ) (a : ZendBoundOpArray) (s : NopState) : List ℤ :=
  let f := s.bringDown outside
  let ops := s.opcodes.take s.newCount
  (ops.flatMap ZendOp.jumps).map Nat.cast ++
    a.brkContArray.flatMap (fun e => [(e.brk : ℤ), (e.cont : ℤ), e.start]) ++
    a.tryCatchArray.flatMap (fun e => [(e.tryOp : ℤ), (e.catchOp : ℤ)]) ++
    if a.earlyBinding = noOpline then []
    else (a.earlyBinding :: linkReads f ops.length (ops.map (ZendOp.mapJumps f))
      (f a.earlyBinding)).map Nat.cast

def nopRemoval (outside : ℤ → ℕ) (a : ZendBoundOpArray) : ZendBoundOpArray :=
  match a.nopLoop with
  | .error opcodes => { a with opcodes := opcodes }
  | .ok s => if s.shift = 0 then { a with opcodes := s.opcodes } else a.shiftNumbers outside s

/-- The indices at which the pass reads `shiftlist`. -/
def nopRemovalReads (outside : ℤ → ℕ) (a : ZendBoundOpArray) : List ℤ :=
  match a.nopLoop with
  | .error _ => []
  | .ok s => if s.shift = 0 then [] else a.shiftReads outside s

/-- The opline goes. -/
def removed (ops : List ZendOp) (i : ℕ) : Bool :=
  (ops[i]?).any fun o => o.opcode == .nop || jumpsNops ops i o

/-- The new number of an opline: how many before it stay. -/
def newNum (ops : List ZendOp) (i : ℕ) : ℕ := Nat.count (fun k => removed ops k = false) i

section Numbers

variable {ops xs : List ZendOp} {i j t n : ℕ} {o : ZendOp}

theorem newNum_le : newNum ops i ≤ i := Nat.count_le _

theorem newNum_mono (h : i ≤ j) : newNum ops i ≤ newNum ops j := Nat.count_monotone _ h

theorem newNum_succ_of_stays (h : removed ops i = false) :
    newNum ops (i + 1) = newNum ops i + 1 := by
  simp [newNum, Nat.count_succ, h]

theorem newNum_succ_of_removed (h : removed ops i = true) :
    newNum ops (i + 1) = newNum ops i := by
  simp [newNum, Nat.count_succ, h]

theorem newNum_lt (h : removed ops i = false) (hij : i < j) : newNum ops i < newNum ops j :=
  Nat.count_strict_mono h hij

/-- Each number below that of `n` is the one of an opline that stays. -/
theorem exists_newNum {p : ℕ} (h : p < newNum ops n) :
    ∃ i < n, removed ops i = false ∧ newNum ops i = p := by
  induction n with
  | zero => exact absurd h (Nat.not_lt_zero p)
  | succ n ih =>
    rcases lt_or_ge p (newNum ops n) with hlt | hge
    · obtain ⟨i, hi, hs, hp⟩ := ih hlt
      exact ⟨i, hi.trans (Nat.lt_succ_self n), hs, hp⟩
    · cases hr : removed ops n with
      | true =>
        rw [newNum_succ_of_removed hr] at h
        exact absurd h (not_lt.mpr hge)
      | false =>
        rw [newNum_succ_of_stays hr] at h
        exact ⟨n, Nat.lt_succ_self n, hr, by omega⟩

/-- All oplines between go. -/
theorem newNum_eq (hij : i ≤ j) (h : ∀ k, i ≤ k → k < j → removed ops k = true) :
    newNum ops i = newNum ops j := by
  induction j, hij using Nat.le_induction with
  | base => rfl
  | succ j hij ih =>
    rw [newNum_succ_of_removed (h j hij (Nat.lt_succ_self j))]
    exact ih fun k hk hkj => h k hk (hkj.trans (Nat.lt_succ_self j))

theorem newNum_eq_self (h : ∀ k < n, removed ops k = false) (hi : i ≤ n) : newNum ops i = i :=
  Nat.count_iff_forall.mpr fun k hk => h k (hk.trans_le hi)

/-- The walk only reads down to the first opline that is no NOP. -/
theorem beforeNops_congr (hi : ops[i]? = some o) (ho : o.opcode ≠ .nop) (hit : i ≤ t)
    (hxs : ∀ k, i ≤ k → xs[k]? = ops[k]?) : beforeNops xs t = beforeNops ops t := by
  induction t with
  | zero => simp only [beforeNops, hxs 0 hit]
  | succ t ih =>
    simp only [beforeNops, hxs (t + 1) hit]
    rcases Nat.lt_or_eq_of_le hit with hlt | rfl
    · rw [ih (Nat.lt_succ_iff.mp hlt)]
    · simp [hi, ho]

theorem jumpsNops_congr (hi : ops[i]? = some o) (hxs : ∀ k, i ≤ k → xs[k]? = ops[k]?) :
    jumpsNops xs i o = jumpsNops ops i o := by
  unfold jumpsNops
  by_cases hjmp : o.opcode = .jmp
  · by_cases hlt : i < o.op1.num
    · rw [beforeNops_congr hi (by rw [hjmp]; decide) (by omega) hxs]
    · simp only [hlt, decide_false, Bool.and_false, Bool.false_and]
  · simp only [beq_eq_false_iff_ne.mpr hjmp, Bool.false_and]

/-- Only NOPs lie between the opline that the walk finds and where it starts. -/
theorem beforeNops_spec (h : beforeNops ops t = some i) :
    i ≤ t ∧ ∀ k, i < k → k ≤ t → ∃ o, ops[k]? = some o ∧ o.opcode = .nop := by
  induction t with
  | zero =>
    obtain ⟨o, -, h⟩ := Option.bind_eq_some_iff.mp h
    split_ifs at h
    obtain rfl := Option.some.inj h
    exact ⟨le_rfl, fun k hk hk' => by omega⟩
  | succ t ih =>
    obtain ⟨o, ho, h⟩ := Option.bind_eq_some_iff.mp h
    split_ifs at h with hnop
    · obtain ⟨hle, hall⟩ := ih h
      refine ⟨by omega, fun k hk hk' => ?_⟩
      rcases Nat.lt_or_eq_of_le hk' with hlt | rfl
      · exact hall k hk (by omega)
      · exact ⟨o, ho, hnop⟩
    · obtain rfl := Option.some.inj h
      exact ⟨le_rfl, fun k hk hk' => by omega⟩

theorem beforeNops_eq (hi : ops[i]? = some o) (ho : o.opcode ≠ .nop) (hit : i ≤ t)
    (h : ∀ k, i < k → k ≤ t → ∃ o, ops[k]? = some o ∧ o.opcode = .nop) :
    beforeNops ops t = some i := by
  induction t, hit using Nat.le_induction with
  | base => cases i <;> simp [beforeNops, hi, ho]
  | succ t hit ih =>
    obtain ⟨o', ho', hnop⟩ := h (t + 1) (Nat.lt_succ_of_le hit) le_rfl
    rw [beforeNops, ho', Option.bind_some, if_pos hnop]
    exact ih fun k hk hkt => h k hk (hkt.trans (Nat.le_succ t))

/-- A `JMP` that goes has only NOPs before its target. -/
theorem jumpsNops_spec (h : jumpsNops ops i o = true) : o.opcode = .jmp ∧ i < o.op1.num ∧
    ∀ k, i < k → k < o.op1.num → ∃ o', ops[k]? = some o' ∧ o'.opcode = .nop := by
  simp only [jumpsNops, Bool.and_eq_true, beq_iff_eq, decide_eq_true_eq] at h
  obtain ⟨⟨hjmp, hlt⟩, hwalk⟩ := h
  exact ⟨hjmp, hlt, fun k hk hk' => (beforeNops_spec hwalk).2 k hk (by omega)⟩

theorem jumpsNops_iff (hi : ops[i]? = some o) : jumpsNops ops i o = true ↔ o.opcode = .jmp ∧
    i < o.op1.num ∧
      ∀ k, i < k → k < o.op1.num → ∃ o', ops[k]? = some o' ∧ o'.opcode = .nop := by
  constructor
  · exact jumpsNops_spec
  · rintro ⟨hjmp, hlt, hnops⟩
    have hwalk := beforeNops_eq hi (by rw [hjmp]; decide) (Nat.le_sub_one_of_lt hlt)
      fun k hk hkt => hnops k hk (by omega)
    simp [jumpsNops, hjmp, hlt, hwalk]

end Numbers

/-- The oplines before `i` are moved to their new numbers, the others are untouched. -/
structure Compacts (ops : List ZendOp) (i : ℕ) (s : NopState) : Prop where
  shiftlist : s.shiftlist = (List.range i).map fun k => k - newNum ops k
  newCount : s.newCount = newNum ops i
  shift : s.shift = i - newNum ops i
  length : s.opcodes.length = ops.length
  moved : ∀ k < i, removed ops k = false → s.opcodes[newNum ops k]? = ops[k]?
  rest : ∀ k, i ≤ k → s.opcodes[k]? = ops[k]?

section Loop

variable {literals : List ZendLiteral} {ops : List ZendOp} {i : ℕ} {o : ZendOp} {s : NopState}

theorem Compacts.zero : Compacts ops 0 ⟨ops, [], 0, 0⟩ where
  shiftlist := rfl
  newCount := rfl
  shift := rfl
  length := rfl
  moved := fun _ hk => absurd hk (Nat.not_lt_zero _)
  rest := fun _ _ => rfl

theorem Compacts.shiftlist_succ (h : Compacts ops i s) : s.shiftlist ++ [s.shift] =
    (List.range (i + 1)).map fun k => k - newNum ops k := by
  rw [List.range_succ, List.map_append, h.shiftlist, h.shift]
  rfl

theorem removed_eq (h : Compacts ops i s) (hi : ops[i]? = some o) :
    removed ops i = (jumpsNops s.opcodes i o || o.opcode == .nop) := by
  rw [removed, hi, jumpsNops_congr hi h.rest, Option.any_some, Bool.or_comm]

/-- The opline goes. -/
theorem Compacts.skip {f : ZendOp → ZendOp} (h : Compacts ops i s) (hr : removed ops i = true) :
    Compacts ops (i + 1) ⟨s.opcodes.modify i f, s.shiftlist ++ [s.shift], s.newCount,
      s.shift + 1⟩ where
  shiftlist := h.shiftlist_succ
  newCount := by rw [newNum_succ_of_removed hr]; exact h.newCount
  shift := by
    have hle : newNum ops i ≤ i := newNum_le
    have hshift := h.shift
    rw [newNum_succ_of_removed hr]
    dsimp only
    omega
  length := by simpa using h.length
  moved := fun k hk hs => by
    have hne : k ≠ i := fun heq => by simp [heq, hr] at hs
    have hlt : newNum ops k < i := newNum_le.trans_lt (by omega)
    dsimp only
    rw [List.getElem?_modify_ne _ _ (by omega)]
    exact h.moved k (by omega) hs
  rest := fun k hk => by
    dsimp only
    rw [List.getElem?_modify_ne _ _ (by omega)]
    exact h.rest k (by omega)

/-- The opline stays and moves down. -/
theorem Compacts.keep (h : Compacts ops i s) (hi : ops[i]? = some o)
    (hs : removed ops i = false) :
    Compacts ops (i + 1) ⟨if s.shift ≠ 0 then s.opcodes.set s.newCount o else s.opcodes,
      s.shiftlist ++ [s.shift], s.newCount + 1, s.shift⟩ := by
  have hle : newNum ops i ≤ i := newNum_le
  have hlt := (List.getElem?_eq_some_iff.mp hi).1
  have hset : (if s.shift ≠ 0 then s.opcodes.set s.newCount o else s.opcodes) =
      s.opcodes.set (newNum ops i) o := by
    split_ifs with hshift
    · rw [h.newCount]
    · have heq : newNum ops i = i := by have := h.shift; omega
      obtain ⟨hlt', ho⟩ := List.getElem?_eq_some_iff.mp ((h.rest i le_rfl).trans hi)
      rw [heq, ← ho, List.set_getElem_self]
  rw [hset]
  exact {
    shiftlist := h.shiftlist_succ
    newCount := by rw [newNum_succ_of_stays hs, ← h.newCount]
    shift := by
      have hshift := h.shift
      rw [newNum_succ_of_stays hs]
      dsimp only
      omega
    length := by simpa using h.length
    moved := fun k hk hk' => by
      rcases Nat.lt_or_eq_of_le (Nat.lt_succ_iff.mp hk) with hki | rfl
      · have := newNum_lt hk' hki
        rw [List.getElem?_set_ne (by omega)]
        exact h.moved k hki hk'
      · rw [List.getElem?_set_self (by have := h.length; omega), hi]
    rest := fun k hk => by
      rw [List.getElem?_set_ne (by omega)]
      exact h.rest k (by omega) }

theorem Compacts.step (h : Compacts ops i s) (hi : ops[i]? = some o)
    (hgoto : unresolvedGoto literals o = false) :
    ∃ s', nopStep literals s i = .ok s' ∧ Compacts ops (i + 1) s' := by
  have hsi : s.opcodes[i]? = some o := h.rest i le_rfl ▸ hi
  have hr := removed_eq h hi
  simp only [nopStep, hsi, hgoto, Bool.false_eq_true, if_false]
  cases hkill : jumpsNops s.opcodes i o with
  | true =>
    rw [hkill, Bool.true_or] at hr
    simp only [if_true, Bool.true_or]
    exact ⟨_, rfl, h.skip hr⟩
  | false =>
    rw [hkill, Bool.false_or] at hr
    simp only [Bool.false_eq_true, if_false, Bool.false_or]
    cases hnop : o.opcode == .nop with
    | true =>
      have := h.skip (f := id) (hr.trans hnop)
      rw [List.modify_id] at this
      simp only [if_true]
      exact ⟨_, rfl, this⟩
    | false =>
      simp only [Bool.false_eq_true, if_false]
      exact ⟨_, rfl, h.keep hi (hr.trans hnop)⟩

/-- Without an unresolved `GOTO` the loop comes to its end. -/
theorem nopLoop_compacts (a : ZendBoundOpArray)
    (hgoto : ∀ o ∈ a.opcodes, unresolvedGoto a.literals o = false) :
    ∃ s, a.nopLoop = .ok s ∧ Compacts a.opcodes a.opcodes.length s := by
  suffices hall : ∀ i ≤ a.opcodes.length, ∃ s,
      (List.range i).foldlM (nopStep a.literals) ⟨a.opcodes, [], 0, 0⟩ = .ok s ∧
        Compacts a.opcodes i s from hall _ le_rfl
  intro i
  induction i with
  | zero => exact fun _ => ⟨_, rfl, .zero⟩
  | succ i ih =>
    intro hlt
    obtain ⟨s, hs, hc⟩ := ih (by omega)
    have hi : a.opcodes[i]? = some a.opcodes[i] := List.getElem?_eq_getElem hlt
    obtain ⟨s', hs', hc'⟩ := hc.step hi (hgoto _ (List.getElem_mem hlt))
    refine ⟨s', ?_, hc'⟩
    rw [List.range_succ, List.foldlM_append, hs]
    change [i].foldlM (nopStep a.literals) s = .ok s'
    rw [List.foldlM_cons, hs']
    rfl

end Loop

end ZendBoundOpArray

end ZendOpcache
