import Mathlib.Data.Finset.Card
import Mathlib.Logic.Function.Basic
import ZendOpcache.Optimizer.Opline

/-! # The slots of temporaries

`optimize_temporary_variables` walks the oplines backwards. A temporary gets a slot where it is
read last, and the slot is free again before the first opline that defines the temporary. A number
of a temporary is an index, in `extended_value` as well.
-/

namespace ZendOpcache

/-- `IS_VAR | IS_TMP_VAR` -/
def Znode.isTemporary (x : Znode) : Bool := x.type == .var || x.type == .tmpVar

/-- The extended value is the class to inherit from, which is a temporary. -/
def ZendOp.declaresInherited (o : ZendOp) : Bool :=
  o.opcode == .declareInheritedClass || o.opcode == .declareInheritedClassDelayed

structure TempSlots where
  /-- slot in use -/
  taken : ℕ → Bool
  /-- is the map valid -/
  valid : ℕ → Bool
  /-- the slot of a temporary -/
  map : ℕ → ℕ
  /-- one more than the highest slot that was taken -/
  newT : ℕ

namespace TempSlots

variable (T : ℕ) (s : TempSlots) (n : ℕ)

/-- `GET_AVAILABLE_T`, which takes the index `T` where no slot is left. -/
def getAvailable : ℕ × TempSlots :=
  let i := ((List.range T).find? fun i => !s.taken i).getD T
  (i, { s with taken := Function.update s.taken i true, newT := max s.newT (i + 1) })

def release (i : ℕ) : TempSlots := { s with taken := Function.update s.taken i false }

def setMap (i : ℕ) : TempSlots :=
  { s with map := Function.update s.map n i, valid := Function.update s.valid n true }

/-- The slot of a temporary that an opline reads -/
def slotOf : ℕ × TempSlots :=
  if s.valid n then (s.map n, s)
  else
    let (i, s) := s.getAvailable T
    (i, s.setMap n i)

def renumber (x : Znode) : Znode × TempSlots :=
  if x.isTemporary then
    let (i, s) := s.slotOf T x.num
    ({ x with num := i }, s)
  else (x, s)

/-- The slot of the second operand of `OP_DATA` after `ASSIGN_DIM`, which is free again at once -/
def scratchSlot : ℕ × TempSlots :=
  let (i, s) := s.getAvailable T
  (i, (s.setMap n i).release i)

/-- The slot of a result, where `first` tells that no opline before defines the temporary -/
def resultSlot (first unused : Bool) : ℕ × TempSlots :=
  if s.valid n then (s.map n, if first then s.release (s.map n) else s)
  else
    let (i, s) := s.getAvailable T
    (i, if unused then s.release i else s.setMap n i)

end TempSlots

/-- `start_of_T`: the first opline that defines a temporary -/
def startOfT (ops : List ZendOp) (n : ℕ) : Option ℕ :=
  ops.findIdx? fun o => o.result.isTemporary && o.result.num == n

/-- `OP_DATA` after `ASSIGN_DIM` -/
def isDimData (ops : List ZendOp) (k : ℕ) : Bool :=
  (ops[k]?).any (·.opcode == .opData) && k != 0 && (ops[k - 1]?).any (·.opcode == .assignDim)

/-- The second operand of `OP_DATA` after the `ASSIGN_DIM` -/
def scratchOf (ops : List ZendOp) (k : ℕ) : Option ℕ :=
  (ops[k]?).bind fun o => (ops[k + 1]?).bind fun d =>
    if o.opcode = .assignDim ∧ d.opcode = .opData ∧ d.op2.isTemporary then some d.op2.num else none

namespace ZendOpArray

/-- The class that a declaration inherits from -/
def scanClass (T : ℕ) (s : TempSlots) (o : ZendOp) : ℕ × TempSlots :=
  if o.declaresInherited then s.slotOf T o.extendedValue else (o.extendedValue, s)

/-- The slot of `OP_DATA->op2`, which comes after the operands, but before the result -/
def scanScratch (T : ℕ) (ops : List ZendOp) (s : TempSlots) (k : ℕ) :
    List ZendOp × TempSlots × Option ℕ :=
  match scratchOf ops k with
  | some n =>
    let (i, s) := s.scratchSlot T n
    (ops.modify (k + 1) fun d => { d with op2 := { d.op2 with num := i } }, s, some i)
  | none => (ops, s, none)

def scanResult (T : ℕ) (start : ℕ → Option ℕ) (s : TempSlots) (k : ℕ) (x : Znode) :
    Znode × TempSlots :=
  if x.isTemporary then
    let (i, s) := s.resultSlot T x.num (start x.num == some k) x.extUnused
    ({ x with num := i }, s)
  else (x, s)

/-- What is left of a turn of the scan after the first operand -/
def scanRest (T : ℕ) (start : ℕ → Option ℕ) (ops : List ZendOp) (s : TempSlots) (k : ℕ)
    (o : ZendOp) : List ZendOp × TempSlots :=
  let (op2, s) := s.renumber T o.op2
  let (extendedValue, s) := scanClass T s o
  let (ops, s, varToFree) := scanScratch T ops s k
  let (result, s) := scanResult T start s k o.result
  (ops.set k { o with op2 := op2, extendedValue := extendedValue, result := result },
    match varToFree with
    | some i => s.release i
    | none => s)

/-- One turn of the scan -/
def scanStep (T : ℕ) (start : ℕ → Option ℕ) (ops : List ZendOp) (s : TempSlots) (k : ℕ) :
    List ZendOp × TempSlots :=
  match ops[k]? with
  | none => (ops, s)
  | some o =>
    let (op1, s) := s.renumber T o.op1
    let o := { o with op1 := op1 }
    if isDimData ops k then (ops.set k o, s) else scanRest T start ops s k o

/-- The scan of the oplines before `k`, from the last one on -/
def scan (T : ℕ) (start : ℕ → Option ℕ) : ℕ → List ZendOp → TempSlots → List ZendOp × TempSlots
  | 0, ops, s => (ops, s)
  | k + 1, ops, s =>
    let (ops, s) := scanStep T start ops s k
    scan T start k ops s

def optimizeTemporaryVariables (a : ZendOpArray) : ZendOpArray :=
  let (ops, s) := scan a.T (startOfT a.opcodes) a.opcodes.length a.opcodes
    ⟨fun _ => false, fun _ => false, fun _ => 0, 0⟩
  { a with opcodes := ops, T := s.newT }

end ZendOpArray

namespace TempSlots

variable {T b n : ℕ} {scratch : ℕ → Prop} {start : ℕ → Option ℕ} {s s' s'' : TempSlots}
  {owners : Finset ℕ}

/-- The owners are the temporaries that hold the taken slots, each its own: those that are valid and
are not defined at `b` or later alone. -/
structure Owned (T : ℕ) (scratch : ℕ → Prop) (start : ℕ → Option ℕ) (b : ℕ) (s : TempSlots)
    (owners : Finset ℕ) : Prop where
  owner : ∀ n ∈ owners, n < T ∧ s.valid n = true ∧ ¬scratch n
  inj : ∀ m ∈ owners, ∀ n ∈ owners, s.map m = s.map n → m = n
  taken : ∀ i, s.taken i = true ↔ ∃ n ∈ owners, s.map n = i
  held : ∀ n, s.valid n = true → ¬scratch n → (∀ d, start n = some d → d < b) → n ∈ owners
  slots : ∀ n, s.valid n = true → ¬scratch n → s.map n < s.newT
  bound : s.newT ≤ T

def Allocated (T : ℕ) (scratch : ℕ → Prop) (start : ℕ → Option ℕ) (b : ℕ) (s : TempSlots) : Prop :=
  ∃ owners, Owned T scratch start b s owners

/-- The slots that were given stay. -/
def Extends (scratch : ℕ → Prop) (s s' : TempSlots) : Prop :=
  s.newT ≤ s'.newT ∧
    ∀ n, ¬scratch n → s.valid n = true → s'.valid n = true ∧ s'.map n = s.map n

theorem Extends.refl : Extends scratch s s := ⟨le_rfl, fun _ _ hv => ⟨hv, rfl⟩⟩

theorem Extends.trans (h : Extends scratch s s') (h' : Extends scratch s' s'') :
    Extends scratch s s'' := by
  refine ⟨h.1.trans h'.1, fun n hn hv => ?_⟩
  obtain ⟨hv', hmap'⟩ := h.2 n hn hv
  obtain ⟨hv'', hmap''⟩ := h'.2 n hn hv'
  exact ⟨hv'', hmap''.trans hmap'⟩

/-- A slot is left for a temporary that owns none. -/
theorem Owned.exists_free (h : Owned T scratch start b s owners) (hn : n < T) (hno : n ∉ owners) :
    ∃ i < T, s.taken i = false := by
  by_contra hall
  push Not at hall
  have hsub : Finset.range T ⊆ owners.image s.map := by
    intro i hi
    have htaken : s.taken i = true := by simpa using hall i (Finset.mem_range.mp hi)
    obtain ⟨m, hm, rfl⟩ := (h.taken i).mp htaken
    exact Finset.mem_image_of_mem _ hm
  have howners : insert n owners ⊆ Finset.range T := by
    intro m hm
    rcases Finset.mem_insert.mp hm with rfl | hm
    · exact Finset.mem_range.mpr hn
    · exact Finset.mem_range.mpr (h.owner m hm).1
  have hle := (Finset.card_le_card hsub).trans Finset.card_image_le
  have hlt := Finset.card_le_card howners
  rw [Finset.card_insert_of_notMem hno] at hlt
  omega

theorem Owned.getAvailable (h : Owned T scratch start b s owners) (hn : n < T) (hno : n ∉ owners) :
    ∃ i < T, s.taken i = false ∧ s.getAvailable T =
      (i, { s with taken := Function.update s.taken i true, newT := max s.newT (i + 1) }) := by
  obtain ⟨j, hj, hfree⟩ := h.exists_free hn hno
  cases hfind : (List.range T).find? fun i => !s.taken i with
  | none => simpa [hfree] using List.find?_eq_none.mp hfind j (List.mem_range.mpr hj)
  | some i =>
    refine ⟨i, List.mem_range.mp (List.mem_of_find?_eq_some hfind), ?_, ?_⟩
    · simpa using List.find?_some hfind
    · rw [TempSlots.getAvailable, hfind]
      rfl

theorem Owned.of_valid (h : Owned T scratch start b s owners) (hn : s.valid n = false) :
    n ∉ owners := fun hmem => by
  rw [(h.owner n hmem).2.1] at hn
  cases hn

/-- A temporary gets a slot that was free. -/
theorem Owned.give {i : ℕ} (h : Owned T scratch start b s owners) (hi : i < T)
    (hfree : s.taken i = false) (hn : n < T) (hv : s.valid n = false) (hs : ¬scratch n) :
    Owned T scratch start b
      (setMap { s with taken := Function.update s.taken i true, newT := max s.newT (i + 1) } n i)
      (insert n owners) := by
  have hno := h.of_valid hv
  have hne : ∀ m ∈ owners, m ≠ n := fun m hm heq => hno (heq ▸ hm)
  have hmap : ∀ m ∈ owners, s.map m ≠ i := fun m hm heq => by
    rw [(h.taken i).mpr ⟨m, hm, heq⟩] at hfree
    cases hfree
  constructor
  · intro m hm
    rcases Finset.mem_insert.mp hm with rfl | hm
    · exact ⟨hn, by simp [setMap], hs⟩
    · obtain ⟨hlt, hv', hs'⟩ := h.owner m hm
      exact ⟨hlt, by simp [setMap, hne m hm, hv'], hs'⟩
  · intro m hm m' hm' heq
    rcases Finset.mem_insert.mp hm with rfl | ho
    · rcases Finset.mem_insert.mp hm' with rfl | ho'
      · rfl
      · simp only [setMap, Function.update_self, Function.update_of_ne (hne m' ho')] at heq
        exact absurd heq.symm (hmap m' ho')
    · rcases Finset.mem_insert.mp hm' with rfl | ho'
      · simp only [setMap, Function.update_self, Function.update_of_ne (hne m ho)] at heq
        exact absurd heq (hmap m ho)
      · simp only [setMap, Function.update_of_ne (hne m ho),
          Function.update_of_ne (hne m' ho')] at heq
        exact h.inj m ho m' ho' heq
  · intro j
    rcases eq_or_ne j i with rfl | hji
    · simp [setMap]
    · simp only [setMap, Function.update_of_ne hji, h.taken, Finset.mem_insert, exists_eq_or_imp,
        Function.update_self]
      constructor
      · rintro ⟨m, hm, rfl⟩
        exact .inr ⟨m, hm, Function.update_of_ne (hne m hm) ..⟩
      · rintro (rfl | ⟨m, hm, heq⟩)
        · exact absurd rfl hji
        · rw [Function.update_of_ne (hne m hm)] at heq
          exact ⟨m, hm, heq⟩
  · intro m hv' hs' hd
    rcases eq_or_ne m n with rfl | hmn
    · exact Finset.mem_insert_self m owners
    · simp only [setMap, Function.update_of_ne hmn] at hv'
      exact Finset.mem_insert_of_mem (h.held m hv' hs' hd)
  · intro m hv' hs'
    rcases eq_or_ne m n with rfl | hmn
    · simp [setMap]
    · simp only [setMap, Function.update_of_ne hmn] at hv' ⊢
      exact (h.slots m hv' hs').trans_le (le_max_left _ _)
  · exact max_le h.bound hi

/-- A slot was in use for a moment, and the map may be changed for a number that is only used so. -/
theorem Owned.touch {i : ℕ} (h : Owned T scratch start b s owners) (hi : i < T)
    (htaken : s'.taken = s.taken) (hnewT : s'.newT = max s.newT (i + 1))
    (hvalid : ∀ m, ¬scratch m → s'.valid m = s.valid m)
    (hmap : ∀ m, ¬scratch m → s'.map m = s.map m) :
    Owned T scratch start b s' owners := by
  have hmap' : ∀ m ∈ owners, s'.map m = s.map m := fun m hm => hmap m (h.owner m hm).2.2
  constructor
  · intro m hm
    obtain ⟨hlt, hv, hs⟩ := h.owner m hm
    exact ⟨hlt, (hvalid m hs).trans hv, hs⟩
  · intro m hm m' hm' heq
    rw [hmap' m hm, hmap' m' hm'] at heq
    exact h.inj m hm m' hm' heq
  · intro j
    rw [htaken, h.taken]
    exact exists_congr fun m => and_congr_right fun hm => by rw [hmap' m hm]
  · intro m hv hs hd
    rw [hvalid m hs] at hv
    exact h.held m hv hs hd
  · intro m hv hs
    rw [hvalid m hs] at hv
    rw [hmap m hs, hnewT]
    exact (h.slots m hv hs).trans_le (le_max_left _ _)
  · rw [hnewT]
    exact max_le h.bound hi

/-- The slot of the temporary that is first defined at `b` is free again. -/
theorem Owned.giveBack (h : Owned T scratch start (b + 1) s owners) (hn : n ∈ owners)
    (hstart : start n = some b) :
    Owned T scratch start b (s.release (s.map n)) (owners.erase n) := by
  constructor
  · exact fun m hm => h.owner m (Finset.mem_of_mem_erase hm)
  · exact fun m hm m' hm' heq =>
      h.inj m (Finset.mem_of_mem_erase hm) m' (Finset.mem_of_mem_erase hm') heq
  · intro j
    rcases eq_or_ne j (s.map n) with rfl | hj
    · simp only [release, Function.update_self, Bool.false_eq_true, false_iff]
      rintro ⟨m, hm, heq⟩
      exact Finset.ne_of_mem_erase hm (h.inj m (Finset.mem_of_mem_erase hm) n hn heq)
    · simp only [release, Function.update_of_ne hj, h.taken]
      constructor
      · rintro ⟨m, hm, rfl⟩
        exact ⟨m, Finset.mem_erase.mpr ⟨fun heq => hj (heq ▸ rfl), hm⟩, rfl⟩
      · rintro ⟨m, hm, rfl⟩
        exact ⟨m, Finset.mem_of_mem_erase hm, rfl⟩
  · intro m hv hs hd
    have hne : m ≠ n := fun heq => lt_irrefl b (hd b (heq ▸ hstart))
    refine Finset.mem_erase.mpr ⟨hne, h.held m hv hs fun d hd' => ?_⟩
    exact (hd d hd').trans (Nat.lt_succ_self b)
  · exact h.slots
  · exact h.bound

theorem Owned.mono {b' : ℕ} (h : Owned T scratch start b s owners) (hb : b' ≤ b) :
    Owned T scratch start b' s owners :=
  { h with held := fun n hv hs hd => h.held n hv hs fun d hd' => (hd d hd').trans_le hb }

theorem Allocated.mono {b' : ℕ} (h : Allocated T scratch start b s) (hb : b' ≤ b) :
    Allocated T scratch start b' s := by
  obtain ⟨owners, h⟩ := h
  exact ⟨owners, h.mono hb⟩

theorem release_of_free {i : ℕ} (h : s.taken i = false) : s.release i = s := by
  rw [release, ← h, Function.update_eq_self]

theorem slotOf_spec (h : Allocated T scratch start b s) (hn : n < T) (hs : ¬scratch n) :
    Allocated T scratch start b (s.slotOf T n).2 ∧ Extends scratch s (s.slotOf T n).2 ∧
      (s.slotOf T n).2.valid n = true ∧ (s.slotOf T n).2.map n = (s.slotOf T n).1 := by
  obtain ⟨owners, h⟩ := h
  rw [slotOf]
  cases hv : s.valid n with
  | true => exact ⟨⟨owners, h⟩, .refl, hv, rfl⟩
  | false =>
    obtain ⟨i, hi, hfree, heq⟩ := h.getAvailable hn (h.of_valid hv)
    simp only [Bool.false_eq_true, if_false, heq]
    refine ⟨⟨_, h.give hi hfree hn hv hs⟩, ⟨le_max_left _ _, fun m _ hm => ?_⟩, ?_, ?_⟩
    · have hne : m ≠ n := fun heq => by simp [heq, hv] at hm
      simp [setMap, hne, hm]
    · simp [setMap]
    · simp [setMap]

/-- The slot of a number that no other operand names is that of no temporary in use. -/
theorem scratchSlot_spec (h : Allocated T scratch start b s) (hn : n < T) (hs : scratch n) :
    Allocated T scratch start b (s.scratchSlot T n).2 ∧ Extends scratch s (s.scratchSlot T n).2 ∧
      (s.scratchSlot T n).1 < (s.scratchSlot T n).2.newT ∧
      (s.scratchSlot T n).2.taken (s.scratchSlot T n).1 = false ∧
      ∀ m, s.valid m = true → ¬scratch m → (∀ d, start m = some d → d < b) →
        s.map m ≠ (s.scratchSlot T n).1 := by
  obtain ⟨owners, h⟩ := h
  obtain ⟨i, hi, hfree, heq⟩ := h.getAvailable hn fun hmem => (h.owner n hmem).2.2 hs
  have hne : ∀ m, ¬scratch m → m ≠ n := fun m hm heq => hm (heq ▸ hs)
  rw [scratchSlot, heq]
  refine ⟨⟨owners, h.touch (i := i) hi ?_ rfl ?_ ?_⟩, ⟨le_max_left _ _, fun m hm hv => ?_⟩, ?_, ?_,
    fun m hv hm hd heq => ?_⟩
  · simp [release, setMap, ← hfree]
  · exact fun m hm => by simp [release, setMap, hne m hm]
  · exact fun m hm => by simp [release, setMap, hne m hm]
  · simp [release, setMap, hne m hm, hv]
  · simp [release, setMap]
  · simp [release]
  · rw [(h.taken i).mpr ⟨m, h.held m hv hm hd, heq⟩] at hfree
    cases hfree

/-- A result that was read later goes to its slot, another one to a slot that was free. -/
theorem resultSlot_spec (first unused : Bool) (h : Allocated T scratch start (b + 1) s) (hn : n < T)
    (hs : ¬scratch n) (hfirst : first = true → start n = some b) :
    let r := s.resultSlot T n first unused
    Allocated T scratch start b r.2 ∧ Extends scratch s r.2 ∧ r.1 < r.2.newT ∧
      (s.valid n = true → r.1 = s.map n) ∧
      (s.valid n = false → ∀ m, s.valid m = true → ¬scratch m →
        (∀ d, start m = some d → d < b + 1) → s.map m ≠ r.1) ∧
      (s.valid n = true ∨ unused = true → ∀ i, s.taken i = false → r.2.taken i = false) := by
  obtain ⟨owners, h⟩ := h
  dsimp only
  rw [resultSlot]
  cases hv : s.valid n with
  | true =>
    have hslot := h.slots n hv hs
    cases first with
    | true =>
      have hstart := hfirst rfl
      have howner := h.held n hv hs fun d hd => by
        obtain rfl := Option.some.inj (hstart.symm.trans hd)
        exact Nat.lt_succ_self b
      refine ⟨⟨_, h.giveBack howner hstart⟩, ⟨le_rfl, fun m _ hm => ⟨hm, rfl⟩⟩, hslot,
        fun _ => rfl, nofun, fun _ i hi => ?_⟩
      rcases eq_or_ne i (s.map n) with rfl | hne
      · simp [release]
      · simpa [release, hne] using hi
    | false =>
      exact ⟨⟨_, h.mono (Nat.le_succ b)⟩, .refl, hslot, fun _ => rfl, nofun, fun _ i hi => hi⟩
  | false =>
    obtain ⟨i, hi, hfree, heq⟩ := h.getAvailable hn (h.of_valid hv)
    have hmap : ∀ m, s.valid m = true → ¬scratch m → (∀ d, start m = some d → d < b + 1) →
        s.map m ≠ i := fun m hm hms hd heq => by
      rw [(h.taken i).mpr ⟨m, h.held m hm hms hd, heq⟩] at hfree
      cases hfree
    simp only [Bool.false_eq_true, if_false, heq]
    cases unused with
    | true =>
      have htaken : Function.update (Function.update s.taken i true) i false = s.taken := by
        rw [Function.update_idem, ← hfree, Function.update_eq_self]
      refine ⟨⟨owners, (h.mono (Nat.le_succ b)).touch (i := i) hi htaken rfl (fun _ _ => rfl)
        fun _ _ => rfl⟩, ⟨le_max_left _ _, fun m _ hm => ⟨hm, rfl⟩⟩, ?_, nofun, fun _ => hmap,
        fun _ j hj => ?_⟩
      · simp [release]
      · exact (congrFun htaken j).trans hj
    | false =>
      refine ⟨⟨_, (h.give hi hfree hn hv hs).mono (Nat.le_succ b)⟩,
        ⟨le_max_left _ _, fun m _ hm => ?_⟩, ?_, nofun, fun _ => hmap, by simp⟩
      · have hne : m ≠ n := fun heq => by simp [heq, hv] at hm
        simp [setMap, hne, hm]
      · simp [setMap]

theorem renumber_spec {x : Znode} (h : Allocated T scratch start b s)
    (hx : x.isTemporary = true → x.num < T ∧ ¬scratch x.num) :
    Allocated T scratch start b (s.renumber T x).2 ∧ Extends scratch s (s.renumber T x).2 ∧
      (x.isTemporary = true → (s.renumber T x).2.valid x.num = true ∧
        (s.renumber T x).1 = { x with num := (s.renumber T x).2.map x.num }) ∧
      (x.isTemporary = false → (s.renumber T x).1 = x) := by
  rw [renumber]
  cases ht : x.isTemporary with
  | false => exact ⟨h, .refl, nofun, fun _ => rfl⟩
  | true =>
    obtain ⟨hn, hs⟩ := hx ht
    obtain ⟨halloc, hext, hvalid, hmap⟩ := slotOf_spec h hn hs
    exact ⟨halloc, hext, fun _ => ⟨hvalid, by simp only [if_true, hmap]⟩, nofun⟩

end TempSlots

end ZendOpcache
