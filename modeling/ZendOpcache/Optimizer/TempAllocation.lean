import ZendOpcache.Optimizer.TempVars

/-! # Temporaries whose spans meet

A temporary spans the oplines from the first one that defines it to the last one that reads it. The
scan gives it one slot there, and two temporaries that span one opline different ones.
-/

namespace ZendOpcache

/-- The temporary that an operand names -/
def Znode.temps (x : Znode) : List ℕ := if x.isTemporary then [x.num] else []

namespace ZendOp

/-- The class to inherit from -/
def classTemps (o : ZendOp) : List ℕ := if o.declaresInherited then [o.extendedValue] else []

/-- All temporaries that an opline names -/
def temps (o : ZendOp) : List ℕ := o.op1.temps ++ o.op2.temps ++ o.classTemps ++ o.result.temps

/-- The temporaries that an opline names, but for those of its second operand -/
def slotTemps (o : ZendOp) : List ℕ := o.op1.temps ++ o.classTemps ++ o.result.temps

end ZendOp

/-- An operand without the number of its temporary -/
def Znode.unnumbered (x : Znode) : Znode := if x.isTemporary then { x with num := 0 } else x

/-- An opline without the numbers of its temporaries -/
def ZendOp.unnumbered (o : ZendOp) : ZendOp :=
  { o with
    op1 := o.op1.unnumbered
    op2 := o.op2.unnumbered
    result := o.result.unnumbered
    extendedValue := if o.declaresInherited then 0 else o.extendedValue }

namespace ZendOpArray

/-- The temporaries that the opline `k` reads. The second operand of `OP_DATA` after `ASSIGN_DIM` is
not read. -/
def readTemps (ops : List ZendOp) (k : ℕ) : List ℕ :=
  match ops[k]? with
  | none => []
  | some o => o.op1.temps ++ (if isDimData ops k then [] else o.op2.temps) ++ o.classTemps

/-- The opline `k` is not before the first definition of the temporary, nor after the last opline
that reads it. -/
def Spans (ops : List ZendOp) (t k : ℕ) : Prop :=
  (∀ d, startOfT ops t = some d → d ≤ k) ∧ ∃ q, k ≤ q ∧ t ∈ readTemps ops q

/-- The number is that of a second operand of `OP_DATA` after `ASSIGN_DIM`. -/
def IsScratch (ops : List ZendOp) (t : ℕ) : Prop := ∃ k, scratchOf ops k = some t

/-- No temporary is read at or before the first opline that defines it. -/
structure DefinedFirst (a : ZendOpArray) : Prop where
  bound : ∀ o ∈ a.opcodes, ∀ t ∈ o.temps, t < a.T
  defined : ∀ k, ∀ t ∈ readTemps a.opcodes k, ∀ d, startOfT a.opcodes t = some d → d < k

/-- What the compiler promises besides: the second operand of `OP_DATA` after `ASSIGN_DIM` is named
nowhere else, `OP_DATA` has no result, and the result of `ASSIGN_DIM` is read or has the flag. -/
structure WellBuilt (a : ZendOpArray) : Prop extends DefinedFirst a where
  scratch : ∀ t, IsScratch a.opcodes t →
    (∀ k, t ∉ readTemps a.opcodes k) ∧ ∀ o ∈ a.opcodes, t ∉ o.result.temps
  data : ∀ k o, isDimData a.opcodes k = true → a.opcodes[k]? = some o → o.result.temps = []
  result : ∀ k o, (scratchOf a.opcodes k).isSome → a.opcodes[k]? = some o →
    o.result.extUnused = true ∨ ∀ t ∈ o.result.temps, ∃ q, k ≤ q ∧ t ∈ readTemps a.opcodes q

/-- The temporaries go to slots, and those that span one opline to different ones. -/
structure Renumbers (a c : ZendOpArray) (slot : ℕ → ℕ) : Prop where
  bound : c.T ≤ a.T
  /-- `T` is no more than one above the highest number. -/
  highest : ∀ i, c.T = i + 1 → ∃ o ∈ c.opcodes, i ∈ o.temps
  unnumbered : c.opcodes.map ZendOp.unnumbered = a.opcodes.map ZendOp.unnumbered
  temps : ∀ o ∈ c.opcodes, ∀ t ∈ o.temps, t < c.T
  reads : ∀ k, readTemps c.opcodes k = (readTemps a.opcodes k).map slot
  results : ∀ k o o', a.opcodes[k]? = some o → c.opcodes[k]? = some o' →
    ∀ t ∈ o.result.temps, Spans a.opcodes t k → o'.result.num = slot t
  unread : ∀ k o o', a.opcodes[k]? = some o → c.opcodes[k]? = some o' →
    ∀ t ∈ o.result.temps, ¬Spans a.opcodes t k →
      ∀ t', Spans a.opcodes t' k → o'.result.num ≠ slot t'
  apart : ∀ k t t', Spans a.opcodes t k → Spans a.opcodes t' k → t ≠ t' → slot t ≠ slot t'
  scratch : ∀ k, (scratchOf a.opcodes k).isSome → ∃ i, scratchOf c.opcodes k = some i ∧
    ∀ t, Spans a.opcodes t k → slot t ≠ i

section Scan

open TempSlots

variable {a : ZendOpArray} {ops xs : List ZendOp} {s s' : TempSlots} {k q t T : ℕ} {o o' : ZendOp}

/-- An opline with its new numbers -/
structure Slotted (ops : List ZendOp) (s : TempSlots) (q : ℕ) (o o' : ZendOp) : Prop where
  unnumbered : o'.unnumbered = o.unnumbered
  op1 : ∀ t ∈ o.op1.temps, o'.op1.num = s.map t
  op2 : isDimData ops q = false → ∀ t ∈ o.op2.temps, o'.op2.num = s.map t
  ext : ∀ t ∈ o.classTemps, o'.extendedValue = s.map t
  read : ∀ t ∈ o.result.temps, (∃ q', q ≤ q' ∧ t ∈ readTemps ops q') → o'.result.num = s.map t
  unread : ∀ t ∈ o.result.temps, (∀ q', q ≤ q' → t ∉ readTemps ops q') →
    ∀ t', Spans ops t' q → o'.result.num ≠ s.map t'
  bound : ∀ t ∈ o.result.temps, o'.result.num < s.newT

/-- The oplines from `k` on are done. -/
structure Scanned (a : ZendOpArray) (k : ℕ) (xs : List ZendOp) (s : TempSlots) : Prop where
  alloc : Allocated a.T (IsScratch a.opcodes) (startOfT a.opcodes) k s
  length : xs.length = a.opcodes.length
  rest : ∀ q < k, xs[q]? = a.opcodes[q]?
  data : ∀ o o', isDimData a.opcodes k = true → a.opcodes[k]? = some o → xs[k]? = some o' →
    o'.op2 = o.op2
  seen : ∀ q, k ≤ q → ∀ t ∈ readTemps a.opcodes q, s.valid t = true
  placed : ∀ q o o', k ≤ q → a.opcodes[q]? = some o → xs[q]? = some o' →
    Slotted a.opcodes s q o o'
  apart : ∀ q t t', k ≤ q → Spans a.opcodes t q → Spans a.opcodes t' q → t ≠ t' →
    s.map t ≠ s.map t'
  scratch : ∀ q d, k ≤ q → (scratchOf a.opcodes q).isSome → xs[q + 1]? = some d →
    d.op2.num < s.newT ∧ ∀ t, Spans a.opcodes t q → s.map t ≠ d.op2.num
  highest : ∀ i, s.newT = i + 1 → ∃ q o, k ≤ q ∧ xs[q]? = some o ∧ (i ∈ o.slotTemps ∨
    i ∈ o.op2.temps ∧ (isDimData a.opcodes q = true → k < q))

theorem mem_temps {x : Znode} : t ∈ x.temps ↔ x.isTemporary = true ∧ x.num = t := by
  rw [Znode.temps]
  split_ifs with h <;> simp [h, eq_comm]

theorem mem_classTemps : t ∈ o.classTemps ↔ o.declaresInherited = true ∧ o.extendedValue = t := by
  rw [ZendOp.classTemps]
  split_ifs with h <;> simp [h, eq_comm]

/-- A new highest slot is among the numbers that are given. -/
def Grows (s s' : TempSlots) (l : List ℕ) : Prop :=
  ∀ i, s'.newT = i + 1 → s.newT = i + 1 ∨ i ∈ l

theorem Grows.refl : Grows s s [] := fun _ hi => .inl hi

theorem Grows.trans {s'' : TempSlots} {l l' : List ℕ} (h : Grows s s' l) (h' : Grows s' s'' l') :
    Grows s s'' (l ++ l') := by
  intro i hi
  rcases h' i hi with hi | hi
  · exact (h i hi).imp_right (List.mem_append_left _)
  · exact .inr (List.mem_append_right _ hi)

theorem grows_getAvailable (T : ℕ) (s : TempSlots) :
    Grows s (s.getAvailable T).2 [(s.getAvailable T).1] := by
  intro i hi
  rcases max_choice s.newT ((s.getAvailable T).1 + 1) with hmax | hmax
  · exact .inl (hmax.symm.trans hi)
  · have heq : (s.getAvailable T).1 + 1 = i + 1 := hmax.symm.trans hi
    exact .inr (List.mem_singleton.mpr (Nat.succ.inj heq).symm)

theorem grows_slotOf (T : ℕ) (s : TempSlots) (n : ℕ) :
    Grows s (s.slotOf T n).2 [(s.slotOf T n).1] := by
  rw [slotOf]
  split_ifs
  · exact fun _ hi => .inl hi
  · exact grows_getAvailable T s

theorem grows_renumber (T : ℕ) (s : TempSlots) (x : Znode) :
    Grows s (s.renumber T x).2 (s.renumber T x).1.temps := by
  rw [renumber]
  split_ifs with ht
  · have htemps : Znode.temps { x with num := (s.slotOf T x.num).1 } = [(s.slotOf T x.num).1] :=
      if_pos ht
    dsimp only
    rw [htemps]
    exact grows_slotOf T s _
  · exact fun _ hi => .inl hi

theorem grows_scanClass (T : ℕ) (s : TempSlots) (o : ZendOp) : Grows s (scanClass T s o).2
    (if o.declaresInherited then [(scanClass T s o).1] else []) := by
  rw [scanClass]
  split_ifs
  · exact grows_slotOf T s _
  · exact .refl

theorem grows_scanScratch (T : ℕ) (ops : List ZendOp) (s : TempSlots) (k : ℕ) :
    Grows s (scanScratch T ops s k).2.1 (scanScratch T ops s k).2.2.toList := by
  rw [scanScratch]
  cases scratchOf ops k with
  | none => exact .refl
  | some n => exact grows_getAvailable T s

theorem grows_scanResult (T : ℕ) (s : TempSlots) (k : ℕ) (x : Znode) (start : ℕ → Option ℕ) :
    Grows s (scanResult T start s k x).2 (scanResult T start s k x).1.temps := by
  rw [scanResult]
  split_ifs with ht
  · obtain ⟨⟨i, s'⟩, hr⟩ : ∃ r, s.resultSlot T x.num (start x.num == some k) x.extUnused = r :=
      ⟨_, rfl⟩
    have htemps : Znode.temps { x with num := i } = [i] := if_pos ht
    simp only [hr, htemps]
    rw [resultSlot] at hr
    split_ifs at hr <;> obtain ⟨rfl, rfl⟩ := Prod.mk.inj hr
    · exact fun _ hi => .inl hi
    · exact fun _ hi => .inl hi
    · exact grows_getAvailable T s
    · exact grows_getAvailable T s
  · exact fun _ hi => .inl hi

theorem startOfT_le {d : ℕ} (ho : ops[k]? = some o) (ht : t ∈ o.result.temps)
    (hd : startOfT ops t = some d) : d ≤ k := by
  obtain ⟨hlt, -, hfirst⟩ := List.findIdx?_eq_some_iff_getElem.mp hd
  by_contra hkd
  obtain ⟨hk, rfl⟩ := List.getElem?_eq_some_iff.mp ho
  obtain ⟨htemp, hnum⟩ := mem_temps.mp ht
  exact hfirst k (not_le.mp hkd) (by simp [htemp, hnum])

theorem readTemps_of_some (hk : ops[k]? = some o) : readTemps ops k =
    o.op1.temps ++ (if isDimData ops k then [] else o.op2.temps) ++ o.classTemps := by
  rw [readTemps, hk]

/-- What an opline reads, it names. -/
theorem exists_of_mem_readTemps (h : t ∈ readTemps ops k) :
    ∃ o, ops[k]? = some o ∧ t ∈ o.temps := by
  cases hk : ops[k]? with
  | none => simp [readTemps, hk] at h
  | some o =>
    rw [readTemps_of_some hk] at h
    refine ⟨o, rfl, ?_⟩
    rw [ZendOp.temps, List.mem_append, List.mem_append]
    rcases List.mem_append.mp h with h | h
    · rcases List.mem_append.mp h with h | h
      · exact .inl (.inl (List.mem_append_left _ h))
      · split_ifs at h
        · cases h
        · exact .inl (.inl (List.mem_append_right _ h))
    · exact .inl (.inr h)

/-- A read temporary is no scratch number, and it is in the bounds. -/
theorem WellBuilt.read (h : a.WellBuilt) (ht : t ∈ readTemps a.opcodes k) :
    t < a.T ∧ ¬IsScratch a.opcodes t := by
  obtain ⟨o, ho, hmem⟩ := exists_of_mem_readTemps ht
  exact ⟨h.bound o (List.mem_of_getElem? ho) t hmem, fun hs => (h.scratch t hs).1 k ht⟩

theorem WellBuilt.result_temp (h : a.WellBuilt) (ho : a.opcodes[k]? = some o)
    (ht : t ∈ o.result.temps) : t < a.T ∧ ¬IsScratch a.opcodes t :=
  ⟨h.bound o (List.mem_of_getElem? ho) t (List.mem_append_right _ ht),
    fun hs => (h.scratch t hs).2 o (List.mem_of_getElem? ho) ht⟩

theorem WellBuilt.spans_not_scratch (h : a.WellBuilt) (ht : Spans a.opcodes t q) :
    ¬IsScratch a.opcodes t := by
  obtain ⟨q', -, hread⟩ := ht.2
  exact (h.read hread).2

/-- The slots of the temporaries of done oplines stay. -/
theorem Scanned.map_eq (h : Scanned a k xs s) (hb : a.WellBuilt)
    (he : TempSlots.Extends (IsScratch a.opcodes) s s') (hkq : k ≤ q)
    (ht : t ∈ readTemps a.opcodes q) :
    s'.map t = s.map t :=
  (he.2 t (hb.read ht).2 (h.seen q hkq t ht)).2

theorem unnumbered_num {x : Znode} (h : x.isTemporary = true) (n : ℕ) :
    Znode.unnumbered { x with num := n } = x.unnumbered := by
  have h' : Znode.isTemporary { x with num := n } = true := h
  simp [Znode.unnumbered, h, h']

theorem unnumbered_op2 {i : ℕ} (h : o.op2.isTemporary = true) :
    ZendOp.unnumbered { o with op2 := { o.op2 with num := i } } = o.unnumbered := by
  simp only [ZendOp.unnumbered, unnumbered_num h, ZendOp.declaresInherited]
  rfl

theorem Slotted.congr (hp : Slotted ops s q o o') (ho : ops[q]? = some o)
    (hmap : ∀ q' t, q ≤ q' → t ∈ readTemps ops q' → s'.map t = s.map t) (hnew : s.newT ≤ s'.newT) :
    Slotted ops s' q o o' := by
  have hread := readTemps_of_some ho
  constructor
  · exact hp.unnumbered
  · intro t ht
    rw [hp.op1 t ht, hmap q t le_rfl (hread ▸ by simp [ht])]
  · intro hd t ht
    rw [hp.op2 hd t ht, hmap q t le_rfl (hread ▸ by simp [ht, hd])]
  · intro t ht
    rw [hp.ext t ht, hmap q t le_rfl (hread ▸ by simp [ht])]
  · rintro t ht ⟨q', hq', hmem⟩
    rw [hp.read t ht ⟨q', hq', hmem⟩, hmap q' t hq' hmem]
  · intro t ht hno t' ht'
    obtain ⟨q', hq', hmem⟩ := ht'.2
    rw [hmap q' t' hq' hmem]
    exact hp.unread t ht hno t' ht'
  · exact fun t ht => (hp.bound t ht).trans_le hnew

theorem Spans.lt_succ (h : Spans ops t k) : ∀ d, startOfT ops t = some d → d < k + 1 :=
  fun d hd => Nat.lt_succ_of_le (h.1 d hd)

theorem WellBuilt.apart {t' : ℕ} (hb : a.WellBuilt)
    (h : Allocated a.T (IsScratch a.opcodes) (startOfT a.opcodes) (k + 1) s)
    (hv : ∀ t, Spans a.opcodes t k → s.valid t = true) (ht : Spans a.opcodes t k)
    (ht' : Spans a.opcodes t' k) (hne : t ≠ t') : s.map t ≠ s.map t' := by
  obtain ⟨owners, h⟩ := h
  have hmem : ∀ t, Spans a.opcodes t k → t ∈ owners := fun t ht =>
    h.held t (hv t ht) (hb.spans_not_scratch ht) ht.lt_succ
  exact fun heq => hne (h.inj t (hmem t ht) t' (hmem t' ht') heq)

/-- What is left to show of a turn at the opline `k` -/
theorem Scanned.extend {xs' : List ZendOp} (h : Scanned a (k + 1) xs s) (hb : a.WellBuilt)
    (he : TempSlots.Extends (IsScratch a.opcodes) s s')
    (halloc : Allocated a.T (IsScratch a.opcodes) (startOfT a.opcodes) k s')
    (hlength : xs'.length = xs.length) (hrest : ∀ q < k, xs'[q]? = xs[q]?)
    (hdone : ∀ q o', k + 1 ≤ q → xs'[q]? = some o' → ∃ o₁, xs[q]? = some o₁ ∧
      (o' = o₁ ∨ isDimData a.opcodes q = true ∧ ∃ i, o₁.op2.isTemporary = true ∧
        o' = { o₁ with op2 := { o₁.op2 with num := i } }))
    (hlater : ∀ q, k + 1 < q → xs'[q]? = xs[q]?)
    (hdata : ∀ o o', isDimData a.opcodes k = true → a.opcodes[k]? = some o → xs'[k]? = some o' →
      o'.op2 = o.op2)
    (hseen : ∀ t ∈ readTemps a.opcodes k, s'.valid t = true)
    (hplaced : ∀ o o', a.opcodes[k]? = some o → xs'[k]? = some o' → Slotted a.opcodes s' k o o')
    (hapart : ∀ t t', Spans a.opcodes t k → Spans a.opcodes t' k → t ≠ t' → s'.map t ≠ s'.map t')
    (hscratch : ∀ d, (scratchOf a.opcodes k).isSome → xs'[k + 1]? = some d →
      d.op2.num < s'.newT ∧ ∀ t, Spans a.opcodes t k → s'.map t ≠ d.op2.num)
    (hhighest : ∀ i, s'.newT = i + 1 → s.newT = i + 1 ∨
      (∃ o, xs'[k]? = some o ∧
        (i ∈ o.slotTemps ∨ i ∈ o.op2.temps ∧ isDimData a.opcodes k = false)) ∨
      ∃ d, xs'[k + 1]? = some d ∧ i ∈ d.op2.temps) :
    Scanned a k xs' s' := by
  have hmap : ∀ q' t, k + 1 ≤ q' → t ∈ readTemps a.opcodes q' → s'.map t = s.map t :=
    fun q' t hq' ht => h.map_eq hb he hq' ht
  have hspans : ∀ q t, k + 1 ≤ q → Spans a.opcodes t q → s'.map t = s.map t := by
    intro q t hq ht
    obtain ⟨q', hq', hread⟩ := ht.2
    exact hmap q' t (hq.trans hq') hread
  constructor
  · exact halloc
  · exact hlength.trans h.length
  · exact fun q hq => (hrest q hq).trans (h.rest q (hq.trans (Nat.lt_succ_self k)))
  · exact hdata
  · intro q hq t ht
    rcases Nat.lt_or_eq_of_le hq with hlt | rfl
    · exact (he.2 t (hb.read ht).2 (h.seen q hlt t ht)).1
    · exact hseen t ht
  · intro q o o' hq ho ho'
    rcases Nat.lt_or_eq_of_le hq with hlt | rfl
    · obtain ⟨o₁, ho₁, hor⟩ := hdone q o' hlt ho'
      have hp := (h.placed q o o₁ hlt ho ho₁).congr ho
        (fun q' t hq' ht => hmap q' t (hlt.trans_le hq') ht) he.1
      rcases hor with rfl | ⟨hd, i, htemp, rfl⟩
      · exact hp
      · exact { hp with
          unnumbered := (unnumbered_op2 htemp).trans hp.unnumbered
          op2 := fun hd' => absurd (hd.symm.trans hd') (by decide) }
    · exact hplaced o o' ho ho'
  · intro q t t' hq ht ht' hne
    rcases Nat.lt_or_eq_of_le hq with hlt | rfl
    · rw [hspans q t hlt ht, hspans q t' hlt ht']
      exact h.apart q t t' hlt ht ht' hne
    · exact hapart t t' ht ht' hne
  · intro q d hq hs hd
    rcases Nat.lt_or_eq_of_le hq with hlt | rfl
    · rw [hlater (q + 1) (by omega)] at hd
      obtain ⟨hlt', hne⟩ := h.scratch q d hlt hs hd
      refine ⟨hlt'.trans_le he.1, fun t ht => ?_⟩
      rw [hspans q t hlt ht]
      exact hne t ht
    · exact hscratch d hs hd
  · intro i hi
    rcases hhighest i hi with hold | ⟨o, ho, hmem⟩ | ⟨d, hd, hmem⟩
    · -- an opline that is done names it, and still does
      obtain ⟨q, o₁, hq, ho₁, hmem⟩ := h.highest i hold
      have hlt : q < xs'.length := hlength.symm ▸ (List.getElem?_eq_some_iff.mp ho₁).1
      obtain ⟨o₂, ho₂, hor⟩ := hdone q xs'[q] hq (List.getElem?_eq_getElem hlt)
      obtain rfl := Option.some.inj (ho₁.symm.trans ho₂)
      refine ⟨q, xs'[q], Nat.le_of_succ_le hq, List.getElem?_eq_getElem hlt, ?_⟩
      rcases hmem with hmem | ⟨hmem, hdim⟩
      · left
        rcases hor with heq | ⟨-, j, -, heq⟩ <;> rw [heq]
        · exact hmem
        · exact hmem
      · refine .inr ⟨?_, fun _ => hq⟩
        rcases hor with heq | ⟨hd, -, -, -⟩
        · rwa [heq]
        · have hsame := hlater q (hdim hd)
          rw [ho₁, List.getElem?_eq_getElem hlt] at hsame
          rwa [Option.some.inj hsame]
    · refine ⟨k, o, le_rfl, ho, hmem.imp_right fun ⟨hmem, hd⟩ => ⟨hmem, fun hd' => ?_⟩⟩
      exact absurd (hd.symm.trans hd') (by decide)
    · exact ⟨k + 1, d, Nat.le_succ k, hd, .inr ⟨hmem, fun _ => Nat.lt_succ_self k⟩⟩

theorem isDimData_congr (hk : xs[k]? = ops[k]?) (hprev : xs[k - 1]? = ops[k - 1]?) :
    isDimData xs k = isDimData ops k := by
  rw [isDimData, isDimData, hk, hprev]

theorem classTemps_of_isDimData (ho : ops[k]? = some o) (hd : isDimData ops k = true) :
    o.classTemps = [] := by
  have hop : o.opcode = .opData := by simp [isDimData, ho] at hd; exact hd.1.1
  simp [ZendOp.classTemps, ZendOp.declaresInherited, hop]

theorem scratchOf_of_isDimData (ho : ops[k]? = some o) (hd : isDimData ops k = true) :
    scratchOf ops k = none := by
  have hop : o.opcode = .opData := by simp [isDimData, ho] at hd; exact hd.1.1
  cases hnext : ops[k + 1]? <;> simp [scratchOf, ho, hnext, hop]

theorem renumber_unnumbered (x : Znode) : (s.renumber T x).1.unnumbered = x.unnumbered := by
  rw [renumber]
  split_ifs with ht
  · exact unnumbered_num ht _
  · rfl

/-- The temporaries that the opline reads have their slots. -/
theorem Scanned.valid_mid (h : Scanned a (k + 1) xs s) (hb : a.WellBuilt)
    (he : TempSlots.Extends (IsScratch a.opcodes) s s') (hseen : ∀ t ∈ readTemps a.opcodes k,
      s'.valid t = true)
    (ht : Spans a.opcodes t k) : s'.valid t = true := by
  obtain ⟨q, hq, hread⟩ := ht.2
  rcases Nat.lt_or_eq_of_le hq with hlt | rfl
  · exact (he.2 t (hb.read hread).2 (h.seen q hlt t hread)).1
  · exact hseen t hread

/-- `OP_DATA` after `ASSIGN_DIM`: only the first operand is renumbered yet. -/
theorem Scanned.dimData (h : Scanned a (k + 1) xs s) (hb : a.WellBuilt)
    (ho : a.opcodes[k]? = some o)
    (hd : isDimData a.opcodes k = true) :
    Scanned a k (xs.set k { o with op1 := (s.renumber a.T o.op1).1 }) (s.renumber a.T o.op1).2 := by
  have hlt : k < xs.length := h.length.symm ▸ (List.getElem?_eq_some_iff.mp ho).1
  have hread : readTemps a.opcodes k = o.op1.temps := by
    rw [readTemps_of_some ho, hd, if_pos rfl, classTemps_of_isDimData ho hd, List.append_nil,
      List.append_nil]
  obtain ⟨halloc, hext, hnum, -⟩ := renumber_spec h.alloc (x := o.op1) fun ht =>
    hb.read (hread.symm ▸ mem_temps.mpr ⟨ht, rfl⟩)
  have hseen : ∀ t ∈ readTemps a.opcodes k, (s.renumber a.T o.op1).2.valid t = true := by
    intro t ht
    obtain ⟨htemp, rfl⟩ := mem_temps.mp (hread ▸ ht)
    exact (hnum htemp).1
  have hself : (xs.set k { o with op1 := (s.renumber a.T o.op1).1 })[k]? =
      some { o with op1 := (s.renumber a.T o.op1).1 } := List.getElem?_set_self hlt
  have hother : ∀ q, k ≠ q →
      (xs.set k { o with op1 := (s.renumber a.T o.op1).1 })[q]? = xs[q]? :=
    fun q hq => List.getElem?_set_ne hq
  apply h.extend hb hext (halloc.mono (Nat.le_succ k))
  · exact List.length_set
  · exact fun q hq => hother q (by omega)
  · exact fun q o' hq ho' => ⟨o', by rwa [hother q (by omega)] at ho', .inl rfl⟩
  · exact fun q hq => hother q (by omega)
  · intro o₁ o' _ ho₁ ho'
    obtain rfl := Option.some.inj (ho.symm.trans ho₁)
    obtain rfl := Option.some.inj (hself.symm.trans ho')
    rfl
  · exact hseen
  · intro o₁ o' ho₁ ho'
    obtain rfl := Option.some.inj (ho.symm.trans ho₁)
    obtain rfl := Option.some.inj (hself.symm.trans ho')
    have hresult := hb.data k o hd ho
    constructor
    · simp only [ZendOp.unnumbered, renumber_unnumbered]
      rfl
    · intro t ht
      obtain ⟨htemp, rfl⟩ := mem_temps.mp ht
      rw [(hnum htemp).2]
    · exact fun hd' => absurd (hd.symm.trans hd') (by decide)
    · exact fun t ht => by simp [classTemps_of_isDimData ho hd] at ht
    · exact fun t ht => by simp [hresult] at ht
    · exact fun t ht => by simp [hresult] at ht
    · exact fun t ht => by simp [hresult] at ht
  · exact fun t t' ht ht' hne =>
      hb.apart halloc (fun t ht => h.valid_mid hb hext hseen ht) ht ht' hne
  · intro d hs
    rw [scratchOf_of_isDimData ho hd] at hs
    cases hs
  · intro i hi
    refine (grows_renumber a.T s o.op1 i hi).imp_right fun hmem => .inl ⟨_, hself, .inl ?_⟩
    exact List.mem_append_left _ (List.mem_append_left _ hmem)

theorem scanClass_spec {scratch : ℕ → Prop} {start : ℕ → Option ℕ} {b : ℕ}
    (h : Allocated T scratch start b s) (ho : ∀ t ∈ o.classTemps, t < T ∧ ¬scratch t) :
    Allocated T scratch start b (scanClass T s o).2 ∧
      TempSlots.Extends scratch s (scanClass T s o).2 ∧
      (∀ t ∈ o.classTemps, (scanClass T s o).2.valid t = true ∧
        (scanClass T s o).1 = (scanClass T s o).2.map t) ∧
      (o.declaresInherited = false → (scanClass T s o).1 = o.extendedValue) := by
  rw [scanClass]
  cases hd : o.declaresInherited with
  | false =>
    refine ⟨h, .refl, fun t ht => ?_, fun _ => rfl⟩
    rw [mem_classTemps, hd] at ht
    exact absurd ht.1 (by decide)
  | true =>
    obtain ⟨hn, hs⟩ := ho _ (mem_classTemps.mpr ⟨hd, rfl⟩)
    obtain ⟨halloc, hext, hvalid, hmap⟩ := slotOf_spec h hn hs
    refine ⟨halloc, hext, fun t ht => ?_, nofun⟩
    obtain ⟨-, rfl⟩ := mem_classTemps.mp ht
    exact ⟨hvalid, hmap.symm⟩

theorem scratchOf_eq_some {n : ℕ} : scratchOf ops k = some n ↔ ∃ o d, ops[k]? = some o ∧
    ops[k + 1]? = some d ∧ o.opcode = .assignDim ∧ d.opcode = .opData ∧
      d.op2.isTemporary = true ∧ d.op2.num = n := by
  rw [scratchOf]
  cases ops[k]? with
  | none => simp
  | some o =>
    cases ops[k + 1]? with
    | none => simp
    | some d => simp [and_assoc]

/-- The pair is still found with its old number. -/
theorem Scanned.scratchOf_eq (h : Scanned a (k + 1) xs s) :
    scratchOf xs k = scratchOf a.opcodes k := by
  have hk := h.rest k (Nat.lt_succ_self k)
  rw [scratchOf, scratchOf, hk]
  cases ho : a.opcodes[k]? with
  | none => rfl
  | some o =>
    cases hd : a.opcodes[k + 1]? with
    | none =>
      have hlen := List.getElem?_eq_none_iff.mp hd
      rw [List.getElem?_eq_none (h.length.trans_le hlen)]
    | some d =>
      have hlt := (List.getElem?_eq_some_iff.mp hd).1
      obtain ⟨d', hd'⟩ : ∃ d', xs[k + 1]? = some d' :=
        ⟨_, List.getElem?_eq_getElem (h.length.symm ▸ hlt)⟩
      have hop : d'.unnumbered.opcode = d.unnumbered.opcode :=
        congrArg ZendOp.opcode (h.placed (k + 1) d d' le_rfl hd hd').unnumbered
      change d'.opcode = d.opcode at hop
      simp only [Option.bind_some, hd', hop]
      rcases Decidable.em (o.opcode = .assignDim ∧ d.opcode = .opData) with hpair | hpair
      · have hdim : isDimData a.opcodes (k + 1) = true := by simp [isDimData, hd, ho, hpair]
        rw [h.data d d' hdim hd hd']
      · rw [if_neg fun hand => hpair ⟨hand.1, hand.2.1⟩,
          if_neg fun hand => hpair ⟨hand.1, hand.2.1⟩]

theorem isDimData_of_scratchOf (h : (scratchOf ops k).isSome) : isDimData ops (k + 1) = true := by
  obtain ⟨n, hn⟩ := Option.isSome_iff_exists.mp h
  obtain ⟨o, d, ho, hd, hop, hop', -, -⟩ := scratchOf_eq_some.mp hn
  simp [isDimData, hd, ho, hop, hop']

/-- The slot of the pair's second operand is apart from those in use, and free again. -/
theorem Scanned.scanScratch_spec (h : Scanned a (k + 1) xs s) (hb : a.WellBuilt)
    (halloc : Allocated a.T (IsScratch a.opcodes) (startOfT a.opcodes) (k + 1) s')
    (hv : ∀ t, Spans a.opcodes t k → s'.valid t = true) :
    let r := scanScratch a.T xs s' k
    Allocated a.T (IsScratch a.opcodes) (startOfT a.opcodes) (k + 1) r.2.1 ∧
      TempSlots.Extends (IsScratch a.opcodes) s' r.2.1 ∧ r.1.length = xs.length ∧
      (∀ q, q ≠ k + 1 → r.1[q]? = xs[q]?) ∧
      ((scratchOf a.opcodes k = none ∧ r.1 = xs ∧ r.2.2 = none) ∨
        ∃ i, (scratchOf a.opcodes k).isSome ∧
          r.1 = xs.modify (k + 1) (fun d => { d with op2 := { d.op2 with num := i } }) ∧
          r.2.2 = some i ∧ i < r.2.1.newT ∧ r.2.1.taken i = false ∧
          ∀ t, Spans a.opcodes t k → s'.map t ≠ i) := by
  dsimp only
  rw [scanScratch, h.scratchOf_eq]
  cases hs : scratchOf a.opcodes k with
  | none => exact ⟨halloc, .refl, rfl, fun _ _ => rfl, .inl ⟨rfl, rfl, rfl⟩⟩
  | some n =>
    obtain ⟨o, d, -, hd, -, -, htemp, hn⟩ := scratchOf_eq_some.mp hs
    have hlt := hb.bound d (List.mem_of_getElem? hd) n (by
      rw [ZendOp.temps, List.mem_append, List.mem_append, List.mem_append]
      exact .inl (.inl (.inr (mem_temps.mpr ⟨htemp, hn⟩))))
    obtain ⟨halloc', hext, hbound, hfree, hne⟩ := scratchSlot_spec halloc hlt ⟨k, hs⟩
    refine ⟨halloc', hext, List.length_modify .., fun q hq => ?_, .inr ⟨_, rfl, rfl, rfl, hbound,
      hfree, fun t ht => hne t (hv t ht) (hb.spans_not_scratch ht) ht.lt_succ⟩⟩
    exact List.getElem?_modify_ne _ _ (Ne.symm hq)

theorem WellBuilt.scanResult_spec (hb : a.WellBuilt) (ho : a.opcodes[k]? = some o)
    (halloc : Allocated a.T (IsScratch a.opcodes) (startOfT a.opcodes) (k + 1) s')
    (hv : ∀ t q, k ≤ q → t ∈ readTemps a.opcodes q → s'.valid t = true) :
    let r := scanResult a.T (startOfT a.opcodes) s' k o.result
    Allocated a.T (IsScratch a.opcodes) (startOfT a.opcodes) k r.2 ∧
      TempSlots.Extends (IsScratch a.opcodes) s' r.2 ∧ r.1.unnumbered = o.result.unnumbered ∧
      (∀ t ∈ o.result.temps, r.1.num < r.2.newT ∧
        ((∃ q, k ≤ q ∧ t ∈ readTemps a.opcodes q) → r.1.num = s'.map t) ∧
        ((∀ q, k ≤ q → t ∉ readTemps a.opcodes q) →
          ∀ t', Spans a.opcodes t' k → r.1.num ≠ s'.map t')) ∧
      ((scratchOf a.opcodes k).isSome → ∀ i, s'.taken i = false → r.2.taken i = false) := by
  dsimp only
  rw [scanResult]
  cases ht : o.result.isTemporary with
  | false =>
    refine ⟨halloc.mono (Nat.le_succ k), .refl, rfl, fun t htemp => ?_, fun _ i hi => hi⟩
    rw [mem_temps, ht] at htemp
    exact absurd htemp.1 (by decide)
  | true =>
    have hmem : o.result.num ∈ o.result.temps := mem_temps.mpr ⟨ht, rfl⟩
    obtain ⟨hn, hs⟩ := hb.result_temp ho hmem
    obtain ⟨halloc', hext, hbound, hread, hunread, hfree⟩ :=
      resultSlot_spec (startOfT a.opcodes o.result.num == some k) o.result.extUnused halloc hn hs
        fun h => by simpa using h
    refine ⟨halloc', hext, unnumbered_num ht _, fun t htemp => ?_, fun hsome i hi => ?_⟩
    · obtain ⟨-, rfl⟩ := mem_temps.mp htemp
      refine ⟨hbound, ?_, fun hno t' ht' => ?_⟩
      · rintro ⟨q, hq, hmem⟩
        exact hread (hv _ q hq hmem)
      · obtain ⟨q, hq, hmem'⟩ := ht'.2
        have hv' := hv t' q hq hmem'
        have hs' := hb.spans_not_scratch ht'
        cases hvalid : s'.valid o.result.num with
        | false => exact (hunread hvalid t' hv' hs' ht'.lt_succ).symm
        | true =>
          -- the temporary is valid from a later definition, and keeps its slot
          obtain ⟨owners, halloc⟩ := halloc
          intro heq
          have heq' := (hread hvalid).symm.trans heq
          have hself := halloc.held _ hvalid hs fun d hd =>
            Nat.lt_succ_of_le (startOfT_le ho hmem hd)
          have hother := halloc.held t' hv' hs' ht'.lt_succ
          exact hno q hq (halloc.inj _ hself t' hother heq' ▸ hmem')
    · refine hfree ?_ i hi
      rcases hb.result k o hsome ho with hunused | hlater
      · exact .inr hunused
      · obtain ⟨q, hq, hmem'⟩ := hlater _ hmem
        exact .inl (hv _ q hq hmem')

/-- A turn of the scan, but for `OP_DATA` after `ASSIGN_DIM` -/
theorem Scanned.rest_step (h : Scanned a (k + 1) xs s) (hb : a.WellBuilt)
    (ho : a.opcodes[k]? = some o)
    (hd : isDimData a.opcodes k = false) :
    let r := scanRest a.T (startOfT a.opcodes) xs (s.renumber a.T o.op1).2 k
      { o with op1 := (s.renumber a.T o.op1).1 }
    Scanned a k r.1 r.2 := by
  have hlt : k < xs.length := h.length.symm ▸ (List.getElem?_eq_some_iff.mp ho).1
  have hread : readTemps a.opcodes k = o.op1.temps ++ o.op2.temps ++ o.classTemps := by
    rw [readTemps_of_some ho, hd]
    rfl
  obtain ⟨⟨x₁, s₁⟩, h₁⟩ : ∃ r, s.renumber a.T o.op1 = r := ⟨_, rfl⟩
  obtain ⟨⟨x₂, s₂⟩, h₂⟩ : ∃ r, s₁.renumber a.T o.op2 = r := ⟨_, rfl⟩
  obtain ⟨⟨e, s₃⟩, h₃⟩ : ∃ r, scanClass a.T s₂ o = r := ⟨_, rfl⟩
  obtain ⟨⟨xs₄, s₄, varToFree⟩, h₄⟩ : ∃ r, scanScratch a.T xs s₃ k = r := ⟨_, rfl⟩
  obtain ⟨⟨x₅, s₅⟩, h₅⟩ : ∃ r, scanResult a.T (startOfT a.opcodes) s₄ k o.result = r := ⟨_, rfl⟩
  have hs₁ := renumber_spec h.alloc (x := o.op1) fun ht =>
    hb.read (k := k) (hread.symm ▸ by simp [mem_temps.mpr ⟨ht, rfl⟩])
  rw [h₁] at hs₁
  dsimp only at hs₁
  obtain ⟨A₁, E₁, N₁, -⟩ := hs₁
  have hs₂ := renumber_spec A₁ (x := o.op2) fun ht =>
    hb.read (k := k) (hread.symm ▸ by simp [mem_temps.mpr ⟨ht, rfl⟩])
  rw [h₂] at hs₂
  dsimp only at hs₂
  obtain ⟨A₂, E₂, N₂, -⟩ := hs₂
  have hs₃ := scanClass_spec (o := o) A₂ fun t ht => hb.read (k := k) (hread.symm ▸ by simp [ht])
  rw [h₃] at hs₃
  dsimp only at hs₃
  obtain ⟨A₃, E₃, N₃, S₃⟩ := hs₃
  have hseen : ∀ t ∈ readTemps a.opcodes k, s₃.valid t = true := by
    intro t ht
    have hs := (hb.read ht).2
    rw [hread, List.mem_append, List.mem_append] at ht
    rcases ht with (ht | ht) | ht
    · obtain ⟨htemp, rfl⟩ := mem_temps.mp ht
      exact ((E₂.trans E₃).2 _ hs (N₁ htemp).1).1
    · obtain ⟨htemp, rfl⟩ := mem_temps.mp ht
      exact (E₃.2 _ hs (N₂ htemp).1).1
    · exact (N₃ t ht).1
  have hvalid : ∀ t q, k ≤ q → t ∈ readTemps a.opcodes q → s₃.valid t = true := by
    intro t q hq ht
    rcases Nat.lt_or_eq_of_le hq with hkq | rfl
    · exact (((E₁.trans E₂).trans E₃).2 t (hb.read ht).2 (h.seen q hkq t ht)).1
    · exact hseen t ht
  have hspans : ∀ t, Spans a.opcodes t k → s₃.valid t = true := by
    rintro t ⟨-, q, hq, ht⟩
    exact hvalid t q hq ht
  have hs₄ := h.scanScratch_spec hb A₃ hspans
  rw [h₄] at hs₄
  dsimp only at hs₄
  obtain ⟨A₄, E₄, hlen, hother, hcases⟩ := hs₄
  have hs₅ := hb.scanResult_spec ho A₄ fun t q hq ht =>
    (E₄.2 t (hb.read ht).2 (hvalid t q hq ht)).1
  rw [h₅] at hs₅
  dsimp only at hs₅
  obtain ⟨A₅, E₅, U₅, N₅, F₅⟩ := hs₅
  have hr : scanRest a.T (startOfT a.opcodes) xs s₁ k { o with op1 := x₁ } =
      (xs₄.set k { o with op1 := x₁, op2 := x₂, extendedValue := e, result := x₅ }, s₅) := by
    have hclass : scanClass a.T s₂ { o with op1 := x₁ } = (e, s₃) := h₃
    simp only [scanRest, h₂, hclass, h₄, h₅]
    rcases hcases with ⟨-, -, rfl⟩ | ⟨i, hsome, -, rfl, -, hfree, -⟩
    · rfl
    · simp only [release_of_free (F₅ hsome i hfree)]
  rw [h₁]
  dsimp only
  rw [hr]
  have hself : (xs₄.set k { o with op1 := x₁, op2 := x₂, extendedValue := e, result := x₅ })[k]? =
      some { o with op1 := x₁, op2 := x₂, extendedValue := e, result := x₅ } :=
    List.getElem?_set_self (hlen.symm ▸ hlt)
  have hkept : ∀ q, k ≠ q → (xs₄.set k
      { o with op1 := x₁, op2 := x₂, extendedValue := e, result := x₅ })[q]? = xs₄[q]? :=
    fun q hq => List.getElem?_set_ne hq
  have htemp : (scratchOf a.opcodes k).isSome → ∀ d, xs[k + 1]? = some d →
      d.op2.isTemporary = true := by
    intro hsome d hd'
    obtain ⟨n, hn⟩ := Option.isSome_iff_exists.mp hsome
    obtain ⟨-, d', -, hd'', -, -, htemp, -⟩ := scratchOf_eq_some.mp (h.scratchOf_eq.trans hn)
    rwa [Option.some.inj (hd'.symm.trans hd'')]
  have hmap : ∀ t, Spans a.opcodes t k → s₅.map t = s₃.map t := fun t ht =>
    ((E₄.trans E₅).2 t (hb.spans_not_scratch ht) (hspans t ht)).2
  apply h.extend hb ((((E₁.trans E₂).trans E₃).trans E₄).trans E₅) A₅
  · rw [List.length_set, hlen]
  · exact fun q hq => (hkept q (by omega)).trans (hother q (by omega))
  · intro q o' hq ho'
    rw [hkept q (by omega)] at ho'
    rcases hcases with ⟨-, rfl, -⟩ | ⟨i, hsome, rfl, -⟩
    · exact ⟨o', ho', .inl rfl⟩
    · rcases eq_or_ne (k + 1) q with rfl | hne
      · rw [List.getElem?_modify_eq] at ho'
        obtain ⟨d, hd', rfl⟩ := Option.map_eq_some_iff.mp ho'
        exact ⟨d, hd', .inr ⟨isDimData_of_scratchOf hsome, i, htemp hsome d hd', rfl⟩⟩
      · rw [List.getElem?_modify_ne _ _ hne] at ho'
        exact ⟨o', ho', .inl rfl⟩
  · exact fun q hq => (hkept q (by omega)).trans (hother q (by omega))
  · exact fun _ _ hd' => absurd (hd.symm.trans hd') (by decide)
  · exact fun t ht => ((E₄.trans E₅).2 t (hb.read ht).2 (hseen t ht)).1
  · intro o₁ o' ho₁ ho'
    obtain rfl := Option.some.inj (ho.symm.trans ho₁)
    obtain rfl := Option.some.inj (hself.symm.trans ho')
    have hscr : ∀ t ∈ readTemps a.opcodes k, ¬IsScratch a.opcodes t := fun t ht => (hb.read ht).2
    constructor
    · have hx₁ := renumber_unnumbered (s := s) (T := a.T) o.op1
      have hx₂ := renumber_unnumbered (s := s₁) (T := a.T) o.op2
      rw [h₁] at hx₁
      rw [h₂] at hx₂
      have hext : (if o.declaresInherited then 0 else e) =
          if o.declaresInherited then 0 else o.extendedValue := by
        split_ifs with hdecl
        · rfl
        · exact S₃ (Bool.eq_false_iff.mpr hdecl)
      change ZendOp.mk o.opcode x₁.unnumbered x₂.unnumbered x₅.unnumbered
        (if o.declaresInherited then 0 else e) = _
      rw [hx₁, hx₂, U₅, hext]
      rfl
    · intro t ht
      have hs := hscr t (hread.symm ▸ by simp [ht])
      obtain ⟨htm, rfl⟩ := mem_temps.mp ht
      obtain ⟨hv, hx⟩ := N₁ htm
      rw [hx, ((((E₂.trans E₃).trans E₄).trans E₅).2 _ hs hv).2]
    · intro _ t ht
      have hs := hscr t (hread.symm ▸ by simp [ht])
      obtain ⟨htm, rfl⟩ := mem_temps.mp ht
      obtain ⟨hv, hx⟩ := N₂ htm
      rw [hx, (((E₃.trans E₄).trans E₅).2 _ hs hv).2]
    · intro t ht
      have hs := hscr t (hread.symm ▸ by simp [ht])
      obtain ⟨hv, hx⟩ := N₃ t ht
      exact hx.trans ((E₄.trans E₅).2 _ hs hv).2.symm
    · rintro t ht ⟨q, hq, hmem⟩
      have hv := (E₄.2 t (hb.read hmem).2 (hvalid t q hq hmem)).1
      rw [(E₅.2 t (hb.read hmem).2 hv).2]
      exact (N₅ t ht).2.1 ⟨q, hq, hmem⟩
    · intro t ht hno t' ht'
      have hs := hb.spans_not_scratch ht'
      rw [(E₅.2 t' hs (E₄.2 t' hs (hspans t' ht')).1).2]
      exact (N₅ t ht).2.2 hno t' ht'
    · exact fun t ht => (N₅ t ht).1
  · intro t t' ht ht' hne
    rw [hmap t ht, hmap t' ht']
    exact hb.apart A₃ hspans ht ht' hne
  · intro d hsome hd'
    rw [hkept (k + 1) (by omega)] at hd'
    rcases hcases with ⟨hnone, -, -⟩ | ⟨i, -, rfl, -, hbound, -, hne⟩
    · rw [hnone] at hsome
      cases hsome
    · rw [List.getElem?_modify_eq] at hd'
      obtain ⟨d', hd'', rfl⟩ := Option.map_eq_some_iff.mp hd'
      refine ⟨hbound.trans_le E₅.1, fun t ht => ?_⟩
      rw [hmap t ht]
      exact hne t ht
  · intro i hi
    have G₁ := grows_renumber a.T s o.op1
    have G₂ := grows_renumber a.T s₁ o.op2
    have G₃ := grows_scanClass a.T s₂ o
    have G₄ := grows_scanScratch a.T xs s₃ k
    have G₅ := grows_scanResult a.T s₄ k o.result (startOfT a.opcodes)
    rw [h₁] at G₁
    rw [h₂] at G₂
    rw [h₃] at G₃
    rw [h₄] at G₄
    rw [h₅] at G₅
    refine ((((G₁.trans G₂).trans G₃).trans G₄).trans G₅ i hi).imp_right fun hmem => ?_
    simp only [List.mem_append] at hmem
    rcases hmem with (((hmem | hmem) | hmem) | hmem) | hmem
    · exact .inl ⟨_, hself, .inl (List.mem_append_left _ (List.mem_append_left _ hmem))⟩
    · exact .inl ⟨_, hself, .inr ⟨hmem, hd⟩⟩
    · exact .inl ⟨_, hself, .inl (List.mem_append_left _ (List.mem_append_right _ hmem))⟩
    · -- the second operand of the pair
      right
      rcases hcases with ⟨-, -, rfl⟩ | ⟨j, hsome, rfl, rfl, -⟩
      · cases hmem
      obtain rfl : i = j := by simpa using hmem
      obtain ⟨n, hn⟩ := Option.isSome_iff_exists.mp hsome
      obtain ⟨-, d, -, hd', -, -, htemp', -⟩ := scratchOf_eq_some.mp (h.scratchOf_eq.trans hn)
      refine ⟨{ d with op2 := { d.op2 with num := i } }, ?_, mem_temps.mpr ⟨htemp', rfl⟩⟩
      rw [hkept (k + 1) (by omega), List.getElem?_modify_eq, hd']
      rfl
    · exact .inl ⟨_, hself, .inl (List.mem_append_right _ hmem)⟩

theorem Scanned.step (h : Scanned a (k + 1) xs s) (hb : a.WellBuilt) (hk : k < a.opcodes.length) :
    Scanned a k (scanStep a.T (startOfT a.opcodes) xs s k).1
      (scanStep a.T (startOfT a.opcodes) xs s k).2 := by
  have ho : a.opcodes[k]? = some a.opcodes[k] := List.getElem?_eq_getElem hk
  have hxk := h.rest k (Nat.lt_succ_self k)
  have hdim := isDimData_congr hxk (h.rest (k - 1) (by omega))
  rw [scanStep, hxk, ho]
  dsimp only
  rw [hdim]
  cases hd : isDimData a.opcodes k with
  | true => exact h.dimData hb ho hd
  | false => exact h.rest_step hb ho hd

theorem Scanned.scan (hb : a.WellBuilt) (hk : k ≤ a.opcodes.length) (h : Scanned a k xs s) :
    Scanned a 0 (scan a.T (startOfT a.opcodes) k xs s).1
      (ZendOpArray.scan a.T (startOfT a.opcodes) k xs s).2 := by
  induction k generalizing xs s with
  | zero => exact h
  | succ k ih => exact ih (by omega) (h.step hb hk)

theorem scanned_last (a : ZendOpArray) : Scanned a a.opcodes.length a.opcodes
    ⟨fun _ => false, fun _ => false, fun _ => 0, 0⟩ := by
  have hnone : ∀ q, a.opcodes.length ≤ q → a.opcodes[q]? = none := fun q hq =>
    List.getElem?_eq_none hq
  have hread : ∀ q t, a.opcodes.length ≤ q → t ∉ readTemps a.opcodes q := fun q t hq ht => by
    simp [readTemps, hnone q hq] at ht
  constructor
  · refine ⟨∅, ?_⟩
    constructor <;> simp
  · rfl
  · exact fun _ _ => rfl
  · exact fun o o' _ ho => by simp at ho
  · exact fun q hq t ht => absurd ht (hread q t hq)
  · exact fun q o o' hq ho => by simp [hnone q hq] at ho
  · rintro q t t' hq ⟨-, q', hq', ht⟩
    exact absurd ht (hread q' t (hq.trans hq'))
  · intro q d hq hs
    simp [scratchOf, hnone q hq] at hs
  · exact nofun

end Scan

end ZendOpArray

end ZendOpcache
