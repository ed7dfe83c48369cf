import ZendOpcache.Optimizer.TempAllocation

/-! # The renumbered temporaries

The result of the scan. In code that is built as the compiler does it no slot is shared by two
temporaries that span one opline, and no more slots are needed than there were temporaries.
-/

namespace ZendOpcache

namespace ZendOpArray

open TempSlots

section Renumber

variable {a : ZendOpArray} {xs : List ZendOp} {s : TempSlots} {k t : ℕ} {o o' : ZendOp}
  {x y : Znode}

@[simp] theorem isTemporary_unnumbered : x.unnumbered.isTemporary = x.isTemporary := by
  rw [Znode.unnumbered]
  split_ifs <;> rfl

theorem temps_of_unnumbered {f : ℕ → ℕ} (h : x.unnumbered = y.unnumbered)
    (hnum : ∀ t ∈ y.temps, x.num = f t) : x.temps = y.temps.map f := by
  have ht : x.isTemporary = y.isTemporary := by
    rw [← isTemporary_unnumbered, h, isTemporary_unnumbered]
  rw [Znode.temps, ht]
  cases hy : y.isTemporary with
  | false => simp [Znode.temps, hy]
  | true =>
    have hmem : y.temps = [y.num] := by simp [Znode.temps, hy]
    rw [hmem, hnum y.num (hmem ▸ List.mem_singleton_self _)]
    rfl

theorem exists_scratchOf {ops : List ZendOp} (ho : ops[k]? = some o) (hd : isDimData ops k = true)
    (ht : o.op2.isTemporary = true) : ∃ j, k = j + 1 ∧ (scratchOf ops j).isSome := by
  simp only [isDimData, ho, Option.any_some, Bool.and_eq_true, beq_iff_eq, bne_iff_ne] at hd
  obtain ⟨⟨hop, hk⟩, hprev⟩ := hd
  obtain ⟨j, rfl⟩ : ∃ j, k = j + 1 := ⟨k - 1, by omega⟩
  obtain ⟨p, hp, hop'⟩ := (Option.any_eq_true _ _).mp hprev
  refine ⟨j, rfl, Option.isSome_iff_exists.mpr ⟨o.op2.num, scratchOf_eq_some.mpr ?_⟩⟩
  exact ⟨p, o, hp, ho, by simpa using hop', hop, ht, rfl⟩

namespace Slotted

variable {ops : List ZendOp} {q : ℕ}

theorem opcode (h : Slotted ops s q o o') : o'.opcode = o.opcode := by
  have := congrArg ZendOp.opcode h.unnumbered
  exact this

theorem op1_temps (h : Slotted ops s q o o') : o'.op1.temps = o.op1.temps.map s.map :=
  temps_of_unnumbered (congrArg ZendOp.op1 h.unnumbered) h.op1

theorem op2_temps (h : Slotted ops s q o o') (hd : isDimData ops q = false) :
    o'.op2.temps = o.op2.temps.map s.map :=
  temps_of_unnumbered (congrArg ZendOp.op2 h.unnumbered) (h.op2 hd)

theorem classTemps (h : Slotted ops s q o o') : o'.classTemps = o.classTemps.map s.map := by
  have hdecl : o'.declaresInherited = o.declaresInherited := by
    rw [ZendOp.declaresInherited, ZendOp.declaresInherited, h.opcode]
  rw [ZendOp.classTemps, hdecl]
  cases hd : o.declaresInherited with
  | false => simp [ZendOp.classTemps, hd]
  | true =>
    have hmem : o.classTemps = [o.extendedValue] := by simp [ZendOp.classTemps, hd]
    rw [hmem, h.ext _ (hmem ▸ List.mem_singleton_self _)]
    rfl

end Slotted

namespace Scanned

theorem exists_old (h : Scanned a 0 xs s) (ho' : xs[k]? = some o') :
    ∃ o, a.opcodes[k]? = some o ∧ Slotted a.opcodes s k o o' := by
  have hlt := h.length ▸ (List.getElem?_eq_some_iff.mp ho').1
  have ho : a.opcodes[k]? = some a.opcodes[k] := List.getElem?_eq_getElem hlt
  exact ⟨_, ho, h.placed k _ o' (Nat.zero_le k) ho ho'⟩

theorem exists_new (h : Scanned a 0 xs s) (ho : a.opcodes[k]? = some o) :
    ∃ o', xs[k]? = some o' ∧ Slotted a.opcodes s k o o' := by
  have hlt := h.length.symm ▸ (List.getElem?_eq_some_iff.mp ho).1
  have ho' : xs[k]? = some xs[k] := List.getElem?_eq_getElem hlt
  exact ⟨_, ho', h.placed k o _ (Nat.zero_le k) ho ho'⟩

theorem map_opcode (h : Scanned a 0 xs s) (k : ℕ) :
    (xs[k]?).map ZendOp.opcode = (a.opcodes[k]?).map ZendOp.opcode := by
  cases ho : a.opcodes[k]? with
  | none =>
    rw [List.getElem?_eq_none (h.length.trans_le (List.getElem?_eq_none_iff.mp ho))]
  | some o =>
    obtain ⟨o', ho', hs⟩ := h.exists_new ho
    rw [ho', Option.map_some, Option.map_some, hs.opcode]

theorem isDimData_eq (h : Scanned a 0 xs s) (k : ℕ) : isDimData xs k = isDimData a.opcodes k := by
  have hany : ∀ (ops : List ZendOp) (j : ℕ) (c : ZendOpcode),
      (ops[j]?).any (·.opcode == c) = ((ops[j]?).map ZendOp.opcode).any (· == c) :=
        fun ops j c => by
    cases ops[j]? <;> rfl
  simp only [isDimData, hany, h.map_opcode]

theorem readTemps_eq (h : Scanned a 0 xs s) (k : ℕ) :
    readTemps xs k = (readTemps a.opcodes k).map s.map := by
  cases ho : a.opcodes[k]? with
  | none =>
    have ho' := List.getElem?_eq_none (h.length.trans_le (List.getElem?_eq_none_iff.mp ho))
    rw [readTemps, readTemps, ho, ho']
    rfl
  | some o =>
    obtain ⟨o', ho', hs⟩ := h.exists_new ho
    rw [readTemps_of_some ho', readTemps_of_some ho, h.isDimData_eq, hs.op1_temps, hs.classTemps]
    cases hd : isDimData a.opcodes k with
    | true => simp
    | false => simp [hs.op2_temps hd]

theorem unnumbered_eq (h : Scanned a 0 xs s) :
    xs.map ZendOp.unnumbered = a.opcodes.map ZendOp.unnumbered := by
  ext1 k
  rw [List.getElem?_map, List.getElem?_map]
  cases ho : a.opcodes[k]? with
  | none =>
    rw [List.getElem?_eq_none (h.length.trans_le (List.getElem?_eq_none_iff.mp ho))]
  | some o =>
    obtain ⟨o', ho', hs⟩ := h.exists_new ho
    rw [ho', Option.map_some, Option.map_some, hs.unnumbered]

/-- The pair is found with its new number. -/
theorem scratchOf_eq_new (h : Scanned a 0 xs s) (hs : (scratchOf a.opcodes k).isSome) :
    ∃ d, xs[k + 1]? = some d ∧ scratchOf xs k = some d.op2.num := by
  obtain ⟨n, hn⟩ := Option.isSome_iff_exists.mp hs
  obtain ⟨o, d, ho, hd, hop, hop', htemp, -⟩ := scratchOf_eq_some.mp hn
  obtain ⟨o', ho', hso⟩ := h.exists_new ho
  obtain ⟨d', hd', hsd⟩ := h.exists_new hd
  refine ⟨d', hd', scratchOf_eq_some.mpr ⟨o', d', ho', hd', ?_, ?_, ?_, rfl⟩⟩
  · rw [hso.opcode, hop]
  · rw [hsd.opcode, hop']
  · have := congrArg (fun o => o.op2.isTemporary) hsd.unnumbered
    simpa [ZendOp.unnumbered, htemp] using this

/-- The new number of a read temporary is below the new count. -/
theorem map_lt (h : Scanned a 0 xs s) (hb : a.WellBuilt) (ht : t ∈ readTemps a.opcodes k) :
    s.map t < s.newT := by
  obtain ⟨owners, halloc⟩ := h.alloc
  exact halloc.slots t (h.seen k (Nat.zero_le k) t ht) (hb.read ht).2

theorem temps_lt (h : Scanned a 0 xs s) (hb : a.WellBuilt) (ho' : o' ∈ xs) (ht : t ∈ o'.temps) :
    t < s.newT := by
  obtain ⟨k, hk⟩ := List.mem_iff_getElem?.mp ho'
  obtain ⟨o, ho, hs⟩ := h.exists_old hk
  have hread : ∀ t ∈ readTemps xs k, t < s.newT := by
    intro t ht
    rw [h.readTemps_eq] at ht
    obtain ⟨t', ht', rfl⟩ := List.mem_map.mp ht
    exact h.map_lt hb ht'
  rw [readTemps_of_some hk] at hread
  rw [ZendOp.temps, List.mem_append, List.mem_append, List.mem_append] at ht
  rcases ht with ((ht | ht) | ht) | ht
  · exact hread t (by simp [ht])
  · cases hd : isDimData xs k with
    | false => exact hread t (by simp [ht, hd])
    | true =>
      -- the second operand of the pair
      obtain ⟨htemp, rfl⟩ := mem_temps.mp ht
      have htemp' : o.op2.isTemporary = true := by
        have := congrArg (fun o => o.op2.isTemporary) hs.unnumbered
        simpa [ZendOp.unnumbered, htemp] using this.symm
      obtain ⟨j, rfl, hsome⟩ := exists_scratchOf ho (h.isDimData_eq k ▸ hd) htemp'
      exact (h.scratch j o' (Nat.zero_le j) hsome hk).1
  · exact hread t (by simp [ht])
  · obtain ⟨htemp, rfl⟩ := mem_temps.mp ht
    have htemp' : o.result.isTemporary = true := by
      have := congrArg (fun o => o.result.isTemporary) hs.unnumbered
      simpa [ZendOp.unnumbered, htemp] using this.symm
    exact hs.bound _ (mem_temps.mpr ⟨htemp', rfl⟩)

end Scanned

/-- In code that is built as the compiler does it, the temporaries are renumbered without
conflicts. -/
theorem optimizeTemporaryVariables_renumbers (hb : a.WellBuilt) :
    ∃ slot, Renumbers a a.optimizeTemporaryVariables slot := by
  have h := Scanned.scan hb le_rfl (scanned_last a)
  obtain ⟨⟨xs, s⟩, hr⟩ : ∃ r, scan a.T (startOfT a.opcodes) a.opcodes.length a.opcodes
      ⟨fun _ => false, fun _ => false, fun _ => 0, 0⟩ = r := ⟨_, rfl⟩
  have hc : a.optimizeTemporaryVariables = { a with opcodes := xs, T := s.newT } := by
    rw [optimizeTemporaryVariables, hr]
  rw [hr] at h
  dsimp only at h
  rw [hc]
  refine ⟨s.map, ?_⟩
  constructor
  · obtain ⟨owners, halloc⟩ := h.alloc
    exact halloc.bound
  · intro i hi
    obtain ⟨q, o, -, ho, hmem⟩ := h.highest i hi
    refine ⟨o, List.mem_of_getElem? ho, ?_⟩
    simp only [ZendOp.slotTemps, ZendOp.temps, List.mem_append] at hmem ⊢
    tauto
  · exact h.unnumbered_eq
  · exact fun o' ho' t ht => h.temps_lt hb ho' ht
  · exact h.readTemps_eq
  · intro k o o' ho ho' t ht hspans
    exact (h.placed k o o' (Nat.zero_le k) ho ho').read t ht hspans.2
  · intro k o o' ho ho' t ht hspans
    apply (h.placed k o o' (Nat.zero_le k) ho ho').unread t ht
    exact fun q hq hread => hspans ⟨fun d hd => startOfT_le ho ht hd, q, hq, hread⟩
  · exact fun k t t' ht ht' hne => h.apart k t t' (Nat.zero_le k) ht ht' hne
  · intro k hs
    obtain ⟨d, hd, hscratch⟩ := h.scratchOf_eq_new hs
    exact ⟨_, hscratch, (h.scratch k d (Nat.zero_le k) hs hd).2⟩

end Renumber

section Examples

variable {a : ZendOpArray} {ops : List ZendOp} {k t : ℕ}

theorem lt_length_of_mem_readTemps (h : t ∈ readTemps ops k) : k < ops.length := by
  obtain ⟨o, ho, -⟩ := exists_of_mem_readTemps h
  exact (List.getElem?_eq_some_iff.mp ho).1

theorem DefinedFirst.of_forall (hbound : ∀ o ∈ a.opcodes, ∀ t ∈ o.temps, t < a.T)
    (hdefined : ∀ k < a.opcodes.length, ∀ t ∈ readTemps a.opcodes k,
      ∀ d ∈ startOfT a.opcodes t, d < k) : a.DefinedFirst where
  bound := hbound
  defined := fun k t ht d hd => hdefined k (lt_length_of_mem_readTemps ht) t ht d hd

theorem WellBuilt.of_forall (h : a.DefinedFirst)
    (hscratch : ∀ k < a.opcodes.length, ∀ t ∈ scratchOf a.opcodes k,
      (∀ q < a.opcodes.length, t ∉ readTemps a.opcodes q) ∧
        ∀ o ∈ a.opcodes, t ∉ o.result.temps)
    (hdata : ∀ k < a.opcodes.length, isDimData a.opcodes k = true →
      ∀ o ∈ a.opcodes[k]?, o.result.temps = [])
    (hresult : ∀ k < a.opcodes.length, (scratchOf a.opcodes k).isSome →
      ∀ o ∈ a.opcodes[k]?, o.result.extUnused = true ∨ ∀ t ∈ o.result.temps,
        ∃ q < a.opcodes.length, k ≤ q ∧ t ∈ readTemps a.opcodes q) : a.WellBuilt where
  toDefinedFirst := h
  scratch := by
    rintro t ⟨k, hk⟩
    obtain ⟨o, -, ho, -⟩ := scratchOf_eq_some.mp hk
    obtain ⟨hread, hres⟩ := hscratch k (List.getElem?_eq_some_iff.mp ho).1 t hk
    exact ⟨fun q hq => hread q (lt_length_of_mem_readTemps hq) hq, hres⟩
  data := fun k o hd ho => hdata k (List.getElem?_eq_some_iff.mp ho).1 hd o ho
  result := by
    intro k o hs ho
    rcases hresult k (List.getElem?_eq_some_iff.mp ho).1 hs o ho with hunused | hlater
    · exact .inl hunused
    · right
      intro t ht
      obtain ⟨q, -, hq⟩ := hlater t ht
      exact ⟨q, hq⟩

/-- An op array of oplines that only name temporaries -/
def ofOps (T : ℕ) (ops : List ZendOp) : ZendOpArray where
  opcodes := ops
  literals := []
  brkContArray := []
  tryCatchArray := []
  hasFinallyBlock := false
  T := T
  lastVar := 1
  lastCacheSlot := 0

def tmp (n : ℕ) : Znode := ⟨.tmpVar, n, false⟩

/-- `T0 = 1, T1 = 2, $a[T0] = T1, echo $b`, where the `OP_DATA` names `T2` -/
def assignsElement : ZendOpArray :=
  ofOps 4 [⟨.qmAssign, ⟨.const, 0, false⟩, .none, tmp 0, 0⟩,
    ⟨.qmAssign, ⟨.const, 1, false⟩, .none, tmp 1, 0⟩,
    ⟨.assignDim, ⟨.cv, 0, false⟩, tmp 0, ⟨.var, 3, true⟩, 0⟩,
    ⟨.opData, tmp 1, ⟨.var, 2, false⟩, .none, 0⟩]

theorem optimizeTemporaryVariables_renumbers_pair :
    ∃ slot, Renumbers assignsElement assignsElement.optimizeTemporaryVariables slot :=
  optimizeTemporaryVariables_renumbers
    (.of_forall (.of_forall (by decide) (by decide)) (by decide) (by decide) (by decide))

/-- The `OP_DATA` names the temporary that is read after it. -/
def namesRead : ZendOpArray :=
  ofOps 1 [⟨.qmAssign, ⟨.const, 0, false⟩, .none, tmp 0, 0⟩,
    ⟨.assignDim, ⟨.cv, 0, false⟩, ⟨.const, 1, false⟩, .none, 0⟩,
    ⟨.opData, ⟨.const, 2, false⟩, ⟨.var, 0, false⟩, .none, 0⟩,
    ⟨.echo, tmp 0, .none, .none, 0⟩]

/-- The result of the `ASSIGN_DIM` is not read after it, and has no flag. -/
def dropsResult : ZendOpArray :=
  ofOps 3 [⟨.qmAssign, ⟨.const, 0, false⟩, .none, tmp 0, 0⟩,
    ⟨.qmAssign, ⟨.const, 1, false⟩, .none, tmp 1, 0⟩,
    ⟨.echo, tmp 0, .none, .none, 0⟩, ⟨.echo, tmp 1, .none, .none, 0⟩,
    ⟨.assignDim, ⟨.cv, 0, false⟩, ⟨.const, 2, false⟩, tmp 0, 0⟩,
    ⟨.opData, ⟨.const, 3, false⟩, ⟨.var, 2, false⟩, .none, 0⟩]

/-- The `OP_DATA` has a result. -/
def dataResult : ZendOpArray :=
  ofOps 2 [⟨.assignDim, ⟨.cv, 0, false⟩, ⟨.const, 0, false⟩, .none, 0⟩,
    ⟨.opData, ⟨.const, 1, false⟩, .none, tmp 1, 0⟩]

theorem spans_of {d q : ℕ} (hd : startOfT ops t = some d) (hdk : d ≤ k) (hkq : k ≤ q)
    (hq : t ∈ readTemps ops q) : Spans ops t k :=
  ⟨fun _ hd' => Option.some.inj (hd.symm.trans hd') ▸ hdk, q, hkq, hq⟩

theorem optimizeTemporaryVariables_conflicts :
    (namesRead.DefinedFirst ∧
      ¬∃ slot, Renumbers namesRead namesRead.optimizeTemporaryVariables slot) ∧
    (dropsResult.DefinedFirst ∧
      ¬∃ slot, Renumbers dropsResult dropsResult.optimizeTemporaryVariables slot) ∧
    (dataResult.DefinedFirst ∧
      ¬∃ slot, Renumbers dataResult dataResult.optimizeTemporaryVariables slot) := by
  refine ⟨⟨.of_forall (by decide) (by decide), ?_⟩, ⟨.of_forall (by decide) (by decide), ?_⟩,
    ⟨.of_forall (by decide) (by decide), ?_⟩⟩
  · rintro ⟨slot, h⟩
    exact absurd h.bound (by decide)
  · rintro ⟨slot, h⟩
    have h₂ : [0] = [slot 0] := h.reads 2
    have h₃ : [0] = [slot 1] := h.reads 3
    have hspans₀ : Spans dropsResult.opcodes 0 2 :=
      spans_of (d := 0) (q := 2) (by decide) (by decide) (by decide) (by decide)
    have hspans₁ : Spans dropsResult.opcodes 1 2 :=
      spans_of (d := 1) (q := 3) (by decide) (by decide) (by decide) (by decide)
    exact h.apart 2 0 1 hspans₀ hspans₁ (by decide)
      ((List.cons.inj h₂).1.symm.trans (List.cons.inj h₃).1)
  · rintro ⟨slot, h⟩
    exact absurd h.temps (by decide)

end Examples

end ZendOpArray

end ZendOpcache
