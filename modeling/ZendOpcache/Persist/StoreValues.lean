import ZendOpcache.Persist.Values

/-! # Values in shared memory

The translation table of `zend_accel_script_persist` maps the values of a script to their copies,
one to one. A copy is complete when its elements have copies too, and at the end all are.
-/

namespace ZendOpcache

namespace Persist

variable {H : ZvalHeap} {st st' st'' : ZvalState} {a b : Addr} {n : ℕ}

/-- The state while the values of a script are copied from the heap `H` -/
structure Persisting (H : ZvalHeap) (st : ZvalState) : Prop where
  source : ∀ a, InProcess a → st.zvals a = H a
  target : ∀ a b, st.xlat a = some b → ∃ k < st.next, b = .shared k
  inj : ∀ a a' b, st.xlat a = some b → st.xlat a' = some b → a = a'

/-- The copy at `b` of the value at `a` is complete. -/
def Done (H : ZvalHeap) (st : ZvalState) (a b : Addr) : Prop :=
  ∃ z z', H a = some z ∧ st.zvals b = some z' ∧ SameCount z z' ∧
    ValueRel (fun x y => st.xlat x = some y) z.value z'.value

/-- What the copying of values does. What gets an entry in the table is complete in the end. -/
structure PersistedTo (H : ZvalHeap) (st st' : ZvalState) : Prop where
  inv : Persisting H st'
  next : st.next ≤ st'.next
  xlat : ∀ a b, st.xlat a = some b → st'.xlat a = some b
  frame : ∀ k < st.next, st'.zvals (.shared k) = st.zvals (.shared k)
  done : ∀ a b, st'.xlat a = some b → st.xlat a = none → Done H st' a b

theorem Done.step (hst : Persisting H st) (h : PersistedTo H st st') (hx : st.xlat a = some b)
    (hd : Done H st a b) : Done H st' a b := by
  obtain ⟨z, z', hz, hz', hc, hv⟩ := hd
  obtain ⟨k, hk, rfl⟩ := hst.target a b hx
  exact ⟨z, z', hz, by rw [h.frame k hk, hz'], hc, hv.mono h.xlat⟩

theorem persistedTo_stepRel (H : ZvalHeap) : StepRel (Persisting H) (PersistedTo H) where
  refl hs :=
    { inv := hs
      next := le_rfl
      xlat := fun _ _ h => h
      frame := fun _ _ => rfl
      done := fun _ _ h h' => by simp [h] at h' }
  inv _ h := h.inv
  trans _ h h' :=
    { inv := h'.inv
      next := h.next.trans h'.next
      xlat := fun a b hab => h'.xlat a b (h.xlat a b hab)
      frame := fun k hk => by rw [h'.frame k (Nat.lt_of_lt_of_le hk h.next), h.frame k hk]
      done := by
        rename_i s t u _
        intro a b hu hs
        cases ht : t.xlat a with
        | none => exact h'.done a b hu ht
        | some b' =>
          obtain rfl : b' = b := Option.some.inj ((h'.xlat a b' ht).symm.trans hu)
          exact (h.done a b' ht hs).step h.inv h' ht }

/-- The state after the block itself was copied -/
def afterStore (st : ZvalState) (a : Addr) (z : ZvalBlock) : ZvalState :=
  ((st.write (.shared st.next) z).register a (.shared st.next)).advance

theorem afterStore_xlat {z : ZvalBlock} {x y : Addr} :
    (afterStore st a z).xlat x = some y ↔
      (x = a ∧ y = .shared st.next) ∨ (x ≠ a ∧ st.xlat x = some y) := by
  by_cases hx : x = a
  · subst hx
    simp [afterStore, ZvalState.write, ZvalState.register, ZvalState.advance, eq_comm]
  · simp [afterStore, ZvalState.write, ZvalState.register, ZvalState.advance, hx]

theorem afterStore_zvals {z : ZvalBlock} {x : Addr} (hx : x ≠ .shared st.next) :
    (afterStore st a z).zvals x = st.zvals x := by
  simp [afterStore, ZvalState.write, ZvalState.register, ZvalState.advance, hx]

theorem Persisting.afterStore (hst : Persisting H st) (z : ZvalBlock) :
    Persisting H (afterStore st a z) where
  source x hx := by
    obtain ⟨k, rfl⟩ := hx
    rw [afterStore_zvals (by simp)]
    exact hst.source _ ⟨k, rfl⟩
  target x y h := by
    rcases afterStore_xlat.mp h with ⟨-, rfl⟩ | ⟨-, h⟩
    · exact ⟨st.next, Nat.lt_succ_self _, rfl⟩
    · obtain ⟨k, hk, rfl⟩ := hst.target x y h
      exact ⟨k, Nat.lt_succ_of_lt hk, rfl⟩
  inj x x' y h h' := by
    have hnew : ∀ x y, st.xlat x = some y → y ≠ .shared st.next := by
      rintro x y hxy rfl
      obtain ⟨k, hk, hk'⟩ := hst.target x _ hxy
      exact absurd (Addr.shared.inj hk') (Nat.ne_of_gt hk)
    rcases afterStore_xlat.mp h with ⟨hx, hy⟩ | ⟨-, hxy⟩ <;>
      rcases afterStore_xlat.mp h' with ⟨hx', hy'⟩ | ⟨-, hxy'⟩
    · exact hx.trans hx'.symm
    · exact absurd hy (hnew _ _ hxy')
    · exact absurd hy' (hnew _ _ hxy)
    · exact hst.inj x x' y hxy hxy'

/-- The last write, with the elements of an array: the copy at `a` is complete, and nothing else
has changed. -/
theorem PersistedTo.finish {z z' : ZvalBlock} (ha : st.xlat a = none)
    (hz : H a = some z) (h : PersistedTo H (afterStore st a z) st') (hc : SameCount z z')
    (hv : ValueRel (fun x y => st'.xlat x = some y) z.value z'.value) :
    PersistedTo H st (st'.write (.shared st.next) z') := by
  have hb : st'.xlat a = some (.shared st.next) :=
    h.xlat a _ (afterStore_xlat.mpr (.inl ⟨rfl, rfl⟩))
  have hother : ∀ x, x ≠ .shared st.next →
      (st'.write (.shared st.next) z').zvals x = st'.zvals x := by
    intro x hx
    simp [ZvalState.write, hx]
  constructor
  · constructor
    · rintro x ⟨k, rfl⟩
      rw [hother _ (by simp)]
      exact h.inv.source _ ⟨k, rfl⟩
    · exact h.inv.target
    · exact h.inv.inj
  · exact (Nat.le_succ _).trans h.next
  · intro x y hxy
    apply h.xlat
    apply afterStore_xlat.mpr
    right
    refine ⟨?_, hxy⟩
    rintro rfl
    simp [ha] at hxy
  · intro k hk
    have hne : Addr.shared k ≠ .shared st.next := fun he => hk.ne (Addr.shared.inj he)
    rw [hother _ hne, h.frame k (Nat.lt_succ_of_lt hk), afterStore_zvals hne]
  · intro x y hxy hx
    by_cases hxa : x = a
    · subst hxa
      obtain rfl : Addr.shared st.next = y := Option.some.inj (hb.symm.trans hxy)
      exact ⟨z, z', hz, by simp [ZvalState.write], hc, hv⟩
    · have hnone : (afterStore st a z).xlat x = none := by
        simp [Persist.afterStore, ZvalState.write, ZvalState.register, ZvalState.advance, hxa, hx]
      obtain ⟨y₁, y₂, h₁, h₂, h₃, h₄⟩ := h.done x y hxy hnone
      refine ⟨y₁, y₂, h₁, ?_, h₃, h₄⟩
      rw [hother y, h₂]
      rintro rfl
      exact hxa (h.inv.inj x a _ hxy hb)

/-- `zend_persist_zval_ptr` succeeds for a value of the script, and leads to its copy. -/
theorem persistZvalPtr_spec : ∀ (n : ℕ) (a : Addr) (st : ZvalState), Persisting H st →
    Within InProcess H n a → ∃ st' b, persistZvalPtr n st a = .ok (st', b) ∧
      PersistedTo H st st' ∧ st'.xlat a = some b := by
  intro n
  induction n with
  | zero => intro a st _ h; exact h.elim
  | succ n ih =>
    rintro a st hst ⟨ha, z, hz, he⟩
    unfold persistZvalPtr
    cases hx : st.xlat a with
    | some b => exact ⟨st, b, rfl, (persistedTo_stepRel H).refl hst, hx⟩
    | none =>
      have hread : st.zvals a = some z := by rw [hst.source a ha, hz]
      have hafter := hst.afterStore (a := a) z
      have hrefl := (persistedTo_stepRel H).refl hafter
      have hwrite : (afterStore st a z).write (.shared st.next) z = afterStore st a z := by
        simp [afterStore, ZvalState.write, ZvalState.register, ZvalState.advance]
      simp only [hread, deref_some, bind, Except.bind]
      cases hv : z.value with
      | scalar type bits =>
        refine ⟨afterStore st a z, _, rfl, ?_, afterStore_xlat.mpr (.inl ⟨rfl, rfl⟩)⟩
        rw [← hwrite]
        exact hrefl.finish hx hz ⟨rfl, rfl⟩ (by rw [hv]; exact .scalar type bits)
      | string type s =>
        refine ⟨afterStore st a z, _, rfl, ?_, afterStore_xlat.mpr (.inl ⟨rfl, rfl⟩)⟩
        rw [← hwrite]
        exact hrefl.finish hx hz ⟨rfl, rfl⟩ (by rw [hv]; exact .string type s)
      | array type es =>
        have helems : ∀ e ∈ es, Within InProcess H n e.2 := by
          intro e hmem
          apply he
          simpa [ZvalBlock.elements, hv] using hmem
        obtain ⟨st', es', hmap, hstep, hall⟩ := mapAccum_rule (persistedTo_stepRel H)
          (f := persistEntry n) (Q := fun st => EntryRel fun x y => st.xlat x = some y)
          (fun _ hst hQ => ⟨hQ.1, hst.xlat _ _ hQ.2⟩) es (afterStore st a z) hafter
          (by
            intro e hmem t ht _
            obtain ⟨u, b, hp, htu, hb⟩ := ih e.2 t ht (helems e hmem)
            refine ⟨u, (e.1, b), ?_, htu, rfl, hb⟩
            simp [persistEntry, hp, bind, Except.bind])
        refine ⟨st'.write (.shared st.next) { z with value := .array type es' }, .shared st.next,
          ?_, ?_, ?_⟩
        · unfold persistEntry afterStore at hmap
          simp only [bind, Except.bind] at hmap
          dsimp only
          rw [hmap]
        · refine hstep.finish hx hz ⟨rfl, rfl⟩ ?_
          rw [hv]
          exact .array hall
        · exact hstep.xlat a _ (afterStore_xlat.mpr (.inl ⟨rfl, rfl⟩))

theorem persistSlot_spec {slot : Option Addr} (hst : Persisting H st)
    (h : ∀ a ∈ slot, Within InProcess H n a) :
      ∃ st' slot', persistSlot n st slot = .ok (st', slot') ∧
      PersistedTo H st st' ∧ Option.Rel (fun x y => st'.xlat x = some y) slot slot' := by
  cases slot with
  | none => exact ⟨st, none, rfl, (persistedTo_stepRel H).refl hst, .none⟩
  | some a =>
    obtain ⟨st', b, hp, hto, hb⟩ := persistZvalPtr_spec n a st hst (h a rfl)
    exact ⟨st', some b, by simp [persistSlot, hp, bind, Except.bind], hto, .some hb⟩

/-- The slots of a table of properties -/
theorem persistSlots_spec {slots : List (Option Addr)} (hst : Persisting H st)
    (h : ∀ slot ∈ slots, ∀ a ∈ slot, Within InProcess H n a) : ∃ st' slots',
      mapAccum (persistSlot n) slots st = .ok (st', slots') ∧ PersistedTo H st st' ∧
        List.Forall₂ (Option.Rel fun x y => st'.xlat x = some y) slots slots' := by
  apply mapAccum_rule (persistedTo_stepRel H)
    (Q := fun st => Option.Rel fun x y => st.xlat x = some y)
  · intro s t a b _ hto hQ
    exact rel_mono (fun x y => hto.xlat x y) hQ
  · exact hst
  · intro slot hmem t ht _
    exact persistSlot_spec ht (h slot hmem)

/-- The entries of a hash table of values -/
theorem persistEntries_spec {es : List (HashKey × Addr)} (hst : Persisting H st)
    (h : ∀ e ∈ es, Within InProcess H n e.2) : ∃ st' es',
      mapAccum (persistEntry n) es st = .ok (st', es') ∧ PersistedTo H st st' ∧
        List.Forall₂ (EntryRel fun x y => st'.xlat x = some y) es es' := by
  apply mapAccum_rule (persistedTo_stepRel H)
    (Q := fun st => EntryRel fun x y => st.xlat x = some y)
  · intro s t a b _ hto hQ
    exact ⟨hQ.1, hto.xlat _ _ hQ.2⟩
  · exact hst
  · intro e hmem t ht _
    obtain ⟨u, b, hp, hto, hb⟩ := persistZvalPtr_spec n e.2 t ht (h e hmem)
    exact ⟨u, (e.1, b), by simp [persistEntry, hp, bind, Except.bind], hto, rfl, hb⟩

theorem persistPtrs_spec {l : List Addr} (hst : Persisting H st)
    (h : ∀ a ∈ l, Within InProcess H n a) : ∃ st' l',
      mapAccum (persistZvalPtr n) l st = .ok (st', l') ∧ PersistedTo H st st' ∧
        List.Forall₂ (fun a b => st'.xlat a = some b) l l' := by
  apply mapAccum_rule (persistedTo_stepRel H) (Q := fun st a b => st.xlat a = some b)
  · intro s t a b _ hto hQ
    exact hto.xlat _ _ hQ
  · exact hst
  · intro a hmem t ht _
    exact persistZvalPtr_spec n a t ht (h a hmem)

/-- When all copies are complete, a copy has the value of the original, and lies in shared memory
with everything behind it. -/
theorem Persisting.sameValue (hst : Persisting H st)
    (hdone : ∀ a b, st.xlat a = some b → Done H st a b) : ∀ {n : ℕ} {a b : Addr},
      st.xlat a = some b → Within InProcess H n a →
        SameValue H st.zvals n a b ∧ Within InShared st.zvals n b := by
  intro n
  induction n with
  | zero => intro a b _ h; exact h.elim
  | succ n ih =>
    rintro a b hab ⟨-, y, hy, he⟩
    obtain ⟨z, z', hz, hz', -, hv⟩ := hdone a b hab
    obtain rfl : y = z := Option.some.inj (hy.symm.trans hz)
    obtain ⟨k, -, rfl⟩ := hst.target a b hab
    refine ⟨⟨y, z', hz, hz', hv.imp_left he fun x x' hx hw => (ih hx hw).1⟩, ⟨k, rfl⟩, z', hz', ?_⟩
    intro e' hmem
    have hpair : ∃ e ∈ y.elements, st.xlat e.2 = some e'.2 := hv.exists_left e' hmem
    obtain ⟨e, hemem, hx⟩ := hpair
    exact (ih hx (he e hemem)).2

end Persist

end ZendOpcache
