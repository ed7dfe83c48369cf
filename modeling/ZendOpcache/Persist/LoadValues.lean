import ZendOpcache.Persist.StoreValues

/-! # Values in the process

A value that is not bound is copied with everything behind it. A bound one is found in the
translation table if its reference count is not one, so each such value has one copy.
-/

namespace ZendOpcache

namespace Persist

variable {M : ZvalHeap} {st st' : ZvalState} {a b : Addr} {n : ℕ}

/-- The values in shared memory are those of the heap `M`. -/
def SharedIs (M : ZvalHeap) (st : ZvalState) : Prop := ∀ a, InShared a → st.zvals a = M a

/-- New blocks were written, and the translation table is the same. -/
structure ClonedTo (M : ZvalHeap) (st st' : ZvalState) : Prop where
  shared : SharedIs M st'
  next : st.next ≤ st'.next
  xlat : st'.xlat = st.xlat
  frame : ∀ k < st.next, st'.zvals (.process k) = st.zvals (.process k)

theorem clonedTo_stepRel (M : ZvalHeap) : StepRel (SharedIs M) (ClonedTo M) where
  refl hs := ⟨hs, le_rfl, rfl, fun _ _ => rfl⟩
  inv _ h := h.shared
  trans _ h h' :=
    { shared := h'.shared
      next := h.next.trans h'.next
      xlat := h'.xlat.trans h.xlat
      frame := fun k hk => (h'.frame k (Nat.lt_of_lt_of_le hk h.next)).trans (h.frame k hk) }

/-- A copy with the same value behind it, in blocks with numbers from `lo` on -/
structure Copy (M : ZvalHeap) (lo : ℕ) (st : ZvalState) (n : ℕ) (a b : Addr) : Prop where
  value : SameValue M st.zvals n a b
  within : Within (ProcessIn lo st.next) st.zvals n b

theorem Copy.frame {lo : ℕ} (h : Copy M lo st n a b) (hnext : st.next ≤ st'.next)
    (hframe : ∀ x, ProcessIn lo st.next x → st'.zvals x = st.zvals x) : Copy M lo st' n a b where
  value := h.value.frame hframe h.within
  within := h.within.mono (fun _ hx => hx.mono le_rfl hnext) hframe

theorem ClonedTo.frame_in {lo : ℕ} (h : ClonedTo M st st') :
    ∀ x, ProcessIn lo st.next x → st'.zvals x = st.zvals x := by
  rintro x ⟨k, -, hk, rfl⟩
  exact h.frame k hk

theorem Copy.mono {lo lo' : ℕ} (h : Copy M lo st n a b) (hlo : lo' ≤ lo) : Copy M lo' st n a b where
  value := h.value
  within := h.within.mono (fun _ hx => hx.mono hlo le_rfl) fun _ _ => rfl

/-- A value without its elements that is written at a new block, and then gets copies of them -/
structure Filled (M : ZvalHeap) (st st' : ZvalState) (n : ℕ) (z : ZvalBlock) (k : ℕ) : Prop where
  shared : SharedIs M st'
  next : st.next ≤ st'.next
  xlat : st'.xlat = st.xlat
  frame : ∀ j < st.next, j ≠ k → st'.zvals (.process j) = st.zvals (.process j)
  block : ∃ z', st'.zvals (.process k) = some z' ∧ SameCount z z' ∧
    ValueRel (SameValue M st'.zvals n) z.value z'.value ∧
    ∀ e ∈ z'.elements, Within (ProcessIn st.next st'.next) st'.zvals n e.2

/-- Copies of values that are not bound -/
def ClonesUnbound (M : ZvalHeap) (n : ℕ) : Prop :=
  ∀ (src : Addr) (st : ZvalState), SharedIs M st → Within InShared M n src →
    ∃ st' b, cloneZval n false st src = .ok (st', b) ∧ ClonedTo M st st' ∧
      Copy M st.next st' n src b ∧ ∃ z', st'.zvals b = some z' ∧ z'.refcount = 1 ∧ z'.isRef = false

theorem cloneBlock_spec (hclone : ClonesUnbound M n) {z : ZvalBlock} {k : ℕ}
    (hst : SharedIs M st) (hk : k < st.next) (hz : st.zvals (.process k) = some z)
    (he : ∀ e ∈ z.elements, Within InShared M n e.2) :
    ∃ st', cloneBlock (cloneZval n false) st (.process k) z = .ok st' ∧ Filled M st st' n z k := by
  have hrefl := (clonedTo_stepRel M).refl hst
  unfold cloneBlock
  cases hv : z.value with
  | scalar type bits =>
    refine ⟨st, rfl, hst, le_rfl, rfl, fun _ _ _ => rfl, z, hz, ⟨rfl, rfl⟩, ?_, ?_⟩
    · rw [hv]; exact .scalar type bits
    · simp [ZvalBlock.elements, hv]
  | string type s =>
    refine ⟨st, rfl, hst, le_rfl, rfl, fun _ _ _ => rfl, z, hz, ⟨rfl, rfl⟩, ?_, ?_⟩
    · rw [hv]; exact .string type s
    · simp [ZvalBlock.elements, hv]
  | array type es =>
    have helems : ∀ e ∈ es, Within InShared M n e.2 := by
      intro e hmem
      apply he
      simpa [ZvalBlock.elements, hv] using hmem
    obtain ⟨t, es', hmap, hto, hall⟩ := mapAccum_rule (clonedTo_stepRel M) (f := cloneEntry n false)
      (Q := fun t => EntryRel (Copy M st.next t n))
      (fun _ hst hQ => ⟨hQ.1, hQ.2.frame hst.next hst.frame_in⟩) es st hst
      (by
        intro e hmem t ht hst
        obtain ⟨u, b, hc, htu, hb, -⟩ := hclone e.2 t ht (helems e hmem)
        refine ⟨u, (e.1, b), ?_, htu, rfl, hb.mono hst.next⟩
        simp [cloneEntry, hc, bind, Except.bind])
    unfold cloneEntry at hmap
    have hother : ∀ x, ProcessIn st.next t.next x → (t.write (.process k)
        { z with value := .array type es' }).zvals x = t.zvals x := by
      rintro x ⟨j, hj, -, rfl⟩
      have hne : j ≠ k := (Nat.lt_of_lt_of_le hk hj).ne'
      simp [ZvalState.write, hne]
    have hcopies : ∀ e e', EntryRel (Copy M st.next t n) e e' → Copy M st.next
        (t.write (.process k) { z with value := .array type es' }) n e.2 e'.2 :=
      fun e e' hee => hee.2.frame le_rfl hother
    refine ⟨t.write (.process k) { z with value := .array type es' }, ?_, ?_, hto.next,
      hto.xlat, ?_,
      { z with value := .array type es' }, by simp [ZvalState.write], ⟨rfl, rfl⟩, ?_, ?_⟩
    · simp only [bind, Except.bind] at hmap ⊢
      rw [hmap]
    · rintro x ⟨j, rfl⟩
      rw [← hto.shared _ ⟨j, rfl⟩]
      simp [ZvalState.write]
    · intro j hj hne
      rw [← hto.frame j hj]
      simp [ZvalState.write, hne]
    · rw [hv]
      apply ValueRel.array
      exact hall.imp fun e e' hee => ⟨hee.1, (hcopies e e' hee).value⟩
    · intro e' hmem
      obtain ⟨e, -, hee⟩ := forall₂_right hall hmem
      exact (hcopies e e' hee).within

/-- The state with a new block -/
def allocated (st : ZvalState) (z : ZvalBlock) : ZvalState :=
  (st.write (.process st.next) z).advance

theorem allocated_spec (hst : SharedIs M st) (z : ZvalBlock) : SharedIs M (allocated st z) ∧
    (∀ k < st.next, (allocated st z).zvals (.process k) = st.zvals (.process k)) ∧
      (allocated st z).zvals (.process st.next) = some z := by
  refine ⟨?_, ?_, by simp [allocated, ZvalState.write, ZvalState.advance]⟩
  · rintro x ⟨j, rfl⟩
    rw [← hst _ ⟨j, rfl⟩]
    simp [allocated, ZvalState.write, ZvalState.advance]
  · intro k hk
    simp [allocated, ZvalState.write, ZvalState.advance, hk.ne]

/-- What a filled block is: a copy of the value that was read -/
theorem Filled.copy {src : Addr} {z z₀ : ZvalBlock} {k : ℕ} (hsrc : M src = some z₀)
    (hval : z₀.value = z.value) (hk : st.next = k + 1) (h : Filled M st st' n z k) :
    Copy M k st' (n + 1) src (.process k) := by
  have hnext : k < st'.next := by
    have := h.next
    omega
  obtain ⟨z', hz', -, hv, he⟩ := h.block
  constructor
  · exact ⟨z₀, z', hsrc, hz', by rw [hval]; exact hv⟩
  · refine ⟨⟨k, le_rfl, hnext, rfl⟩, z', hz', ?_⟩
    intro e hmem
    exact (he e hmem).mono (fun x hx => hx.mono (by omega) le_rfl) fun _ _ => rfl

theorem clonesUnbound : ∀ n, ClonesUnbound M n := by
  intro n
  induction n with
  | zero => intro src st _ h; exact h.elim
  | succ n ih =>
    rintro src st hst ⟨hshared, z, hz, he⟩
    have hread : st.zvals src = some z := by rw [hst src hshared, hz]
    obtain ⟨hshared', hframe, hnew⟩ := allocated_spec hst { z with refcount := 1, isRef := false }
    obtain ⟨st', hfill, hfilled⟩ :=
      cloneBlock_spec (k := st.next) ih hshared' (Nat.lt_succ_self _) hnew he
    have hcopy := Filled.copy (z := { z with refcount := 1, isRef := false }) hz rfl rfl hfilled
    refine ⟨st', .process st.next, ?_, ?_, hcopy, ?_⟩
    · unfold allocated at hfill
      unfold cloneZval
      simp only [hread, deref_some, bind, Except.bind, if_true]
      rw [hfill]
    · refine ⟨hfilled.shared, (Nat.le_succ _).trans hfilled.next, hfilled.xlat, ?_⟩
      intro k hk
      rw [hfilled.frame k (Nat.lt_succ_of_lt hk) hk.ne, hframe k hk]
    · obtain ⟨z', hz', hc, -⟩ := hfilled.block
      exact ⟨z', hz', hc.1.symm, hc.2.symm⟩

/-! ## Bound values -/

/-- The state while classes are loaded: the values in the table have one copy each, with count and
flag. -/
structure Loading (M : ZvalHeap) (n : ℕ) (st : ZvalState) : Prop where
  shared : SharedIs M st
  copy : ∀ a b, st.xlat a = some b → Copy M 0 st n a b
  count : ∀ a b, st.xlat a = some b → ∃ z z', M a = some z ∧ st.zvals b = some z' ∧ SameCount z z'
  inj : ∀ a a' b, st.xlat a = some b → st.xlat a' = some b → a = a'

/-- What loading does: old blocks stay, and the table gets new blocks. -/
structure LoadedTo (M : ZvalHeap) (n : ℕ) (st st' : ZvalState) : Prop where
  inv : Loading M n st'
  next : st.next ≤ st'.next
  xlat : ∀ a b, st.xlat a = some b → st'.xlat a = some b
  frame : ∀ k < st.next, st'.zvals (.process k) = st.zvals (.process k)
  fresh : ∀ a b, st'.xlat a = some b → st.xlat a = none → ProcessIn st.next st'.next b

theorem loadedTo_stepRel (M : ZvalHeap) (n : ℕ) : StepRel (Loading M n) (LoadedTo M n) where
  refl hs := ⟨hs, le_rfl, fun _ _ h => h, fun _ _ => rfl, fun _ _ h h' => by simp [h] at h'⟩
  inv _ h := h.inv
  trans := by
    intro s t u _ h h'
    constructor
    · exact h'.inv
    · exact h.next.trans h'.next
    · exact fun a b hab => h'.xlat a b (h.xlat a b hab)
    · exact fun k hk => (h'.frame k (Nat.lt_of_lt_of_le hk h.next)).trans (h.frame k hk)
    · intro a b hu hs
      cases ht : t.xlat a with
      | none => exact (h'.fresh a b hu ht).mono h.next le_rfl
      | some b' =>
        obtain rfl : b' = b := Option.some.inj ((h'.xlat a b' ht).symm.trans hu)
        exact (h.fresh a b' ht hs).mono le_rfl h'.next

/-- Copies of values that are not bound leave the table alone. -/
theorem ClonedTo.loadedTo (hst : Loading M n st) (h : ClonedTo M st st') : LoadedTo M n st st' := by
  have hframe : ∀ {a b}, st.xlat a = some b → st'.zvals b = st.zvals b := fun hab =>
    h.frame_in _ (hst.copy _ _ hab).within.inside
  constructor
  · constructor
    · exact h.shared
    · intro a b hab
      rw [h.xlat] at hab
      exact (hst.copy a b hab).frame h.next h.frame_in
    · intro a b hab
      rw [h.xlat] at hab
      obtain ⟨z, z', hz, hz', hc⟩ := hst.count a b hab
      exact ⟨z, z', hz, by rw [hframe hab, hz'], hc⟩
    · intro a a' b hab hab'
      rw [h.xlat] at hab hab'
      exact hst.inj a a' b hab hab'
  · exact h.next
  · intro a b hab
    rw [h.xlat, hab]
  · exact h.frame
  · intro a b hab hnone
    rw [h.xlat, hnone] at hab
    cases hab

/-- A value that is entered in the table with a new copy -/
theorem Loading.enter {src b : Addr} {z z' : ZvalBlock} (hst : Loading M n st)
    (hnone : st.xlat src = none) (hshared : SharedIs M st') (hnext : st.next ≤ st'.next)
    (hframe : ∀ k < st.next, st'.zvals (.process k) = st.zvals (.process k))
    (hxlat : st'.xlat = Function.update st.xlat src (some b)) (hcopy : Copy M st.next st' n src b)
    (hz : M src = some z) (hz' : st'.zvals b = some z') (hc : SameCount z z') :
    LoadedTo M n st st' := by
  have hold : ∀ {a c}, st.xlat a = some c → ProcessIn 0 st.next c := fun hac =>
    (hst.copy _ _ hac).within.inside
  have hframe' : ∀ x, ProcessIn 0 st.next x → st'.zvals x = st.zvals x := by
    rintro x ⟨k, -, hk, rfl⟩
    exact hframe k hk
  have hcases : ∀ {a c}, st'.xlat a = some c ↔
      (a = src ∧ c = b) ∨ (a ≠ src ∧ st.xlat a = some c) := by
    intro a c
    rw [hxlat]
    by_cases ha : a = src
    · subst ha
      simp [eq_comm]
    · simp [ha]
  have hnew : ∀ {a c}, st.xlat a = some c → c ≠ b := by
    rintro a c hac rfl
    obtain ⟨k, -, hk, rfl⟩ := hold hac
    obtain ⟨j, hj, -, hkj⟩ := hcopy.within.inside
    exact absurd (Addr.process.inj hkj) (Nat.lt_of_lt_of_le hk hj).ne
  constructor
  · constructor
    · exact hshared
    · intro a c hac
      rcases hcases.mp hac with ⟨rfl, rfl⟩ | ⟨-, hac⟩
      · exact hcopy.mono (Nat.zero_le _)
      · exact (hst.copy a c hac).frame hnext hframe'
    · intro a c hac
      rcases hcases.mp hac with ⟨rfl, rfl⟩ | ⟨-, hac⟩
      · exact ⟨z, z', hz, hz', hc⟩
      · obtain ⟨y, y', hy, hy', hcy⟩ := hst.count a c hac
        exact ⟨y, y', hy, by rw [hframe' c (hold hac), hy'], hcy⟩
    · intro a a' c hac hac'
      rcases hcases.mp hac with ⟨rfl, rfl⟩ | ⟨-, hac⟩ <;>
        rcases hcases.mp hac' with ⟨rfl, hb⟩ | ⟨-, hac'⟩
      · rfl
      · exact absurd rfl (hnew hac')
      · exact absurd hb (hnew hac)
      · exact hst.inj a a' c hac hac'
  · exact hnext
  · intro a c hac
    apply hcases.mpr
    right
    refine ⟨?_, hac⟩
    rintro rfl
    simp [hnone] at hac
  · exact hframe
  · intro a c hac ha
    rcases hcases.mp hac with ⟨rfl, rfl⟩ | ⟨-, hac⟩
    · exact hcopy.within.inside
    · simp [ha] at hac

/-- A bound copy of a value: found in the table, or new -/
structure Bound (M : ZvalHeap) (n : ℕ) (st st' : ZvalState) (a b : Addr) : Prop where
  copy : Copy M 0 st' n a b
  count : ∃ z z', M a = some z ∧ st'.zvals b = some z' ∧ SameCount z z' ∧
    (z.refcount ≠ 1 → st'.xlat a = some b) ∧
    (z.refcount = 1 → st'.xlat = st.xlat ∧ ProcessIn st.next st'.next b)

theorem cloneBound_spec {src : Addr} (hst : Loading M n st) (hsrc : Within InShared M n src) :
    ∃ st' b, cloneZval n true st src = .ok (st', b) ∧ LoadedTo M n st st' ∧
      Bound M n st st' src b := by
  cases n with
  | zero => exact hsrc.elim
  | succ n =>
    obtain ⟨hshared, z, hz, he⟩ := hsrc
    have hread : st.zvals src = some z := by rw [hst.shared src hshared, hz]
    obtain ⟨hshared', hframe, hnew⟩ := allocated_spec hst.shared z
    unfold cloneZval
    simp only [hread, deref_some, bind, Except.bind, Bool.true_eq_false, if_false]
    by_cases hone : z.refcount = 1
    · obtain ⟨st', hfill, hfilled⟩ := cloneBlock_spec (k := st.next) (clonesUnbound n) hshared'
        (Nat.lt_succ_self _) hnew he
      have hto : ClonedTo M st st' := by
        refine ⟨hfilled.shared, (Nat.le_succ _).trans hfilled.next, hfilled.xlat, ?_⟩
        intro k hk
        rw [hfilled.frame k (Nat.lt_succ_of_lt hk) hk.ne, hframe k hk]
      have hcopy := hfilled.copy hz rfl rfl
      obtain ⟨z', hz', hc, -⟩ := hfilled.block
      refine ⟨st', .process st.next, ?_, hto.loadedTo hst, hcopy.mono (Nat.zero_le _),
        z, z', hz, hz', hc, fun h => absurd hone h, fun _ => ⟨hfilled.xlat, hcopy.within.inside⟩⟩
      unfold allocated at hfill
      rw [if_pos hone, hfill]
    · rw [if_neg hone]
      cases hx : st.xlat src with
      | some b =>
        have hcopy := hst.copy src b hx
        obtain ⟨y, z', hy, hz', hc⟩ := hst.count src b hx
        obtain rfl : y = z := Option.some.inj (hy.symm.trans hz)
        exact ⟨st, b, rfl, (loadedTo_stepRel M _).refl hst, hcopy, y, z', hz, hz', hc,
          fun _ => hx, fun h => absurd h hone⟩
      | none =>
        let b := Addr.process st.next
        have hentered : SharedIs M ((allocated st z).register src b) := hshared'
        obtain ⟨st', hfill, hfilled⟩ := cloneBlock_spec (k := st.next) (clonesUnbound n) hentered
          (Nat.lt_succ_self _) hnew he
        have hframe' : ∀ k < st.next, st'.zvals (.process k) = st.zvals (.process k) := by
          intro k hk
          rw [← hframe k hk]
          exact hfilled.frame k (Nat.lt_succ_of_lt hk) hk.ne
        have hcopy := hfilled.copy hz rfl rfl
        obtain ⟨z', hz', hc, -⟩ := hfilled.block
        have hnext : st.next ≤ st'.next := (Nat.le_succ _).trans hfilled.next
        have hxlat : st'.xlat = Function.update st.xlat src (some b) := hfilled.xlat
        refine ⟨st', b, ?_, ?_, hcopy.mono (Nat.zero_le _), z, z', hz, hz', hc, ?_,
          fun h => absurd h hone⟩
        · unfold allocated at hfill
          dsimp only
          rw [hfill]
        · exact hst.enter hx hfilled.shared hnext hframe' hxlat hcopy hz hz' hc
        · intro _
          rw [hxlat]
          simp

end Persist

end ZendOpcache
