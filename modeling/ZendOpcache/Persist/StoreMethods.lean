import ZendOpcache.Persist.StoreClasses

/-! # Copies of functions and classes

A function in shared memory has copies of its values, and points to the copies of its class and of
its prototype, which is counted. A class in shared memory has copies of its methods and values, and
still the pointers of the original to other classes and functions.
-/

namespace ZendOpcache

namespace Persist

open Relation

/-- The state while a script with the blocks `M` is copied, between two of its functions -/
structure Storing (M : ScriptMemory) (st : CopyState) : Prop where
  values : Persisting M.zvals st.zv
  done : ∀ a b, st.zv.xlat a = some b → Done M.zvals st.zv a b
  blocks : StoringClasses M st.cl

structure StoredTo (M : ScriptMemory) (st : CopyState) (A : Bucket → Prop) (st' : CopyState) :
    Prop where
  inv : Storing M st'
  values : PersistedTo M.zvals st.zv st'.zv
  grow : ClassGrow st.cl A st'.cl

variable {M : ScriptMemory} {st st' : CopyState} {A : Bucket → Prop} {n : ℕ} {a b : Addr}
  {f f' : ZendFunction} {zv zv' : ZvalState} {cl cl' : ClassState}

theorem storedTo_effectRel (M : ScriptMemory) :
    EffectRel (Storing M) (fun st k => st.cl.lookup k = none) (StoredTo M) where
  refl hs := ⟨hs, (persistedTo_stepRel _).refl hs.values, .refl _⟩
  inv _ h := h.inv
  trans hs h h' :=
    ⟨h'.inv, (persistedTo_stepRel _).trans hs.values h.values h'.values, h.grow.trans h'.grow⟩
  mono h hAB := ⟨h.inv, h.values, h.grow.mono hAB⟩
  free h hk hnone := h.grow.only _ hk hnone

/-- After copies of values and a change of the blocks -/
theorem Storing.step (hst : Storing M st) (hzv : PersistedTo M.zvals st.zv zv)
    (hcl : StoringClasses M cl) : Storing M ⟨zv, cl⟩ where
  values := hzv.inv
  done := by
    intro x y hxy
    cases hx : st.zv.xlat x with
    | none => exact hzv.done x y hxy hx
    | some y' =>
      obtain rfl : y' = y := Option.some.inj ((hzv.xlat x y' hx).symm.trans hxy)
      exact (hst.done x y' hx).step hst.values hzv hx
  blocks := hcl

/-- The copies of the values of a function -/
structure SameZvals (zv : ZvalState) (f f' : ZendFunction) : Prop where
  literals : List.Forall₂ (fun a b => zv.xlat a = some b) f.literals f'.literals
  statics : List.Forall₂ (EntryRel fun a b => zv.xlat a =
    some b) f.staticVariables f'.staticVariables

theorem SameZvals.step (h : SameZvals zv f f')
    (hzv : ∀ a b, zv.xlat a = some b → zv'.xlat a = some b) : SameZvals zv' f f' where
  literals := h.literals.imp fun _ _ hab => hzv _ _ hab
  statics := h.statics.imp fun _ _ hab => ⟨hab.1, hzv _ _ hab.2⟩

theorem persistFunctionZvals_spec (hzv : Persisting M.zvals zv)
    (hf : FunctionValues InProcess n M f) : ∃ zv' literals statics,
      persistFunctionZvals n zv f =
        .ok (zv', { f with literals := literals, staticVariables := statics }) ∧
      PersistedTo M.zvals zv zv' ∧
      SameZvals zv' f { f with literals := literals, staticVariables := statics } := by
  obtain ⟨zv₁, literals, hl, hto, hall⟩ := persistPtrs_spec hzv hf.literals
  obtain ⟨zv₂, statics, hs, hto', hall'⟩ := persistEntries_spec hto.inv hf.statics
  refine ⟨zv₂, literals, statics, ?_, (persistedTo_stepRel _).trans hzv hto hto', ?_, hall'⟩
  · simp [persistFunctionZvals, hl, hs, bind, Except.bind]
  · exact hall.imp fun _ _ hab => hto'.xlat _ _ hab

/-- A function in shared memory with what it points to -/
structure FunctionImage (st : CopyState) (f f' : ZendFunction) : Prop where
  name : f'.functionName = f.functionName
  zvals : SameZvals st.zv f f'
  scope : Option.Rel (fun a b => st.cl.classXlat a = some b) f.scope f'.scope
  prototype : Option.Rel (fun a b => st.cl.functionXlat a = some b) f.prototype f'.prototype
  counted : ∀ p, f'.prototype = some p → ∃ g, st.cl.functions p = some g ∧ g.refcount ≠ 0

/-- The bucket of a function and its copy -/
def FunctionStored (M : ScriptMemory) (st : CopyState) (e e' : HashKey × Addr) : Prop :=
  EntryRel (fun a b => st.cl.functionXlat a = some b) e e' ∧
    ∃ f f', M.functions e.2 = some f ∧ st.cl.functions e'.2 = some f' ∧ FunctionImage st f f'

/-- What the copies of functions depend on: entries in the tables stay, and functions that the
table leads to are only counted up. -/
structure FunctionsKept (st st' : CopyState) : Prop where
  zvals : ∀ a b, st.zv.xlat a = some b → st'.zv.xlat a = some b
  lookup : ∀ k b, st.cl.lookup k = some b → st'.cl.lookup k = some b
  functions : ∀ a b f, st.cl.functionXlat a = some b → st.cl.functions b = some f →
    ∃ f', st'.cl.functions b = some f' ∧ CountedUp f f'

theorem StoredTo.kept (hst : Storing M st) (h : StoredTo M st A st') : FunctionsKept st st' where
  zvals := h.values.xlat
  lookup := h.grow.lookup
  functions a b f hab hf := by
    obtain ⟨k, hk, rfl⟩ := hst.blocks.functionXlat.target a b hab
    exact h.grow.functionFrame k hk f hf

theorem FunctionsKept.writeClass (b : Addr) (c : ZendClassEntry) :
    FunctionsKept ⟨zv, cl⟩ ⟨zv, cl.writeClass b c⟩ where
  zvals _ _ h := h
  lookup _ _ h := h
  functions _ _ f _ hf := ⟨f, hf, .refl f⟩

theorem FunctionImage.step (h : FunctionsKept st st') (hi : FunctionImage st f f')
    {f'' : ZendFunction} (hc : CountedUp f' f'') : FunctionImage st' f f'' := by
  obtain ⟨c, rfl⟩ := hc
  have hz := hi.zvals.step h.zvals
  constructor
  · exact hi.name
  · exact ⟨hz.literals, hz.statics⟩
  · exact rel_mono (fun x y hxy => h.lookup (.cls x) y hxy) hi.scope
  · exact rel_mono (fun x y hxy => h.lookup (.fn x) y hxy) hi.prototype
  · intro p hp
    have hrel := hi.prototype
    rw [show f'.prototype = some p from hp] at hrel
    obtain ⟨x, -, hx⟩ := rel_some_right hrel
    obtain ⟨g, hg, hne⟩ := hi.counted p hp
    obtain ⟨g', hg', hcg⟩ := h.functions x p g hx hg
    exact ⟨g', hg', hcg.ne_zero hne⟩

theorem FunctionStored.step (h : FunctionsKept st st') {e e' : HashKey × Addr}
    (hs : FunctionStored M st e e') : FunctionStored M st' e e' := by
  obtain ⟨⟨hk, hx⟩, f, f', hf, hf', hi⟩ := hs
  obtain ⟨f'', hf'', hc⟩ := h.functions _ _ f' hx hf'
  exact ⟨⟨hk, h.lookup (.fn _) _ hx⟩, f, f'', hf, hf'', hi.step h hc⟩

/-- The links of a function lead to classes and functions that are in the tables. -/
inductive LinksReady (cl : ClassState) (f : ZendFunction) : Prop
  | unlinked (h : Unlinked f)
  | linked {s b : Addr} (hs : f.scope = some s) (hb : cl.classXlat s = some b)
      (hp : ∀ p, f.prototype = some p → ∃ q, cl.functionXlat p = some q)

theorem persistLinks_spec (h : LinksReady cl f) : ∃ s p,
    persistLinks cl f = ({ f with scope := s, prototype := p, refcount := 0 }, p) ∧
      Option.Rel (fun a b => cl.classXlat a = some b) f.scope s ∧
        Option.Rel (fun a b => cl.functionXlat a = some b) f.prototype p := by
  cases h with
  | unlinked h =>
    refine ⟨none, none, ?_, ?_, ?_⟩
    · simp [persistLinks, h.scope]
    · rw [h.scope]; exact .none
    · rw [h.prototype]; exact .none
  | @linked t b hs hb hp =>
    cases hproto : f.prototype with
    | none =>
      refine ⟨some b, none, ?_, ?_, .none⟩
      · simp [persistLinks, hs, hb, hproto]
      · rw [hs]; exact .some hb
    | some p =>
      obtain ⟨q, hq⟩ := hp p hproto
      refine ⟨some b, some q, ?_, ?_, .some hq⟩
      · simp [persistLinks, hs, hb, hproto, hq]
      · rw [hs]; exact .some hb

theorem countPrototype_spec (hcl : StoringClasses M cl) {p : Option Addr}
    (hp : ∀ q, p = some q → ∃ x, cl.functionXlat x = some q) : ∃ cl',
      countPrototype cl p = .ok cl' ∧ CountedTo M cl cl' ∧
        ∀ q, p = some q → ∃ g, cl'.functions q = some g ∧ g.refcount ≠ 0 := by
  cases p with
  | none => exact ⟨cl, rfl, .refl hcl, by simp⟩
  | some q =>
    obtain ⟨x, hx⟩ := hp q rfl
    obtain ⟨cl', hcount, hto, hg⟩ := countFunction_spec hcl hx
    refine ⟨cl', hcount, hto, ?_⟩
    rintro q' hq'
    cases hq'
    exact hg

/-- The links of a function are ready when more is entered in the tables. -/
theorem LinksReady.step (h : ClassGrow cl A cl') (hl : LinksReady cl f) : LinksReady cl' f := by
  cases hl with
  | unlinked hu => exact .unlinked hu
  | linked hs hb hp =>
    refine .linked hs (h.lookup (.cls _) _ hb) fun p hproto => ?_
    obtain ⟨q, hq⟩ := hp p hproto
    exact ⟨q, h.lookup (.fn _) _ hq⟩

theorem persistFunction_eq {e : HashKey × Addr} {f₁ f₂ : ZendFunction} {p : Option Addr}
    (hread : st.cl.functions e.2 = some f) (hz : persistFunctionZvals n st.zv f = .ok (zv, f₁))
    (hlinks : persistLinks (enterFunction st.cl e.2 f) f₁ = (f₂, p))
    (hcount : countPrototype ((enterFunction st.cl e.2 f).writeFunction (.shared st.cl.nextFunction)
      f₂) p = .ok cl) :
    persistFunction n st e = .ok (⟨zv, cl⟩, (e.1, .shared st.cl.nextFunction)) := by
  unfold enterFunction at hlinks hcount
  simp only [persistFunction, hread, deref_some, bind, Except.bind, hz]
  rw [hlinks]
  dsimp only
  rw [hcount]

/-- `zend_persist_op_array` in a hash table takes the bucket and leaves a complete copy. -/
theorem persistFunction_spec {e : HashKey × Addr} (hst : Storing M st) (ha : InProcess e.2)
    (hf : M.functions e.2 = some f) (hv : FunctionValues InProcess n M f)
    (hl : LinksReady st.cl f) (hfree : st.cl.lookup (.fn e.2) = none) : ∃ st' e',
      persistFunction n st e = .ok (st', e') ∧ StoredTo M st (· = .fn e.2) st' ∧
        FunctionStored M st' e e' := by
  have hread : st.cl.functions e.2 = some f := by rw [hst.blocks.functionSource _ ha, hf]
  let b := Addr.shared st.cl.nextFunction
  let cl₁ := enterFunction st.cl e.2 f
  have hcl₁ : StoringClasses M cl₁ := hst.blocks.enterFunction e.2 f
  have hgrow₁ : ClassGrow st.cl (· = .fn e.2) cl₁ := .enterFunction hfree f
  obtain ⟨zv, literals, statics, hz, hzv, hsame⟩ := persistFunctionZvals_spec hst.values hv
  let f₁ : ZendFunction := { f with literals := literals, staticVariables := statics }
  have hl₁ : LinksReady cl₁ f₁ := by
    cases hl.step hgrow₁ with
    | unlinked hu => exact .unlinked ⟨hu.scope, hu.prototype⟩
    | linked hs hb hp => exact .linked hs hb hp
  obtain ⟨s, p, hlinks, hscope, hproto⟩ := persistLinks_spec hl₁
  let f₂ : ZendFunction := { f₁ with scope := s, prototype := p, refcount := 0 }
  let cl₂ := cl₁.writeFunction b f₂
  have hcl₂ : StoringClasses M cl₂ := hcl₁.writeFunction _ f₂
  have hgrow₂ : ClassGrow st.cl (· = .fn e.2) cl₂ := hgrow₁.writeFunction le_rfl f₂
  obtain ⟨cl₃, hcount, hto, hcounted⟩ := countPrototype_spec (p := p) hcl₂ (by
    rintro q rfl
    obtain ⟨x, -, hx⟩ := rel_some_right hproto
    exact ⟨x, hx⟩)
  have hb : cl₂.functions b = some f₂ := by simp [cl₂, ClassState.writeFunction]
  obtain ⟨f₃, hf₃, c, rfl⟩ := hto.functions b f₂ hb
  refine ⟨⟨zv, cl₃⟩, (e.1, b), ?_, ⟨hst.step hzv hto.inv, hzv, hgrow₂.counted hto⟩, ⟨rfl, ?_⟩, f, _,
    hf, hf₃, ?_⟩
  · exact persistFunction_eq hread hz hlinks hcount
  · have hx : cl₂.functionXlat e.2 = some b := enterFunction_lookup (a := e.2) (f := f)
    dsimp only
    rw [hto.functionXlat, hx]
  · constructor
    · rfl
    · exact ⟨hsame.literals, hsame.statics⟩
    · dsimp only
      rw [hto.classXlat]
      exact hscope
    · dsimp only
      rw [hto.functionXlat]
      exact hproto
    · exact hcounted

/-! ## Classes -/

/-- The copies of the values of a class -/
structure SameClassZvals (zv : ZvalState) (c c' : ZendClassEntry) : Prop where
  properties : List.Forall₂ (Option.Rel fun a b => zv.xlat a = some b) c.defaultPropertiesTable
    c'.defaultPropertiesTable
  statics : List.Forall₂ (Option.Rel fun a b => zv.xlat a = some b) c.defaultStaticMembersTable
    c'.defaultStaticMembersTable
  constants : List.Forall₂ (EntryRel fun a b => zv.xlat a =
    some b) c.constantsTable c'.constantsTable

theorem SameClassZvals.step {c c' : ZendClassEntry} (h : SameClassZvals zv c c')
    (hzv : ∀ a b, zv.xlat a = some b → zv'.xlat a = some b) : SameClassZvals zv' c c' where
  properties := h.properties.imp fun _ _ => rel_mono fun _ _ => hzv _ _
  statics := h.statics.imp fun _ _ => rel_mono fun _ _ => hzv _ _
  constants := h.constants.imp fun _ _ hab => ⟨hab.1, hzv _ _ hab.2⟩

/-- A class in shared memory, with its old pointers to other classes and to methods -/
structure StoredClass (M : ScriptMemory) (st : CopyState) (c c' : ZendClassEntry) : Prop where
  name : c'.name = c.name
  refcount : c'.refcount = c.refcount
  parent : c'.parent = c.parent
  info : c'.propertiesInfo = c.propertiesInfo
  handler : c'.handler = c.handler
  methods : List.Forall₂ (FunctionStored M st) c.functionTable c'.functionTable
  zvals : SameClassZvals st.zv c c'

/-- The bucket of a class and its copy -/
def ClassStored (M : ScriptMemory) (st : CopyState) (e e' : HashKey × Addr) : Prop :=
  EntryRel (fun a b => st.cl.classXlat a = some b) e e' ∧
    ∃ c c', M.classes e.2 = some c ∧ st.cl.classes e'.2 = some c' ∧ StoredClass M st c c'

theorem ClassStored.step (hst : Storing M st) (h : StoredTo M st A st') {e e' : HashKey × Addr}
    (hs : ClassStored M st e e') : ClassStored M st' e e' := by
  obtain ⟨⟨hk, hx⟩, c, c', hc, hc', hi⟩ := hs
  refine ⟨⟨hk, h.grow.lookup (.cls _) _ hx⟩, c, c', hc, ?_, ?_⟩
  · obtain ⟨k, hk, hb⟩ := hst.blocks.classXlat.target _ _ hx
    rw [hb] at hc' ⊢
    rw [h.grow.classFrame k hk, hc']
  · exact
      { name := hi.name
        refcount := hi.refcount
        parent := hi.parent
        info := hi.info
        handler := hi.handler
        methods := hi.methods.imp fun _ _ hm => hm.step (h.kept hst)
        zvals := hi.zvals.step h.values.xlat }

/-- The buckets of a class and of its methods -/
def classBuckets (M : ScriptMemory) (a : Addr) (k : Bucket) : Prop :=
  k = .cls a ∨ ∃ f, IsMethod M a f ∧ k = .fn f

theorem persistClassEntry_spec {e : HashKey × Addr} {c : ZendClassEntry} (hst : Storing M st)
    (ha : InProcess e.2) (hc : ClassBlock InProcess n M e.2 c)
    (hanc : ∀ s, ReflTransGen (ParentOf M) e.2 s → s = e.2 ∨ ∃ b, st.cl.classXlat s = some b)
    (hproto : ∀ s p, TransGen (ParentOf M) e.2 s → IsMethod M s p →
      ∃ q, st.cl.functionXlat p = some q)
    (hfree : ∀ k, classBuckets M e.2 k → st.cl.lookup k = none) : ∃ st' e',
      persistClassEntry n st e = .ok (st', e') ∧ StoredTo M st (classBuckets M e.2) st' ∧
        ClassStored M st' e e' := by
  have hread : st.cl.classes e.2 = some c := by rw [hst.blocks.classSource _ ha, hc.block]
  let b := Addr.shared st.cl.nextClass
  let st₁ : CopyState := ⟨st.zv, enterClass st.cl e.2 c⟩
  have hto₁ : StoredTo M st (· = .cls e.2) st₁ :=
    { inv := ⟨hst.values, hst.done, hst.blocks.enterClass e.2 c⟩
      values := (persistedTo_stepRel _).refl hst.values
      grow := .enterClass (hfree _ (.inl rfl)) c }
  have hxlat : st₁.cl.classXlat e.2 = some b := enterClass_lookup (a := e.2) (c := c)
  obtain ⟨st₂, functions, hmap, hto₂, hall⟩ := mapAccum_effect (storedTo_effectRel M)
    (f := persistFunction n) (Q := FunctionStored M) (e := fun m k => k = .fn m.2)
    (fun hs h hm => hm.step (h.kept hs)) c.functionTable [] st₁ hto₁.inv (by simp)
    (by
      have hne := List.pairwise_map.mp hc.buckets
      refine hne.imp ?_
      rintro m m' hmm k rfl hk
      exact hmm (Bucket.fn.inj hk))
    (by
      rintro m hm k rfl
      apply hto₁.grow.only
      · simp
      · exact hfree _ (.inr ⟨m.2, ⟨c, m.1, hc.block, hm⟩, rfl⟩))
    (by
      rintro l₁ m l₂ hl B t ht hto - hfreet
      have hm : m ∈ c.functionTable := by simp [hl]
      obtain ⟨hP, f, hf, hv, hlinks⟩ := hc.method m hm
      obtain ⟨s, hs, hanc'⟩ := hlinks.scope
      have hscope : ∃ x, t.cl.classXlat s = some x := by
        rcases hanc s hanc' with rfl | ⟨x, hx⟩
        · exact ⟨b, hto.grow.lookup (.cls _) _ hxlat⟩
        · exact ⟨x, hto.grow.lookup (.cls _) _ (hto₁.grow.lookup (.cls _) _ hx)⟩
      obtain ⟨x, hx⟩ := hscope
      refine persistFunction_spec ht hP hf hv (.linked hs hx fun p hp => ?_) (hfreet _ rfl)
      obtain ⟨s', hs', hmethod⟩ := hlinks.prototype p hp
      obtain ⟨q, hq⟩ := hproto s' p hs' hmethod
      exact ⟨q, hto.grow.lookup (.fn _) _ (hto₁.grow.lookup (.fn _) _ hq)⟩)
  have hst₂ := hto₂.inv
  obtain ⟨zv₃, properties, hprops, hto₃, hall₃⟩ :=
    persistSlots_spec hst₂.values hc.values.properties
  obtain ⟨zv₄, statics, hstatics, hto₄, hall₄⟩ := persistSlots_spec hto₃.inv hc.values.statics
  obtain ⟨zv₅, constants, hconsts, hto₅, hall₅⟩ := persistEntries_spec hto₄.inv hc.values.constants
  have hto₄₅ := (persistedTo_stepRel _).trans hto₃.inv hto₄ hto₅
  have hto₃₅ := (persistedTo_stepRel _).trans hst₂.values hto₃ hto₄₅
  let c' : ZendClassEntry := { c with
    functionTable := functions
    defaultPropertiesTable := properties
    defaultStaticMembersTable := statics
    constantsTable := constants }
  have hstore : StoredTo M st₂ (fun _ => False) ⟨zv₅, st₂.cl⟩ :=
    ⟨hst₂.step hto₃₅ hst₂.blocks, hto₃₅, .refl _⟩
  have hzvals : PersistedTo M.zvals st.zv zv₅ := (persistedTo_stepRel _).trans hst.values
    hto₂.values hto₃₅
  refine ⟨⟨zv₅, st₂.cl.writeClass b c'⟩, (e.1, b), ?_, ⟨?_, hzvals, ?_⟩, ⟨rfl, ?_⟩, c, c', hc.block,
    ?_, ?_⟩
  · unfold st₁ enterClass at hmap
    simp only [persistClassEntry, hread, deref_some, bind, Except.bind]
    rw [hmap]
    simp only [hprops, hstatics, hconsts]
    rfl
  · exact hst₂.step hto₃₅ (hst₂.blocks.writeClass _ c')
  · refine ((hto₁.grow.trans hto₂.grow).writeClass le_rfl c').mono ?_
    rintro k (rfl | ⟨m, hm, rfl⟩)
    · exact .inl rfl
    · exact .inr ⟨m.2, ⟨c, m.1, hc.block, hm⟩, rfl⟩
  · exact hto₂.grow.lookup (.cls _) _ hxlat
  · simp [ClassState.writeClass]
  · refine ⟨rfl, rfl, rfl, rfl, rfl, ?_, ?_, ?_, hall₅⟩
    · exact hall.imp fun _ _ hm => (hm.step (hstore.kept hst₂)).step (.writeClass b c')
    · exact hall₃.imp fun _ _ => rel_mono fun _ _ => hto₄₅.xlat _ _
    · exact hall₄.imp fun _ _ => rel_mono fun _ _ => hto₅.xlat _ _

end Persist

end ZendOpcache
