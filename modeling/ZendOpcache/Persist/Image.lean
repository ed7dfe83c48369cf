import ZendOpcache.Persist.Relink

/-! # The image of a script in shared memory

`zend_accel_script_persist` succeeds for the graph of a script. It leaves an image in shared memory
that has the same shape, and marks what other blocks of the image point to.
-/

namespace ZendOpcache

namespace Persist

open Relation

/-- A class in shared memory with its pointers to shared memory -/
structure LinkedClass (M : ScriptMemory) (st : CopyState) (c c' : ZendClassEntry) : Prop where
  name : c'.name = c.name
  refcount : c.refcount ≤ c'.refcount
  parent : Option.Rel (fun a b => st.cl.classXlat a = some b) c.parent c'.parent
  info : List.Forall₂ (fun p p' => p.1 = p'.1 ∧
    Option.Rel (fun a b => st.cl.classXlat a = some b) p.2 p'.2) c.propertiesInfo c'.propertiesInfo
  handler : ∀ h, Option.Rel (fun a b => st.cl.functionXlat a = some b) (c.handler h) (c'.handler h)
  methods : List.Forall₂ (FunctionStored M st) c.functionTable c'.functionTable
  zvals : SameClassZvals st.zv c c'

def ClassImage (M : ScriptMemory) (st : CopyState) (e e' : HashKey × Addr) : Prop :=
  EntryRel (fun a b => st.cl.classXlat a = some b) e e' ∧
    ∃ c c', M.classes e.2 = some c ∧ st.cl.classes e'.2 = some c' ∧ LinkedClass M st c c'

/-- The image of a script whose blocks were those of `M` -/
structure ImageOf (M : ScriptMemory) (script : ZendPersistentScript) (st : CopyState)
    (script' : ZendPersistentScript) : Prop where
  values : Persisting M.zvals st.zv
  done : ∀ a b, st.zv.xlat a = some b → Done M.zvals st.zv a b
  blocks : StoringClasses M st.cl
  functions : List.Forall₂ (FunctionStored M st) script.functionTable script'.functionTable
  classes : List.Forall₂ (ClassImage M st) script.classTable script'.classTable
  main : FunctionImage st script.mainOpArray script'.mainOpArray

variable {M : ScriptMemory} {script script' : ZendPersistentScript} {st st' : CopyState} {n : ℕ}
  {zv : ZvalState} {cl cl' : ClassState}

/-- The state with empty tables -/
def withoutTables (st : CopyState) : CopyState :=
  { zv := { st.zv with xlat := fun _ => none }
    cl := { st.cl with classXlat := fun _ => none, functionXlat := fun _ => none } }

theorem withoutTables_lookup (st : CopyState) (k : Bucket) :
    (withoutTables st).cl.lookup k = none := by
  cases k <;> rfl

theorem storing_withoutTables (st : CopyState) : Storing st.memory (withoutTables st) where
  values := ⟨fun _ _ => rfl, by simp [withoutTables], by simp [withoutTables]⟩
  done := by simp [withoutTables]
  blocks := ⟨fun _ _ => rfl, fun _ _ => rfl, ⟨by simp [withoutTables], by simp [withoutTables]⟩,
    ⟨by simp [withoutTables], by simp [withoutTables]⟩, by simp [withoutTables],
    by simp [withoutTables]⟩

/-- The functions of the script -/
theorem persistFunctions_spec (hg : ScriptGraph InProcess n M script) (hst : Storing M st)
    (hfree : ∀ k, st.cl.lookup k = none) : ∃ st' functions,
      mapAccum (persistFunction n) script.functionTable st = .ok (st', functions) ∧
      StoredTo M st (fun k => ∃ e ∈ script.functionTable, k = .fn e.2) st' ∧
      List.Forall₂ (FunctionStored M st') script.functionTable functions := by
  apply mapAccum_effect (storedTo_effectRel M) (e := fun e k => k = .fn e.2)
    (fun hs h hm => hm.step (h.kept hs)) script.functionTable [] st hst
  · simp
  · have hne := List.pairwise_map.mp hg.functionBuckets
    refine hne.imp ?_
    rintro e e' hee k rfl hk
    exact hee (Bucket.fn.inj hk)
  · exact fun _ _ k _ => hfree k
  · intro l₁ e l₂ hl A t ht _ _ hfreet
    obtain ⟨hP, f, hf, hv, hu⟩ := hg.function e (by simp [hl])
    exact persistFunction_spec ht hP hf hv (.unlinked hu) (hfreet _ rfl)

/-- The methods of a class that was copied are in the table. -/
theorem ClassStored.method {e e' : HashKey × Addr} (h : ClassStored M st e e') {f : Addr}
    (hf : IsMethod M e.2 f) : ∃ g, st.cl.functionXlat f = some g := by
  obtain ⟨-, c, c', hc, -, hs⟩ := h
  obtain ⟨d, k, hd, hmem⟩ := hf
  obtain rfl : c = d := Option.some.inj (hc.symm.trans hd)
  obtain ⟨m, -, hm⟩ := forall₂_left hs.methods hmem
  exact ⟨m.2, hm.1.2⟩

/-- The classes of the script, where functions outside of classes were copied before -/
theorem persistClasses_spec (hg : ScriptGraph InProcess n M script) (hst : Storing M st)
    (hfree : ∀ k, (∀ e ∈ script.functionTable, k ≠ .fn e.2) → st.cl.lookup k = none) :
    ∃ st' classes A, mapAccum (persistClassEntry n) script.classTable st = .ok (st', classes) ∧
      StoredTo M st A st' ∧ List.Forall₂ (ClassStored M st') script.classTable classes := by
  have hmap := mapAccum_effect (storedTo_effectRel M) (f := persistClassEntry n)
    (Q := ClassStored M) (e := fun e => classBuckets M e.2) (fun hs h hm => hm.step hs h)
    script.classTable [] st hst (by simp) ?_ ?_ ?_
  · obtain ⟨st', classes, hok, hto, hall⟩ := hmap
    exact ⟨st', classes, _, hok, hto, hall⟩
  · have hne := List.pairwise_map.mp hg.classBuckets
    refine hne.imp_of_mem ?_
    rintro e e' hmem hmem' hee k (rfl | ⟨f, hf, rfl⟩) (hk | ⟨f', hf', hk⟩)
    · exact hee (Bucket.cls.inj hk)
    · cases hk
    · cases hk
    · obtain rfl := Bucket.fn.inj hk
      exact hee (hg.oneClass e hmem e' hmem' f hf hf')
  · rintro e hmem k (rfl | ⟨f, hf, rfl⟩)
    · exact hfree _ fun _ _ => by simp
    · apply hfree
      intro e' hmem' hk
      exact hg.notMethod e' hmem' e hmem (Bucket.fn.inj hk ▸ hf)
  · rintro l₁ ⟨key, a⟩ l₂ hl A t ht hto hdone hfreet
    simp only [List.nil_append] at hdone
    obtain ⟨hP, c, hc⟩ := hg.cls (key, a) (by simp [hl])
    have hentered : ∀ s ∈ l₁.map Prod.snd, ∃ e ∈ l₁, e.2 = s ∧ ∃ e', ClassStored M t e e' := by
      intro s hs
      obtain ⟨e, hmem, rfl⟩ := List.mem_map.mp hs
      exact ⟨e, hmem, rfl, hdone e hmem⟩
    apply persistClassEntry_spec ht hP hc
    · intro s hs
      rcases hg.ancestor_mem hs hl with rfl | hs
      · exact .inl rfl
      · obtain ⟨e, -, rfl, e', he⟩ := hentered s hs
        exact .inr ⟨e'.2, he.1.2⟩
    · intro s p hs hp
      obtain ⟨e, -, rfl, e', he⟩ := hentered s (hg.proper_ancestor hs hl).1
      exact he.method hp
    · exact hfreet

/-- The copies of different buckets are different. -/
theorem forall₂_nodup {α β : Type*} {R : α → β → Prop} (hR : ∀ a a' b, R a b → R a' b → a = a')
    {l : List α} {l' : List β} (h : List.Forall₂ R l l') (hl : l.Nodup) : l'.Nodup := by
  induction h with
  | nil => exact List.nodup_nil
  | cons hab htail ih =>
    obtain ⟨hnew, hl⟩ := List.nodup_cons.mp hl
    refine List.nodup_cons.mpr ⟨fun hmem => ?_, ih hl⟩
    obtain ⟨a', ha', hab'⟩ := forall₂_right htail hmem
    exact hnew (hR _ a' _ hab hab' ▸ ha')

/-- The values of an entry list with related entries -/
theorem forall₂_values {R : Addr → Addr → Prop} {l l' : List (HashKey × Addr)}
    (h : List.Forall₂ (EntryRel R) l l') :
    l.map Prod.fst = l'.map Prod.fst ∧ List.Forall₂ R (l.map Prod.snd) (l'.map Prod.snd) := by
  induction h with
  | nil => exact ⟨rfl, .nil⟩
  | cons hee _ ih => exact ⟨by simp [hee.1, ih.1], .cons hee.2 ih.2⟩

theorem classBuckets_nodup (hg : ScriptGraph InProcess n M script) (hst : Storing M st)
    {classes : List (HashKey × Addr)}
    (h : List.Forall₂ (ClassStored M st) script.classTable classes) :
    (classes.map Prod.snd).Nodup :=
  forall₂_nodup hst.blocks.classXlat.inj (forall₂_values (h.imp fun _ _ he => he.1)).2
    hg.classBuckets

/-- The classes in shared memory are ready for `zend_update_parent_ce`. -/
theorem ScriptGraph.readyToRelink (hg : ScriptGraph InProcess n M script) (hst : Storing M st)
    {classes : List (HashKey × Addr)}
    (h : List.Forall₂ (ClassStored M st) script.classTable classes) {e' : HashKey × Addr}
    (hmem' : e' ∈ classes) : ∃ c', st.cl.classes e'.2 = some c' ∧ ReadyToRelink st.cl e'.2 c' := by
  obtain ⟨⟨key, a⟩, hmem, he⟩ := forall₂_right h hmem'
  obtain ⟨⟨-, hx⟩, c, c', hc, hc', hs⟩ := he
  obtain ⟨l₁, l₂, hl⟩ := List.append_of_mem hmem
  obtain ⟨-, d, hd⟩ := hg.cls (key, a) hmem
  obtain rfl : c = d := Option.some.inj (hc.symm.trans hd.block)
  refine ⟨c', hc', ⟨a, hx⟩, ?_, ?_⟩
  · intro p hp
    rw [hs.parent] at hp
    obtain ⟨e, he, rfl⟩ := List.mem_map.mp (hg.parentFirst l₁ _ l₂ hl p ⟨c, hc, hp⟩)
    obtain ⟨q, -, hq⟩ := forall₂_left h (show e ∈ script.classTable by simp [hl, he])
    refine ⟨q.2, hq.1.2, fun hqe => ?_⟩
    have hsame : e.2 = a := hst.blocks.classXlat.inj _ _ _ hq.1.2 (hqe ▸ hx)
    have hnodup := hg.classBuckets
    rw [hl, List.map_append, List.map_cons] at hnodup
    exact (List.nodup_append.mp hnodup).2.2 e.2 (List.mem_map_of_mem he) a (by simp) hsame
  · intro i f hf
    rw [hs.handler] at hf
    obtain ⟨s, hs, hm⟩ := hd.links.handler i f hf
    obtain ⟨e, he, rfl⟩ := hg.ancestor_in hmem hs
    obtain ⟨q, -, hq⟩ := forall₂_left h he
    exact hq.method hm

/-- The classes after `zend_update_parent_ce` and copies of more values -/
theorem RelinkedTo.kept {l : List Addr} (h : RelinkedTo M st.cl l cl)
    (hzv : PersistedTo M.zvals st.zv zv) : FunctionsKept st ⟨zv, cl⟩ where
  zvals := hzv.xlat
  lookup k b hb := by
    cases k with
    | cls a => simpa [ClassState.lookup, h.classXlat] using hb
    | fn a => simpa [ClassState.lookup, h.functionXlat] using hb
  functions _ _ f _ hf := h.functions _ f hf

theorem RelinkedTo.linkedClass {l : List Addr} (h : RelinkedTo M st.cl l cl)
    (hzv : PersistedTo M.zvals st.zv zv) {e e' : HashKey × Addr} (he : ClassStored M st e e')
    (hl : e'.2 ∈ l) (hready : ∀ c, st.cl.classes e'.2 = some c → ReadyToRelink st.cl e'.2 c)
    (howner : ∀ c, M.classes e.2 = some c → ∀ p ∈ c.propertiesInfo, ∃ s b, p.2 = some s ∧
      st.cl.classXlat s = some b) : ClassImage M ⟨zv, cl⟩ e e' := by
  obtain ⟨⟨hk, hx⟩, c, c', hc, hc', hs⟩ := he
  obtain ⟨c'', hc'', j, rfl⟩ := h.block e'.2 hl c' hc'
  have hclass : cl.classXlat = st.cl.classXlat := h.classXlat
  have hfunction : cl.functionXlat = st.cl.functionXlat := h.functionXlat
  have hto := hready c' hc'
  refine ⟨⟨hk, by dsimp only; rw [hclass, hx]⟩, c, _, hc, hc'', ?_⟩
  constructor
  · exact hs.name
  · exact hs.refcount.ge.trans (Nat.le_add_right _ _)
  · dsimp only [relink]
    rw [hclass, ← hs.parent]
    cases hp : c'.parent with
    | none => exact .none
    | some p =>
      obtain ⟨q, hq, -⟩ := hto.parent p hp
      rw [Option.bind_some, hq]
      exact .some hq
  · dsimp only [relink]
    rw [hclass, hs.info]
    have hall := howner c hc
    generalize c.propertiesInfo = info at hall
    induction info with
    | nil => exact .nil
    | cons p info ih =>
      obtain ⟨s, b, hp, hb⟩ := hall p List.mem_cons_self
      refine .cons ⟨rfl, ?_⟩ (ih fun q hq => hall q (List.mem_cons_of_mem _ hq))
      dsimp only
      rw [hp, Option.bind_some, hb]
      exact .some hb
  · intro i
    dsimp only [relink]
    rw [hfunction, ← hs.handler]
    cases hf : c'.handler i with
    | none => exact .none
    | some f =>
      obtain ⟨g, hg⟩ := hto.handler i f hf
      rw [Option.bind_some, hg]
      exact .some hg
  · exact hs.methods.imp fun _ _ hm => hm.step (h.kept hzv)
  · exact ⟨(hs.zvals.step hzv.xlat).properties, (hs.zvals.step hzv.xlat).statics,
      (hs.zvals.step hzv.xlat).constants⟩

theorem RelinkedTo.marked (hg : ScriptGraph InProcess n M script)
    {classes : List (HashKey × Addr)} (h : RelinkedTo M st.cl (classes.map Prod.snd) cl)
    (hall : List.Forall₂ (ClassStored M st) script.classTable classes)
    (himage : List.Forall₂ (ClassImage M ⟨zv, cl⟩) script.classTable classes)
    {functions : List (HashKey × Addr)} {main : ZendFunction} :
    Marked (CopyState.memory ⟨zv, cl⟩) ⟨functions, classes, main⟩ := by
  have hstored : ∀ e' ∈ classes, ∀ c'', cl.classes e'.2 = some c'' →
      ∃ c', st.cl.classes e'.2 = some c' ∧ RefUp (relink st.cl c') c'' := by
    intro e' hmem c'' hc''
    obtain ⟨e, -, -, c, c', -, hc', -⟩ := forall₂_right hall hmem
    obtain ⟨d, hd, hup⟩ := h.block e'.2 (List.mem_map_of_mem hmem) c' hc'
    obtain rfl : d = c'' := Option.some.inj (hd.symm.trans hc'')
    exact ⟨c', hc', hup⟩
  constructor
  · rintro e' hmem q ⟨c'', hc'', hq⟩
    obtain ⟨c', hc', j, rfl⟩ := hstored e' hmem c'' hc''
    obtain ⟨d', hd', hlt⟩ := h.parent e'.2 (List.mem_map_of_mem hmem) c' q hc' hq
    refine ⟨d', hd', ?_⟩
    obtain ⟨p, hp, hpq⟩ := Option.bind_eq_some_iff.mp hq
    obtain ⟨e, hemem, -, c, c₀, hc, hc₀, hs⟩ := forall₂_right hall hmem
    obtain rfl : c₀ = c' := Option.some.inj (hc₀.symm.trans hc')
    rw [hs.parent] at hp
    obtain ⟨ep, hep, rfl⟩ := hg.ancestor_in hemem (.single ⟨c, hc, hp⟩)
    obtain ⟨eq, -, ⟨-, hx⟩, d₀, d, hd₀, hd, hds⟩ := forall₂_left hall hep
    obtain rfl : eq.2 = q := Option.some.inj (hx.symm.trans hpq)
    obtain ⟨-, d₁, hd₁⟩ := hg.cls ep hep
    obtain rfl : d₀ = d₁ := Option.some.inj (hd₀.symm.trans hd₁.block)
    have hone := hd₁.refcount
    have hless := hlt d hd
    rw [hds.refcount] at hless
    omega
  · intro e' hmem c'' hc'' i g hg'
    obtain ⟨c', hc', j, rfl⟩ := hstored e' hmem c'' hc''
    exact h.handler e'.2 (List.mem_map_of_mem hmem) c' i g hc' hg'
  · rintro e' hmem m f p ⟨c'', k, hc'', hm⟩ hf hp
    obtain ⟨e, -, -, c, d, -, hd, hlink⟩ := forall₂_right himage hmem
    obtain rfl : d = c'' := Option.some.inj (hd.symm.trans hc'')
    obtain ⟨m', -, -, f₀, f', -, hf', hi⟩ := forall₂_right hlink.methods hm
    obtain rfl : f' = f := Option.some.inj (hf'.symm.trans hf)
    exact hi.counted p hp

/-- `zend_accel_script_persist` of the graph of a script -/
theorem zendAccelScriptPersist_image (hg : ScriptGraph InProcess n st.memory script) :
    ∃ st' script', zendAccelScriptPersist n st script = .ok (st', script') ∧
      ImageOf st.memory script st' script' ∧ Marked st'.memory script' := by
  obtain ⟨st₁, functions, hfs, hto₁, hall₁⟩ := persistFunctions_spec hg (storing_withoutTables st)
    (withoutTables_lookup st)
  obtain ⟨st₂, classes, A, hcs, hto₂, hall₂⟩ := persistClasses_spec hg hto₁.inv (by
    intro k hk
    apply hto₁.grow.only
    · rintro ⟨e, hmem, rfl⟩
      exact hk e hmem rfl
    · exact withoutTables_lookup st k)
  have hst₂ := hto₂.inv
  obtain ⟨cl, hrelink, hto₃⟩ := updateParentCes_spec classes st₂.cl hst₂.blocks
    (classBuckets_nodup hg hst₂ hall₂) fun e hmem => hg.readyToRelink hst₂ hall₂ hmem
  obtain ⟨zv, literals, statics, hmain, hto₄, hsame⟩ :=
    persistFunctionZvals_spec hst₂.values hg.main.1
  let main : ZendFunction :=
    { script.mainOpArray with literals := literals, staticVariables := statics }
  have hready : LinksReady cl main := .unlinked ⟨hg.main.2.scope, hg.main.2.prototype⟩
  obtain ⟨s, p, hlinks, hscope, hproto⟩ := persistLinks_spec hready
  have hp : p = none := by
    rw [show main.prototype = none from hg.main.2.prototype] at hproto
    cases hproto
    rfl
  subst hp
  have hkept := hto₃.kept hto₄
  have himage : List.Forall₂ (ClassImage st.memory ⟨zv, cl⟩) script.classTable classes := by
    apply forall₂_imp_mem hall₂
    intro e hmem e' hmem' he
    apply hto₃.linkedClass hto₄ he (List.mem_map_of_mem hmem')
    · intro c hc
      obtain ⟨c', hc', hready⟩ := hg.readyToRelink hst₂ hall₂ hmem'
      obtain rfl : c' = c := Option.some.inj (hc'.symm.trans hc)
      exact hready
    · intro c hc p hp
      obtain ⟨-, d, hd⟩ := hg.cls e hmem
      obtain rfl : c = d := Option.some.inj (hc.symm.trans hd.block)
      obtain ⟨t, ht, hanc⟩ := hd.links.owner p hp
      obtain ⟨e₁, he₁, rfl⟩ := hg.ancestor_in hmem hanc
      obtain ⟨e₂, -, hx, -⟩ := forall₂_left hall₂ he₁
      exact ⟨e₁.2, e₂.2, ht, hx.2⟩
  refine ⟨⟨zv, cl⟩, ⟨functions, classes,
    { main with scope := s, prototype := none, refcount := 0 }⟩,
    ?_, ⟨hto₄.inv, (hst₂.step hto₄ hto₃.inv).done, hto₃.inv, ?_, himage, ?_⟩,
    hto₃.marked hg hall₂ himage⟩
  · unfold withoutTables at hfs
    unfold main at hlinks
    simp only [zendAccelScriptPersist, bind, Except.bind, hfs, hcs, hrelink, hmain]
    rw [hlinks]
    rfl
  · exact hall₁.imp fun _ _ hf => (hf.step (hto₂.kept hto₁.inv)).step hkept
  · exact ⟨rfl, ⟨hsame.literals, hsame.statics⟩, hscope, hproto, by simp⟩

end Persist

end ZendOpcache
