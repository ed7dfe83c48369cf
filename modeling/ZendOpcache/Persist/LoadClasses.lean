import ZendOpcache.Persist.LoadMethods

/-! # Classes in the process

`zend_class_copy_ctor` succeeds when the ancestors of the class and their marked methods are found.
The copy then points to copies only. Static members are bound: two slots with one value get copies
that are one value too.
-/

namespace ZendOpcache

namespace Persist

open Relation

variable {H : ZvalHeap} {M : ScriptMemory} {C C' F F' L : Addr → Addr → Prop} {n : ℕ}
  {st st' : CopyState} {cl cl' : ClassState} {zv zv' : ZvalState} {a b r s old new : Addr}

/-! ## Slots of static members -/

/-- The pairs of slots in `L`, with which pairs of equal copies are pairs of equal originals -/
structure SlotLog (H : ZvalHeap) (zv : ZvalState) (L : Addr → Addr → Prop) : Prop where
  slot : ∀ s r, L s r → ProcessIn 0 zv.next r
  table : ∀ s r a, L s r → zv.xlat a = some r → a = s
  shared : ∀ s r z, L s r → H s = some z → z.refcount ≠ 1 → zv.xlat s = some r
  count : ∀ s r, L s r → ∃ z z', H s = some z ∧ zv.zvals r = some z' ∧ SameCount z z'
  one : ∀ s s' r, L s r → L s' r → s = s'

theorem SlotLog.step (hL : SlotLog H zv L) (h : LoadedTo H n zv zv') : SlotLog H zv' L where
  slot s r hsr := (hL.slot s r hsr).mono le_rfl h.next
  table s r a hsr ha := by
    cases hx : zv.xlat a with
    | none =>
      obtain ⟨k, -, hk, rfl⟩ := hL.slot s r hsr
      obtain ⟨j, hj, -, hkj⟩ := h.fresh a _ ha hx
      obtain rfl := Addr.process.inj hkj
      exact absurd hk (Nat.not_lt.mpr hj)
    | some b =>
      obtain rfl : b = r := Option.some.inj ((h.xlat a b hx).symm.trans ha)
      exact hL.table s b a hsr hx
  shared s r z hsr hz hne := h.xlat s r (hL.shared s r z hsr hz hne)
  count s r hsr := by
    obtain ⟨z, z', hz, hz', hc⟩ := hL.count s r hsr
    obtain ⟨k, -, hk, rfl⟩ := hL.slot s r hsr
    exact ⟨z, z', hz, by rw [h.frame k hk, hz'], hc⟩
  one := hL.one

theorem SlotLog.bound (hzv : Loading H n zv) (hL : SlotLog H zv L) (h : LoadedTo H n zv zv')
    (hb : Bound H n zv zv' s r) : SlotLog H zv' (withPair L s r) := by
  have hL' := hL.step h
  obtain ⟨z, z', hz, hz', hcount, hmany, hone⟩ := hb.count
  have hnew : ∀ {x}, z.refcount = 1 → ProcessIn 0 zv.next x → x ≠ r := by
    rintro x h1 ⟨k, -, hk, rfl⟩ rfl
    obtain ⟨j, hj, -, hkj⟩ := (hone h1).2
    obtain rfl := Addr.process.inj hkj
    exact absurd hk (Nat.not_lt.mpr hj)
  have htable : ∀ a, zv'.xlat a = some r → a = s := by
    intro a ha
    by_cases h1 : z.refcount = 1
    · rw [(hone h1).1] at ha
      exact absurd rfl (hnew h1 (hzv.copy a r ha).within.inside)
    · exact h.inv.inj a s r ha (hmany h1)
  have hpair : ∀ s', L s' r → s' = s := by
    intro s' hs'
    by_cases h1 : z.refcount = 1
    · exact absurd rfl (hnew h1 (hL.slot s' r hs'))
    · exact (hL'.table s' r s hs' (hmany h1)).symm
  constructor
  · rintro x y (hxy | ⟨rfl, rfl⟩)
    · exact hL'.slot x y hxy
    · exact hb.copy.within.inside
  · rintro x y a (hxy | ⟨rfl, rfl⟩) ha
    · exact hL'.table x y a hxy ha
    · exact htable a ha
  · rintro x y w (hxy | ⟨rfl, rfl⟩) hw hne
    · exact hL'.shared x y w hxy hw hne
    · obtain rfl : z = w := Option.some.inj (hz.symm.trans hw)
      exact hmany hne
  · rintro x y (hxy | ⟨rfl, rfl⟩)
    · exact hL'.count x y hxy
    · exact ⟨z, z', hz, hz', hcount⟩
  · rintro x x' y (hxy | ⟨hx, hy⟩) (hxy' | ⟨hx', hy'⟩)
    · exact hL.one x x' y hxy hxy'
    · subst hx' hy'
      exact hpair x hxy
    · subst hx hy
      exact (hpair x' hxy').symm
    · exact hx.trans hx'.symm

/-- The pairs with those of two tables of slots -/
def withSlots (L : Addr → Addr → Prop) (slots slots' : List (Option Addr)) (x y : Addr) : Prop :=
  L x y ∨ (some x, some y) ∈ slots.zip slots'

/-- The slots of static members, in which null has no copy -/
theorem cloneStatics_spec : ∀ (slots : List (Option Addr)) (zv : ZvalState), Loading H n zv →
    (∀ slot ∈ slots, ∀ a ∈ slot, Within InShared H n a) → ∃ zv' slots',
      mapAccum (cloneSlot n true) slots zv = .ok (zv', slots') ∧ LoadedTo H n zv zv' ∧
        List.Forall₂ (SlotCopy H n zv') slots slots' ∧
        ∀ L, SlotLog H zv L → SlotLog H zv' (withSlots L slots slots') := by
  intro slots
  induction slots with
  | nil =>
    intro zv hzv _
    refine ⟨zv, [], rfl, (loadedTo_stepRel H n).refl hzv, .nil, fun L hL => ?_⟩
    have hsame : withSlots L [] [] = L := by
      funext x y
      simp [withSlots]
    rwa [hsame]
  | cons slot slots ih =>
    intro zv hzv hall
    have hrest := fun slot' hmem => hall slot' (List.mem_cons_of_mem _ hmem)
    cases slot with
    | none =>
      obtain ⟨zv', slots', hmap, hto, hcopy, hlog⟩ := ih zv hzv hrest
      refine ⟨zv', none :: slots', mapAccum_cons_ok.mpr ⟨zv, none, slots', rfl, hmap, rfl⟩, hto,
        .cons .none hcopy, fun L hL => ?_⟩
      have hsame : withSlots L (none :: slots) (none :: slots') = withSlots L slots slots' := by
        funext x y
        simp [withSlots]
      rw [hsame]
      exact hlog L hL
    | some a =>
      obtain ⟨zv₁, b, hclone, hto, hbound⟩ :=
        cloneBound_spec hzv (hall (some a) List.mem_cons_self a rfl)
      obtain ⟨zv', slots', hmap, hto', hcopy, hlog⟩ := ih zv₁ hto.inv hrest
      have hslot : cloneSlot n true zv (some a) = .ok (zv₁, some b) := by
        simp [cloneSlot, hclone, bind, Except.bind]
      refine ⟨zv', some b :: slots', mapAccum_cons_ok.mpr ⟨zv₁, some b, slots', hslot, hmap, rfl⟩,
        (loadedTo_stepRel H n).trans hzv hto hto', .cons (.some (hbound.copy.kept hto'.kept)) hcopy,
        fun L hL => ?_⟩
      have hsame : withSlots L (some a :: slots) (some b :: slots') =
          withSlots (withPair L a b) slots slots' := by
        funext x y
        simp [withSlots, withPair, or_assoc]
      rw [hsame]
      exact hlog _ (hL.bound hzv hto hbound)

/-! ## Pointers of a class -/

theorem clonePropInfo_spec (hcl : LoadingClasses M C F cl) (name : List UInt8) (hnew : C old new) :
    ∀ (properties : List (HashKey × Option Addr)),
      (∀ p ∈ properties, ∃ s, p.2 = some s ∧ (s = old ∨ ∃ x, cl.classXlat s = some x)) →
      ∃ info, clonePropInfo cl name old new properties = .ok info ∧
        List.Forall₂ (fun p p' => p.1 = p'.1 ∧ Option.Rel C p.2 p'.2) properties info := by
  intro properties
  induction properties with
  | nil => exact fun _ => ⟨[], rfl, .nil⟩
  | cons p properties ih =>
    intro hall
    obtain ⟨s, hs, hfound⟩ := hall p List.mem_cons_self
    obtain ⟨t, ht, hst⟩ := copyOwner_spec hcl name hnew hs hfound
    obtain ⟨info, hinfo, hrel⟩ := ih fun q hq => hall q (List.mem_cons_of_mem _ hq)
    refine ⟨(p.1, some t) :: info, ?_, .cons ⟨rfl, ?_⟩ hrel⟩
    · unfold clonePropInfo at hinfo ⊢
      rw [List.mapM_cons, ht, hinfo]
      rfl
    · rw [hs]
      exact .some hst

theorem updateInheritedHandlers_spec (hcl : LoadingClasses M C F cl) (name : List UInt8)
    (handler : Handler → Option Addr)
    (hfound : ∀ h g, handler h = some g → ∃ x, cl.functionXlat g = some x) :
    ∃ hs, updateInheritedHandlers cl name handler = .ok hs ∧
      ∀ h, Option.Rel F (handler h) (hs h) := by
  have hfold : ∀ (l : List Handler) (hs : Handler → Option Addr), ∃ hs',
      l.foldlM (fun hs h => do
        let g ← copyPointer cl.functionXlat name (handler h)
        .ok (Function.update hs h g)) hs = Except.ok hs' ∧
      (∀ h ∈ l, Option.Rel F (handler h) (hs' h)) ∧ ∀ h ∉ l, hs' h = hs h := by
    intro l
    induction l with
    | nil => exact fun hs => ⟨hs, rfl, by simp, fun _ _ => rfl⟩
    | cons i l ih =>
      intro hs
      obtain ⟨g, hg, hrel⟩ := copyPointer_spec hcl.fn name (hfound i)
      obtain ⟨hs', hok, hin, hout⟩ := ih (Function.update hs i g)
      refine ⟨hs', ?_, ?_, ?_⟩
      · rw [List.foldlM_cons, hg]
        exact hok
      · intro h hmem
        by_cases hl : h ∈ l
        · exact hin h hl
        · obtain rfl := (List.mem_cons.mp hmem).resolve_right hl
          rw [hout h hl, Function.update_self]
          exact hrel
      · intro h hmem
        rw [List.mem_cons, not_or] at hmem
        rw [hout h hmem.2, Function.update_of_ne hmem.1]
  obtain ⟨hs, hok, hin, -⟩ := hfold Handler.all handler
  exact ⟨hs, hok, fun h => hin h (Handler.mem_all h)⟩

/-! ## The block of a class -/

/-- The state with a new block for a copy of a class, which is entered if it has a mark -/
def allocateClass (cl : ClassState) (a : Addr) (c : ZendClassEntry) : ClassState :=
  let cl' := { cl.writeClass (.process cl.nextClass) { c with refcount := 1 } with
    nextClass := cl.nextClass + 1 }
  if c.refcount ≠ 1 then cl'.registerClass a (.process cl.nextClass) else cl'

structure AllocatedClass (M : ScriptMemory) (C F : Addr → Addr → Prop) (cl : ClassState) (a : Addr)
    (c : ZendClassEntry) (cl' : ClassState) : Prop where
  load : ClassLoad cl cl'
  loading : LoadingClasses M (withPair C a (.process cl.nextClass)) F cl'
  nextClass : cl'.nextClass = cl.nextClass + 1
  nextFunction : cl'.nextFunction = cl.nextFunction
  classXlat : ∀ x, x ≠ a → cl'.classXlat x = cl.classXlat x
  marked : c.refcount ≠ 1 → ∃ b, cl'.classXlat a = some b

theorem allocateClass_spec (hcl : LoadingClasses M C F cl) (a : Addr) (c : ZendClassEntry) :
    AllocatedClass M C F cl a c (allocateClass cl a c) := by
  have hshared : ∀ x, InShared x → (cl.writeClass (.process cl.nextClass)
      { c with refcount := 1 }).classes x = M.classes x := by
    rintro x ⟨k, rfl⟩
    rw [← hcl.classShared _ ⟨k, rfl⟩]
    simp [ClassState.writeClass]
  have hframe : ∀ k < cl.nextClass, (cl.writeClass (.process cl.nextClass)
      { c with refcount := 1 }).classes (.process k) = cl.classes (.process k) := by
    intro k hk
    simp [ClassState.writeClass, hk.ne]
  unfold allocateClass
  by_cases hc : c.refcount ≠ 1
  · simp only [if_pos hc]
    refine ⟨⟨Nat.le_succ _, le_rfl, ?_, fun _ b h => ⟨b, h⟩, hframe, fun _ _ => rfl⟩,
      ⟨hshared, hcl.functionShared, ?_, hcl.fn⟩, rfl, rfl, ?_, ?_⟩
    · intro x y hxy
      by_cases hx : x = a
      · exact ⟨.process cl.nextClass, by simp [ClassState.registerClass, hx]⟩
      · exact ⟨y, by simp [ClassState.registerClass, ClassState.writeClass, hx, hxy]⟩
    · intro x y hxy
      by_cases hx : x = a
      · subst hx
        simp only [ClassState.registerClass, Function.update_self, Option.some.injEq] at hxy
        exact .inr ⟨rfl, hxy.symm⟩
      · left
        apply hcl.cls
        simpa [ClassState.registerClass, ClassState.writeClass, hx] using hxy
    · intro x hx
      simp [ClassState.registerClass, ClassState.writeClass, hx]
    · exact fun _ => ⟨.process cl.nextClass, by simp [ClassState.registerClass]⟩
  · simp only [if_neg hc]
    exact ⟨⟨Nat.le_succ _, le_rfl, fun _ b h => ⟨b, h⟩, fun _ b h => ⟨b, h⟩, hframe,
      fun _ _ => rfl⟩,
      ⟨hshared, hcl.functionShared, fun x y hxy => .inl (hcl.cls x y hxy), hcl.fn⟩, rfl, rfl,
      fun _ _ => rfl, fun h => absurd h hc⟩

/-! ## The copy of a class -/

/-- A class of the process that points to copies only, with copies of its values -/
structure CopiedClass (M : ScriptMemory) (n : ℕ) (C F : Addr → Addr → Prop) (lo : ℕ)
    (st : CopyState) (c c' : ZendClassEntry) : Prop where
  parent : Option.Rel C c.parent c'.parent
  handler : ∀ h, Option.Rel F (c.handler h) (c'.handler h)
  owner : List.Forall₂ (fun p p' => p.1 = p'.1 ∧ Option.Rel C p.2 p'.2) c.propertiesInfo
    c'.propertiesInfo
  methods : List.Forall₂ (MethodCopy M n C F lo st) c.functionTable c'.functionTable
  properties : List.Forall₂ (SlotCopy M.zvals n st.zv) c.defaultPropertiesTable
    c'.defaultPropertiesTable
  statics : List.Forall₂ (SlotCopy M.zvals n st.zv) c.defaultStaticMembersTable
    c'.defaultStaticMembersTable
  constants : List.Forall₂ (EntryCopy M.zvals n st.zv) c.constantsTable c'.constantsTable

theorem slotCopies_kept {slots slots' : List (Option Addr)}
    (h : List.Forall₂ (SlotCopy H n zv) slots slots') (hzv : ZvalsKept zv zv') :
    List.Forall₂ (SlotCopy H n zv') slots slots' :=
  h.imp fun _ _ => rel_mono fun _ _ hc => hc.kept hzv

theorem entryCopies_kept {es es' : List (HashKey × Addr)}
    (h : List.Forall₂ (EntryCopy H n zv) es es') (hzv : ZvalsKept zv zv') :
    List.Forall₂ (EntryCopy H n zv') es es' :=
  h.imp fun _ _ he => ⟨he.1, he.2.kept hzv⟩

theorem CopiedClass.step {lo lo' : ℕ} {c c' : ZendClassEntry} (h : CopiedClass M n C F lo st c c')
    (hzv : ZvalsKept st.zv st'.zv) (hcl : ClassLoad st.cl st'.cl) (hlo : lo' ≤ lo)
    (hC : ∀ a b, C a b → C' a b) (hF : ∀ a b, F a b → F' a b) :
    CopiedClass M n C' F' lo' st' c c' where
  parent := rel_mono hC h.parent
  handler i := rel_mono hF (h.handler i)
  owner := h.owner.imp fun _ _ hp => ⟨hp.1, rel_mono hC hp.2⟩
  methods := h.methods.imp fun _ _ hm => hm.step hzv hcl hlo hC hF
  properties := slotCopies_kept h.properties hzv
  statics := slotCopies_kept h.statics hzv
  constants := entryCopies_kept h.constants hzv

/-- The ancestors of the class at `a` are found, and their methods that have a mark. -/
structure AncestorsFound (M : ScriptMemory) (cl : ClassState) (a : Addr) : Prop where
  cls : ∀ s, TransGen (ParentOf M) a s → ∃ x, cl.classXlat s = some x
  fn : ∀ s f g, TransGen (ParentOf M) a s → IsMethod M s f → M.functions f = some g →
    g.refcount ≠ 0 → ∃ x, cl.functionXlat f = some x

theorem AncestorsFound.step (h : AncestorsFound M cl a) (hcl : ClassLoad cl cl') :
    AncestorsFound M cl' a where
  cls s hs := by
    obtain ⟨x, hx⟩ := h.cls s hs
    exact hcl.cls s x hx
  fn s f g hs hf hg hne := by
    obtain ⟨x, hx⟩ := h.fn s f g hs hf hg hne
    exact hcl.fn f x hx

theorem AncestorsFound.owner (h : AncestorsFound M cl a) {s : Addr}
    (hs : ReflTransGen (ParentOf M) a s) : s = a ∨ ∃ x, cl.classXlat s = some x :=
  (reflTransGen_iff_eq_or_transGen.mp hs).imp_right (h.cls s)

/-- The marks of what the class at `a` points to -/
structure ClassMarks (M : ScriptMemory) (a : Addr) (c : ZendClassEntry) : Prop where
  handler : ∀ h g, c.handler h = some g → ∃ f, M.functions g = some f ∧ f.refcount ≠ 0
  prototype : ∀ m f p, IsMethod M a m → M.functions m = some f → f.prototype = some p →
    ∃ g, M.functions p = some g ∧ g.refcount ≠ 0

/-- What `zend_class_copy_ctor` leaves -/
structure ClassCopied (M : ScriptMemory) (n : ℕ) (C F : Addr → Addr → Prop) (st : CopyState)
    (a : Addr) (c : ZendClassEntry) (st' : CopyState) (b : Addr) (c' : ZendClassEntry) : Prop where
  block : st'.cl.classes b = some c'
  new : ProcessIn st.cl.nextClass st'.cl.nextClass b
  kept : ZvalsKept st.zv st'.zv
  zvals : Loading M.zvals n st'.zv
  load : ClassLoad st.cl st'.cl
  loading : LoadingClasses M (withPair C a b) (withPairs F c.functionTable c'.functionTable) st'.cl
  copied : CopiedClass M n (withPair C a b) (withPairs F c.functionTable c'.functionTable)
    st.cl.nextFunction st' c c'
  marked : c.refcount ≠ 1 → ∃ x, st'.cl.classXlat a = some x
  log : ∀ L, SlotLog M.zvals st.zv L →
    SlotLog M.zvals st'.zv (withSlots L c.defaultStaticMembersTable c'.defaultStaticMembersTable)

theorem zendClassCopyCtor_spec {c : ZendClassEntry} (hzv : Loading M.zvals n st.zv)
    (hcl : LoadingClasses M C F st.cl) (ha : InShared a) (hc : ClassBlock InShared n M a c)
    (hanc : AncestorsFound M st.cl a) (hmarks : ClassMarks M a c) :
    ∃ st' b c', zendClassCopyCtor n st a = .ok (st', b) ∧ ClassCopied M n C F st a c st' b c' := by
  have hread : st.cl.classes a = some c := by rw [hcl.classShared _ ha, hc.block]
  let b := Addr.process st.cl.nextClass
  let cl₁ := allocateClass st.cl a c
  have halloc : AllocatedClass M C F st.cl a c cl₁ := allocateClass_spec hcl a c
  have hnew : withPair C a b a b := .inr ⟨rfl, rfl⟩
  obtain ⟨zv₁, properties, hprops, hto₁, hall₁⟩ := cloneSlots_spec hzv.shared hc.values.properties
  have hzv₁ := hto₁.loadedTo hzv
  have hanc₁ := hanc.step halloc.load
  -- the methods are found through the class itself and its ancestors
  obtain ⟨st₂, functions, hmethods, hto₂, hall₂⟩ := cloneMethods_spec (n := n) c.name hnew
    c.functionTable ⟨zv₁, cl₁⟩ F hto₁.shared halloc.loading (by
      intro e hmem
      obtain ⟨hshared, f, hf, hv, hl⟩ := hc.method e hmem
      refine ⟨hshared, f, hf, hv, ?_, ?_⟩
      · obtain ⟨s, hs, hsa⟩ := hl.scope
        exact ⟨s, hs, hanc₁.owner hsa⟩
      · intro p hp
        obtain ⟨s, hs, hm⟩ := hl.prototype p hp
        obtain ⟨g, hg, hne⟩ := hmarks.prototype e.2 f p ⟨c, e.1, hc.block, hmem⟩ hf hp
        exact hanc₁.fn s p g hs hm hg hne)
  have hzv₂ := hto₂.zvals.loadedTo hzv₁.inv
  have hanc₂ := hanc₁.step hto₂.load
  obtain ⟨zv₃, statics, hstatics, hto₃, hall₃, hlog⟩ :=
    cloneStatics_spec c.defaultStaticMembersTable st₂.zv hzv₂.inv hc.values.statics
  obtain ⟨info, hinfo, howner⟩ := clonePropInfo_spec hto₂.loading c.name hnew c.propertiesInfo (by
    intro p hp
    obtain ⟨s, hs, hsa⟩ := hc.links.owner p hp
    exact ⟨s, hs, hanc₂.owner hsa⟩)
  obtain ⟨zv₄, constants, hconsts, hto₄, hall₄⟩ :=
    cloneEntries_spec hto₃.inv.shared hc.values.constants
  have hzv₄ := hto₄.loadedTo hto₃.inv
  obtain ⟨parent, hparent, hrel⟩ := copyPointer_spec hto₂.loading.cls c.name (p := c.parent) (by
    intro p hp
    exact hanc₂.cls p (.single ⟨c, hc.block, hp⟩))
  obtain ⟨handler, hhandler, hrel'⟩ :=
    updateInheritedHandlers_spec hto₂.loading c.name c.handler (by
      intro h g hg
      obtain ⟨s, hs, hm⟩ := hc.links.handler h g hg
      obtain ⟨f, hf, hne⟩ := hmarks.handler h g hg
      rcases reflTransGen_iff_eq_or_transGen.mp hs with rfl | hs
      · obtain ⟨d, k, hd, hmem⟩ := hm
        obtain rfl : c = d := Option.some.inj (hc.block.symm.trans hd)
        obtain ⟨e', -, -, -, f₀, -, hf₀, -, -, hmark⟩ := forall₂_left hall₂ hmem
        obtain rfl : f = f₀ := Option.some.inj (hf.symm.trans hf₀)
        exact hmark hne
      · exact hanc₂.fn s g f hs hm hf hne)
  let c' : ZendClassEntry := { c with
    refcount := 1
    defaultPropertiesTable := properties
    functionTable := functions
    defaultStaticMembersTable := statics
    propertiesInfo := info
    constantsTable := constants
    parent := parent
    handler := handler }
  have hload : ClassLoad st.cl st₂.cl := halloc.load.trans hto₂.load
  have hnext : st₂.cl.nextClass = st.cl.nextClass + 1 := hto₂.nextClass.trans halloc.nextClass
  have hload' : ClassLoad st.cl (st₂.cl.writeClass b c') := by
    refine ⟨hload.nextClass, hload.nextFunction, hload.cls, hload.fn, ?_, hload.functionFrame⟩
    intro k hk
    rw [← hload.classFrame k hk]
    simp [ClassState.writeClass, b, hk.ne]
  have hkept₂₄ := hto₃.kept.trans hto₄.kept
  have hkept₁₄ := hto₂.zvals.kept.trans hkept₂₄
  have hmethod : ∀ e e', MethodCopy M n (withPair C a b) (withPairs F c.functionTable functions)
      cl₁.nextFunction st₂ e e' → MethodCopy M n (withPair C a b)
        (withPairs F c.functionTable functions) st.cl.nextFunction
        ⟨zv₄, st₂.cl.writeClass b c'⟩ e e' := by
    intro e e' he
    have hstep : MethodCopy M n (withPair C a b) (withPairs F c.functionTable functions)
        st.cl.nextFunction ⟨zv₄, st₂.cl⟩ e e' :=
      he.step hkept₂₄ (.refl _) halloc.nextFunction.ge (fun _ _ h => h) fun _ _ h => h
    exact hstep
  refine ⟨⟨zv₄, st₂.cl.writeClass b c'⟩, b, c', ?_, ?_⟩
  · unfold cl₁ allocateClass at hmethods
    unfold b at hinfo
    simp only [zendClassCopyCtor, hread, deref_some, bind, Except.bind, hprops]
    rw [hmethods]
    simp only [hstatics, hinfo, hconsts, hparent, hhandler]
    rfl
  constructor
  · simp [ClassState.writeClass]
  · refine ⟨_, le_rfl, ?_, rfl⟩
    exact hnext.symm ▸ Nat.lt_succ_self _
  · exact hto₁.kept.trans hkept₁₄
  · exact hzv₄.inv
  · exact hload'
  · refine ⟨?_, hto₂.loading.functionShared, hto₂.loading.cls, hto₂.loading.fn⟩
    rintro x ⟨k, rfl⟩
    rw [← hto₂.loading.classShared _ ⟨k, rfl⟩]
    simp [ClassState.writeClass, b]
  · exact
      { parent := hrel
        handler := hrel'
        owner := howner
        methods := hall₂.imp hmethod
        properties := slotCopies_kept hall₁ hkept₁₄
        statics := slotCopies_kept hall₃ hto₄.kept
        constants := hall₄ }
  · intro hne
    obtain ⟨x, hx⟩ := halloc.marked hne
    exact hto₂.load.cls a x hx
  · intro L hL
    have hL₂ := (hL.step hzv₁).step hzv₂
    exact (hlog L hL₂).step hzv₄

theorem clonePropInfo_cases (cl : ClassState) (name : List UInt8) (old new : Addr) :
    ∀ (properties : List (HashKey × Option Addr)),
      (∃ info, clonePropInfo cl name old new properties = .ok info) ∨
        clonePropInfo cl name old new properties = .error (.classLoadingError name) := by
  intro properties
  induction properties with
  | nil => exact .inl ⟨[], rfl⟩
  | cons p properties ih =>
    unfold clonePropInfo at ih ⊢
    rw [List.mapM_cons]
    rcases copyOwner_cases cl name old new p.2 with ⟨t, ht⟩ | ht
    · rcases ih with ⟨info, hinfo⟩ | hinfo
      · rw [ht, hinfo]
        exact .inl ⟨(p.1, t) :: info, rfl⟩
      · rw [ht, hinfo]
        exact .inr rfl
    · rw [ht]
      exact .inr rfl

/-- A class is not copied if its parent is not found. -/
theorem zendClassCopyCtor_error {c : ZendClassEntry} {p : Addr} (hzv : Loading M.zvals n st.zv)
    (hcl : LoadingClasses M C F st.cl) (ha : InShared a) (hc : ClassBlock InShared n M a c)
    (hp : c.parent = some p) (hne : p ≠ a) (hnone : st.cl.classXlat p = none) :
    zendClassCopyCtor n st a = .error (.classLoadingError c.name) := by
  have hread : st.cl.classes a = some c := by rw [hcl.classShared _ ha, hc.block]
  have halloc : AllocatedClass M C F st.cl a c (allocateClass st.cl a c) :=
    allocateClass_spec hcl a c
  obtain ⟨zv₁, properties, hprops, hto₁, -⟩ := cloneSlots_spec hzv.shared hc.values.properties
  rcases cloneMethods_cases (n := n) c.name a (.process st.cl.nextClass) c.functionTable
    ⟨zv₁, allocateClass st.cl a c⟩ F hto₁.shared halloc.loading (fun e hmem => by
      obtain ⟨hshared, f, hf, hv, -⟩ := hc.method e hmem
      exact ⟨hshared, f, hf, hv⟩) with herr | ⟨st₂, functions, F', hmethods, hto₂⟩
  · unfold allocateClass at herr
    simp only [zendClassCopyCtor, hread, deref_some, bind, Except.bind, hprops]
    rw [herr]
  have hzv₂ := hto₂.zvals.loadedTo (hto₁.loadedTo hzv).inv
  obtain ⟨zv₃, statics, hstatics, hto₃, -⟩ :=
    cloneStatics_spec c.defaultStaticMembersTable st₂.zv hzv₂.inv hc.values.statics
  obtain ⟨zv₄, constants, hconsts, -⟩ := cloneEntries_spec hto₃.inv.shared hc.values.constants
  have hparent : copyPointer st₂.cl.classXlat c.name c.parent =
      .error (.classLoadingError c.name) := by
    have hnone₂ : st₂.cl.classXlat p = none := by
      rw [hto₂.classXlat]
      exact (halloc.classXlat p hne).trans hnone
    rw [hp]
    simp [copyPointer, hnone₂]
  unfold allocateClass at hmethods
  simp only [zendClassCopyCtor, hread, deref_some, bind, Except.bind, hprops]
  rw [hmethods]
  simp only [hstatics]
  rcases clonePropInfo_cases st₂.cl c.name a (.process st.cl.nextClass) c.propertiesInfo with
    ⟨info, hinfo⟩ | hinfo
  · rw [hinfo]
    simp only [hconsts, hparent]
  · rw [hinfo]

end Persist

end ZendOpcache
