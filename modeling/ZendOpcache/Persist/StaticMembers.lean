import ZendOpcache.Persist.Duplicates

/-! # Static members

Two static members of the classes of a script are one value after loading if and only if they were
one value before. A parent and its child thus keep the static properties that they share.
-/

namespace ZendOpcache

namespace Persist

/-- The static member with a number of the class with a name is the value at an address. -/
def StaticSlot (classes : Addr → Option ZendClassEntry) (table : List (HashKey × Addr))
    (key : HashKey) (i : ℕ) (a : Addr) : Prop :=
  ∃ p c, (key, p) ∈ table ∧ classes p = some c ∧ c.defaultStaticMembersTable[i]? = some (some a)

/-- A value that is two static members has a reference count for it. -/
def SlotsCounted (M : ScriptMemory) (script : ZendPersistentScript) : Prop :=
  ∀ key i key' i' a z, StaticSlot M.classes script.classTable key i a →
    StaticSlot M.classes script.classTable key' i' a → (key, i) ≠ (key', i') →
      M.zvals a = some z → z.refcount ≠ 1

/-- A static member at `a` before and at `r` after: the same value, count and flag, and nothing of
it in shared memory -/
structure KeptMember (n : ℕ) (st st' : CopyState) (a r : Addr) : Prop where
  value : SameValue st.zv.zvals st'.zv.zvals n a r
  count : ∃ z z', st.zv.zvals a = some z ∧ st'.zv.zvals r = some z' ∧ SameCount z z'
  inProcess : Within InProcess st'.zv.zvals n r

/-- The values of a loaded class lie in the process. -/
structure ProcessClass (n : ℕ) (M : ScriptMemory) (c : ZendClassEntry) : Prop where
  values : ClassValues InProcess n M c
  methods : ∀ m ∈ c.functionTable, ∃ f, M.functions m.2 = some f ∧
    ∀ e ∈ f.staticVariables, Within InProcess M.zvals n e.2

variable {M : ScriptMemory} {script script' : ZendPersistentScript} {st st' base : CopyState}
  {n i : ℕ} {table target l : List (HashKey × Addr)} {key : HashKey} {a b r s : Addr}
  {C F : Addr → Addr → Prop}

theorem forall₂_getElem? {α β : Type*} {R : α → β → Prop} {l : List α} {l' : List β}
    (h : List.Forall₂ R l l') {i : ℕ} {x : α} (hx : l[i]? = some x) :
    ∃ y, l'[i]? = some y ∧ R x y := by
  induction h generalizing i with
  | nil => simp at hx
  | cons hab _ ih =>
    cases i with
    | zero =>
      obtain rfl : _ = x := by simpa using hx
      exact ⟨_, by simp, hab⟩
    | succ i => exact ih (by simpa using hx)

theorem getElem?_zip {α β : Type*} {l : List α} {l' : List β} {i : ℕ} {x : α} {y : β}
    (hx : l[i]? = some x) (hy : l'[i]? = some y) : (x, y) ∈ l.zip l' := by
  have hzip : (l.zip l')[i]? = some (x, y) := by
    rw [List.getElem?_zip_eq_some]
    exact ⟨hx, hy⟩
  exact List.mem_of_getElem? hzip

theorem unique_value (hnodup : (table.map Prod.fst).Nodup) (ha : (key, a) ∈ table)
    (hb : (key, b) ∈ table) : a = b := by
  have hsame := List.inj_on_of_nodup_map hnodup ha hb rfl
  exact (Prod.mk.inj hsame).2

/-! ## Both copies -/

/-- The static member of the image -/
theorem ImageOf.staticSlot (hi : ImageOf M script st script')
    (h : StaticSlot M.classes script.classTable key i a) :
    ∃ s, st.zv.xlat a = some s ∧ StaticSlot st.cl.classes script'.classTable key i s := by
  obtain ⟨p, c, hmem, hc, hslot⟩ := h
  obtain ⟨⟨key', q⟩, hmem', ⟨hkey, -⟩, c', hc', hl⟩ := hi.cls hmem hc
  obtain rfl : key = key' := hkey
  obtain ⟨slot, hslot', hrel⟩ := forall₂_getElem? hl.zvals.statics hslot
  obtain ⟨s, rfl, hs⟩ := rel_some_left hrel
  exact ⟨s, hs, q, c', hmem', hc', hslot'⟩

theorem ImageOf.staticSlot_right (hi : ImageOf M script st script')
    (h : StaticSlot st.cl.classes script'.classTable key i s) :
    ∃ a, st.zv.xlat a = some s ∧ StaticSlot M.classes script.classTable key i a := by
  obtain ⟨q, d, hmem', hd, hslot'⟩ := h
  obtain ⟨⟨key', p⟩, hmem, ⟨hkey, -⟩, c, c', hc, hc', hl⟩ := forall₂_right hi.classes hmem'
  obtain rfl : key' = key := hkey
  obtain rfl : c' = d := Option.some.inj (hc'.symm.trans hd)
  obtain ⟨slot, hslot, hrel⟩ := forall₂_getElem? hl.zvals.statics.flip hslot'
  obtain ⟨a, rfl, ha⟩ := rel_some_right hrel
  exact ⟨a, ha, p, c, hmem, hc, hslot⟩

/-- The class under a name of the script in the table of the process -/
theorem LoadedClasses.find (hbuckets : (l.map Prod.snd).Nodup)
    (h : LoadedClasses M n base table l C F st target) (htarget : (target.map Prod.fst).Nodup)
    {e : HashKey × Addr} (hmem : e ∈ l) (hfree : ¬ Taken table e.1) (hb : (e.1, b) ∈ target) :
    ∃ c c', IsCopy M n C F base.cl.nextFunction st e.2 b c c' := by
  obtain ⟨b', c, c', hcopy⟩ := h.copied e hmem hfree
  obtain ⟨-, key, hkey, -, hmem'⟩ := h.cls e.2 b' hcopy.pair
  have hsame : (key, e.2) = e := List.inj_on_of_nodup_map hbuckets hkey hmem rfl
  rw [← (Prod.mk.inj hsame).1] at hb
  obtain rfl := unique_value htarget hb hmem'
  exact ⟨c, c', hcopy⟩

theorem LoadedClasses.staticSlot (h : LoadedClasses M n base table l C F st target)
    (hfree : ∀ e ∈ l, ¬ Taken table e.1) (hbuckets : (l.map Prod.snd).Nodup)
    (hs : StaticSlot M.classes l key i s) :
    ∃ r, StaticSlot st.cl.classes target key i r := by
  obtain ⟨q, c, hmem, hc, hslot⟩ := hs
  obtain ⟨b, d, c', hcopy⟩ := h.copied (key, q) hmem (hfree _ hmem)
  obtain rfl : d = c := Option.some.inj (hcopy.source.symm.trans hc)
  obtain ⟨-, key', hkey, -, hmem'⟩ := h.cls q b hcopy.pair
  have hsame : (key', q) = (key, q) := List.inj_on_of_nodup_map hbuckets hkey hmem rfl
  obtain rfl := (Prod.mk.inj hsame).1
  obtain ⟨slot', hslot', hrel⟩ := forall₂_getElem? hcopy.copied.statics hslot
  obtain ⟨r, rfl, -⟩ := rel_some_left hrel
  exact ⟨r, b, c', hmem', hcopy.block, hslot'⟩

/-- A static member in the process is the copy of the one with the same place in the script. -/
theorem LoadedClasses.staticSlot_right (h : LoadedClasses M n base table l C F st target)
    (hfree : ∀ e ∈ l, ¬ Taken table e.1) (hbuckets : (l.map Prod.snd).Nodup)
    (htarget : (target.map Prod.fst).Nodup) (hkey : key ∈ l.map Prod.fst)
    (hr : StaticSlot st.cl.classes target key i r) : ∃ s, StaticSlot M.classes l key i s ∧
      StaticPairs M C st s r ∧ Copy M.zvals 0 st.zv n s r := by
  obtain ⟨⟨key', q⟩, hmem, rfl⟩ := List.mem_map.mp hkey
  obtain ⟨b, d', hb, hd', hslot'⟩ := hr
  obtain ⟨c, c', hcopy⟩ := h.find hbuckets htarget hmem (hfree _ hmem) hb
  obtain rfl : c' = d' := Option.some.inj (hcopy.block.symm.trans hd')
  obtain ⟨slot, hslot, hrel⟩ := forall₂_getElem? hcopy.copied.statics.flip hslot'
  obtain ⟨s, rfl, hs⟩ := rel_some_right hrel
  exact ⟨s, ⟨q, c, hmem, hcopy.source, hslot⟩,
    ⟨q, b, c, c', hcopy.pair, hcopy.source, hcopy.block, getElem?_zip hslot hslot'⟩, hs⟩

/-- A place in the script has one value. -/
theorem StaticSlot.unique {classes : Addr → Option ZendClassEntry}
    (hnodup : (table.map Prod.fst).Nodup) (h : StaticSlot classes table key i a)
    (h' : StaticSlot classes table key i b) : a = b := by
  obtain ⟨p, c, hp, hc, hslot⟩ := h
  obtain ⟨q, d, hq, hd, hslot'⟩ := h'
  obtain rfl := unique_value hnodup hp hq
  obtain rfl : c = d := Option.some.inj (hc.symm.trans hd)
  exact Option.some.inj (Option.some.inj (hslot.symm.trans hslot'))

theorem copy_inProcess (h : Copy M.zvals 0 st.zv n a b) : Within InProcess st.zv.zvals n b :=
  h.within.mono (fun _ hx => hx.inProcess) fun _ _ => rfl

theorem CopiedClass.processClass {lo : ℕ} {c c' : ZendClassEntry}
    (h : CopiedClass M n C F lo st c c') : ProcessClass n st.memory c' where
  values :=
    { properties := by
        intro slot' hmem b hb
        obtain ⟨slot, -, hrel⟩ := forall₂_right h.properties hmem
        obtain rfl : slot' = some b := hb
        obtain ⟨a, -, hab⟩ := rel_some_right hrel
        exact copy_inProcess hab
      statics := by
        intro slot' hmem b hb
        obtain ⟨slot, -, hrel⟩ := forall₂_right h.statics hmem
        obtain rfl : slot' = some b := hb
        obtain ⟨a, -, hab⟩ := rel_some_right hrel
        exact copy_inProcess hab
      constants := by
        intro e' hmem
        obtain ⟨e, -, hee⟩ := forall₂_right h.constants hmem
        exact copy_inProcess hee.2 }
  methods := by
    intro m' hmem
    obtain ⟨m, -, -, -, f, f', -, hf', hcopy, -⟩ := forall₂_right h.methods hmem
    refine ⟨f', hf', fun e' he' => ?_⟩
    obtain ⟨e, -, hee⟩ := forall₂_right hcopy.statics he'
    exact copy_inProcess hee.2

/-- A script is copied to shared memory and loaded in a process that has none of its names. Two
static members are one value after it if and only if they were one value before, each keeps its
value, count and flag, and no value of a loaded class lies in shared memory. -/
theorem staticMembers_iff (hg : ScriptGraph InProcess n st.memory script)
    (hcounted : SlotsCounted st.memory script) :
    ∃ st₁ script₁, zendAccelScriptPersist n st script = .ok (st₁, script₁) ∧
      ∀ (st₂ : CopyState) (tables : ProcessTables) (ignoreDups : Bool),
        AgreesOn InShared st₁.memory st₂ → (tables.classTable.map Prod.fst).Nodup →
        (∀ key ∈ script.classTable.map Prod.fst, ¬ Taken tables.classTable key) →
        (∀ key ∈ script.functionTable.map Prod.fst, ¬ Taken tables.functionTable key) →
        ∃ st₃ tables₃ main, zendAccelLoadScript n ignoreDups st₂ script₁ tables =
            .ok (st₃, tables₃, main) ∧
          (∀ key ∈ script.classTable.map Prod.fst, ∀ i,
            (∃ a, StaticSlot st.cl.classes script.classTable key i a) ↔
              ∃ r, StaticSlot st₃.cl.classes tables₃.classTable key i r) ∧
          (∀ key i a r, StaticSlot st.cl.classes script.classTable key i a →
            StaticSlot st₃.cl.classes tables₃.classTable key i r → KeptMember n st st₃ a r) ∧
          (∀ key i a r key' i' a' r', StaticSlot st.cl.classes script.classTable key i a →
            StaticSlot st.cl.classes script.classTable key' i' a' →
            StaticSlot st₃.cl.classes tables₃.classTable key i r →
            StaticSlot st₃.cl.classes tables₃.classTable key' i' r' → (r = r' ↔ a = a')) ∧
          ∀ key ∈ script.classTable.map Prod.fst, ∀ b, (key, b) ∈ tables₃.classTable →
            ∃ c, st₃.cl.classes b = some c ∧ ProcessClass n st₃.memory c := by
  obtain ⟨st₁, script₁, hok, hi, hm⟩ := zendAccelScriptPersist_image hg
  have hg₁ := hi.scriptGraph hg
  have hclassKeys := (forall₂_values (hi.classes.imp fun _ _ he => he.1)).1
  have hfunctionKeys := (forall₂_values (hi.functions.imp fun _ _ he => he.1)).1
  refine ⟨st₁, script₁, hok, fun st₂ tables ignoreDups hst hnodup hfree hfreeFunctions => ?_⟩
  have hfree₁ : ∀ e ∈ script₁.classTable, ¬ Taken tables.classTable e.1 := by
    intro e hmem
    apply hfree
    rw [hclassKeys]
    exact List.mem_map_of_mem hmem
  obtain ⟨st', target, C, F, hrun, hloaded⟩ := zendHashUniqueCopy_prefix ignoreDups [] hg₁ hm
    script₁.classTable [] (withoutTables st₂) tables.classTable _ _ (by simp)
    (fun _ _ _ e' hmem _ => hfree₁ e' hmem) (fun _ => hfree₁) (loadedClasses_nil hst)
  rw [List.append_nil] at hrun
  rcases zendAccelLoadScript_classes hg₁ hrun hloaded with ⟨key, hmem, htaken, -⟩ |
    ⟨-, st₃, functions, main, hload, hdone⟩
  · rw [← hfunctionKeys] at hmem
    exact absurd htaken (hfreeFunctions key hmem)
  have htarget := hdone.nodup hnodup
  have hbuckets : (script₁.classTable.map Prod.snd).Nodup := hg₁.classBuckets
  -- a static member of the process with its originals in shared memory and in the script
  have hright : ∀ {key i a r}, StaticSlot st.cl.classes script.classTable key i a →
      StaticSlot st₃.cl.classes target key i r → ∃ s, st₁.zv.xlat a = some s ∧
        StaticPairs st₁.memory C st₃ s r ∧ Copy st₁.zv.zvals 0 st₃.zv n s r := by
    intro key i a r ha hr
    obtain ⟨s, hs, hslot⟩ := hi.staticSlot ha
    have hkey : key ∈ script₁.classTable.map Prod.fst := by
      obtain ⟨q, -, hmem, -⟩ := hslot
      exact List.mem_map_of_mem hmem
    obtain ⟨s', hslot', hpair, hcopy⟩ := hdone.staticSlot_right hfree₁ hbuckets htarget hkey hr
    obtain rfl := hslot.unique hg₁.classKeys hslot'
    exact ⟨s, hs, hpair, hcopy⟩
  refine ⟨st₃, ⟨target, functions⟩, main, hload, ?_, ?_, ?_, ?_⟩
  · intro key hkey i
    constructor
    · rintro ⟨a, ha⟩
      obtain ⟨s, -, hslot⟩ := hi.staticSlot ha
      exact hdone.staticSlot hfree₁ hbuckets hslot
    · rintro ⟨r, hr⟩
      rw [hclassKeys] at hkey
      obtain ⟨s, hslot, -⟩ := hdone.staticSlot_right hfree₁ hbuckets htarget hkey hr
      obtain ⟨a, -, ha⟩ := hi.staticSlot_right hslot
      exact ⟨a, ha⟩
  · intro key i a r ha hr
    obtain ⟨s, hs, hpair, hcopy⟩ := hright ha hr
    have hwithin : Within InProcess st.zv.zvals n a := by
      obtain ⟨p, c, hmem, hc, hslot⟩ := ha
      obtain ⟨-, d, hd⟩ := hg.cls (key, p) hmem
      obtain rfl : d = c := Option.some.inj (hd.block.symm.trans hc)
      exact hd.values.statics _ (List.mem_of_getElem? hslot) a rfl
    constructor
    · exact (hi.values.sameValue hi.done hs hwithin).1.trans hcopy.value
    · obtain ⟨z, z', hz, hz', hc, -⟩ := hi.done a s hs
      obtain ⟨y, y', hy, hy', hc'⟩ := hdone.log.count s r hpair
      obtain rfl : y = z' := Option.some.inj (hy.symm.trans hz')
      exact ⟨z, y', hz, hy', hc.1.trans hc'.1, hc.2.trans hc'.2⟩
    · exact copy_inProcess (M := st₁.memory) hcopy
  · intro key i a r key' i' a' r' ha ha' hr hr'
    obtain ⟨s, hs, hpair, -⟩ := hright ha hr
    obtain ⟨s', hs', hpair', -⟩ := hright ha' hr'
    constructor
    · rintro rfl
      obtain rfl := hdone.log.one s s' r hpair hpair'
      exact hi.values.inj a a' s hs hs'
    · rintro rfl
      obtain rfl : s = s' := Option.some.inj (hs.symm.trans hs')
      by_cases hplace : (key, i) = (key', i')
      · obtain ⟨rfl, rfl⟩ := Prod.mk.inj hplace
        exact hr.unique htarget hr'
      · obtain ⟨z, z', hz, hz', hc, -⟩ := hi.done a s hs
        have hne : z'.refcount ≠ 1 := hc.1 ▸ hcounted key i key' i' a z ha ha' hplace hz
        have hr₁ := hdone.log.shared s r z' hpair hz' hne
        have hr₂ := hdone.log.shared s r' z' hpair' hz' hne
        exact Option.some.inj (hr₁.symm.trans hr₂)
  · intro key hkey b hb
    rw [hclassKeys] at hkey
    obtain ⟨⟨key', q⟩, hmem, rfl⟩ := List.mem_map.mp hkey
    obtain ⟨c, c', hcopy⟩ := hdone.find hbuckets htarget hmem (hfree₁ _ hmem) hb
    exact ⟨c', hcopy.block, hcopy.copied.processClass⟩

/-- The value of a static property that two classes share -/
def sharedStatic : ZvalHeap := fun a =>
  if a = .process 0 then some ⟨.scalar 1 7, 2, true⟩ else none

/-- The static property that `B` has from `A` is one value in both after loading. -/
theorem staticMembers_iff_parentAndChild : ∃ st₁ script₁,
    zendAccelScriptPersist 1 (parentAndChild sharedStatic [some (.process 0)])
      parentAndChildScript = .ok (st₁, script₁) ∧
      ∃ st₃ tables₃ main, zendAccelLoadScript 1 true st₁ script₁ ⟨[], []⟩ =
        .ok (st₃, tables₃, main) ∧
        ∃ r, StaticSlot st₃.cl.classes tables₃.classTable (.name [97]) 0 r ∧
          StaticSlot st₃.cl.classes tables₃.classTable (.name [98]) 0 r := by
  have hg : ScriptGraph InProcess 1
      (parentAndChild sharedStatic [some (.process 0)]).memory parentAndChildScript := by
    apply parentAndChild_graph
    intro slot hslot a ha
    obtain rfl := List.mem_singleton.mp hslot
    obtain rfl := Option.some.inj ha
    exact ⟨⟨0, rfl⟩, ⟨.scalar 1 7, 2, true⟩, rfl, by simp [ZvalBlock.elements]⟩
  have hcounted : SlotsCounted (parentAndChild sharedStatic [some (.process 0)]).memory
      parentAndChildScript := by
    intro key i key' i' a z _ _ _ hz
    have hshared : sharedStatic a = some z := hz
    unfold sharedStatic at hshared
    by_cases ha : a = .process 0
    · rw [if_pos ha] at hshared
      obtain rfl := Option.some.inj hshared
      decide
    · rw [if_neg ha] at hshared
      cases hshared
  obtain ⟨st₁, script₁, hok, hall⟩ := staticMembers_iff hg hcounted
  obtain ⟨st₃, tables₃, main, hload, hslots, -, hiff, -⟩ := hall st₁ ⟨[], []⟩ true
    ⟨fun _ _ => rfl, fun _ _ => rfl, fun _ _ => rfl⟩ (by simp) (by simp [Taken, hasKey])
    (by simp [Taken, hasKey])
  have hA : StaticSlot (parentAndChild sharedStatic [some (.process 0)]).cl.classes
      parentAndChildScript.classTable (.name [97]) 0 (.process 0) :=
    ⟨.process 0, _, by simp [parentAndChildScript], rfl, rfl⟩
  have hB : StaticSlot (parentAndChild sharedStatic [some (.process 0)]).cl.classes
      parentAndChildScript.classTable (.name [98]) 0 (.process 0) :=
    ⟨.process 1, _, by simp [parentAndChildScript], rfl, rfl⟩
  obtain ⟨r, hr⟩ := (hslots _ (by simp [parentAndChildScript]) 0).mp ⟨_, hA⟩
  obtain ⟨r', hr'⟩ := (hslots _ (by simp [parentAndChildScript]) 0).mp ⟨_, hB⟩
  obtain rfl := (hiff _ 0 _ r _ 0 _ r' hA hB hr hr').mpr rfl
  exact ⟨st₁, script₁, hok, st₃, tables₃, main, hload, r, hr, hr'⟩

end Persist

end ZendOpcache
