import ZendOpcache.Persist.LoadClasses

/-! # The classes of a script in the process

`zend_hash_unique_copy` leaves out a class whose name is taken, if duplicates are ignored. The
classes up to some point are copied when no parent of a copied class among them was left out.
-/

namespace ZendOpcache

namespace Persist

open Relation

/-- A name in a table that may not be declared again -/
def Taken (table : List (HashKey × Addr)) (key : HashKey) : Prop :=
  hasKey table key = true ∧ key.isMangled = false

/-- No class of `l` that is copied has a parent that is left out. -/
def ParentsCopied (M : ScriptMemory) (script : ZendPersistentScript)
    (table l : List (HashKey × Addr)) : Prop :=
  ∀ e ∈ l, ¬ Taken table e.1 → ∀ e' ∈ script.classTable, ParentOf M e.2 e'.2 → ¬ Taken table e'.1

variable {M : ScriptMemory} {script : ZendPersistentScript} {C F : Addr → Addr → Prop} {n : ℕ}
  {st st' base : CopyState} {table target l₁ l₂ : List (HashKey × Addr)} {key key' : HashKey}
  {a b : Addr} {ignoreDups : Bool}

/-! ## Tables -/

/-- The table with a new class, which replaces the one with the same name -/
def insertCopy (target : List (HashKey × Addr)) (key : HashKey) (b : Addr) :
    List (HashKey × Addr) :=
  if hasKey target key = false then target ++ [(key, b)] else replaceKey target key b

theorem hasKey_iff : hasKey target key = true ↔ key ∈ target.map Prod.fst := by
  simp [hasKey]

theorem mem_insertCopy (target : List (HashKey × Addr)) (key : HashKey) (b : Addr) :
    (key, b) ∈ insertCopy target key b := by
  unfold insertCopy
  by_cases h : hasKey target key = false
  · simp [h]
  · rw [if_neg h]
    rw [Bool.not_eq_false, hasKey_iff, List.mem_map] at h
    obtain ⟨e, he, rfl⟩ := h
    exact List.mem_map.mpr ⟨e, he, by simp⟩

theorem mem_insertCopy_of_ne (hne : key' ≠ key) (hmem : (key', a) ∈ target) :
    (key', a) ∈ insertCopy target key b := by
  unfold insertCopy
  by_cases h : hasKey target key = false
  · rw [if_pos h]
    exact List.mem_append_left _ hmem
  · rw [if_neg h]
    exact List.mem_map.mpr ⟨(key', a), hmem, by simp [hne]⟩

theorem hasKey_insertCopy (hne : key' ≠ key) :
    hasKey (insertCopy target key b) key' = hasKey target key' := by
  unfold insertCopy
  by_cases h : hasKey target key = false
  · rw [if_pos h]
    simp [hasKey, hne.symm]
  · rw [if_neg h]
    have hkey : ∀ e : HashKey × Addr, ((if e.1 = key then (key, b) else e).1 == key') =
        (e.1 == key') := by
      intro e
      by_cases he : e.1 = key
      · simp [he]
      · simp [he]
    simp only [hasKey, replaceKey, List.any_map]
    congr 1
    funext e
    exact hkey e

theorem insertCopy_nodup (h : (target.map Prod.fst).Nodup) :
    ((insertCopy target key b).map Prod.fst).Nodup := by
  unfold insertCopy
  by_cases hkey : hasKey target key = false
  · rw [if_pos hkey, List.map_append]
    refine List.nodup_append.mpr ⟨h, by simp, ?_⟩
    rintro x hx y hy rfl
    obtain rfl : x = key := by simpa using hy
    simp [hasKey_iff.mpr hx] at hkey
  · rw [if_neg hkey]
    have hsame : (replaceKey target key b).map Prod.fst = target.map Prod.fst := by
      unfold replaceKey
      rw [List.map_map]
      apply List.map_congr_left
      intro e _
      by_cases he : e.1 = key
      · simp [he]
      · simp [he]
    rw [hsame]
    exact h

/-- What `zend_hash_unique_copy` does with a name that is not taken -/
theorem zendHashUniqueCopy_copy {σ : Type} {copy : σ → Addr → Except Fatal (σ × Addr)}
    {conflict : HashKey → Fatal} {s : σ} {rest : List (HashKey × Addr)} (h : ¬ Taken target key) :
    zendHashUniqueCopy copy ignoreDups conflict ((key, a) :: rest) s target = (do
      let (s, b) ← copy s a
      zendHashUniqueCopy copy ignoreDups conflict rest s (insertCopy target key b)) := by
  unfold insertCopy
  rw [zendHashUniqueCopy]
  by_cases hkey : hasKey target key = false
  · simp [hkey]
  · have hmangled : key.isMangled = true := by
      by_contra hm
      exact h ⟨by simpa using hkey, by simpa using hm⟩
    simp [hkey, hmangled]

theorem zendHashUniqueCopy_taken {σ : Type} {copy : σ → Addr → Except Fatal (σ × Addr)}
    {conflict : HashKey → Fatal} {s : σ} {rest : List (HashKey × Addr)} (h : Taken target key) :
    zendHashUniqueCopy copy ignoreDups conflict ((key, a) :: rest) s target =
      if ignoreDups = false then .error (conflict key)
      else zendHashUniqueCopy copy ignoreDups conflict rest s target := by
  rw [zendHashUniqueCopy]
  simp [h.1, h.2]

/-! ## The classes up to some point -/

/-- The copy of the class at `a` of the script -/
structure IsCopy (M : ScriptMemory) (n : ℕ) (C F : Addr → Addr → Prop) (lo : ℕ) (st : CopyState)
    (a b : Addr) (c c' : ZendClassEntry) : Prop where
  pair : C a b
  source : M.classes a = some c
  block : st.cl.classes b = some c'
  copied : CopiedClass M n C F lo st c c'
  marked : c.refcount ≠ 1 → ∃ x, st.cl.classXlat a = some x

/-- The pairs of static members in copied classes -/
def StaticPairs (M : ScriptMemory) (C : Addr → Addr → Prop) (st : CopyState) (x y : Addr) : Prop :=
  ∃ a b c c', C a b ∧ M.classes a = some c ∧ st.cl.classes b = some c' ∧
    (some x, some y) ∈ c.defaultStaticMembersTable.zip c'.defaultStaticMembersTable

/-- The state after the classes of `l`, from `base` and the table of classes in the process -/
structure LoadedClasses (M : ScriptMemory) (n : ℕ) (base : CopyState)
    (table : List (HashKey × Addr))
    (l : List (HashKey × Addr)) (C F : Addr → Addr → Prop) (st : CopyState)
    (target : List (HashKey × Addr)) : Prop where
  zvals : Loading M.zvals n st.zv
  load : ClassLoad base.cl st.cl
  loading : LoadingClasses M C F st.cl
  keys : ∀ key, key ∉ l.map Prod.fst → hasKey target key = hasKey table key
  cls : ∀ a b, C a b → ProcessIn base.cl.nextClass st.cl.nextClass b ∧
    ∃ key, (key, a) ∈ l ∧ ¬ Taken table key ∧ (key, b) ∈ target
  fn : ∀ f g, F f g → ProcessIn base.cl.nextFunction st.cl.nextFunction g ∧ ∃ a b c c', C a b ∧
    M.classes a = some c ∧ st.cl.classes b = some c' ∧ Zipped c.functionTable c'.functionTable f g
  nodup : (table.map Prod.fst).Nodup → (target.map Prod.fst).Nodup
  copied : ∀ e ∈ l, ¬ Taken table e.1 → ∃ b c c', IsCopy M n C F base.cl.nextFunction st e.2 b c c'
  log : SlotLog M.zvals st.zv (StaticPairs M C st)

theorem SlotLog.mono {H : ZvalHeap} {zv : ZvalState} {L L' : Addr → Addr → Prop}
    (h : SlotLog H zv L) (hL : ∀ x y, L' x y → L x y) : SlotLog H zv L' where
  slot x y hxy := h.slot x y (hL x y hxy)
  table x y a hxy := h.table x y a (hL x y hxy)
  shared x y z hxy := h.shared x y z (hL x y hxy)
  count x y hxy := h.count x y (hL x y hxy)
  one x x' y hxy hxy' := h.one x x' y (hL x y hxy) (hL x' y hxy')

/-- The proper ancestors of a class are not left out either. -/
theorem ScriptGraph.ancestors_free (hg : ScriptGraph InShared n M script)
    (hpar : ParentsCopied M script table l₁) (hl : script.classTable = l₁ ++ l₂) {s : Addr}
    (h : TransGen (ParentOf M) a s) : ∀ {e e' : HashKey × Addr}, e ∈ l₁ → e.2 = a →
      ¬ Taken table e.1 → e' ∈ script.classTable → e'.2 = s → ¬ Taken table e'.1 := by
  induction h using TransGen.head_induction_on with
  | single hap =>
    rintro e e' he rfl hfree he' rfl
    exact hpar e he hfree e' he' hap
  | head hap _ ih =>
    rintro e e' he rfl hfree he' hs
    obtain ⟨x, y, rfl⟩ := List.append_of_mem he
    have hsplit : script.classTable = x ++ e :: (y ++ l₂) := by
      rw [hl, List.append_assoc, List.cons_append]
    obtain ⟨p, hp, rfl⟩ := List.mem_map.mp (hg.parentFirst x e _ hsplit _ hap)
    have hpfree : ¬ Taken table p.1 :=
      hpar e he hfree p (by rw [hl]; simp [hp]) hap
    exact ih (by simp [hp]) rfl hpfree he' hs

/-- The ancestors of a class were copied before it, and their marked methods. -/
theorem LoadedClasses.ancestorsFound (hg : ScriptGraph InShared n M script)
    (hm : Marked M script) {e : HashKey × Addr} (hl : script.classTable = l₁ ++ e :: l₂)
    (hpar : ParentsCopied M script table (l₁ ++ [e])) (hfree : ¬ Taken table e.1)
    (h : LoadedClasses M n base table l₁ C F st target) : AncestorsFound M st.cl e.2 := by
  obtain ⟨ekey, ea⟩ := e
  have hanc : ∀ s, TransGen (ParentOf M) ea s → ∃ d ∈ l₁, d.2 = s ∧ ¬ Taken table d.1 ∧
      ∃ child ∈ script.classTable, ParentOf M child.2 s := by
    intro s hs
    obtain ⟨hmem, child, hchild, hparent⟩ := hg.proper_ancestor hs hl
    obtain ⟨d, hd, rfl⟩ := List.mem_map.mp hmem
    refine ⟨d, hd, rfl, ?_, child, hchild, hparent⟩
    have hsplit : script.classTable = l₁ ++ [(ekey, ea)] ++ l₂ := by rw [hl]; simp
    exact hg.ancestors_free hpar hsplit hs (e := (ekey, ea)) (by simp) rfl hfree
      (by rw [hl]; simp [hd]) rfl
  constructor
  · intro s hs
    obtain ⟨d, hd, rfl, hdfree, child, hchild, hparent⟩ := hanc s hs
    obtain ⟨b, c, c', hcopy⟩ := h.copied d hd hdfree
    obtain ⟨x, hx, hne⟩ := hm.parent child hchild d.2 hparent
    obtain rfl : c = x := Option.some.inj (hcopy.source.symm.trans hx)
    exact hcopy.marked hne
  · intro s f g hs hf hfg hne
    obtain ⟨d, hd, rfl, hdfree, -⟩ := hanc s hs
    obtain ⟨b, c, c', hcopy⟩ := h.copied d hd hdfree
    obtain ⟨x, k, hx, hmem⟩ := hf
    obtain rfl : c = x := Option.some.inj (hcopy.source.symm.trans hx)
    obtain ⟨m, -, -, -, f₀, f', hf₀, -, -, hmark⟩ := forall₂_left hcopy.copied.methods hmem
    obtain rfl : g = f₀ := Option.some.inj (hfg.symm.trans hf₀)
    exact hmark hne

theorem IsCopy.step {C' F' : Addr → Addr → Prop} {lo : ℕ} {c c' : ZendClassEntry}
    (h : IsCopy M n C F lo st a b c c') (hin : ProcessIn 0 st.cl.nextClass b)
    (hzv : ZvalsKept st.zv st'.zv) (hcl : ClassLoad st.cl st'.cl) (hC : ∀ a b, C a b → C' a b)
    (hF : ∀ a b, F a b → F' a b) : IsCopy M n C' F' lo st' a b c c' where
  pair := hC a b h.pair
  source := h.source
  block := by
    have hb := h.block
    obtain ⟨k, -, hk, rfl⟩ := hin
    rw [hcl.classFrame k hk, hb]
  copied := h.copied.step hzv hcl le_rfl hC hF
  marked hne := by
    obtain ⟨x, hx⟩ := h.marked hne
    exact hcl.cls a x hx

theorem LoadedClasses.inside (h : LoadedClasses M n base table l₁ C F st target) (hab : C a b) :
    ProcessIn 0 st.cl.nextClass b :=
  (h.cls a b hab).1.mono (Nat.zero_le _) le_rfl

theorem ClassLoad.classBlock {cl cl' : ClassState} (h : ClassLoad cl cl')
    (hin : ProcessIn 0 cl.nextClass b) : cl'.classes b = cl.classes b := by
  obtain ⟨k, -, hk, rfl⟩ := hin
  exact h.classFrame k hk

/-- One more class that is copied -/
theorem LoadedClasses.copy {c c' : ZendClassEntry} (hkey : key ∉ l₁.map Prod.fst)
    (hfree : ¬ Taken table key) (hc : M.classes a = some c)
    (h : LoadedClasses M n base table l₁ C F st target)
    (hcopy : ClassCopied M n C F st a c st' b c') :
    LoadedClasses M n base table (l₁ ++ [(key, a)]) (withPair C a b)
      (withPairs F c.functionTable c'.functionTable) st' (insertCopy target key b) := by
  have hC : ∀ x y, C x y → withPair C a b x y := fun _ _ hxy => .inl hxy
  have hF : ∀ x y, F x y → withPairs F c.functionTable c'.functionTable x y :=
    fun _ _ hxy => .inl hxy
  have hold : ∀ {x y}, C x y → st'.cl.classes y = st.cl.classes y := fun hxy =>
    hcopy.load.classBlock (h.inside hxy)
  constructor
  · exact hcopy.zvals
  · exact h.load.trans hcopy.load
  · exact hcopy.loading
  · intro key' hkey'
    simp only [List.map_append, List.map_cons, List.map_nil, List.mem_append, List.mem_singleton,
      not_or] at hkey'
    rw [hasKey_insertCopy hkey'.2, h.keys key' hkey'.1]
  · rintro x y (hxy | ⟨rfl, rfl⟩)
    · obtain ⟨hin, key', hmem, hfree', hmem'⟩ := h.cls x y hxy
      have hne : key' ≠ key := by
        rintro rfl
        exact hkey (List.mem_map_of_mem hmem)
      exact ⟨hin.mono le_rfl hcopy.load.nextClass, key', List.mem_append_left _ hmem, hfree',
        mem_insertCopy_of_ne hne hmem'⟩
    · exact ⟨hcopy.new.mono h.load.nextClass le_rfl, key, by simp, hfree, mem_insertCopy _ _ _⟩
  · rintro f g (hfg | hfg)
    · obtain ⟨hin, x, y, d, d', hxy, hd, hd', hzip⟩ := h.fn f g hfg
      exact ⟨hin.mono le_rfl hcopy.load.nextFunction, x, y, d, d', .inl hxy, hd,
        by rw [hold hxy, hd'], hzip⟩
    · obtain ⟨e, e', hmem, rfl, rfl⟩ := id hfg
      have hmethod := List.forall₂_zip hcopy.copied.methods hmem
      exact ⟨hmethod.2.1.mono h.load.nextFunction le_rfl, a, b, c, c', .inr ⟨rfl, rfl⟩, hc,
        hcopy.block, hfg⟩
  · exact fun hnodup => insertCopy_nodup (h.nodup hnodup)
  · intro e hmem hfree'
    rcases List.mem_append.mp hmem with hmem | hmem
    · obtain ⟨y, d, d', hd⟩ := h.copied e hmem hfree'
      exact ⟨y, d, d', hd.step (h.inside hd.pair) hcopy.kept hcopy.load hC hF⟩
    · obtain rfl := List.mem_singleton.mp hmem
      exact ⟨b, c, c', .inr ⟨rfl, rfl⟩, hc, hcopy.block,
        hcopy.copied.step ⟨le_rfl, fun _ _ => rfl⟩ (.refl _) h.load.nextFunction
          (fun _ _ hxy => hxy) fun _ _ hfg => hfg, hcopy.marked⟩
  · apply (hcopy.log _ h.log).mono
    rintro x y ⟨p, q, d, d', hpq | ⟨rfl, rfl⟩, hd, hd', hmem⟩
    · left
      rw [hold hpq] at hd'
      exact ⟨p, q, d, d', hpq, hd, hd', hmem⟩
    · right
      obtain rfl : c = d := Option.some.inj (hc.symm.trans hd)
      obtain rfl : c' = d' := Option.some.inj (hcopy.block.symm.trans hd')
      exact hmem

/-- One more class that is left out -/
theorem LoadedClasses.skip (htaken : Taken table key)
    (h : LoadedClasses M n base table l₁ C F st target) :
    LoadedClasses M n base table (l₁ ++ [(key, a)]) C F st target where
  zvals := h.zvals
  load := h.load
  loading := h.loading
  keys key' hkey' := by
    apply h.keys
    simp only [List.map_append, List.mem_append, not_or] at hkey'
    exact hkey'.1
  cls x y hxy := by
    obtain ⟨hin, key', hmem, hfree, hmem'⟩ := h.cls x y hxy
    exact ⟨hin, key', List.mem_append_left _ hmem, hfree, hmem'⟩
  fn := h.fn
  nodup := h.nodup
  copied e hmem hfree := by
    rcases List.mem_append.mp hmem with hmem | hmem
    · exact h.copied e hmem hfree
    · obtain rfl := List.mem_singleton.mp hmem
      exact absurd htaken hfree
  log := h.log

theorem ScriptGraph.key_notMem (hg : ScriptGraph InShared n M script)
    (hl : script.classTable = l₁ ++ (key, a) :: l₂) : key ∉ l₁.map Prod.fst := by
  have hnodup := hg.classKeys
  rw [hl, List.map_append, List.map_cons] at hnodup
  intro hmem
  exact (List.nodup_append.mp hnodup).2.2 key hmem key (by simp) rfl

theorem LoadedClasses.taken_iff (hg : ScriptGraph InShared n M script)
    (hl : script.classTable = l₁ ++ (key, a) :: l₂)
    (h : LoadedClasses M n base table l₁ C F st target) : Taken target key ↔ Taken table key := by
  unfold Taken
  rw [h.keys key (hg.key_notMem hl)]

/-- The classes of `l₂` after those of `l₁` -/
theorem zendHashUniqueCopy_prefix (ignoreDups : Bool) (rest : List (HashKey × Addr))
    (hg : ScriptGraph InShared n M script) (hm : Marked M script) :
      ∀ (l₂ l₁ : List (HashKey × Addr)) (st : CopyState)
      (target : List (HashKey × Addr)) (C F : Addr → Addr → Prop),
      script.classTable = l₁ ++ l₂ ++ rest → ParentsCopied M script table (l₁ ++ l₂) →
      (ignoreDups = false → ∀ e ∈ l₂, ¬ Taken table e.1) →
      LoadedClasses M n base table l₁ C F st target →
      ∃ st' target' C' F', zendHashUniqueCopy (zendClassCopyCtor n) ignoreDups .redeclareClass
        (l₂ ++ rest) st target = zendHashUniqueCopy (zendClassCopyCtor n) ignoreDups .redeclareClass
          rest st' target' ∧ LoadedClasses M n base table (l₁ ++ l₂) C' F' st' target' := by
  intro l₂
  induction l₂ with
  | nil =>
    intro l₁ st target C F _ _ _ h
    exact ⟨st, target, C, F, rfl, by simpa using h⟩
  | cons e l₂ ih =>
    intro l₁ st target C F hl hpar hdups h
    obtain ⟨key, a⟩ := e
    have hsplit : script.classTable = l₁ ++ (key, a) :: (l₂ ++ rest) := by
      rw [hl, List.append_assoc, List.cons_append]
    have hlist : l₁ ++ (key, a) :: l₂ = l₁ ++ [(key, a)] ++ l₂ := by simp
    have hl' : script.classTable = l₁ ++ [(key, a)] ++ l₂ ++ rest := by rw [hl, hlist]
    rw [hlist] at hpar ⊢
    have hdups' := fun hi e' hmem => hdups hi e' (List.mem_cons_of_mem _ hmem)
    rw [List.cons_append]
    by_cases htaken : Taken table key
    · rw [zendHashUniqueCopy_taken ((h.taken_iff hg hsplit).mpr htaken)]
      have hignore : ¬ ignoreDups = false := fun hi => hdups hi (key, a) List.mem_cons_self htaken
      rw [if_neg hignore]
      exact ih _ st target C F hl' hpar hdups' (h.skip htaken)
    · rw [zendHashUniqueCopy_copy (mt (h.taken_iff hg hsplit).mp htaken)]
      obtain ⟨hshared, c, hc⟩ := hg.cls (key, a) (by rw [hsplit]; simp)
      have hanc := h.ancestorsFound hg hm hsplit
        (fun e' hmem => hpar e' (List.mem_append_left _ hmem)) htaken
      obtain ⟨st₁, b, c', hctor, hcopy⟩ := zendClassCopyCtor_spec h.zvals h.loading hshared hc hanc
        ⟨hm.handler (key, a) (by rw [hsplit]; simp) c hc.block,
          hm.prototype (key, a) (by rw [hsplit]; simp)⟩
      rw [hctor]
      exact ih _ st₁ _ _ _ hl' hpar hdups' (h.copy (hg.key_notMem hsplit) htaken hc.block hcopy)

end Persist

end ZendOpcache
