import Mathlib.Data.List.Nodup
import ZendOpcache.Persist.LoadScript

/-! # The outcome of loading a script

`zend_accel_load_script` reports a redeclaration, or leaves classes that point to copies only. It
has a third outcome: a class that is copied while its parent is left out as a duplicate.
-/

namespace ZendOpcache

namespace Persist

open Relation

variable {M : ScriptMemory} {script : ZendPersistentScript} {C F : Addr → Addr → Prop} {n : ℕ}
  {st st' base : CopyState} {table target l₁ l₂ : List (HashKey × Addr)} {key : HashKey}
  {a b : Addr} {ignoreDups : Bool} {tables : ProcessTables}

/-! ## Functions outside of classes -/

theorem copyFunction_spec {f : ZendFunction} (hzv : SharedIs M.zvals st.zv)
    (hcl : LoadingClasses M C F st.cl) (ha : InShared a) (hf : M.functions a = some f)
    (hv : FunctionValues InShared n M f) : ∃ st' b, copyFunction n st a = .ok (st', b) ∧
      ClonedTo M.zvals st.zv st'.zv ∧ ClassLoad st.cl st'.cl ∧ LoadingClasses M C F st'.cl := by
  have hread : st.cl.functions a = some f := by rw [hcl.functionShared _ ha, hf]
  obtain ⟨zv, statics, hprepare, hto, -⟩ := prepareFunction_spec hzv hv
  let f' : ZendFunction := { f with refcount := protectedRefcount, staticVariables := statics }
  let b := Addr.process st.cl.nextFunction
  refine ⟨⟨zv, { st.cl.writeFunction b f' with nextFunction := st.cl.nextFunction + 1 }⟩, b,
    ?_, hto,
    ⟨le_rfl, Nat.le_succ _, fun _ y h => ⟨y, h⟩, fun _ y h => ⟨y, h⟩, fun _ _ => rfl, ?_⟩,
    hcl.classShared, ?_, hcl.cls, hcl.fn⟩
  · simp only [copyFunction, hread, deref_some, bind, Except.bind, hprepare]
    rfl
  · intro k hk
    simp [ClassState.writeFunction, b, hk.ne]
  · rintro x ⟨k, rfl⟩
    rw [← hcl.functionShared _ ⟨k, rfl⟩]
    simp [ClassState.writeFunction, b]

/-- The functions of a script are copied, or the first one whose name is taken is reported. -/
theorem copyFunctions_spec : ∀ (l : List (HashKey × Addr)) (st : CopyState)
    (target : List (HashKey × Addr)), (l.map Prod.fst).Nodup →
      (∀ e ∈ l, InShared e.2 ∧ ∃ f, M.functions e.2 = some f ∧ FunctionValues InShared n M f) →
      Loading M.zvals n st.zv → LoadingClasses M C F st.cl →
      (∃ key ∈ l.map Prod.fst, Taken target key ∧ zendHashUniqueCopy (copyFunction n) false
        .redeclareFunction l st target = .error (.redeclareFunction key)) ∨
      ((∀ key ∈ l.map Prod.fst, ¬ Taken target key) ∧ ∃ st' target',
        zendHashUniqueCopy (copyFunction n) false .redeclareFunction l st target =
          .ok (st', target') ∧ LoadedTo M.zvals n st.zv st'.zv ∧ ClassLoad st.cl st'.cl ∧
          LoadingClasses M C F st'.cl) := by
  intro l
  induction l with
  | nil =>
    intro st target _ _ hzv hcl
    exact .inr ⟨by simp, st, target, rfl, (loadedTo_stepRel _ _).refl hzv, .refl _, hcl⟩
  | cons e l ih =>
    intro st target hnodup hall hzv hcl
    obtain ⟨key, a⟩ := e
    rw [List.map_cons] at hnodup
    obtain ⟨hnew, hnodup⟩ := List.nodup_cons.mp hnodup
    by_cases htaken : Taken target key
    · exact .inl ⟨key, by simp, htaken, zendHashUniqueCopy_taken htaken⟩
    obtain ⟨ha, f, hf, hv⟩ := hall (key, a) List.mem_cons_self
    obtain ⟨st₁, b, hcopy, hto, hload, hcl₁⟩ := copyFunction_spec hzv.shared hcl ha hf hv
    have hzv₁ := hto.loadedTo hzv
    have hsame : ∀ key' ∈ l.map Prod.fst, Taken (insertCopy target key b) key' ↔
        Taken target key' := by
      intro key' hmem
      have hne : key' ≠ key := fun h => hnew (h ▸ hmem)
      unfold Taken
      rw [hasKey_insertCopy hne]
    have hstep : zendHashUniqueCopy (copyFunction n) false .redeclareFunction
        ((key, a) :: l) st target =
        zendHashUniqueCopy (copyFunction n) false .redeclareFunction l st₁
          (insertCopy target key b) := by
      rw [zendHashUniqueCopy_copy htaken, hcopy]
      rfl
    rw [hstep]
    rcases ih st₁ (insertCopy target key b) hnodup
      (fun e hmem => hall e (List.mem_cons_of_mem _ hmem))
        hzv₁.inv hcl₁ with ⟨key', hmem, htaken', herr⟩ | ⟨hfree, st₂, target₂, hok, hto₂,
          hload₂, hcl₂⟩
    · exact .inl ⟨key', by simp [hmem], (hsame key' hmem).mp htaken', herr⟩
    · refine .inr ⟨?_, st₂, target₂, hok, (loadedTo_stepRel _ _).trans hzv hzv₁ hto₂,
        hload.trans hload₂, hcl₂⟩
      intro key' hmem
      rcases List.mem_cons.mp hmem with rfl | hmem
      · exact htaken
      · exact mt (hsame key' hmem).mpr (hfree key' hmem)

/-- The classes after more functions and values -/
theorem LoadedClasses.later (h : LoadedClasses M n base table l₁ C F st target)
    (hzv : LoadedTo M.zvals n st.zv st'.zv) (hload : ClassLoad st.cl st'.cl)
    (hcl : LoadingClasses M C F st'.cl) : LoadedClasses M n base table l₁ C F st' target := by
  have hold : ∀ {x y}, C x y → st'.cl.classes y = st.cl.classes y := fun hxy =>
    hload.classBlock (h.inside hxy)
  constructor
  · exact hzv.inv
  · exact h.load.trans hload
  · exact hcl
  · exact h.keys
  · intro x y hxy
    obtain ⟨hin, hmem⟩ := h.cls x y hxy
    exact ⟨hin.mono le_rfl hload.nextClass, hmem⟩
  · intro f g hfg
    obtain ⟨hin, x, y, c, c', hxy, hc, hc', hzip⟩ := h.fn f g hfg
    exact ⟨hin.mono le_rfl hload.nextFunction, x, y, c, c', hxy, hc, by rw [hold hxy, hc'], hzip⟩
  · exact h.nodup
  · intro e hmem hfree
    obtain ⟨y, c, c', hcopy⟩ := h.copied e hmem hfree
    exact ⟨y, c, c', hcopy.step (h.inside hcopy.pair) hzv.kept hload (fun _ _ hxy => hxy)
      fun _ _ hfg => hfg⟩
  · apply (h.log.step hzv).mono
    rintro x y ⟨p, q, c, c', hpq, hc, hc', hmem⟩
    rw [hold hpq] at hc'
    exact ⟨p, q, c, c', hpq, hc, hc', hmem⟩

/-! ## Outcomes -/

/-- A name of the script that is taken is reported. -/
def ReportsRedeclaration {α : Type} (script : ZendPersistentScript) (tables : ProcessTables)
    (r : Except Fatal α) : Prop :=
  (∃ key ∈ script.classTable.map Prod.fst, Taken tables.classTable key ∧
    r = .error (.redeclareClass key)) ∨
  ∃ key ∈ script.functionTable.map Prod.fst, Taken tables.functionTable key ∧
    r = .error (.redeclareFunction key)

/-- The class of the process at `b` is the copy of the class of the script at `a`: a new block that
the table has under the name of the class. -/
def ClassCopyOf (script : ZendPersistentScript) (st : CopyState) (tables : ProcessTables)
    (st' : CopyState) (tables' : ProcessTables) (a b : Addr) : Prop :=
  ProcessIn st.cl.nextClass st'.cl.nextClass b ∧
    ∃ key, (key, a) ∈ script.classTable ∧ ¬ Taken tables.classTable key ∧
      (key, b) ∈ tables'.classTable

/-- The function of the process at `g` is a new block, and the method of a copied class where the
class of the script has the method at `f`. -/
def MethodCopyOf (M : ScriptMemory) (script : ZendPersistentScript) (st : CopyState)
    (tables : ProcessTables) (st' : CopyState) (tables' : ProcessTables) (f g : Addr) : Prop :=
  ProcessIn st.cl.nextFunction st'.cl.nextFunction g ∧
    ∃ a b c c', ClassCopyOf script st tables st' tables' a b ∧ M.classes a = some c ∧
      st'.cl.classes b = some c' ∧ Zipped c.functionTable c'.functionTable f g

/-- Every class of the script that is not left out has a copy in the process, and this copy points
to copies in the process only. -/
def Completed (M : ScriptMemory) (n : ℕ) (script : ZendPersistentScript) (st : CopyState)
    (tables : ProcessTables) (st' : CopyState) (tables' : ProcessTables) : Prop :=
  ∀ e ∈ script.classTable, ¬ Taken tables.classTable e.1 → ∃ b c c',
    ClassCopyOf script st tables st' tables' e.2 b ∧ M.classes e.2 = some c ∧
    st'.cl.classes b = some c' ∧
    CopiedClass M n (ClassCopyOf script st tables st' tables')
      (MethodCopyOf M script st tables st' tables') st.cl.nextFunction st' c c'

def Completes (M : ScriptMemory) (n : ℕ) (script : ZendPersistentScript) (st : CopyState)
    (tables : ProcessTables) (r : Except Fatal (CopyState × ProcessTables × ZendFunction)) : Prop :=
  ∃ st' tables' main, r = .ok (st', tables', main) ∧ Completed M n script st tables st' tables'

/-- The state in which the classes of a script begin to be copied -/
theorem loadedClasses_nil (hst : AgreesOn InShared M st) :
    LoadedClasses M n (withoutTables st) table [] (fun _ _ => False) (fun _ _ => False)
      (withoutTables st) table where
  zvals := ⟨hst.zvals, by simp [withoutTables], by simp [withoutTables], by simp [withoutTables]⟩
  load := .refl _
  loading := ⟨hst.classes, hst.functions, by simp [withoutTables], by simp [withoutTables]⟩
  keys _ _ := rfl
  cls _ _ h := h.elim
  fn _ _ h := h.elim
  nodup h := h
  copied := by simp
  log := ⟨by simp [StaticPairs], by simp [StaticPairs], by simp [StaticPairs], by simp
    [StaticPairs],
    by simp [StaticPairs]⟩

/-- The rest of loading after the classes -/
theorem zendAccelLoadScript_classes (hg : ScriptGraph InShared n M script)
    (hclasses : zendHashUniqueCopy
    (zendClassCopyCtor n) ignoreDups .redeclareClass script.classTable
      (withoutTables st) tables.classTable = .ok (st', target))
    (h : LoadedClasses M n base table l₁ C F st' target) :
    (∃ key ∈ script.functionTable.map Prod.fst, Taken tables.functionTable key ∧
      zendAccelLoadScript n ignoreDups st script tables = .error (.redeclareFunction key)) ∨
    ((∀ key ∈ script.functionTable.map Prod.fst, ¬ Taken tables.functionTable key) ∧
      ∃ st'' functions main, zendAccelLoadScript n ignoreDups st script tables =
        .ok (st'', ⟨target, functions⟩, main) ∧
        LoadedClasses M n base table l₁ C F st'' target) := by
  have hrun : zendAccelLoadScript n ignoreDups st script tables =
      (zendHashUniqueCopy (copyFunction n) false .redeclareFunction script.functionTable st'
        tables.functionTable).bind fun r =>
          (prepareFunction n r.1.zv script.mainOpArray).bind fun q =>
            .ok (⟨q.1, r.1.cl⟩, ⟨target, r.2⟩, q.2) := by
    unfold withoutTables at hclasses
    simp only [zendAccelLoadScript, bind, Except.bind]
    rw [hclasses]
  rw [hrun]
  rcases copyFunctions_spec (n := n) script.functionTable st' tables.functionTable hg.functionKeys
    (fun e hmem => by
      obtain ⟨hshared, f, hf, hv, -⟩ := hg.function e hmem
      exact ⟨hshared, f, hf, hv⟩) h.zvals h.loading with
    ⟨key, hmem, htaken, herr⟩ | ⟨hfree, st₁, functions, hok, hto, hload, hcl⟩
  · left
    refine ⟨key, hmem, htaken, ?_⟩
    rw [herr]
    rfl
  · right
    obtain ⟨zv, statics, hmain, hto', -⟩ := prepareFunction_spec hto.inv.shared hg.main.1
    have hlater : LoadedClasses M n base table l₁ C F ⟨zv, st₁.cl⟩ target :=
      (h.later hto hload hcl).later (hto'.loadedTo hto.inv) (.refl _) hcl
    refine ⟨hfree, ⟨zv, st₁.cl⟩, functions, { script.mainOpArray with
      refcount := protectedRefcount, staticVariables := statics }, ?_, hlater⟩
    rw [hok]
    simp only [Except.bind, hmain]

/-- At the end every copy has a name in the table. -/
theorem LoadedClasses.completed {tables' : ProcessTables} (htables : tables'.classTable = target)
    (h : LoadedClasses M n (withoutTables st) tables.classTable script.classTable C F st' target) :
    Completed M n script st tables st' tables' := by
  have hC : ∀ x y, C x y → ClassCopyOf script st tables st' tables' x y := by
    intro x y hxy
    obtain ⟨hin, key, hmem, hfree, hmem'⟩ := h.cls x y hxy
    exact ⟨hin, key, hmem, hfree, htables.symm ▸ hmem'⟩
  have hF : ∀ x y, F x y → MethodCopyOf M script st tables st' tables' x y := by
    intro x y hxy
    obtain ⟨hin, p, q, c, c', hpq, hc, hc', hzip⟩ := h.fn x y hxy
    exact ⟨hin, p, q, c, c', hC p q hpq, hc, hc', hzip⟩
  intro e hmem hfree
  obtain ⟨b, c, c', hcopy⟩ := h.copied e hmem hfree
  exact ⟨b, c, c', hC _ _ hcopy.pair, hcopy.source, hcopy.block,
    hcopy.copied.step ⟨le_rfl, fun _ _ => rfl⟩ (.refl _) le_rfl hC hF⟩

theorem exists_first {α : Type*} (P : α → Prop) (l : List α) :
    (∀ x ∈ l, ¬ P x) ∨ ∃ l₁ x l₂, l = l₁ ++ x :: l₂ ∧ (∀ y ∈ l₁, ¬ P y) ∧ P x := by
  classical
  induction l with
  | nil => exact .inl (by simp)
  | cons a l ih =>
    by_cases ha : P a
    · exact .inr ⟨[], a, l, rfl, by simp, ha⟩
    · rcases ih with hall | ⟨l₁, x, l₂, rfl, hall, hx⟩
      · left
        intro x hx
        rcases List.mem_cons.mp hx with rfl | hx
        · exact ha
        · exact hall x hx
      · refine .inr ⟨a :: l₁, x, l₂, rfl, ?_, hx⟩
        intro y hy
        rcases List.mem_cons.mp hy with rfl | hy
        · exact ha
        · exact hall y hy

/-- An error of the classes is the error of the script. -/
theorem zendAccelLoadScript_error {err : Fatal}
    (h : zendHashUniqueCopy (zendClassCopyCtor n) ignoreDups .redeclareClass script.classTable
      (withoutTables st) tables.classTable = .error err) :
    zendAccelLoadScript n ignoreDups st script tables = .error err := by
  unfold withoutTables at h
  simp only [zendAccelLoadScript, bind, Except.bind]
  rw [h]

/-- No parent of a copied class is left out: a redeclaration is reported, or all is copied. -/
theorem zendAccelLoadScript_ok (hst : AgreesOn InShared M st) (hg : ScriptGraph InShared n M script)
    (hm : Marked M script)
    (hpar : ignoreDups = true → ParentsCopied M script tables.classTable script.classTable) :
    ReportsRedeclaration script tables (zendAccelLoadScript n ignoreDups st script tables) ∨
      Completes M n script st tables (zendAccelLoadScript n ignoreDups st script tables) := by
  -- all classes are copied, or left out as duplicates
  have hall : ParentsCopied M script tables.classTable script.classTable →
      (ignoreDups = false → ∀ e ∈ script.classTable, ¬ Taken tables.classTable e.1) →
      ReportsRedeclaration script tables (zendAccelLoadScript n ignoreDups st script tables) ∨
        Completes M n script st tables (zendAccelLoadScript n ignoreDups st script tables) := by
    intro hpar hdups
    obtain ⟨st₁, target, C, F, hrun, hloaded⟩ := zendHashUniqueCopy_prefix ignoreDups []
      hg hm script.classTable [] (withoutTables st) tables.classTable _ _ (by simp)
      (by simpa using hpar) hdups (loadedClasses_nil hst)
    rw [List.append_nil] at hrun
    rcases zendAccelLoadScript_classes hg hrun hloaded with ⟨key, hmem, htaken, herr⟩ |
      ⟨-, st₂, functions, main, hok, hdone⟩
    · exact .inl (.inr ⟨key, hmem, htaken, herr⟩)
    · exact .inr ⟨st₂, ⟨target, functions⟩, main, hok, hdone.completed rfl⟩
  cases ignoreDups with
  | true => exact hall (hpar rfl) (by simp)
  | false =>
    rcases exists_first (fun e => Taken tables.classTable e.1) script.classTable with
      hfree | ⟨l₁, ⟨key, a⟩, l₂, hl, hfree, htaken⟩
    · exact hall (fun _ _ _ e' he' _ => hfree e' he') fun _ => hfree
    · left
      left
      have hpar₁ : ParentsCopied M script tables.classTable l₁ := by
        intro e hmem _ e' hmem' hparent
        obtain ⟨x, y, rfl⟩ := List.append_of_mem hmem
        obtain ⟨d, hd, hde⟩ := List.mem_map.mp (hg.parentFirst x e (y ++ (key, a) :: l₂)
          (by rw [hl, List.append_assoc, List.cons_append]) _ hparent)
        have hsame : d = e' := by
          have hinj := List.inj_on_of_nodup_map hg.classBuckets
          exact hinj (by rw [hl]; simp [hd]) hmem' hde
        exact hsame ▸ hfree d (by simp [hd])
      obtain ⟨st₁, target, C, F, hrun, hloaded⟩ := zendHashUniqueCopy_prefix false
        ((key, a) :: l₂) hg hm l₁ [] (withoutTables st) tables.classTable _ _ (by simpa using hl)
        (by simpa using hpar₁) (fun _ => hfree) (loadedClasses_nil hst)
      refine ⟨key, by rw [hl]; simp, htaken, zendAccelLoadScript_error ?_⟩
      rw [hl, hrun]
      exact zendHashUniqueCopy_taken ((hloaded.taken_iff hg hl).mpr htaken)

/-- A class is copied while its parent is left out: this is the class loading error. -/
theorem zendAccelLoadScript_classLoadingError (hst : AgreesOn InShared M st)
    (hg : ScriptGraph InShared n M script) (hm : Marked M script)
    (hpar : ¬ ParentsCopied M script tables.classTable script.classTable) :
    ∃ name, zendAccelLoadScript n true st script tables = .error (.classLoadingError name) := by
  rcases exists_first (fun e : HashKey × Addr => ¬ (¬ Taken tables.classTable e.1 →
      ∀ e' ∈ script.classTable, ParentOf M e.2 e'.2 → ¬ Taken tables.classTable e'.1))
    script.classTable with hall | ⟨l₁, ⟨key, a⟩, l₂, hl, hall, hbad⟩
  · exact absurd (fun e hmem => not_not.mp (hall e hmem)) hpar
  simp only [Classical.not_imp, not_forall, not_not] at hbad
  obtain ⟨hfree, ⟨pkey, p⟩, hpmem, hparent, hptaken⟩ := hbad
  obtain ⟨st₁, target, C, F, hrun, hloaded⟩ := zendHashUniqueCopy_prefix true
    ((key, a) :: l₂) hg hm l₁ [] (withoutTables st) tables.classTable _ _ (by simpa using hl)
    (fun e hmem => not_not.mp (hall e (by simpa using hmem))) (by simp) (loadedClasses_nil hst)
  simp only [List.nil_append] at hloaded
  obtain ⟨hshared, c, hc⟩ := hg.cls (key, a) (by rw [hl]; simp)
  obtain ⟨d, hd, hdp⟩ := hparent
  obtain rfl : c = d := Option.some.inj (hc.block.symm.trans hd)
  have hne : p ≠ a := by
    obtain ⟨e, he, hep⟩ := List.mem_map.mp (hg.parentFirst l₁ _ l₂ hl p ⟨c, hd, hdp⟩)
    have hnodup := hg.classBuckets
    rw [hl, List.map_append, List.map_cons] at hnodup
    exact (List.nodup_append.mp hnodup).2.2 p (hep ▸ List.mem_map_of_mem he) a (by simp)
  have hnone : st₁.cl.classXlat p = none := by
    cases hx : st₁.cl.classXlat p with
    | none => rfl
    | some q =>
      obtain ⟨-, key', hmem, hfree', -⟩ := hloaded.cls p q (hloaded.loading.cls p q hx)
      have hinj := List.inj_on_of_nodup_map hg.classBuckets
      have hsame : (key', p) = (pkey, p) := hinj (by rw [hl]; simp [hmem]) hpmem rfl
      rw [Prod.mk.injEq] at hsame
      exact absurd (hsame.1 ▸ hptaken) hfree'
  refine ⟨c.name, zendAccelLoadScript_error ?_⟩
  rw [hl, hrun, zendHashUniqueCopy_copy (mt (hloaded.taken_iff hg hl).mp hfree),
    zendClassCopyCtor_error hloaded.zvals hloaded.loading hshared hc hdp hne hnone]
  rfl

end Persist

end ZendOpcache
