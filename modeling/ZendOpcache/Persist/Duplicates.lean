import ZendOpcache.Persist.LoadOutcome

/-! # Duplicates

A script that was copied to shared memory and is loaded in a process, with any tables. The class
loading error is out of reach exactly when no class is copied whose parent is left out.
-/

namespace ZendOpcache

namespace Persist

open Relation

variable {script script' : ZendPersistentScript} {st st' : CopyState} {n : ℕ}
  {table : List (HashKey × Addr)} {M : ScriptMemory}

/-- Parents in the image are those of the script. -/
theorem ImageOf.parentsCopied_iff (hi : ImageOf M script st script') :
    ParentsCopied st.memory script' table script'.classTable ↔
      ParentsCopied M script table script.classTable := by
  constructor
  · rintro h e hmem hfree p hp hparent
    obtain ⟨e', hmem', ⟨hkey, hx⟩, -⟩ := forall₂_left hi.classes hmem
    obtain ⟨p', hp', ⟨hpkey, hpx⟩, -⟩ := forall₂_left hi.classes hp
    obtain ⟨q, hq, hparent'⟩ := hi.parent hmem hparent hx
    obtain rfl : q = p'.2 := Option.some.inj (hq.symm.trans hpx)
    rw [hpkey]
    exact h e' hmem' (hkey ▸ hfree) p' hp' hparent'
  · rintro h e' hmem' hfree p' hp' ⟨c', hc', hparent⟩
    obtain ⟨e, hmem, ⟨hkey, hx⟩, c, d, hc, hd, hl⟩ := forall₂_right hi.classes hmem'
    obtain ⟨p, hp, ⟨hpkey, hpx⟩, -⟩ := forall₂_right hi.classes hp'
    obtain rfl : d = c' := Option.some.inj (hd.symm.trans hc')
    have hrel := hl.parent
    rw [hparent] at hrel
    obtain ⟨q, hq, hqp⟩ := rel_some_right hrel
    obtain rfl := hi.blocks.classXlat.inj q p.2 p'.2 hqp hpx
    rw [← hpkey]
    exact h e hmem (hkey.symm ▸ hfree) p hp ⟨c, hc, hq⟩

/-- A script that is loaded from shared memory reports the redeclaration of a name that is taken, or
leaves classes whose pointers lead to copies in the process, and is not stopped by a class loading
error, if and only if duplicates are not ignored or no class is copied whose parent is left out. -/
theorem zendAccelLoadScript_iff (hg : ScriptGraph InProcess n st.memory script) :
    ∃ st₁ script₁, zendAccelScriptPersist n st script = .ok (st₁, script₁) ∧
      ∀ (st₂ : CopyState) (tables : ProcessTables) (ignoreDups : Bool),
        AgreesOn InShared st₁.memory st₂ →
        (((ReportsRedeclaration script₁ tables
            (zendAccelLoadScript n ignoreDups st₂ script₁ tables) ∨
          Completes st₁.memory n script₁ st₂ tables
            (zendAccelLoadScript n ignoreDups st₂ script₁ tables)) ∧
          ∀ name, zendAccelLoadScript n ignoreDups st₂ script₁ tables ≠
            .error (.classLoadingError name)) ↔
        (ignoreDups = true →
          ParentsCopied st.memory script tables.classTable script.classTable)) := by
  obtain ⟨st₁, script₁, hok, hi, hm⟩ := zendAccelScriptPersist_image hg
  have hg₁ := hi.scriptGraph hg
  refine ⟨st₁, script₁, hok, fun st₂ tables ignoreDups hst => ?_⟩
  constructor
  · rintro ⟨-, hname⟩ rfl
    by_contra hpar
    obtain ⟨name, herr⟩ := zendAccelLoadScript_classLoadingError hst hg₁ hm
      (mt hi.parentsCopied_iff.mp hpar)
    exact hname name herr
  · intro hpar
    have houtcome := zendAccelLoadScript_ok hst hg₁ hm fun hi' =>
        hi.parentsCopied_iff.mpr (hpar hi')
    refine ⟨houtcome, fun name herr => ?_⟩
    rcases houtcome with (⟨key, -, -, h⟩ | ⟨key, -, -, h⟩) | ⟨st', tables', main, h, -⟩
    · rw [herr] at h
      cases h
    · rw [herr] at h
      cases h
    · rw [herr] at h
      cases h

/-! ## Classes with methods -/

/-- A class with static members only -/
def staticClass (name : List UInt8) (parent : Option Addr) (statics : List (Option Addr)) :
    ZendClassEntry where
  name := name
  refcount := 1
  parent := parent
  functionTable := []
  defaultPropertiesTable := []
  defaultStaticMembersTable := statics
  constantsTable := []
  propertiesInfo := []
  handler := fun _ => none

/-- A class with the magic method `__get` and a property that `A` has declared -/
def magicClass (name : List UInt8) (parent : Option Addr) (method : Addr) : ZendClassEntry where
  name := name
  refcount := 1
  parent := parent
  functionTable := [(.name [95, 95, 103, 101, 116], method)]
  defaultPropertiesTable := [none]
  defaultStaticMembersTable := []
  constantsTable := []
  propertiesInfo := [(.name [112], some (.process 0))]
  handler := fun h => if h = .get then some method else none

def magicMethod (scope : Addr) (prototype : Option Addr) : ZendFunction :=
  ⟨[95, 95, 103, 101, 116], [], [], some scope, prototype, 0⟩

/-- The classes `A`, `B extends A` with a method of its own, and `C`, and the function `f` -/
def magicMemory : CopyState where
  zv := ⟨fun _ => none, fun _ => none, 0⟩
  cl :=
    { classes := fun a =>
        if a = .process 0 then some (magicClass [65] none (.process 0))
        else if a = .process 1 then some (magicClass [66] (some (.process 0)) (.process 1))
        else if a = .process 2 then some (staticClass [67] none [])
        else none
      functions := fun a =>
        if a = .process 0 then some (magicMethod (.process 0) none)
        else if a = .process 1 then some (magicMethod (.process 1) (some (.process 0)))
        else if a = .process 2 then some ⟨[102], [], [], none, none, 0⟩
        else none
      classXlat := fun _ => none
      functionXlat := fun _ => none
      nextClass := 3
      nextFunction := 3 }

def magicScript : ZendPersistentScript where
  functionTable := [(.name [102], .process 2)]
  classTable := [(.name [97], .process 0), (.name [98], .process 1), (.name [99], .process 2)]
  mainOpArray := ⟨[], [], [], none, none, 0⟩

theorem magic_parentOf {a p : Addr} : ParentOf magicMemory.memory a p ↔
    a = .process 1 ∧ p = .process 0 := by
  constructor
  · rintro ⟨c, hc, hp⟩
    have hc : magicMemory.cl.classes a = some c := hc
    simp only [magicMemory] at hc
    split_ifs at hc with h₀ h₁ h₂
    · obtain rfl := Option.some.inj hc
      cases hp
    · obtain rfl := Option.some.inj hc
      exact ⟨h₁, (Option.some.inj hp).symm⟩
    · obtain rfl := Option.some.inj hc
      cases hp
  · rintro ⟨rfl, rfl⟩
    exact ⟨_, rfl, rfl⟩

theorem magic_isMethod {a f : Addr} : IsMethod magicMemory.memory a f ↔
    (a = .process 0 ∧ f = .process 0) ∨ (a = .process 1 ∧ f = .process 1) := by
  constructor
  · rintro ⟨c, k, hc, hf⟩
    have hc : magicMemory.cl.classes a = some c := hc
    simp only [magicMemory] at hc
    split_ifs at hc with h₀ h₁ h₂
    · obtain rfl := Option.some.inj hc
      exact .inl ⟨h₀, (Prod.mk.inj (List.mem_singleton.mp hf)).2⟩
    · obtain rfl := Option.some.inj hc
      exact .inr ⟨h₁, (Prod.mk.inj (List.mem_singleton.mp hf)).2⟩
    · obtain rfl := Option.some.inj hc
      cases hf
  · rintro (⟨rfl, rfl⟩ | ⟨rfl, rfl⟩)
    · exact ⟨_, _, rfl, List.mem_singleton.mpr rfl⟩
    · exact ⟨_, _, rfl, List.mem_singleton.mpr rfl⟩

theorem magic_classBlock {a f : Addr} {name : List UInt8} {parent prototype : Option Addr}
    (hc : magicMemory.cl.classes a = some (magicClass name parent f))
    (hf : magicMemory.cl.functions f = some (magicMethod a prototype))
    (hin : InProcess f) (hmethod : IsMethod magicMemory.memory a f)
    (hanc : ReflTransGen (ParentOf magicMemory.memory) a (.process 0))
    (hproto : ∀ p, prototype = some p → ∃ s, TransGen (ParentOf magicMemory.memory) a s ∧
      IsMethod magicMemory.memory s p) :
    ClassBlock InProcess 1 magicMemory.memory a (magicClass name parent f) where
  block := hc
  refcount := le_rfl
  values := ⟨by simp [magicClass], by simp [magicClass], by simp [magicClass]⟩
  links := by
    constructor
    · intro h g hg
      simp only [magicClass] at hg
      split_ifs at hg
      obtain rfl := Option.some.inj hg
      exact ⟨a, .refl, hmethod⟩
    · intro p hp
      obtain rfl := List.mem_singleton.mp hp
      exact ⟨_, rfl, hanc⟩
  buckets := by simp [magicClass]
  method := by
    intro e he
    obtain rfl := List.mem_singleton.mp he
    exact ⟨hin, _, hf, ⟨by simp [magicMethod], by simp [magicMethod]⟩, ⟨a, rfl, .refl⟩, hproto⟩

theorem magic_graph : ScriptGraph InProcess 1 magicMemory.memory magicScript := by
  have hparent : ParentOf magicMemory.memory (.process 1) (.process 0) :=
    magic_parentOf.mpr ⟨rfl, rfl⟩
  constructor
  · decide
  · decide
  · decide
  · decide
  · intro e he
    simp only [magicScript, List.mem_cons, List.not_mem_nil, or_false] at he
    rcases he with rfl | rfl | rfl
    · refine ⟨⟨0, rfl⟩, _, magic_classBlock rfl rfl ⟨0, rfl⟩ (by simp [magic_isMethod]) .refl ?_⟩
      rintro p ⟨⟩
    · refine ⟨⟨1, rfl⟩, _, magic_classBlock rfl rfl ⟨1, rfl⟩ (by simp [magic_isMethod])
        (.single hparent) ?_⟩
      rintro p hp
      obtain rfl := Option.some.inj hp
      exact ⟨_, .single hparent, by simp [magic_isMethod]⟩
    · refine ⟨⟨2, rfl⟩, staticClass [67] none [], rfl, le_rfl, ⟨?_, ?_, ?_⟩, ⟨?_, ?_⟩, ?_, ?_⟩ <;>
        simp [staticClass]
  · intro e he
    obtain rfl := List.mem_singleton.mp he
    exact ⟨⟨2, rfl⟩, _, rfl, ⟨by simp, by simp⟩, rfl, rfl⟩
  · exact ⟨⟨by simp [magicScript], by simp [magicScript]⟩, rfl, rfl⟩
  · intro e _ e' _ f hf hf'
    rw [magic_isMethod] at hf hf'
    rcases hf with ⟨h, rfl⟩ | ⟨h, rfl⟩ <;> rcases hf' with ⟨h', hff⟩ | ⟨h', hff⟩
    · rw [h, h']
    · cases hff
    · cases hff
    · rw [h, h']
  · intro e he e' _ hf
    obtain rfl := List.mem_singleton.mp he
    rw [magic_isMethod] at hf
    simp at hf
  · intro l₁ e l₂ hl p hp
    obtain ⟨he, rfl⟩ := magic_parentOf.mp hp
    cases l₁ with
    | nil =>
      obtain rfl : (.name [97], .process 0) = e := (List.cons.inj hl).1
      cases he
    | cons d l₁ =>
      obtain ⟨rfl, -⟩ := List.cons.inj hl
      simp

/-- The process has a class `C` and a function `g`. -/
def magicTables : ProcessTables := ⟨[(.name [99], .process 9)], [(.name [103], .process 9)]⟩

/-- `C` is left out as a duplicate, and the others are loaded. -/
theorem zendAccelLoadScript_iff_magic : ∃ st₁ script₁,
    zendAccelScriptPersist 1 magicMemory magicScript = .ok (st₁, script₁) ∧
      (ReportsRedeclaration script₁ magicTables
          (zendAccelLoadScript 1 true st₁ script₁ magicTables) ∨
        Completes st₁.memory 1 script₁ st₁ magicTables
          (zendAccelLoadScript 1 true st₁ script₁ magicTables)) ∧
      ∀ name, zendAccelLoadScript 1 true st₁ script₁ magicTables ≠
        .error (.classLoadingError name) := by
  obtain ⟨st₁, script₁, hok, hall⟩ := zendAccelLoadScript_iff magic_graph
  refine ⟨st₁, script₁, hok, (hall st₁ magicTables true ⟨fun _ _ => rfl, fun _ _ => rfl,
    fun _ _ => rfl⟩).mpr ?_⟩
  rintro - e he - e' he' hp htaken
  obtain ⟨-, hparent⟩ := magic_parentOf.mp hp
  simp only [magicScript, List.mem_cons, List.not_mem_nil, or_false] at he'
  rcases he' with rfl | rfl | rfl
  · exact absurd htaken.1 (by decide)
  · cases hparent
  · cases hparent

/-! ## A class and its parent -/

/-- The class `A` at 0 and the class `B extends A` at 1, with the same static members -/
def parentAndChild (zvals : ZvalHeap) (statics : List (Option Addr)) : CopyState where
  zv := ⟨zvals, fun _ => none, 0⟩
  cl :=
    { classes := fun a =>
        if a = .process 0 then some (staticClass [65] none statics)
        else if a = .process 1 then some (staticClass [66] (some (.process 0)) statics)
        else none
      functions := fun _ => none
      classXlat := fun _ => none
      functionXlat := fun _ => none
      nextClass := 2
      nextFunction := 0 }

def parentAndChildScript : ZendPersistentScript where
  functionTable := []
  classTable := [(.name [97], .process 0), (.name [98], .process 1)]
  mainOpArray := ⟨[], [], [], none, none, 0⟩

section

variable {zvals : ZvalHeap} {statics : List (Option Addr)}

theorem parentAndChild_classBlock {a : Addr} {name : List UInt8} {parent : Option Addr}
    (hstatics : ∀ slot ∈ statics, ∀ a ∈ slot, Within InProcess zvals 1 a)
    (h : (parentAndChild zvals statics).cl.classes a = some (staticClass name parent statics)) :
    ClassBlock InProcess 1 (parentAndChild zvals statics).memory a
      (staticClass name parent statics) where
  block := h
  refcount := le_rfl
  values := ⟨by simp [staticClass], hstatics, by simp [staticClass]⟩
  links := ⟨by simp [staticClass], by simp [staticClass]⟩
  buckets := by simp [staticClass]
  method := by simp [staticClass]

theorem parentAndChild_graph (hstatics : ∀ slot ∈ statics, ∀ a ∈ slot, Within InProcess zvals 1 a) :
    ScriptGraph InProcess 1 (parentAndChild zvals statics).memory parentAndChildScript := by
  have hA : (parentAndChild zvals statics).cl.classes (.process 0) =
      some (staticClass [65] none statics) := rfl
  have hB : (parentAndChild zvals statics).cl.classes (.process 1) =
      some (staticClass [66] (some (.process 0)) statics) := rfl
  have hmethod : ∀ e ∈ parentAndChildScript.classTable, ∀ f,
      ¬ IsMethod (parentAndChild zvals statics).memory e.2 f := by
    intro e hmem f ⟨c, k, hc, hf⟩
    simp only [parentAndChildScript, List.mem_cons, List.not_mem_nil, or_false] at hmem
    rcases hmem with rfl | rfl
    · obtain rfl := Option.some.inj (hA.symm.trans hc)
      simp [staticClass] at hf
    · obtain rfl := Option.some.inj (hB.symm.trans hc)
      simp [staticClass] at hf
  constructor
  · decide
  · decide
  · decide
  · decide
  · intro e hmem
    simp only [parentAndChildScript, List.mem_cons, List.not_mem_nil, or_false] at hmem
    rcases hmem with rfl | rfl
    · exact ⟨⟨0, rfl⟩, _, parentAndChild_classBlock hstatics hA⟩
    · exact ⟨⟨1, rfl⟩, _, parentAndChild_classBlock hstatics hB⟩
  · simp [parentAndChildScript]
  · exact ⟨⟨by simp [parentAndChildScript], by simp [parentAndChildScript]⟩, rfl, rfl⟩
  · exact fun e hmem _ _ f hf => absurd hf (hmethod e hmem f)
  · simp [parentAndChildScript]
  · intro l₁ e l₂ hl p ⟨c, hc, hp⟩
    cases l₁ with
    | nil =>
      obtain rfl : (.name [97], .process 0) = e := (List.cons.inj hl).1
      obtain rfl := Option.some.inj (hA.symm.trans hc)
      simp [staticClass] at hp
    | cons d l₁ =>
      obtain ⟨rfl, htail⟩ := List.cons.inj hl
      cases l₁ with
      | nil =>
        obtain rfl : (.name [98], .process 1) = e := (List.cons.inj htail).1
        obtain rfl := Option.some.inj (hB.symm.trans hc)
        obtain rfl : Addr.process 0 = p := Option.some.inj hp
        simp
      | cons d' l₁ =>
        have hnil := (List.cons.inj htail).2
        simp at hnil

end

/-- The process has a class `A`, which is left out as a duplicate: `B` cannot be loaded. -/
theorem zendAccelLoadScript_parentTaken :
    ScriptGraph InProcess 1 (parentAndChild (fun _ => none) []).memory parentAndChildScript ∧
      ∃ st₁ script₁,
        zendAccelScriptPersist 1 (parentAndChild (fun _ => none) []) parentAndChildScript =
          .ok (st₁, script₁) ∧
        zendAccelLoadScript 1 true st₁ script₁ ⟨[(.name [97], .process 0)], []⟩ =
          .error (.classLoadingError [66]) :=
  ⟨parentAndChild_graph (by simp), _, _, rfl, rfl⟩

end Persist

end ZendOpcache
