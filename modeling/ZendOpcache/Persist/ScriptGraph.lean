import Mathlib.Logic.Relation
import ZendOpcache.Persist.LoadValues

/-! # The graph of a script

How the classes and functions of a script point to each other. The parent of a class belongs to the
script and comes before it. The owners of methods and properties, and the methods that a class
points to, are those of the class and of its ancestors.
-/

namespace ZendOpcache

namespace Persist

open Relation

/-- The blocks of a script in memory -/
structure ScriptMemory where
  zvals : ZvalHeap
  classes : Addr → Option ZendClassEntry
  functions : Addr → Option ZendFunction

def CopyState.memory (st : CopyState) : ScriptMemory :=
  ⟨st.zv.zvals, st.cl.classes, st.cl.functions⟩

/-- The blocks of a part of memory are those of `M`. -/
structure AgreesOn (P : Addr → Prop) (M : ScriptMemory) (st : CopyState) : Prop where
  zvals : ∀ a, P a → st.zv.zvals a = M.zvals a
  classes : ∀ a, P a → st.cl.classes a = M.classes a
  functions : ∀ a, P a → st.cl.functions a = M.functions a

def ParentOf (M : ScriptMemory) (a p : Addr) : Prop := ∃ c, M.classes a = some c ∧ c.parent = some p

/-- A function in the table of a class -/
def IsMethod (M : ScriptMemory) (a f : Addr) : Prop :=
  ∃ c k, M.classes a = some c ∧ (k, f) ∈ c.functionTable

/-- The values of a function are there, with arrays nested to a depth below the bound. -/
structure FunctionValues (P : Addr → Prop) (n : ℕ) (M : ScriptMemory) (f : ZendFunction) :
    Prop where
  literals : ∀ a ∈ f.literals, Within P M.zvals n a
  statics : ∀ e ∈ f.staticVariables, Within P M.zvals n e.2

structure ClassValues (P : Addr → Prop) (n : ℕ) (M : ScriptMemory) (c : ZendClassEntry) :
    Prop where
  properties : ∀ slot ∈ c.defaultPropertiesTable, ∀ a ∈ slot, Within P M.zvals n a
  statics : ∀ slot ∈ c.defaultStaticMembersTable, ∀ a ∈ slot, Within P M.zvals n a
  constants : ∀ e ∈ c.constantsTable, Within P M.zvals n e.2

/-- A function outside of classes -/
structure Unlinked (f : ZendFunction) : Prop where
  scope : f.scope = none
  prototype : f.prototype = none

/-- The pointers of a method of the class at `a` -/
structure MethodLinks (M : ScriptMemory) (a : Addr) (f : ZendFunction) : Prop where
  scope : ∃ s, f.scope = some s ∧ ReflTransGen (ParentOf M) a s
  prototype : ∀ p, f.prototype = some p → ∃ s, TransGen (ParentOf M) a s ∧ IsMethod M s p

/-- The pointers of the class at `a` to methods and to the owners of properties -/
structure ClassLinks (M : ScriptMemory) (a : Addr) (c : ZendClassEntry) : Prop where
  handler : ∀ h g, c.handler h = some g → ∃ s, ReflTransGen (ParentOf M) a s ∧ IsMethod M s g
  owner : ∀ p ∈ c.propertiesInfo, ∃ s, p.2 = some s ∧ ReflTransGen (ParentOf M) a s

/-- A class of a script at `a` -/
structure ClassBlock (P : Addr → Prop) (n : ℕ) (M : ScriptMemory) (a : Addr) (c : ZendClassEntry) :
    Prop where
  block : M.classes a = some c
  refcount : 1 ≤ c.refcount
  values : ClassValues P n M c
  links : ClassLinks M a c
  buckets : (c.functionTable.map Prod.snd).Nodup
  method : ∀ e ∈ c.functionTable, P e.2 ∧ ∃ f, M.functions e.2 = some f ∧
    FunctionValues P n M f ∧ MethodLinks M a f

/-- A script whose blocks lie in a part of memory, as the compiler links them -/
structure ScriptGraph (P : Addr → Prop) (n : ℕ) (M : ScriptMemory) (script : ZendPersistentScript) :
    Prop where
  classKeys : (script.classTable.map Prod.fst).Nodup
  classBuckets : (script.classTable.map Prod.snd).Nodup
  functionKeys : (script.functionTable.map Prod.fst).Nodup
  functionBuckets : (script.functionTable.map Prod.snd).Nodup
  cls : ∀ e ∈ script.classTable, P e.2 ∧ ∃ c, ClassBlock P n M e.2 c
  function : ∀ e ∈ script.functionTable, P e.2 ∧ ∃ f, M.functions e.2 = some f ∧
    FunctionValues P n M f ∧ Unlinked f
  main : FunctionValues P n M script.mainOpArray ∧ Unlinked script.mainOpArray
  oneClass : ∀ e ∈ script.classTable, ∀ e' ∈ script.classTable, ∀ f, IsMethod M e.2 f →
    IsMethod M e'.2 f → e.2 = e'.2
  notMethod : ∀ e ∈ script.functionTable, ∀ e' ∈ script.classTable, ¬ IsMethod M e'.2 e.2
  /-- parents before children -/
  parentFirst : ∀ l₁ e l₂, script.classTable = l₁ ++ e :: l₂ → ∀ p, ParentOf M e.2 p →
    p ∈ l₁.map Prod.snd

/-- The marks of the blocks that other blocks point to -/
structure Marked (M : ScriptMemory) (script : ZendPersistentScript) : Prop where
  parent : ∀ e ∈ script.classTable, ∀ p, ParentOf M e.2 p →
    ∃ d, M.classes p = some d ∧ d.refcount ≠ 1
  handler : ∀ e ∈ script.classTable, ∀ c, M.classes e.2 = some c → ∀ h g, c.handler h = some g →
    ∃ f, M.functions g = some f ∧ f.refcount ≠ 0
  prototype : ∀ e ∈ script.classTable, ∀ m f p, IsMethod M e.2 m → M.functions m = some f →
    f.prototype = some p → ∃ g, M.functions p = some g ∧ g.refcount ≠ 0

variable {P : Addr → Prop} {n : ℕ} {M : ScriptMemory} {script : ZendPersistentScript} {a s : Addr}

/-- The ancestors of a class come before it. -/
theorem ScriptGraph.ancestor_mem (hg : ScriptGraph P n M script)
    (h : ReflTransGen (ParentOf M) a s) :
    ∀ {l₁ l₂ : List (HashKey × Addr)} {key : HashKey}, script.classTable = l₁ ++ (key, a) :: l₂ →
      s = a ∨ s ∈ l₁.map Prod.snd := by
  induction h using ReflTransGen.head_induction_on with
  | refl => exact fun _ => .inl rfl
  | @head a p hap _ ih =>
    intro l₁ l₂ key hl
    obtain ⟨⟨key', p⟩, hmem, rfl⟩ := List.mem_map.mp (hg.parentFirst l₁ _ l₂ hl _ hap)
    obtain ⟨l, l', rfl⟩ := List.append_of_mem hmem
    have hsplit : script.classTable = l ++ (key', p) :: (l' ++ (key, a) :: l₂) := by
      rw [hl, List.append_assoc, List.cons_append]
    right
    rcases ih hsplit with rfl | hs
    · simp
    · simp only [List.map_append, List.mem_append]
      exact .inl hs

theorem ScriptGraph.ancestor_in (hg : ScriptGraph P n M script) {e : HashKey × Addr}
    (hmem : e ∈ script.classTable) (h : ReflTransGen (ParentOf M) e.2 s) :
    ∃ e' ∈ script.classTable, e'.2 = s := by
  obtain ⟨l₁, l₂, hl⟩ := List.append_of_mem hmem
  rcases hg.ancestor_mem h hl with rfl | hs
  · exact ⟨e, hmem, rfl⟩
  · obtain ⟨e', he', rfl⟩ := List.mem_map.mp hs
    exact ⟨e', by simp [hl, he'], rfl⟩

/-- A proper ancestor is the parent of a class of the script that is in the table up to it. -/
theorem ScriptGraph.proper_ancestor (hg : ScriptGraph P n M script)
    (h : TransGen (ParentOf M) a s) {l₁ l₂ : List (HashKey × Addr)} {key : HashKey}
    (hl : script.classTable = l₁ ++ (key, a) :: l₂) :
    s ∈ l₁.map Prod.snd ∧ ∃ e ∈ script.classTable, ParentOf M e.2 s := by
  obtain ⟨c, hac, hcs⟩ := TransGen.tail'_iff.mp h
  have hc : c ∈ (l₁ ++ [(key, a)]).map Prod.snd := by
    rcases hg.ancestor_mem hac hl with rfl | hc
    · simp
    · simp only [List.map_append, List.mem_append]
      exact .inl hc
  obtain ⟨e, hmem, rfl⟩ := List.mem_map.mp hc
  have hscript : e ∈ script.classTable := by
    rw [hl]
    simp only [List.mem_append, List.mem_cons, List.not_mem_nil, or_false] at hmem ⊢
    tauto
  refine ⟨?_, e, hscript, hcs⟩
  obtain ⟨p, hap, hps⟩ := TransGen.head'_iff.mp h
  obtain ⟨⟨key', p⟩, hpmem, rfl⟩ := List.mem_map.mp (hg.parentFirst l₁ _ l₂ hl _ hap)
  obtain ⟨l, l', rfl⟩ := List.append_of_mem hpmem
  have hsplit : script.classTable = l ++ (key', p) :: (l' ++ (key, a) :: l₂) := by
    rw [hl, List.append_assoc, List.cons_append]
  rcases hg.ancestor_mem hps hsplit with rfl | hs
  · simp
  · simp only [List.map_append, List.mem_append]
    exact .inl hs

end Persist

end ZendOpcache
