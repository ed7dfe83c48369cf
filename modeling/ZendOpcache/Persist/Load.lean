import Mathlib.Algebra.Ring.Nat
import ZendOpcache.Persist.Store

/-! # Loading a script

`zend_accel_load_script` from shared memory. Classes and functions are copied into the tables of
the process, and a translation table finds the copies of parents, methods and static members. Only
blocks with a mark get an entry in it.
-/

namespace ZendOpcache

namespace Persist

/-- `ZEND_PROTECTED_REFCOUNT`, for the pointer to the count of a loaded function -/
def protectedRefcount : ℕ := 2 ^ 30

/-- A copy of a value in memory of the process, with the values of an array copied one by one -/
def cloneBlock (clone : ZvalState → Addr → Except Fatal (ZvalState × Addr)) (st : ZvalState)
    (b : Addr) (z : ZvalBlock) : Except Fatal ZvalState :=
  match z.value with
  | .array type elements => do
    let (st, elements) ← mapAccum
      (fun st e => do
        let (st, b) ← clone st e.2
        .ok (st, (e.1, b)))
      elements st
    .ok (st.write b { z with value := .array type elements })
  | _ => .ok st

/-- `zend_clone_zval`, and the copying of an element in `zend_hash_clone_zval`, for arrays that are
nested to a depth below the bound. A value that is bound keeps its count and its flag. -/
def cloneZval : ℕ → Bool → ZvalState → Addr → Except Fatal (ZvalState × Addr)
  | 0, _, _, _ => .error .crash
  | n + 1, bind, st, src => do
    let z ← deref (st.zvals src)
    let b := Addr.process st.next
    if bind = false then
      -- INIT_PZVAL
      let z := { z with refcount := 1, isRef := false }
      let st ← cloneBlock (cloneZval n false) (st.write b z).advance b z
      .ok (st, b)
    else if z.refcount = 1 then
      let st ← cloneBlock (cloneZval n false) (st.write b z).advance b z
      .ok (st, b)
    else
      match st.xlat src with
      | some b => .ok (st, b)
      | none =>
        let st ← cloneBlock (cloneZval n false) ((st.write b z).advance.register src b) b z
        .ok (st, b)

/-- A slot of a table of properties, which may be null -/
def cloneSlot (n : ℕ) (bind : Bool) (st : ZvalState) (a : Option Addr) :
    Except Fatal (ZvalState × Option Addr) :=
  match a with
  | none => .ok (st, none)
  | some a => do
    let (st, b) ← cloneZval n bind st a
    .ok (st, some b)

/-- `zend_hash_clone_zval` of an entry -/
def cloneEntry (n : ℕ) (bind : Bool) (st : ZvalState) (e : HashKey × Addr) :
    Except Fatal (ZvalState × (HashKey × Addr)) := do
  let (st, b) ← cloneZval n bind st e.2
  .ok (st, (e.1, b))

/-- `zend_prepare_function_for_execution` -/
def prepareFunction (n : ℕ) (zv : ZvalState) (f : ZendFunction) :
    Except Fatal (ZvalState × ZendFunction) := do
  let (zv, statics) ← mapAccum (cloneEntry n false) f.staticVariables zv
  .ok (zv, { f with refcount := protectedRefcount, staticVariables := statics })

/-- The owner of a method or a property, where the class at `old` is copied to `new` -/
def copyOwner (cl : ClassState) (name : List UInt8) (old new : Addr) (owner : Option Addr) :
    Except Fatal (Option Addr) :=
  if owner = some old then .ok (some new)
  else
    match owner.bind cl.classXlat with
    | some s => .ok (some s)
    | none => .error (.classLoadingError name)

/-- A pointer that may be null and is looked up in the translation table -/
def copyPointer (xlat : Addr → Option Addr) (name : List UInt8) (p : Option Addr) :
    Except Fatal (Option Addr) :=
  match p with
  | none => .ok none
  | some p =>
    match xlat p with
    | some q => .ok (some q)
    | none => .error (.classLoadingError name)

/-- One entry of `zend_hash_clone_methods` -/
def cloneMethod (n : ℕ) (name : List UInt8) (old new : Addr) (st : CopyState)
    (e : HashKey × Addr) : Except Fatal (CopyState × (HashKey × Addr)) := do
  let f ← deref (st.cl.functions e.2)
  let b := Addr.process st.cl.nextFunction
  let cl := { st.cl.writeFunction b f with nextFunction := st.cl.nextFunction + 1 }
  -- the op array is referenced from several places
  let cl := if f.refcount ≠ 0 then cl.registerFunction e.2 b else cl
  let (zv, f) ← prepareFunction n st.zv f
  let scope ← copyOwner cl name old new f.scope
  let prototype ← copyPointer cl.functionXlat name f.prototype
  .ok (⟨zv, cl.writeFunction b { f with scope := scope, prototype := prototype }⟩, (e.1, b))

/-- `zend_hash_clone_prop_info` -/
def clonePropInfo (cl : ClassState) (name : List UInt8) (old new : Addr)
    (properties : List (HashKey × Option Addr)) : Except Fatal (List (HashKey × Option Addr)) :=
  properties.mapM fun p => do
    let owner ← copyOwner cl name old new p.2
    .ok (p.1, owner)

/-- `zend_update_inherited_handler` of all handlers -/
def updateInheritedHandlers (cl : ClassState) (name : List UInt8)
    (handler : Handler → Option Addr) :
    Except Fatal (Handler → Option Addr) :=
  Handler.all.foldlM (fun hs h => do
    let g ← copyPointer cl.functionXlat name (handler h)
    .ok (Function.update hs h g)) handler

/-- `zend_class_copy_ctor` -/
def zendClassCopyCtor (n : ℕ) (st : CopyState) (old : Addr) : Except Fatal (CopyState × Addr) := do
  let c ← deref (st.cl.classes old)
  let new := Addr.process st.cl.nextClass
  let cl := { st.cl.writeClass new { c with refcount := 1 } with
    nextClass := st.cl.nextClass + 1 }
  -- the class is used as a parent
  let cl := if c.refcount ≠ 1 then cl.registerClass old new else cl
  let (zv, properties) ← mapAccum (cloneSlot n false) c.defaultPropertiesTable st.zv
  let (st, functions) ← mapAccum (cloneMethod n c.name old new) c.functionTable ⟨zv, cl⟩
  let (zv, statics) ← mapAccum (cloneSlot n true) c.defaultStaticMembersTable st.zv
  let info ← clonePropInfo st.cl c.name old new c.propertiesInfo
  let (zv, constants) ← mapAccum (cloneEntry n false) c.constantsTable zv
  let parent ← copyPointer st.cl.classXlat c.name c.parent
  let handler ← updateInheritedHandlers st.cl c.name c.handler
  let c := { c with
    refcount := 1
    defaultPropertiesTable := properties
    functionTable := functions
    defaultStaticMembersTable := statics
    propertiesInfo := info
    constantsTable := constants
    parent := parent
    handler := handler }
  .ok (⟨zv, st.cl.writeClass new c⟩, new)

/-- The copy of a function with its own block -/
def copyFunction (n : ℕ) (st : CopyState) (old : Addr) : Except Fatal (CopyState × Addr) := do
  let f ← deref (st.cl.functions old)
  let b := Addr.process st.cl.nextFunction
  let (zv, f) ← prepareFunction n st.zv f
  .ok (⟨zv, { st.cl.writeFunction b f with nextFunction := st.cl.nextFunction + 1 }⟩, b)

/-- `zend_hash_quick_update` of a key that is there. The destructor of the table, which is called
for the element that was there, is left out. -/
def replaceKey (table : List (HashKey × Addr)) (key : HashKey) (b : Addr) : List (HashKey × Addr) :=
  table.map fun e => if e.1 = key then (key, b) else e

def hasKey (table : List (HashKey × Addr)) (key : HashKey) : Bool := table.any (·.1 == key)

/-- `zend_hash_unique_copy` -/
def zendHashUniqueCopy {σ : Type} (copy : σ → Addr → Except Fatal (σ × Addr)) (ignoreDups : Bool)
    (conflict : HashKey → Fatal) :
    List (HashKey × Addr) → σ → List (HashKey × Addr) → Except Fatal (σ × List (HashKey × Addr))
  | [], st, target => .ok (st, target)
  | (key, p) :: source, st, target =>
    if hasKey target key = false then do
      let (st, b) ← copy st p
      zendHashUniqueCopy copy ignoreDups conflict source st (target ++ [(key, b)])
    else if key.isMangled then do
      let (st, b) ← copy st p
      zendHashUniqueCopy copy ignoreDups conflict source st (replaceKey target key b)
    else if ignoreDups = false then .error (conflict key)
    else zendHashUniqueCopy copy ignoreDups conflict source st target

/-- The tables `CG(class_table)` and `CG(function_table)` of the process -/
structure ProcessTables where
  classTable : List (HashKey × Addr)
  functionTable : List (HashKey × Addr)

/-- `zend_accel_load_script` from shared memory, with `dups_fix`. The copies of the classes begin
with an empty translation table. -/
def zendAccelLoadScript (n : ℕ) (ignoreDups : Bool) (st : CopyState)
    (script : ZendPersistentScript) (tables : ProcessTables) :
    Except Fatal (CopyState × ProcessTables × ZendFunction) := do
  let st : CopyState :=
    { zv := { st.zv with xlat := fun _ => none }
      cl := { st.cl with classXlat := fun _ => none, functionXlat := fun _ => none } }
  let (st, classes) ← zendHashUniqueCopy (zendClassCopyCtor n) ignoreDups .redeclareClass
    script.classTable st tables.classTable
  let (st, functions) ← zendHashUniqueCopy (copyFunction n) false .redeclareFunction
    script.functionTable st tables.functionTable
  let (zv, main) ← prepareFunction n st.zv script.mainOpArray
  .ok (⟨zv, st.cl⟩, ⟨classes, functions⟩, main)

end Persist

end ZendOpcache
