import ZendOpcache.Persist.Entries

/-! # Copying a script to shared memory

`zend_accel_script_persist`. Every block is copied once; the translation table finds the copy for
the other pointers to it. A function or a class has one bucket. A reference count marks the classes
that are parents, and a pointer that is not null the functions that something else than a function
table points to.
-/

namespace ZendOpcache

namespace Persist

/-- `zend_persist_zval_ptr`, for arrays that are nested to a depth below the bound -/
def persistZvalPtr : ℕ → ZvalState → Addr → Except Fatal (ZvalState × Addr)
  | 0, _, _ => .error .crash
  | n + 1, st, a =>
    match st.xlat a with
    | some b => .ok (st, b)
    | none => do
      let z ← deref (st.zvals a)
      let b := Addr.shared st.next
      let st := ((st.write b z).register a b).advance
      match z.value with
      | .array type elements =>
        let (st, elements) ← mapAccum
          (fun st e => do
            let (st, b) ← persistZvalPtr n st e.2
            .ok (st, (e.1, b)))
          elements st
        .ok (st.write b { z with value := .array type elements }, b)
      | _ => .ok (st, b)

/-- A slot of a table of properties, which may be null -/
def persistSlot (n : ℕ) (st : ZvalState) (a : Option Addr) :
    Except Fatal (ZvalState × Option Addr) :=
  match a with
  | none => .ok (st, none)
  | some a => do
    let (st, b) ← persistZvalPtr n st a
    .ok (st, some b)

/-- An entry of a hash table of values -/
def persistEntry (n : ℕ) (st : ZvalState) (e : HashKey × Addr) :
    Except Fatal (ZvalState × (HashKey × Addr)) := do
  let (st, b) ← persistZvalPtr n st e.2
  .ok (st, (e.1, b))

/-- The count of a reference to a function, which goes through its address -/
def countFunction (cl : ClassState) (b : Addr) : Except Fatal ClassState := do
  let f ← deref (cl.functions b)
  .ok (cl.writeFunction b { f with refcount := f.refcount + 1 })

/-- The values of a function -/
def persistFunctionZvals (n : ℕ) (zv : ZvalState) (f : ZendFunction) :
    Except Fatal (ZvalState × ZendFunction) := do
  let (zv, literals) ← mapAccum (persistZvalPtr n) f.literals zv
  let (zv, statics) ← mapAccum (persistEntry n) f.staticVariables zv
  .ok (zv, { f with literals := literals, staticVariables := statics })

/-- The pointers of a function to its class and to its prototype. A prototype that is not in the
table is left as it is. -/
def persistLinks (cl : ClassState) (f : ZendFunction) : ZendFunction × Option Addr :=
  match f.scope.bind cl.classXlat with
  | none => ({ f with scope := none, prototype := none, refcount := 0 }, none)
  | some s =>
    match f.prototype.bind cl.functionXlat with
    | none => ({ f with scope := some s, refcount := 0 }, none)
    | some p => ({ f with scope := some s, prototype := some p, refcount := 0 }, some p)

/-- The count of a prototype that was found -/
def countPrototype (cl : ClassState) (p : Option Addr) : Except Fatal ClassState :=
  match p with
  | none => .ok cl
  | some p => countFunction cl p

/-- `zend_persist_op_array` of a function in a hash table, with its block -/
def persistFunction (n : ℕ) (st : CopyState) (e : HashKey × Addr) :
    Except Fatal (CopyState × (HashKey × Addr)) := do
  let f ← deref (st.cl.functions e.2)
  let b := Addr.shared st.cl.nextFunction
  let cl := { (st.cl.writeFunction b f).registerFunction e.2 b with
    nextFunction := st.cl.nextFunction + 1 }
  let (zv, f) ← persistFunctionZvals n st.zv f
  let (f, counted) := persistLinks cl f
  let cl ← countPrototype (cl.writeFunction b f) counted
  .ok (⟨zv, cl⟩, (e.1, b))

/-- `zend_persist_class_entry` -/
def persistClassEntry (n : ℕ) (st : CopyState) (e : HashKey × Addr) :
    Except Fatal (CopyState × (HashKey × Addr)) := do
  let c ← deref (st.cl.classes e.2)
  let b := Addr.shared st.cl.nextClass
  let cl := { (st.cl.writeClass b c).registerClass e.2 b with nextClass := st.cl.nextClass + 1 }
  let (st, functions) ← mapAccum (persistFunction n) c.functionTable ⟨st.zv, cl⟩
  let (zv, properties) ← mapAccum (persistSlot n) c.defaultPropertiesTable st.zv
  let (zv, statics) ← mapAccum (persistSlot n) c.defaultStaticMembersTable zv
  let (zv, constants) ← mapAccum (persistEntry n) c.constantsTable zv
  let c := { c with
    functionTable := functions
    defaultPropertiesTable := properties
    defaultStaticMembersTable := statics
    constantsTable := constants }
  .ok (⟨zv, st.cl.writeClass b c⟩, (e.1, b))

/-- One of the methods that `zend_update_parent_ce` looks at in the class at an address -/
def updateHandler (b : Addr) (cl : ClassState) (h : Handler) : Except Fatal ClassState := do
  let c ← deref (cl.classes b)
  match c.handler h with
  | none => .ok cl
  | some f => do
    let g ← deref (cl.functionXlat f)
    countFunction (cl.writeClass b { c with handler := Function.update c.handler h (some g) }) g

/-- The parent of a class -/
def updateParent (b : Addr) (cl : ClassState) : Except Fatal ClassState := do
  let c ← deref (cl.classes b)
  match c.parent with
  | none => .ok cl
  | some p => do
    let q ← deref (cl.classXlat p)
    let cl := cl.writeClass b { c with parent := some q }
    let d ← deref (cl.classes q)
    .ok (cl.writeClass q { d with refcount := d.refcount + 1 })

/-- `zend_update_parent_ce` -/
def updateParentCe (cl : ClassState) (e : HashKey × Addr) : Except Fatal ClassState := do
  let cl ← updateParent e.2 cl
  let cl ← Handler.all.foldlM (updateHandler e.2) cl
  let c ← deref (cl.classes e.2)
  .ok (cl.writeClass e.2 { c with
    propertiesInfo := c.propertiesInfo.map fun p => (p.1, p.2.bind cl.classXlat) })

/-- `zend_accel_script_persist`, which begins with an empty table -/
def zendAccelScriptPersist (n : ℕ) (st : CopyState) (script : ZendPersistentScript) :
    Except Fatal (CopyState × ZendPersistentScript) := do
  let st : CopyState :=
    { zv := { st.zv with xlat := fun _ => none }
      cl := { st.cl with classXlat := fun _ => none, functionXlat := fun _ => none } }
  let (st, functions) ← mapAccum (persistFunction n) script.functionTable st
  let (st, classes) ← mapAccum (persistClassEntry n) script.classTable st
  let cl ← classes.foldlM updateParentCe st.cl
  let (zv, main) ← persistFunctionZvals n st.zv script.mainOpArray
  let (main, counted) := persistLinks cl main
  let cl ← countPrototype cl counted
  .ok (⟨zv, cl⟩, { functionTable := functions, classTable := classes, mainOpArray := main })

end Persist

end ZendOpcache
