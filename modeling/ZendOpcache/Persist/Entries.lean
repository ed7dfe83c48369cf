import Mathlib.Logic.Function.Basic
import ZendOpcache.Transition.MapAccum

/-! # Values, functions and classes in memory

What `zend_accel_script_persist` copies to shared memory and `zend_accel_load_script` copies from
there. The blocks of one kind are a map from their addresses. Both translation tables have blocks
of all kinds as keys; as no two blocks have one address, each kind has a table of its own here.
-/

namespace ZendOpcache

namespace Persist

/-- An address in the memory of the process or in shared memory -/
inductive Addr where
  | process (n : ℕ)
  | shared (n : ℕ)
  deriving DecidableEq, Repr

def Addr.isShared : Addr → Bool
  | .process _ => false
  | .shared _ => true

/-- `arKey`, or `h` where `nKeyLength` is 0 -/
inductive HashKey where
  | index (h : ℕ)
  | name (s : List UInt8)
  deriving DecidableEq, Repr

/-- A key that begins with a byte `NUL`, which may be the one that ends it -/
def HashKey.isMangled : HashKey → Bool
  | .index _ => false
  | .name s => s.headD 0 == 0

/-- The value of a `zval` with its type, which has the flags of a constant -/
inductive ZvalValue where
  | scalar (type : ℕ) (bits : UInt64)
  /-- `IS_STRING` and `IS_CONSTANT` -/
  | string (type : ℕ) (s : List UInt8)
  /-- `IS_ARRAY` and `IS_CONSTANT_ARRAY`, with pointers to the elements in order -/
  | array (type : ℕ) (elements : List (HashKey × Addr))
  deriving DecidableEq, Repr

/-- A `zval` -/
structure ZvalBlock where
  value : ZvalValue
  refcount : ℕ
  isRef : Bool
  deriving DecidableEq, Repr

/-- The elements of an array -/
def ZvalBlock.elements (z : ZvalBlock) : List (HashKey × Addr) :=
  match z.value with
  | .array _ elements => elements
  | _ => []

/-- A `zend_op_array` with what of it points to other blocks than its own. `refcount` is the
pointer, which is null while the number is 0 and is counted up as a mark. -/
structure ZendFunction where
  functionName : List UInt8
  /-- the elements of the arrays among the literals -/
  literals : List Addr
  staticVariables : List (HashKey × Addr)
  scope : Option Addr
  prototype : Option Addr
  refcount : ℕ
  deriving DecidableEq, Repr

/-- The methods that a class entry points to, in the order in which they are updated -/
inductive Handler where
  | constructor | destructor | clone | get | set | call | serializeFunc | unserializeFunc | isset
  | unset | tostring | callstatic
  deriving DecidableEq, Repr

def Handler.all : List Handler :=
  [.constructor, .destructor, .clone, .get, .set, .call, .serializeFunc, .unserializeFunc, .isset,
    .unset, .tostring, .callstatic]

theorem Handler.mem_all (h : Handler) : h ∈ Handler.all := by
  cases h <;> decide

structure ZendClassEntry where
  name : List UInt8
  refcount : ℕ
  parent : Option Addr
  functionTable : List (HashKey × Addr)
  defaultPropertiesTable : List (Option Addr)
  defaultStaticMembersTable : List (Option Addr)
  constantsTable : List (HashKey × Addr)
  /-- the owners of the properties -/
  propertiesInfo : List (HashKey × Option Addr)
  handler : Handler → Option Addr

structure ZendPersistentScript where
  functionTable : List (HashKey × Addr)
  classTable : List (HashKey × Addr)
  mainOpArray : ZendFunction

/-- What ends a request: a fatal error with its message, or a pointer that is null or dangling. -/
inductive Fatal where
  | classLoadingError (className : List UInt8)
  | redeclareClass (key : HashKey)
  | redeclareFunction (key : HashKey)
  | crash
  deriving DecidableEq, Repr

/-- Read through a pointer. -/
def deref {α : Type} (x : Option α) : Except Fatal α :=
  match x with
  | some a => .ok a
  | none => .error .crash

@[simp] theorem deref_some {α : Type} (a : α) : deref (some a) = .ok a := rfl
@[simp] theorem deref_none {α : Type} : deref (none : Option α) = .error .crash := rfl

/-- The values in memory, a translation table, and the number of the next block -/
structure ZvalState where
  zvals : Addr → Option ZvalBlock
  xlat : Addr → Option Addr
  next : ℕ

/-- The classes and functions in memory -/
structure ClassState where
  classes : Addr → Option ZendClassEntry
  functions : Addr → Option ZendFunction
  classXlat : Addr → Option Addr
  functionXlat : Addr → Option Addr
  nextClass : ℕ
  nextFunction : ℕ

/-- Memory with a translation table -/
structure CopyState where
  zv : ZvalState
  cl : ClassState

namespace ZvalState

variable (st : ZvalState) (a b : Addr) (z : ZvalBlock)

/-- A new block -/
def write : ZvalState := { st with zvals := Function.update st.zvals b (some z) }

def register : ZvalState := { st with xlat := Function.update st.xlat a (some b) }

def advance : ZvalState := { st with next := st.next + 1 }

end ZvalState

namespace ClassState

variable (st : ClassState) (a b : Addr)

def writeClass (c : ZendClassEntry) : ClassState :=
  { st with classes := Function.update st.classes b (some c) }

def writeFunction (f : ZendFunction) : ClassState :=
  { st with functions := Function.update st.functions b (some f) }

def registerClass : ClassState :=
  { st with classXlat := Function.update st.classXlat a (some b) }

def registerFunction : ClassState :=
  { st with functionXlat := Function.update st.functionXlat a (some b) }

end ClassState

end Persist

end ZendOpcache
