import Mathlib.Data.List.Basic
import Mathlib.Logic.Function.Basic

/-! # The shared hash table

The fixed size table of `zend_accelerator_hash.c`. Entries are taken in order
from one preallocated array, collisions are chained through that array, and an
indirect entry stores a pointer to another entry instead of a script.
-/

namespace ZendOpcache

/-- The hash function of the engine, which the table only calls. -/
class ZendInlineHash (κ : Type*) where
  zendInlineHashFunc : κ → ℕ

export ZendInlineHash (zendInlineHashFunc)

/-- What a `void *` of the table points to: a value of the caller, or an entry of the table. -/
inductive VoidPtr (δ : Type*) where
  | data (d : δ)
  | entry (i : ℕ)
  deriving DecidableEq, Repr

structure ZendAccelHashEntry (κ δ : Type*) where
  hashValue : ℕ
  key : κ
  next : Option ℕ
  data : VoidPtr δ
  indirect : Bool
  deriving DecidableEq, Repr

/-- The used prefix of `hash_entries` has length `num_entries`; pointers to entries are indices. -/
structure ZendAccelHash (κ δ : Type*) where
  hashTable : ℕ → Option ℕ
  hashEntries : List (ZendAccelHashEntry κ δ)
  maxNumEntries : ℕ
  numDirectEntries : ℕ

variable {κ δ : Type*}

def primeNumbers : List ℕ :=
  [5, 11, 19, 53, 107, 223, 463, 983, 1979, 3907, 7963, 16229, 32531, 65407, 130987, 262237,
    524521, 1048793]

namespace ZendAccelHash

def numEntries (h : ZendAccelHash κ δ) : ℕ := h.hashEntries.length

def zendAccelHashClean (h : ZendAccelHash κ δ) : ZendAccelHash κ δ :=
  { h with hashTable := fun _ => none, hashEntries := [], numDirectEntries := 0 }

def zendAccelHashInit (hashSize : ℕ) : ZendAccelHash κ δ where
  hashTable _ := none
  hashEntries := []
  maxNumEntries := (primeNumbers.find? (hashSize ≤ ·)).getD hashSize
  numDirectEntries := 0

def zendAccelHashIsFull (h : ZendAccelHash κ δ) : Bool :=
  h.numEntries == h.maxNumEntries

/-- Follow `data` while the entry is indirect. A walk longer than the table repeats an entry, so
running out of fuel stands for a loop that never ends. -/
def followIndirect (es : List (ZendAccelHashEntry κ δ)) : ℕ → ℕ → Option ℕ
  | 0, _ => none
  | n + 1, i =>
    match es[i]? with
    | none => none
    | some e =>
      match e.indirect, e.data with
      | false, _ => some i
      | true, .entry j => followIndirect es n j
      | true, .data _ => none

section Lookup

variable [DecidableEq κ] [ZendInlineHash κ]

/-- The walk along one chain that every operation of the table starts with. -/
def walk (es : List (ZendAccelHashEntry κ δ)) (key : κ) : ℕ → Option ℕ → Option ℕ
  | 0, _ => none
  | _ + 1, none => none
  | n + 1, some i =>
    match es[i]? with
    | none => none
    | some e =>
      if e.hashValue = zendInlineHashFunc key ∧ e.key = key then some i
      else walk es key n e.next

def index (h : ZendAccelHash κ δ) (key : κ) : ℕ :=
  zendInlineHashFunc key % h.maxNumEntries

/-- The entry found under a key, before indirection. -/
def lookup (h : ZendAccelHash κ δ) (key : κ) : Option ℕ :=
  walk h.hashEntries key (h.numEntries + 1) (h.hashTable (h.index key))

/-- The store into an entry whose key was found. The value is a script for a direct update and
the end of the followed chain for an indirect one. -/
def overwrite (h : ZendAccelHash κ δ) (i : ℕ) (value : VoidPtr δ) : ZendAccelHash κ δ :=
  match h.hashEntries[i]? with
  | none => h
  | some e =>
    match e.indirect, value with
    | true, .entry b =>
      { h with hashEntries := h.hashEntries.modify i fun e => { e with data := .entry b } }
    | true, .data d =>
      match e.data with
      | .entry j =>
        { h with hashEntries := h.hashEntries.modify j fun e => { e with data := .data d } }
      | .data _ => h
    | false, .entry b =>
      { h with
        hashEntries := h.hashEntries.modify i fun e =>
          { e with data := .entry b, indirect := true }
        numDirectEntries := h.numDirectEntries - 1 }
    | false, .data d =>
      { h with hashEntries := h.hashEntries.modify i fun e => { e with data := .data d } }

/-- The store of a key that was not found into the next free entry. -/
def append (h : ZendAccelHash κ δ) (key : κ) (value : VoidPtr δ) : ZendAccelHash κ δ where
  hashTable := Function.update h.hashTable (h.index key) (some h.numEntries)
  hashEntries := h.hashEntries ++ [{
    hashValue := zendInlineHashFunc key
    key := key
    next := h.hashTable (h.index key)
    data := value
    indirect := match value with
      | .entry _ => true
      | .data _ => false }]
  maxNumEntries := h.maxNumEntries
  numDirectEntries := match value with
    | .entry _ => h.numDirectEntries
    | .data _ => h.numDirectEntries + 1

/-- The part of the update after the chain of the new target has been followed. -/
def updateResolved (h : ZendAccelHash κ δ) (key : κ) (value : VoidPtr δ) :
    ZendAccelHash κ δ × Option ℕ :=
  match h.lookup key with
  | some i => (h.overwrite i value, some i)
  | none =>
    if h.numEntries = h.maxNumEntries then (h, none)
    else (h.append key value, some h.numEntries)

/-- The arguments `indirect` and `data` are one argument here: `VoidPtr.data` is a direct update
and `VoidPtr.entry` an indirect one. The result is `none` when the chain of the target never
ends, and otherwise the table with the returned entry, which is `none` for `NULL`. -/
def zendAccelHashUpdate (h : ZendAccelHash κ δ) (key : κ) (value : VoidPtr δ) :
    Option (ZendAccelHash κ δ × Option ℕ) :=
  match value with
  | .data d => some (h.updateResolved key (.data d))
  | .entry b =>
    (followIndirect h.hashEntries (h.numEntries + 1) b).map fun c =>
      h.updateResolved key (.entry c)

/-- The data of the entry a pointer leads to. -/
def deref (h : ZendAccelHash κ δ) : VoidPtr δ → Option (VoidPtr δ)
  | .entry j => (h.hashEntries[j]?).map (·.data)
  | .data _ => none

def zendAccelHashFind (h : ZendAccelHash κ δ) (key : κ) : Option (VoidPtr δ) :=
  (h.lookup key).bind fun i => (h.hashEntries[i]?).bind fun e =>
    if e.indirect then h.deref e.data else some e.data

def zendAccelHashFindEntry (h : ZendAccelHash κ δ) (key : κ) : Option ℕ :=
  (h.lookup key).bind fun i => (h.hashEntries[i]?).bind fun e =>
    match e.indirect, e.data with
    | true, .entry j => some j
    | true, .data _ => none
    | false, _ => some i

end Lookup

end ZendAccelHash

end ZendOpcache
