import ZendOpcache.Hash.Owner
import ZendOpcache.Memory.SharedAlloc
import ZendOpcache.Restart.Protocol

/-! # The script cache

The part of `ZendAccelerator.c` that stores compiled scripts in the shared hash
table, links requested keys to them and marks them corrupted. Every function runs
under the exclusive lock and is one step here.
-/

namespace ZendOpcache

open ZendAccelHash

inductive ZendResult where
  | success
  | failure
  deriving DecidableEq, Repr

/-- Full paths and keys are byte strings. -/
abbrev Path := List UInt8

structure ZendPersistentScript where
  fullPath : Path
  timestamp : ℕ
  corrupted : Bool
  memoryConsumption : UInt32
  deriving DecidableEq, Repr

/-- The messages of `zend_accel_error`, and the calls of
`zend_accel_schedule_restart_if_necessary`. -/
inductive Report where
  | cachedScript (path : Path)
  | addedKey (key : Path)
  | noMoreEntries
  | scheduleRestart (reason : ZendAccelRestartReason)
  deriving DecidableEq, Repr

/-- The table stores indices into `scripts`, the persistent scripts in shared memory. -/
structure ScriptCache where
  hash : ZendAccelHash Path ℕ
  scripts : List ZendPersistentScript
  memoryExhausted : Bool
  wastedSharedMemory : Int32

structure AccelDirectives where
  revalidatePath : Bool
  validateTimestamps : Bool
  deriving DecidableEq, Repr

/-- The arguments of a call of `cache_script_in_shared_memory`, and what the functions it calls
answer. -/
structure CacheRequest where
  script : ZendPersistentScript
  key : Path
  directives : AccelDirectives
  /-- `zend_accel_script_persistable` and `compact_persistent_script` -/
  persistable : Bool
  /-- `zend_accel_script_persist_calc` -/
  memoryUsed : UInt32
  /-- whether `zend_shared_alloc` finds room for the script -/
  allocated : Bool
  /-- whether `zend_shared_alloc` finds room for a copy of the key -/
  keyAllocated : Bool

/-- The bytes of `phar://`. -/
def pharPrefix : Path := [112, 104, 97, 114, 58, 47, 47]

/-- Linking the key of a stored script: never for a `phar://` key or the full path itself. -/
def CacheRequest.linksKey (r : CacheRequest) : Bool :=
  !r.directives.revalidatePath && !pharPrefix.isPrefixOf r.key && r.script.fullPath != r.key

namespace ScriptCache

def init (hashSize : ℕ) : ScriptCache where
  hash := zendAccelHashInit hashSize
  scripts := []
  memoryExhausted := false
  wastedSharedMemory := 0

variable [ZendInlineHash Path]

/-- The script a bucket points to; a bucket that holds an entry pointer has none. -/
def bucketScript (s : ScriptCache) (b : ℕ) : Option ZendPersistentScript :=
  (s.hash.hashEntries[b]?).bind fun e =>
    match e.data with
    | .data x => s.scripts[x]?
    | .entry _ => none

/-- The result is `none` when the update never ends. -/
def zendAccelAddKey (s : ScriptCache) (key : Path) (bucket : ℕ) (keyAllocated : Bool) :
    Option (ScriptCache × List Report) :=
  if (s.hash.zendAccelHashFind key).isNone then
    if s.hash.zendAccelHashIsFull then
      some ({ s with memoryExhausted := true }, [.noMoreEntries, .scheduleRestart .hash])
    else if keyAllocated then
      (s.hash.zendAccelHashUpdate key (.entry bucket)).map fun (h, r) =>
        ({ s with hash := h }, if r.isSome then [.addedKey key] else [])
    else some (s, [.scheduleRestart .oom])
  else some (s, [])

/-- The part of `cache_script_in_shared_memory` after the script was copied into shared memory. -/
def storeScript (s : ScriptCache) (r : CacheRequest) : Option (ScriptCache × List Report) :=
  let script := { r.script with memoryConsumption := blockSize r.memoryUsed.toUInt64 }
  match s.hash.zendAccelHashUpdate script.fullPath (.data s.scripts.length) with
  | none => none
  | some (h, none) => some ({ s with hash := h, scripts := s.scripts ++ [script] }, [])
  | some (h, some bucket) =>
    let s := { s with hash := h, scripts := s.scripts ++ [script] }
    if r.linksKey then
      match h.zendAccelHashUpdate r.key (.entry bucket) with
      | none => none
      | some (h, some _) =>
        some ({ s with hash := h }, [.cachedScript script.fullPath, .addedKey r.key])
      | some (h, none) =>
        some ({ s with hash := h, memoryExhausted := true },
          [.cachedScript script.fullPath, .noMoreEntries, .scheduleRestart .hash])
    else some (s, [.cachedScript script.fullPath])

/-- The result is `none` where the code never ends, or reads a script from an entry pointer. -/
def cacheScriptInSharedMemory (s : ScriptCache) (r : CacheRequest) :
    Option (ScriptCache × List Report) :=
  if !r.persistable then some (s, [])
  else if s.hash.zendAccelHashIsFull then
    some ({ s with memoryExhausted := true }, [.noMoreEntries, .scheduleRestart .hash])
  else
    match s.hash.zendAccelHashFindEntry r.script.fullPath with
    | none =>
      if r.allocated then s.storeScript r else some (s, [.scheduleRestart .oom])
    | some bucket =>
      match s.bucketScript bucket with
      | none => none
      | some existing =>
        if existing.corrupted then
          if r.allocated then s.storeScript r else some (s, [.scheduleRestart .oom])
        else if !r.directives.revalidatePath && (!r.directives.validateTimestamps ||
            r.script.timestamp == existing.timestamp) then
          s.zendAccelAddKey r.key bucket r.keyAllocated
        else some (s, [])

/-- Marking a cached script corrupted, as a failed validation or an invalidation does. -/
def markCorrupted (s : ScriptCache) (x : ℕ) : ScriptCache × List Report :=
  match s.scripts[x]? with
  | none => (s, [])
  | some script =>
    if script.corrupted then (s, [])
    else
      ({ s with
          scripts := s.scripts.modify x fun p => { p with corrupted := true, timestamp := 0 }
          wastedSharedMemory :=
            (s.wastedSharedMemory.toUInt32 + script.memoryConsumption).toInt32 },
        if s.memoryExhausted then
          [.scheduleRestart (if s.hash.zendAccelHashIsFull then .hash else .oom)]
        else [])

end ScriptCache

end ZendOpcache
