import ZendOpcache.Hash.WellFormed
import ZendOpcache.Memory.Bytes
import ZendOpcache.Memory.Pool

/-! # The letters of include paths

A value of `include_path` is registered in a table in shared memory: one block holds its text and
the letter that stands for it in the keys of scripts. The table and all processes point
into the block. A restart takes back the memory and all entries of the table but the first.
-/

namespace ZendOpcache

/-- The end of a string -/
def nul : Char := Char.ofNat 0

/-- What a process knows of its `include_path`. -/
structure IncludeGlobals where
  includePath : List Char
  includePathKey : Option SharedPtr
  includePathCheck : Bool
  /-- The process has found that the path is missing and waits for the lock. -/
  registering : Bool
  deriving DecidableEq

/-- The table `include_paths` in its memory, with the processes. An entry keeps a pointer to its key
and the length of the key, and its data is a pointer to the letter. -/
structure IncludePaths (π : Type*) where
  pool : SharedPool
  memory : SharedMemory
  table : ZendAccelHash (SharedPtr × ℕ) SharedPtr
  globals : π → IncludeGlobals

/-- The calls of a process or, for memory and restarts, of any of them. `usable` is the test that
the cache is enabled and used or usable, and `success` the answer of the original handler. -/
inductive IncludeCall (π : Type*) where
  | activate (p : π)
  | onModify (p : π) (newValue : List Char) (success usable : Bool)
  | makeKey (p : π) (usable : Bool)
  | register (p : π)
  | alloc (size : UInt64) (content : List Char)
  | restart

/-- The letter of the path that is registered next. -/
def pathLetter (numEntries : ℕ) : Char := Char.ofNat ('A'.toNat + numEntries)

/-- Different numbers of entries have different letters. -/
theorem pathLetter_inj {i j : ℕ} (hi : i < 53) (hj : j < 53) (h : pathLetter i = pathLetter j) :
    i = j := by
  have hval : ∀ n < 53, (pathLetter n).toNat = 65 + n := by decide
  have := congrArg Char.toNat h
  rw [hval i hi, hval j hj] at this
  omega

namespace IncludePaths

variable {π : Type*} [DecidableEq π] [ZendInlineHash (List Char)]

/-- The table with the keys as they stand in memory. -/
def keys (s : IncludePaths π) : ZendAccelHash (List Char) SharedPtr where
  hashTable := s.table.hashTable
  hashEntries := s.table.hashEntries.map fun e =>
    ⟨e.hashValue, s.memory.read e.key.1 e.key.2, e.next, e.data, e.indirect⟩
  maxNumEntries := s.table.maxNumEntries
  numDirectEntries := s.table.numDirectEntries

/-- `zend_accel_hash_find` with the path and its end as the key -/
def find (s : IncludePaths π) (path : List Char) : Option SharedPtr :=
  match s.keys.zendAccelHashFind (path ++ [nul]) with
  | some (.data q) => some q
  | _ => none

/-- `zend_accel_hash_update` of the path at `key` -/
def update (s : IncludePaths π) (key : SharedPtr) (path : List Char) (letter : SharedPtr) :
    IncludePaths π :=
  let text := path ++ [nul]
  match s.keys.lookup text with
  | some i => { s with table := s.table.overwrite i (.data letter) }
  | none =>
    if s.table.zendAccelHashIsFull then s
    else { s with
      table := {
        hashTable := Function.update s.table.hashTable (s.keys.index text) (some s.table.numEntries)
        hashEntries := s.table.hashEntries ++ [⟨zendInlineHashFunc text, (key, text.length),
          s.table.hashTable (s.keys.index text), .data letter, false⟩]
        maxNumEntries := s.table.maxNumEntries
        numDirectEntries := s.table.numDirectEntries + 1 } }

def setGlobals (s : IncludePaths π) (p : π) (g : IncludeGlobals) : IncludePaths π :=
  { s with globals := Function.update s.globals p g }

/-- `zend_shared_alloc` -/
def alloc (s : IncludePaths π) (size : UInt64) : IncludePaths π × Option SharedPtr :=
  let (globals, r) := s.pool.globals.zendSharedAlloc size
  let taken := r.toList.map fun r => (r, (blockSize size).toUInt64)
  ({ s with pool := { s.pool with globals := globals, blocks := taken ++ s.pool.blocks } }, r)

/-- The part of the registration that holds the lock. -/
def register (s : IncludePaths π) (p : π) : IncludePaths π :=
  let g := { s.globals p with registering := false }
  match s.find g.includePath with
  | some q => s.setGlobals p { g with includePathKey := some q }
  | none =>
    if s.table.zendAccelHashIsFull then s.setGlobals p { g with includePathKey := none }
    else
      match s.alloc (UInt64.ofNat (g.includePath.length + 2)) with
      | (s, none) => s.setGlobals p { g with includePathKey := none }
      | (s, some key) =>
        let letter := key.add (g.includePath.length + 1)
        let s := { s with
          memory := s.memory.write key (g.includePath ++ [nul, pathLetter s.table.numEntries]) }
        (s.update key g.includePath letter).setGlobals p { g with includePathKey := some letter }

/-- `accel_include_path_on_modify`, up to the lock -/
def onModify (s : IncludePaths π) (p : π) (newValue : List Char) (success usable : Bool) :
    IncludePaths π :=
  let g := { s.globals p with includePathKey := none }
  if !success then s.setGlobals p g
  else
    let g := { g with includePath := newValue }
    if newValue = [] then s.setGlobals p g
    else if usable then
      let key := s.find newValue
      s.setGlobals p { g with
        includePathKey := key
        registering := key.isNone && !s.table.zendAccelHashIsFull }
    else s.setGlobals p { g with includePathCheck := true }

/-- The test of `accel_make_persistent_key_ex` whether the path is to be registered. -/
def makeKey (s : IncludePaths π) (p : π) (usable : Bool) : IncludePaths π :=
  let g := s.globals p
  s.setGlobals p { g with
    registering := g.includePathKey.isNone && g.includePathCheck && usable &&
      (s.find g.includePath).isNone && !s.table.zendAccelHashIsFull }

/-- The part of a script's key that stands for the `include_path`. -/
def includePart (s : IncludePaths π) (p : π) : List Char :=
  match (s.globals p).includePathKey with
  | some q => [s.memory.get q]
  | none => (s.globals p).includePath

/-- What a restart leaves of the table. -/
def keepFirst (s : IncludePaths π) : IncludePaths π :=
  if 1 < s.table.numEntries then
    { s with
      table := { s.table with
        hashTable := fun b =>
          if (s.keys.hashEntries.head?.map fun e => s.keys.index e.key) =
            some b then some 0 else none
        hashEntries := s.table.hashEntries.take 1
        numDirectEntries := 1 } }
  else s

/-- The part of `accel_activate` that restarts the cache. -/
def restart (s : IncludePaths π) : Option (IncludePaths π) :=
  (s.pool.step .restoreState).map fun pool => { s.keepFirst with pool := pool }

def step (s : IncludePaths π) : IncludeCall π → Option (IncludePaths π)
  | .activate p =>
    let g := s.globals p
    some (s.setGlobals p { g with includePathCheck := g.includePathKey.isNone })
  | .onModify p newValue success usable =>
    if (s.globals p).registering then none else some (s.onModify p newValue success usable)
  | .makeKey p usable =>
    if (s.globals p).registering then none else some (s.makeKey p usable)
  | .register p => if (s.globals p).registering then some (s.register p) else none
  | .alloc size content =>
    match s.alloc size with
    | (s, none) => some s
    | (s, some q) =>
      if content.length ≤ size.toNat then some { s with memory := s.memory.write q content }
        else none
  | .restart => s.restart

section Startup

variable [Inhabited π]

/-- The part of `accel_startup` that registers the `include_path`. -/
def registered (pool : SharedPool) (memory : SharedMemory) (path : List Char) : IncludePaths π :=
  let s : IncludePaths π :=
    ⟨pool, memory, .zendAccelHashInit 32, fun _ => ⟨path, none, false, false⟩⟩
  if path = [] then s else s.register default

/-- `accel_startup`, up to where the state of the allocator is saved. The processes are children of
the one that starts up. -/
def startup (pool : SharedPool) (memory : SharedMemory) (path : List Char) : IncludePaths π :=
  let s : IncludePaths π := registered pool memory path
  { s with
    pool := { s.pool with saved := some s.pool.globals.zendSharedAllocSaveState }
    globals := fun _ => s.globals default }

end Startup

end IncludePaths

end ZendOpcache
