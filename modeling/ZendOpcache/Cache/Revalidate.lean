import ZendOpcache.Cache.Invalidate

/-! # Revalidation of cached scripts

The processes in `persistent_compile_file` and `filename_is_in_cache`. Every read and write of a
script in shared memory is one atomic step, and the file system may be another one at each. The log
has what the processes learn from it and do, newest first.
-/

namespace ZendOpcache

/-- `byName` stands for the type `ZEND_HANDLE_FILENAME`. -/
structure ZendFileHandle where
  filename : Path
  openedPath : Option Path
  byName : Bool
  deriving DecidableEq, Repr

/-- What a process is told by the system in a step. -/
structure Surroundings where
  /-- `accelerator_orig_zend_resolve_path` -/
  resolvePath : Path → Option Path
  /-- `accelerator_orig_zend_stream_open_function`, which may fail -/
  streamOpen : ZendFileHandle → Option ZendFileHandle
  /-- `zend_get_file_handle_timestamp`, which is 0 where there is none -/
  timestamp : ZendFileHandle → ℕ
  /-- whether the compiled script can be stored, with the memory it needs -/
  persistable : Bool
  memoryUsed : UInt32
  /-- whether `zend_shared_alloc` finds room for the script and for a copy of the key -/
  allocated : Bool
  keyAllocated : Bool

/-- The requests of all processes are numbered as they start. -/
structure AccelRequest where
  number : ℕ
  time : ℤ
  deriving DecidableEq, Repr

inductive CacheEvent where
  /-- a script was stored, with its path and the timestamp its file had -/
  | cached (r : AccelRequest) (x : ℕ) (fullPath : Path) (timestamp : ℕ)
  /-- the path that was compared, if there was one, and the file that has the timestamp of the
  script -/
  | validated (r : AccelRequest) (x : ℕ) (path : Option Path) (file : ZendFileHandle)
    (timestamp : ℕ)
  | corrupted (x : ℕ)
  | served (r : AccelRequest) (x : ℕ) (validateTimestamps : Bool)
  deriving DecidableEq, Repr

/-- Where a process stands: before the named read, write or call. -/
inductive CompilePc where
  | idle
  | find (keys : List Path)
  | openFile
  | addKey (bucket x : ℕ)
  | isCorrupted (x : ℕ)
  -- validate_timestamp_and_record and do_validate_timestamps
  | readRevalidate (x : ℕ)
  | checkPath (x : ℕ)
  | checkTimestamp (x : ℕ) (path : Option Path)
  | compareFile (x : ℕ) (path : Option Path)
  | compareFullPath (x : ℕ) (path : Option Path)
  | recordRevalidate (x : ℕ)
  -- persistent_compile_file and compile_and_cache_file
  | markCorrupted (x : ℕ)
  | loadScript (x : ℕ)
  | getTimestamp
  | cacheScript (timestamp : ℕ)
  deriving DecidableEq, Repr

/-- `loads` is false in `filename_is_in_cache`. -/
structure CompileState where
  pc : CompilePc
  request : AccelRequest
  directives : AccelDirectives
  handle : ZendFileHandle
  key : Path
  loads : Bool

/-- The scripts have a `revalidate` stamp each. -/
structure SharedScripts where
  cache : ScriptCache
  revalidate : ℕ → ℤ
  numRequests : ℕ
  log : List CacheEvent

namespace SharedScripts

def init (hashSize : ℕ) : SharedScripts := ⟨.init hashSize, fun _ => 0, 0, []⟩

def record (g : SharedScripts) (e : CacheEvent) : SharedScripts := { g with log := e :: g.log }

def setRevalidate (g : SharedScripts) (x : ℕ) (time : ℤ) : SharedScripts :=
  { g with revalidate := Function.update g.revalidate x time }

/-- The script is corrupted and its timestamp cleared, under the allocation lock. -/
def markCorrupted (g : SharedScripts) (x : ℕ) : SharedScripts :=
  { g with cache := (g.cache.markCorrupted x).1 }.record (.corrupted x)

/-- The part of `accel_activate` that restarts the cache. -/
def restart (g : SharedScripts) : SharedScripts :=
  { g with cache := { g.cache with
      hash := g.cache.hash.zendAccelHashClean
      memoryExhausted := false
      wastedSharedMemory := 0 } }

end SharedScripts

namespace CompileState

def start : CompileState := ⟨.idle, ⟨0, 1⟩, ⟨false, true⟩, ⟨[], none, true⟩, [], true⟩

def goto (l : CompileState) (pc : CompilePc) : CompileState := { l with pc := pc }

/-- After a validation that fails. A script is only marked where it would have been loaded. -/
def failed (l : CompileState) (x : ℕ) : CompileState :=
  l.goto (if l.loads then .markCorrupted x else .idle)

/-- After a validation that succeeds. -/
def valid (l : CompileState) (x : ℕ) : CompileState :=
  l.goto (if l.loads then .loadScript x else .idle)

/-- After a search that finds nothing, or a corrupted script. -/
def miss (l : CompileState) (pc : CompilePc) : CompileState :=
  l.goto (if l.loads then pc else .idle)

/-- The file handle, with the path that `do_validate_timestamps` gives it while it compares. -/
def file (l : CompileState) (path : Option Path) : ZendFileHandle :=
  { l.handle with openedPath := path }

/-- The handle of the script's own path. -/
def psHandle (script : ZendPersistentScript) : ZendFileHandle :=
  ⟨script.fullPath, some script.fullPath, true⟩

/-- The request of `cache_script_in_shared_memory` -/
def cacheRequest (l : CompileState) (o : Surroundings) (timestamp : ℕ) : CacheRequest where
  script := ⟨l.handle.openedPath.getD l.handle.filename, timestamp, false, 0⟩
  key := l.key
  directives := l.directives
  persistable := o.persistable
  memoryUsed := o.memoryUsed
  allocated := o.allocated
  keyAllocated := o.keyAllocated

variable [ZendInlineHash Path]

/-- `cache_script_in_shared_memory`, with the stamp and the timestamp that come with the script. -/
def cacheScript (freq : ℤ) (o : Surroundings) (l : CompileState) (g : SharedScripts)
    (timestamp : ℕ) : Option SharedScripts :=
  (g.cache.cacheScriptInSharedMemory (l.cacheRequest o timestamp)).map fun (c, _) =>
    let x := g.cache.scripts.length
    if c.scripts.length = x then { g with cache := c }
    else
      ({ g with cache := c }.setRevalidate x
        (if l.directives.validateTimestamps then l.request.time + freq else 0)).record
          (.cached l.request x (l.cacheRequest o timestamp).script.fullPath timestamp)

/-- The next step of the function that the process is in. -/
def next (freq : ℤ) (o : Surroundings) (g : SharedScripts) (l : CompileState) :
    Option (CompileState × SharedScripts) :=
  match l.pc with
  | .idle => none
  | .find [] => some (l.miss .openFile, g)
  | .find (key :: keys) =>
    match g.cache.findScript key with
    | none => some (l.goto (.find keys), g)
    | some (x, _) => some (l.goto (.isCorrupted x), g)
  | .openFile =>
    match if l.handle.byName then o.streamOpen l.handle else some l.handle with
    | none => some (l.goto .idle, g)
    | some handle =>
      let l := { l with handle := handle }
      match handle.openedPath.bind g.cache.findScript,
          handle.openedPath.bind g.cache.hash.zendAccelHashFindEntry with
      | some (x, script), some bucket =>
        if !l.directives.revalidatePath && !script.corrupted then
          some (l.goto (.addKey bucket x), g)
        else some (l.goto (.isCorrupted x), g)
      | _, _ => some (l.goto .getTimestamp, g)
  | .addKey bucket x =>
    (g.cache.zendAccelAddKey l.key bucket o.keyAllocated).map fun (c, _) =>
      (l.goto (.isCorrupted x), { g with cache := c })
  | .isCorrupted x =>
    (g.cache.scripts[x]?).map fun script =>
      (if script.corrupted then l.miss .getTimestamp
        else if l.directives.validateTimestamps then l.goto (.readRevalidate x)
        else l.valid x, g)
  | .readRevalidate x =>
    some (if freq ≠ 0 ∧ l.request.time ≤ g.revalidate x then l.valid x
      else l.goto (.checkPath x), g)
  | .checkPath x =>
    (g.cache.scripts[x]?).map fun script =>
      match l.handle.openedPath <|> o.resolvePath l.handle.filename with
      | some path =>
        (if script.fullPath ≠ path then l.failed x else l.goto (.checkTimestamp x (some path)), g)
      -- a path that does not resolve is not compared
      | none => (l.goto (.checkTimestamp x none), g)
  | .checkTimestamp x path =>
    (g.cache.scripts[x]?).map fun script =>
      (if script.timestamp = 0 then l.failed x else l.goto (.compareFile x path), g)
  | .compareFile x path =>
    (g.cache.scripts[x]?).map fun script =>
      if o.timestamp (l.file path) = script.timestamp then
        (l.goto (.recordRevalidate x),
          g.record (.validated l.request x path (l.file path) script.timestamp))
      else (l.goto (.compareFullPath x path), g)
  | .compareFullPath x path =>
    (g.cache.scripts[x]?).map fun script =>
      if o.timestamp (psHandle script) = script.timestamp then
        (l.goto (.recordRevalidate x),
          g.record (.validated l.request x path (psHandle script) script.timestamp))
      else (l.failed x, g)
  | .recordRevalidate x => some (l.valid x, g.setRevalidate x (l.request.time + freq))
  | .markCorrupted x => some (l.goto .getTimestamp, g.markCorrupted x)
  | .loadScript x =>
    some (l.goto .idle, g.record (.served l.request x l.directives.validateTimestamps))
  | .getTimestamp =>
    match if l.handle.byName then o.streamOpen l.handle else some l.handle with
    | none => some (l.goto .idle, g)
    | some handle =>
      let l := { l with handle := handle }
      if l.directives.validateTimestamps then
        if o.timestamp handle = 0 then some (l.goto .idle, g)
        else some (l.goto (.cacheScript (o.timestamp handle)), g)
      else some (l.goto (.cacheScript 0), g)
  | .cacheScript timestamp => (cacheScript freq o l g timestamp).map fun g => (l.goto .idle, g)

end CompileState

/-- What a process does next: it starts a request or a function, invalidates a script or restarts
the cache, goes on with the function it is in, or does not go on with it. -/
inductive CompileAction where
  | accelActivate (time : ℤ)
  | persistentCompileFile (directives : AccelDirectives) (handle : ZendFileHandle) (key : Path)
  /-- a script that the functions for paths and streams have found -/
  | persistentCompileCached (directives : AccelDirectives) (handle : ZendFileHandle) (key : Path)
    (x : ℕ)
  | filenameIsInCache (directives : AccelDirectives) (filename : Path) (keys : List Path)
  | zendAccelInvalidate (x : ℕ)
  | restart
  /-- the checksum of a script to be loaded is wrong -/
  | wrongChecksum
  /-- a file is compiled and not cached, for one of many reasons -/
  | compileFile
  | next (o : Surroundings)

variable [ZendInlineHash Path]

/-- One atomic step of a process. The clock is past the epoch. -/
def CompileState.act (freq : ℤ) (_ : (CompileState → Bool) → Bool) (g : SharedScripts)
    (l : CompileState) : CompileAction → Option (CompileState × SharedScripts)
  | .accelActivate time =>
    if l.pc = .idle ∧ 0 < time then
      some ({ l with request := ⟨g.numRequests, time⟩ },
        { g with numRequests := g.numRequests + 1 })
    else none
  | .persistentCompileFile directives handle key =>
    if l.pc = .idle then some (⟨.find [key], l.request, directives, handle, key, true⟩, g) else none
  | .persistentCompileCached directives handle key x =>
    if l.pc = .idle then some (⟨.isCorrupted x, l.request, directives, handle, key, true⟩, g)
    else none
  | .filenameIsInCache directives filename keys =>
    if l.pc = .idle then
      some (⟨.find keys, l.request, directives, ⟨filename, none, true⟩, [], false⟩, g)
    else none
  | .zendAccelInvalidate x => if l.pc = .idle then some (l, g.markCorrupted x) else none
  | .restart => if l.pc = .idle then some (l, g.restart) else none
  | .wrongChecksum =>
    match l.pc with
    | .loadScript x => some (l.goto (.markCorrupted x), g)
    | _ => none
  | .compileFile => if l.pc = .getTimestamp then some (l.goto .idle, g) else none
  | .next o => l.next freq o g

/-- All processes, with the scripts they share. -/
abbrev Revalidation (π : Type*) := Procs π CompileState SharedScripts

namespace Revalidation

variable {π : Type*} [Fintype π] [DecidableEq π]

def init (hashSize : ℕ) : Revalidation π := ⟨fun _ => .start, .init hashSize⟩

def Step (freq : ℤ) (s : Revalidation π) (a : π × CompileAction) (t : Revalidation π) : Prop :=
  Procs.step (CompileState.act freq) s a = some t

end Revalidation

end ZendOpcache
