import ZendOpcache.Cache.Session

/-! # Invalidation

`zend_accel_invalidate` and the usage lock that it takes when the request does not hold it yet.
The shared globals and the cache are those that the call reads, whatever other
processes did before; they never touch the locks of this one.
-/

namespace ZendOpcache

open ZendAccelHash

namespace Process

/-- The kernel may refuse the lock, which is only reported. -/
def accelActivateAdd (l : Process) (granted : Bool) : Process :=
  { l with usage := l.usage || granted }

/-- `accel_deactivate_now`, which is `accel_deactivate_sub` -/
def accelDeactivateNow (l : Process) : Process := { l with usage := false }

@[simp] theorem usage_accelActivateAdd (l : Process) (granted : Bool) :
    (l.accelActivateAdd granted).usage = (l.usage || granted) := rfl

@[simp] theorem counted_accelActivateAdd (l : Process) (granted : Bool) :
    (l.accelActivateAdd granted).counted = l.counted := rfl

@[simp] theorem usage_accelDeactivateNow (l : Process) : l.accelDeactivateNow.usage = false := rfl

def acceleratorShmReadLock (l : Process) (g : ZendAccelSharedGlobals) (granted : Bool) :
    Process × ZendResult :=
  if l.counted then (l, .success)
  else
    let l := l.accelActivateAdd granted
    if g.restartInProgress then (l.accelDeactivateNow, .failure) else (l, .success)

def acceleratorShmReadUnlock (l : Process) : Process :=
  if !l.counted then l.accelDeactivateNow else l

end Process

/-- `zend_accel_schedule_restart`, while no other process writes the globals -/
def ZendAccelSharedGlobals.scheduleRestart (g : ZendAccelSharedGlobals)
    (reason : ZendAccelRestartReason) : ZendAccelSharedGlobals :=
  -- don't schedule twice
  if g.restartPending then g
  else
    { g with
      restartPending := true
      restartReason := reason
      cacheStatusBeforeRestart := g.acceleratorEnabled
      acceleratorEnabled := false }

/-- The restarts among the reports of a call are scheduled. -/
def ZendAccelSharedGlobals.scheduleReported (g : ZendAccelSharedGlobals)
    (reports : List Report) : ZendAccelSharedGlobals :=
  reports.foldl (fun g report =>
    match report with
    | .scheduleRestart reason => g.scheduleRestart reason
    | _ => g) g

/-- A call of `zend_accel_invalidate`, with what it asks the engine and the system. -/
structure InvalidateRequest where
  filename : Path
  force : Bool
  enabled : Bool
  accelStartupOk : Bool
  directives : AccelDirectives
  /-- `accelerator_orig_zend_resolve_path` -/
  resolvePath : Path → Option Path
  /-- `zend_get_file_handle_timestamp` -/
  timestamp : Path → ℕ
  /-- whether `fcntl` grants the usage lock -/
  granted : Bool

/-- A process, the shared globals and the cache. -/
structure InvalidateState where
  process : Process
  globals : ZendAccelSharedGlobals
  cache : ScriptCache

/-- A path whose value is an entry pointer has no script. -/
def ScriptCache.findScript [ZendInlineHash Path] (c : ScriptCache) (realpath : Path) :
    Option (ℕ × ZendPersistentScript) :=
  match c.hash.zendAccelHashFind realpath with
  | some (.data x) => (c.scripts[x]?).map fun script => (x, script)
  | _ => none

namespace InvalidateRequest

variable (r : InvalidateRequest)

/-- `do_validate_timestamps` of a script that was found under the resolved path -/
def doValidateTimestamps (script : ZendPersistentScript) (realpath : Path) : ZendResult :=
  if script.fullPath ≠ realpath then .failure
  else if script.timestamp = 0 then .failure
  else if r.timestamp realpath = script.timestamp then .success
  else if r.timestamp script.fullPath = script.timestamp then .success
  else .failure

/-- The accelerator runs in the process, and reads as enabled for all. -/
def active (g : ZendAccelSharedGlobals) : Bool :=
  r.enabled && r.accelStartupOk && g.acceleratorEnabled

variable [ZendInlineHash Path]

/-- What is done with the realpath: a script that is out of date is marked, under the allocation
lock, which is released again. -/
def invalidateScript (c : ScriptCache) (realpath : Path) : ScriptCache × List Report :=
  match c.findScript realpath with
  | none => (c, [])
  | some (x, script) =>
    if !script.corrupted && (r.force || !r.directives.validateTimestamps ||
        r.doValidateTimestamps script realpath == .failure) then
      c.markCorrupted x
    else (c, [])

def zendAccelInvalidate (s : InvalidateState) : InvalidateState × List Report × ZendResult :=
  if !r.active s.globals then (s, [], .failure)
  else
    match s.process.acceleratorShmReadLock s.globals r.granted with
    | (l, .failure) => ({ s with process := l }, [], .failure)
    | (l, .success) =>
      match r.resolvePath r.filename with
      | none => ({ s with process := l }, [], .failure)
      | some realpath =>
        let (c, reports) := r.invalidateScript s.cache realpath
        (⟨l.acceleratorShmReadUnlock, s.globals.scheduleReported reports, c⟩, reports, .success)

/-- The call asks for the usage lock: the guard lets it pass, and the request does not hold the
lock for its whole length. -/
def asksForLock (s : InvalidateState) : Bool :=
  r.active s.globals && !s.process.counted

/-- The call fails after it got the lock. -/
def unresolved (s : InvalidateState) : Bool :=
  !s.globals.restartInProgress && (r.resolvePath r.filename).isNone

variable {r} {s : InvalidateState}

theorem usage_of_not_asksForLock (h : r.asksForLock s = false) :
    (r.zendAccelInvalidate s).1.process.usage = s.process.usage := by
  unfold asksForLock at h
  rcases Bool.and_eq_false_iff.mp h with hactive | hcounted
  · simp [zendAccelInvalidate, hactive]
  · have hc : s.process.counted = true := by simpa using hcounted
    unfold zendAccelInvalidate Process.acceleratorShmReadLock
    rw [if_pos hc]
    split_ifs
    · rfl
    · cases r.resolvePath r.filename with
      | none => rfl
      | some realpath => simp [Process.acceleratorShmReadUnlock, hc]

/-- A call that asks for the lock never leaves it as it was by itself: it ends without the lock, or
keeps what it got. -/
theorem usage_of_asksForLock (h : r.asksForLock s = true) :
    (r.zendAccelInvalidate s).1.process.usage =
      (r.unresolved s && (s.process.usage || r.granted)) := by
  obtain ⟨hactive, hcounted⟩ := Bool.and_eq_true_iff.mp h
  have hc : s.process.counted = false := by simpa using hcounted
  unfold zendAccelInvalidate Process.acceleratorShmReadLock unresolved
  rw [hactive, hc]
  cases s.globals.restartInProgress with
  | true => rfl
  | false =>
    cases r.resolvePath r.filename with
    | none => simp
    | some realpath => simp [Process.acceleratorShmReadUnlock, hc]

variable (r s) in
/-- A call leaves the usage lock as it found it if and only if it does not ask for the lock, or the
process held the lock just when the name has no realpath outside a restart. Without the lock and
without an answer from the kernel there is none to keep. -/
theorem zendAccelInvalidate_usage_iff :
    (r.zendAccelInvalidate s).1.process.usage = s.process.usage ↔
      (r.asksForLock s = true →
        if r.unresolved s then r.granted = true → s.process.usage = true
        else s.process.usage = false) := by
  cases hasks : r.asksForLock s with
  | false => simp [usage_of_not_asksForLock hasks]
  | true =>
    rw [usage_of_asksForLock hasks]
    cases r.unresolved s <;> cases s.process.usage <;> simp

end InvalidateRequest

section

local instance : ZendInlineHash Path := timesThirtyThree

/-- `opcache_invalidate('1')`, in a directory without such a file -/
def InvalidateRequest.missing : InvalidateRequest where
  filename := [49]
  force := false
  enabled := true
  accelStartupOk := true
  directives := ⟨false, true⟩
  resolvePath _ := none
  timestamp _ := 0
  granted := true

/-- A request that was not counted, with an empty cache and no restart. -/
def InvalidateState.uncounted : InvalidateState :=
  ⟨.start, ⟨true, false, .oom, true, false⟩, .init 100⟩

/-- The call fails and the process keeps the usage lock that it did not hold. -/
theorem zendAccelInvalidate_missing :
    InvalidateState.uncounted.process.usage = false ∧
      (InvalidateRequest.missing.zendAccelInvalidate .uncounted).2.2 = .failure ∧
      (InvalidateRequest.missing.zendAccelInvalidate .uncounted).1.process.usage = true := by
  decide

end

end ZendOpcache
