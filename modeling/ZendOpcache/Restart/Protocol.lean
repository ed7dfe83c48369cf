import Mathlib.Logic.Basic
import ZendOpcache.Transition.Interleave

/-! # Users of shared memory and restarts

The processes of `ZendAccelerator.c` between their accesses to the shared globals and
to the lock file. Byte 0 of the lock file is the allocation lock, byte 1 the shared
usage lock and byte 2 the lock of the restarting process. Every read and write of a
shared global and every lock operation is one atomic step.
-/

namespace ZendOpcache

inductive ZendAccelRestartReason where
  | oom
  | hash
  | user
  deriving DecidableEq, Repr

/-- The shared globals that the restart protocol reads and writes. -/
structure ZendAccelSharedGlobals where
  acceleratorEnabled : Bool
  restartPending : Bool
  restartReason : ZendAccelRestartReason
  cacheStatusBeforeRestart : Bool
  restartInProgress : Bool
  deriving DecidableEq, Repr

/-- Where a process stands: before the named read, write or lock operation. -/
inductive Pc where
  | idle
  -- persistent_compile_file, with accel_restart_is_active and accel_activate_add
  | checkRestart
  | restartIsActive
  | getRestartLock
  | clearRestart
  | setCounted
  | activateAdd
  -- accelerator_shm_read_lock and accelerator_shm_read_unlock
  | readActivateAdd
  | readCheck
  | deactivateNow
  | reading
  -- zend_accel_schedule_restart
  | setPending (reason : ZendAccelRestartReason)
  | setReason (reason : ZendAccelRestartReason)
  | readEnabled
  | saveStatus (enabled : Bool)
  | disable
  -- accel_activate, with accel_restart_enter and accel_restart_leave
  | testPending
  | allocLock
  | testPendingAgain
  | isInactive
  | clearPending
  | restartLock
  | setInProgress
  | resetCacheVars
  | cleanHash
  | readStatus
  | restoreStatus (status : Bool)
  | clearInProgress
  | restartUnlock
  | allocUnlock
  deriving DecidableEq, Repr

/-- The locks are those the process holds on the bytes 0, 1 and 2. -/
structure Process where
  pc : Pc
  counted : Bool
  alloc : Bool
  usage : Bool
  restart : Bool
  deriving DecidableEq, Repr

namespace Process

def start : Process := ⟨.idle, false, false, false, false⟩

def goto (l : Process) (pc : Pc) : Process := { l with pc := pc }

/-- `accel_unlock_all` -/
def unlockAll (l : Process) : Process := { l with alloc := false, usage := false, restart := false }

/-- The next operation of the process. It is `none` where the process waits for a lock. -/
def next (others : (Process → Bool) → Bool) (g : ZendAccelSharedGlobals) (l : Process) :
    Option (Process × ZendAccelSharedGlobals) :=
  match l.pc with
  | .idle => none
  | .checkRestart =>
    some (l.goto (if g.restartInProgress then .restartIsActive else .setCounted), g)
  | .restartIsActive =>
    some (l.goto (if g.restartInProgress then .getRestartLock else .setCounted), g)
  | .getRestartLock => some (l.goto (if others restart then .idle else .clearRestart), g)
  | .clearRestart => some (l.goto .setCounted, { g with restartInProgress := false })
  | .setCounted =>
    some (if l.counted then l.goto .idle else { l with pc := .activateAdd, counted := true }, g)
  | .activateAdd => some ({ l with pc := .idle, usage := true }, g)
  | .readActivateAdd => some ({ l with pc := .readCheck, usage := true }, g)
  | .readCheck => some (l.goto (if g.restartInProgress then .deactivateNow else .reading), g)
  | .deactivateNow => some ({ l with pc := .idle, usage := false }, g)
  | .reading =>
    some (if l.counted then l.goto .idle else { l with pc := .idle, usage := false }, g)
  | .setPending reason => some (l.goto (.setReason reason), { g with restartPending := true })
  | .setReason reason => some (l.goto .readEnabled, { g with restartReason := reason })
  | .readEnabled => some (l.goto (.saveStatus g.acceleratorEnabled), g)
  | .saveStatus enabled => some (l.goto .disable, { g with cacheStatusBeforeRestart := enabled })
  | .disable => some (l.goto .idle, { g with acceleratorEnabled := false })
  | .testPending => some (l.goto (if g.restartPending then .allocLock else .idle), g)
  | .allocLock =>
    if others alloc then none else some ({ l with pc := .testPendingAgain, alloc := true }, g)
  | .testPendingAgain => some (l.goto (if g.restartPending then .isInactive else .allocUnlock), g)
  | .isInactive => some (l.goto (if others usage then .allocUnlock else .clearPending), g)
  | .clearPending => some (l.goto .restartLock, { g with restartPending := false })
  | .restartLock =>
    -- a failed attempt is only reported
    some ({ l with pc := .setInProgress, restart := !others restart }, g)
  | .setInProgress => some (l.goto .resetCacheVars, { g with restartInProgress := true })
  | .resetCacheVars => some (l.goto .cleanHash, { g with restartPending := false })
  | .cleanHash => some (l.goto .readStatus, g)
  | .readStatus => some (l.goto (.restoreStatus g.cacheStatusBeforeRestart), g)
  | .restoreStatus status =>
    some (l.goto .clearInProgress, { g with acceleratorEnabled := status })
  | .clearInProgress => some (l.goto .restartUnlock, { g with restartInProgress := false })
  | .restartUnlock => some ({ l with pc := .allocUnlock, restart := false }, g)
  | .allocUnlock => some ({ l with pc := .idle, alloc := false }, g)

end Process

/-- What a process does next: it enters one of the functions, ends its request, dies, or goes on
with the function it is in. -/
inductive Action where
  | persistentCompileFile
  | acceleratorShmReadLock
  | zendAccelScheduleRestart (reason : ZendAccelRestartReason)
  | accelActivate
  | accelDeactivate
  | exit
  | next
  deriving DecidableEq, Repr

/-- One atomic step of a process. -/
def Process.act (others : (Process → Bool) → Bool) (g : ZendAccelSharedGlobals) (l : Process) :
    Action → Option (Process × ZendAccelSharedGlobals)
  | .persistentCompileFile =>
    if l.pc ≠ .idle then none
    else some (if !l.counted && !g.acceleratorEnabled then l else l.goto .checkRestart, g)
  | .acceleratorShmReadLock =>
    -- every caller reads accelerator_enabled first
    if l.pc ≠ .idle then none
    else if !g.acceleratorEnabled then some (l, g)
    else some (l.goto (if l.counted then .reading else .readActivateAdd), g)
  | .zendAccelScheduleRestart reason =>
    if l.pc ≠ .idle then none
    else some (if g.restartPending then l else l.goto (.setPending reason), g)
  | .accelActivate =>
    if l.pc ≠ .idle then none
    else some ((if l.counted then { l.unlockAll with counted := false } else l).goto .testPending,
      g)
  | .accelDeactivate =>
    if l.pc ≠ .idle then none else some ({ l.unlockAll with counted := false }, g)
  | .exit => some (.start, g)
  | .next => l.next others g

/-- All processes, with the shared globals. -/
abbrev Accel (π : Type*) := Procs π Process ZendAccelSharedGlobals

def Accel.init (π : Type*) : Accel π :=
  ⟨fun _ => .start, ⟨true, false, .oom, true, false⟩⟩

/-- The process was told that it may use shared memory, and holds the usage lock. -/
def Process.usesSharedMemory (l : Process) : Bool :=
  l.usage && (l.counted || l.pc == .reading)

/-- From setting `restart_in_progress` until it is cleared. -/
def Pc.resetting : Pc → Bool
  | .resetCacheVars | .cleanHash | .readStatus | .restoreStatus _ | .clearInProgress => true
  | _ => false

/-- From the successful `accel_is_inactive` until `restart_in_progress` is cleared. -/
def Pc.restarting : Pc → Bool
  | .clearPending | .restartLock | .setInProgress => true
  | pc => pc.resetting

/-- Inside the section that the allocation lock protects. -/
def Pc.underAllocLock : Pc → Bool
  | .testPendingAgain | .isInactive | .restartUnlock | .allocUnlock => true
  | pc => pc.restarting

/-- Inside `accelerator_shm_read_lock`, before it answers. -/
def Pc.entering : Pc → Bool
  | .readActivateAdd | .readCheck | .deactivateNow => true
  | _ => false

end ZendOpcache
