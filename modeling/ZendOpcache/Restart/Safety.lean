import Mathlib.Tactic.Common
import ZendOpcache.Restart.Protocol

/-! # Users of shared memory exclude resets

A restarting process checks once that nobody holds the usage lock, and sets its flag after that. A
compile request takes the lock after it has looked at the flag, a reader before. In every run in
which no restart checks the lock between these two steps of a compile request, and none looks at the
flag between those two of a restart, no process uses shared memory while another one resets it.
-/

namespace ZendOpcache

open Procs

/-- With the lock of the restarting process, from `restart_in_progress` on. -/
def Pc.underRestartLock : Pc → Bool
  | .setInProgress | .restartUnlock => true
  | pc => pc.resetting

/-- In a compile request that goes on, before it takes the usage lock -/
def Pc.admitted : Pc → Bool
  | .clearRestart | .setCounted | .activateAdd => true
  | _ => false

/-- Before a test whether a restart is in progress -/
def Pc.testsRestart : Pc → Bool
  | .checkRestart | .restartIsActive | .getRestartLock | .readCheck => true
  | _ => false

/-- From the successful `accel_is_inactive` until `restart_in_progress` is set -/
def Pc.starting : Pc → Bool
  | .clearPending | .restartLock | .setInProgress => true
  | _ => false

namespace Pc

variable {pc : Pc}

theorem resetting_restarting (h : pc.resetting = true) : pc.restarting = true := by
  cases pc <;> simp_all [Pc.resetting, Pc.restarting]

theorem restarting_underAllocLock (h : pc.restarting = true) : pc.underAllocLock = true := by
  cases pc <;> simp_all [Pc.resetting, Pc.restarting, Pc.underAllocLock]

theorem underRestartLock_underAllocLock (h : pc.underRestartLock = true) :
    pc.underAllocLock = true := by
  cases pc <;> simp_all [Pc.resetting, Pc.restarting, Pc.underAllocLock, Pc.underRestartLock]

theorem restarting_cases (h : pc.restarting = true) :
    pc.starting = true ∨ pc.resetting = true ∧ pc.underRestartLock = true := by
  cases pc <;> simp_all [Pc.resetting, Pc.restarting, Pc.starting, Pc.underRestartLock]

end Pc

namespace Process

variable {others : (Process → Bool) → Bool} {g g' : ZendAccelSharedGlobals} {l l' : Process}
  {a : Action}

/-- What a step of one process can do to the locks of restarts. -/
structure LockEffect (others : (Process → Bool) → Bool) (l : Process) (l' : Process) : Prop where
  underAllocLock : l'.pc.underAllocLock = true →
    (l.pc.underAllocLock = true ∧ l'.alloc = l.alloc) ∨ l'.alloc = true
  alloc : l'.alloc = true → l.alloc = true ∨ others Process.alloc = false
  restart : l'.restart = true → l'.pc.underRestartLock = true ∨
    (l.restart = true ∧ l.pc.underRestartLock = false)
  underRestartLock : l'.pc.underRestartLock = true →
    (l.pc.underRestartLock = true ∧ l'.restart = l.restart) ∨
      (l.pc = .restartLock ∧ l'.restart = !others Process.restart)

/-- What a step of one process can do, as far as users of shared memory are concerned. -/
structure Effect (others : (Process → Bool) → Bool) (g : ZendAccelSharedGlobals) (l : Process)
    (a : Action) (l' : Process) (g' : ZendAccelSharedGlobals) : Prop where
  resetting : l'.pc.resetting = true →
    (l.pc.resetting = true ∧ g'.restartInProgress = g.restartInProgress) ∨
      g'.restartInProgress = true
  restartInProgress : g.restartInProgress = true → g'.restartInProgress = true ∨
    l.pc.admitted = true ∨ l.pc.resetting = true
  entering : l'.pc.entering = true → l'.counted = l.counted ∧
    (l.pc.entering = true ∨ l.counted = false)
  restarting : l'.pc.restarting = true → l.pc.restarting = true ∨
    (a = .next ∧ l.pc = .isInactive ∧ others usage = false)
  admitted : l'.pc.admitted = true → l.pc.admitted = true ∨
    (a = .next ∧ l.pc.testsRestart = true ∧
      (g.restartInProgress = false ∨ others Process.restart = false))
  usage : l'.usage = true → l'.pc.entering = true ∨ (l.usage = true ∧ l.pc.entering = false) ∨
    l.pc.admitted = true ∨
    (a = .next ∧ l.pc.testsRestart = true ∧ g.restartInProgress = false)

theorem next_lockEffect (h : l.next others g = some (l', g')) : l.LockEffect others l' := by
  obtain ⟨pc, counted, alloc, usage, restart⟩ := l
  cases pc <;> simp only [next, goto] at h <;> (try split_ifs at h) <;> cases h
  all_goals
    constructor <;> simp_all [Pc.underAllocLock, Pc.restarting, Pc.resetting, Pc.underRestartLock]

theorem act_lockEffect (h : l.act others g a = some (l', g')) : l.LockEffect others l' := by
  cases a
  case next => exact next_lockEffect h
  all_goals
    simp only [act, goto, unlockAll, start] at h
    (try split_ifs at h) <;> cases h
  all_goals
    constructor <;> simp_all [Pc.underAllocLock, Pc.restarting, Pc.resetting, Pc.underRestartLock]

theorem next_effect (h : l.next others g = some (l', g')) : l.Effect others g .next l' g' := by
  obtain ⟨pc, counted, alloc, usage, restart⟩ := l
  cases pc <;> simp only [next, goto] at h <;> (try split_ifs at h) <;> cases h
  all_goals
    constructor <;> simp_all [Pc.restarting, Pc.resetting, Pc.entering, Pc.admitted,
      Pc.testsRestart]

theorem act_effect (h : l.act others g a = some (l', g')) : l.Effect others g a l' g' := by
  cases a
  case next => exact next_effect h
  all_goals
    simp only [act, goto, unlockAll, start] at h
    (try split_ifs at h) <;> cases h
  all_goals
    constructor <;> simp_all [Pc.restarting, Pc.resetting, Pc.entering, Pc.admitted,
      Pc.testsRestart]

end Process

namespace Accel

variable {π : Type*} [Fintype π] [DecidableEq π] {s t : Accel π}

def Step (s : Accel π) (x : π × Action) (t : Accel π) : Prop :=
  s.step Process.act x = some t

/-- The allocation lock and the lock of the restarting process exclude. -/
structure Locked (s : Accel π) : Prop where
  underAllocLock : ∀ p, (s.proc p).pc.underAllocLock = true → (s.proc p).alloc = true
  exclusive : ∀ p q, p ≠ q → ¬ ((s.proc p).alloc = true ∧ (s.proc q).alloc = true)
  restart : ∀ p, (s.proc p).restart = true → (s.proc p).pc.underRestartLock = true
  underRestartLock : ∀ p, (s.proc p).pc.underRestartLock = true → (s.proc p).restart = true

omit [Fintype π] [DecidableEq π] in
theorem locked_of_start (h : ∀ p, s.proc p = .start) : Locked s := by
  constructor
  · intro p hp
    simp [h, Process.start, Pc.underAllocLock, Pc.restarting, Pc.resetting] at hp
  · intro p q _
    simp [h, Process.start]
  · intro p hp
    simp [h, Process.start] at hp
  · intro p hp
    simp [h, Process.start, Pc.underRestartLock, Pc.resetting] at hp

omit [Fintype π] [DecidableEq π] in
/-- Two processes are not both in the section of the allocation lock. -/
theorem Locked.alone (h : Locked s) {p q : π} (hpq : p ≠ q)
    (hp : (s.proc p).pc.underAllocLock = true) : (s.proc q).pc.underAllocLock = false := by
  by_contra hq
  exact h.exclusive p q hpq ⟨h.underAllocLock p hp, h.underAllocLock q (by simpa using hq)⟩

theorem Locked.step (hs : Locked s) {p : π} {a : Action} (h : Step s (p, a) t) : Locked t := by
  obtain ⟨hact, hother⟩ := step_cases h
  have he := Process.act_lockEffect hact
  constructor
  · refine forall_step
      (I := fun _ (l : Process) => l.pc.underAllocLock = true → l.alloc = true) hs.underAllocLock
        (fun hu => ?_) (fun _ _ hq => hq) hother
    rcases he.underAllocLock hu with ⟨hl, ha⟩ | ha
    · rw [ha]
      exact hs.underAllocLock p hl
    · exact ha
  · intro q r hqr
    refine pairwise_step (R := fun (l m : Process) => ¬ (l.alloc = true ∧ m.alloc = true))
      hs.exclusive (fun q hq => ?_) hother hqr
    have hno : ¬ ((t.proc p).alloc = true ∧ (s.proc q).alloc = true) := by
      rintro ⟨ht, hsq⟩
      rcases he.alloc ht with hl | hl
      · exact hs.exclusive p q hq.symm ⟨hl, hsq⟩
      · exact Bool.false_ne_true ((others_eq_false.mp hl q hq).symm.trans hsq)
    exact ⟨hno, fun hno' => hno hno'.symm⟩
  · refine forall_step (I := fun _ (l : Process) => l.restart = true →
      l.pc.underRestartLock = true) hs.restart (fun hu => ?_) (fun _ _ hq => hq) hother
    rcases he.restart hu with hl | ⟨hl, hno⟩
    · exact hl
    · simp [hs.restart p hl] at hno
  · refine forall_step (I := fun _ (l : Process) => l.pc.underRestartLock = true →
      l.restart = true) hs.underRestartLock (fun hu => ?_) (fun _ _ hq => hq) hother
    rcases he.underRestartLock hu with ⟨hl, hr⟩ | ⟨hpc, hr⟩
    · rw [hr]
      exact hs.underRestartLock p hl
    · -- no other process is in the section of the allocation lock
      have hfree : s.others p Process.restart = false := by
        rw [others_eq_false]
        intro q hq
        by_contra hq'
        have hlock := hs.restart q (by simpa using hq')
        have := hs.alone hq.symm (by rw [hpc]; rfl : (s.proc p).pc.underAllocLock = true)
        simp [Pc.underRestartLock_underAllocLock hlock] at this
      rw [hr, hfree]
      rfl

/-- The steps come in an order in which each check sees what it is for: when a restart finds the
usage lock free, no compile request is between its test and that lock; and none tests whether a
restart is in progress while a process is between that check and setting the flag. -/
def Safe (s : Accel π) (x : π × Action) : Prop :=
  x.2 = .next →
  ((s.proc x.1).pc = .isInactive → (∀ q, q ≠ x.1 → (s.proc q).usage = false) →
    ∀ q, q ≠ x.1 → (s.proc q).pc.admitted = false) ∧
  ((s.proc x.1).pc.testsRestart = true → ∀ q, q ≠ x.1 → (s.proc q).pc.starting = false)

/-- While a process restarts, no compile request is about to take the usage lock, and the lock of
another process is held only inside the entry of a reader, which has not answered. -/
structure Inv (s : Accel π) : Prop extends Locked s where
  inProgress : ∀ p, (s.proc p).pc.resetting = true → s.shared.restartInProgress = true
  entering : ∀ p, (s.proc p).pc.entering = true → (s.proc p).counted = false
  waiting : ∀ p q, p ≠ q → (s.proc q).pc.restarting = true → (s.proc p).pc.admitted = false
  quiet : ∀ p q, p ≠ q → (s.proc q).pc.restarting = true → (s.proc p).usage = true →
    (s.proc p).pc.entering = true

omit [Fintype π] [DecidableEq π] in
theorem inv_init : Inv (init π) where
  toLocked := locked_of_start fun _ => rfl
  inProgress p h := by simp [init, Process.start, Pc.resetting] at h
  entering p h := by simp [init, Process.start, Pc.entering] at h
  waiting p q _ h := by simp [init, Process.start, Pc.restarting, Pc.resetting] at h
  quiet p q _ h := by simp [init, Process.start, Pc.restarting, Pc.resetting] at h

/-- A test during a restart says that one is in progress. -/
theorem Inv.tests (hs : Inv s) {p q : π} (hq : q ≠ p) (hg : s.Safe (p, .next))
    (hr : (s.proc q).pc.restarting = true) (hp : (s.proc p).pc.testsRestart = true) :
    s.shared.restartInProgress = true ∧ s.others p Process.restart = true := by
  rcases Pc.restarting_cases hr with hstart | ⟨hreset, hlock⟩
  · have := (hg rfl).2 hp q hq
    simp [hstart] at this
  · refine ⟨hs.inProgress q hreset, ?_⟩
    by_contra hno
    have := others_eq_false.mp (by simpa using hno) q hq
    simp [hs.underRestartLock q hlock] at this

theorem Inv.step (hs : Inv s) {p : π} {a : Action} (hg : s.Safe (p, a)) (h : Step s (p, a) t) :
    Inv t := by
  obtain ⟨hact, hother⟩ := step_cases h
  have he := Process.act_effect hact
  refine { hs.toLocked.step h with inProgress := ?_, entering := ?_, waiting := ?_, quiet := ?_ }
  · refine forall_step (I := fun (g : ZendAccelSharedGlobals) (l : Process) =>
      l.pc.resetting = true → g.restartInProgress = true) hs.inProgress (fun hu => ?_)
        (fun q hq hsq hu => ?_) hother
    · rcases he.resetting hu with ⟨hl, hf⟩ | hf
      · rw [hf]
        exact hs.inProgress p hl
      · exact hf
    · -- the flag is cleared neither by a compile request nor by another restart
      rcases he.restartInProgress (hsq hu) with hf | hpc | hpc
      · exact hf
      · have := hs.waiting p q hq.symm (Pc.resetting_restarting hu)
        simp [hpc] at this
      · have := hs.alone hq.symm (Pc.restarting_underAllocLock (Pc.resetting_restarting hpc))
        simp [Pc.restarting_underAllocLock (Pc.resetting_restarting hu)] at this
  · refine forall_step (I := fun _ (l : Process) => l.pc.entering = true → l.counted = false)
      hs.entering (fun hu => ?_) (fun _ _ hq => hq) hother
    obtain ⟨hc, hl | hl⟩ := he.entering hu
    · rw [hc]
      exact hs.entering p hl
    · rw [hc, hl]
  · intro q r hqr
    refine pairwise_step (R := fun (l m : Process) => m.pc.restarting = true →
      l.pc.admitted = false) hs.waiting (fun q hq => ⟨fun hr => ?_, fun hr => ?_⟩) hother hqr
    · -- a compile request moves
      by_contra hadm
      rcases he.admitted (by simpa using hadm) with hl | ⟨rfl, hpc, hno⟩
      · have := hs.waiting p q hq.symm hr
        simp [hl] at this
      · obtain ⟨hf, ho⟩ := hs.tests hq hg hr hpc
        simp [hf, ho] at hno
    · -- a restart moves
      rcases he.restarting hr with hl | ⟨rfl, hpc, hfree⟩
      · exact hs.waiting q p hq hl
      · exact (hg rfl).1 hpc (others_eq_false.mp hfree) q hq
  · intro q r hqr
    refine pairwise_step (R := fun (l m : Process) => m.pc.restarting = true → l.usage = true →
      l.pc.entering = true) hs.quiet (fun q hq => ⟨fun hr hu => ?_, fun hr hu => ?_⟩) hother hqr
    · -- the moving process holds the usage lock
      rcases he.usage hu with hl | ⟨hl, hn⟩ | hl | ⟨rfl, hpc, hno⟩
      · exact hl
      · exact absurd (hs.quiet p q hq.symm hr hl) (by simp [hn])
      · have := hs.waiting p q hq.symm hr
        simp [hl] at this
      · simp [(hs.tests hq hg hr hpc).1] at hno
    · -- the moving process restarts
      rcases he.restarting hr with hl | ⟨-, -, hl⟩
      · exact hs.quiet q p hq hl hu
      · exact absurd ((others_eq_false.mp hl q hq).symm.trans hu) Bool.false_ne_true

/-- In every run in this order, no process that was told it may use shared memory and holds the
usage lock coexists with another process that executes the reset. -/
theorem exclusion_of_safe_run {w : List (π × Action)} (h : GuardedRun Step Safe (init π) w s)
    (p q : π) (hpq : p ≠ q) : ¬ ((s.proc p).usesSharedMemory = true ∧
      (s.proc q).pc.resetting = true) := by
  have hs : Inv s := h.invariant inv_init fun hs hg hstep => hs.step hg hstep
  rintro ⟨hu, hr⟩
  simp only [Process.usesSharedMemory, Bool.and_eq_true, Bool.or_eq_true, beq_iff_eq] at hu
  have he := hs.quiet p q hpq (Pc.resetting_restarting hr) hu.1
  rcases hu.2 with hc | hc
  · simp [hs.entering p he] at hc
  · simp [hc, Pc.entering] at he

instance (s : Accel π) (x : π × Action) : Decidable (s.Safe x) :=
  inferInstanceAs (Decidable (_ → (_ → _ → _) ∧ _))

/-- A restart that is scheduled and found pending by the next request of its process. -/
def restartCalls : List (Bool × Action) :=
  [(true, .zendAccelScheduleRestart .user), (true, .next), (true, .next), (true, .next),
    (true, .next), (true, .next), (true, .accelActivate), (true, .next), (true, .next),
    (true, .next), (true, .next), (true, .next), (true, .next), (true, .next), (true, .next)]

/-- The flag is set again, and a compile request finds the restart still in progress. -/
def refusedCalls : List (Bool × Action) :=
  restartCalls ++ List.replicate 3 (true, .next) ++
    [(false, .persistentCompileFile), (false, .next), (false, .next), (false, .next)]

/-- The request goes without shared memory while the other process leaves its reset. -/
theorem exclusion_of_safe_run_refused : ∃ s : Accel Bool,
    GuardedRun Step Safe (init Bool) refusedCalls s ∧ (s.proc true).pc = .clearInProgress ∧
    ¬ ((s.proc false).usesSharedMemory = true ∧ (s.proc true).pc.resetting = true) := by
  obtain ⟨s, hs, hpc⟩ : ∃ s, refusedCalls.foldlM
      (fun s x => if Safe s x then Procs.step Process.act s x else none) (init Bool) = some s ∧
        (s.proc true).pc = .clearInProgress :=
    ⟨_, rfl, rfl⟩
  have h : GuardedRun Step Safe (init Bool) _ s := GuardedRun.of_foldlM_guard hs
  exact ⟨s, h, hpc, exclusion_of_safe_run h false true (by decide)⟩

/-- A compile request passes its checks, a restart finds nobody using shared memory, and the
request takes the usage lock. -/
def compileCalls : List (Bool × Action) :=
  [(false, .persistentCompileFile), (false, .next)] ++ restartCalls ++
    [(false, .next), (false, .next)]

/-- The request uses shared memory while the other process cleans the hash table. -/
theorem exclusion_fails : ∃ s : Accel Bool, Run Step (init Bool) compileCalls s ∧
    (s.proc false).usesSharedMemory = true ∧ (s.proc true).pc = .cleanHash := by
  exact ⟨_, GuardedRun.of_foldlM rfl, rfl, rfl⟩

end Accel

end ZendOpcache
