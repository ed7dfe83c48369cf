import Mathlib.Algebra.BigOperators.Group.Finset.Basic
import Mathlib.Tactic.Common

/-! # Killing the lockers

`kill_all_lockers` in front of the answers that it may get from `kill` and `fcntl`. One counter of
tries serves all lockers: it is taken down before each attempt, and also by the test that finds it
at zero, so that it is negative once it has run out.
-/

namespace ZendOpcache

/-- What `kill` returns, with its `errno`. -/
inductive KillAnswer where
  | ok
  /-- there is no such process -/
  | esrch
  /-- the process may not be killed -/
  | eperm
  deriving DecidableEq

inductive LockType where
  | rdlck
  | wrlck
  | unlck
  deriving DecidableEq

/-- The fields of `struct flock` that the function reads. -/
structure Flock where
  lType : LockType
  lPid : ℤ

/-- What the system answers. The attempts on a locker, and the lockers, are counted from 0. -/
structure Answers where
  /-- `kill(pid, SIGKILL)` -/
  kill : ℕ → ℕ → KillAnswer
  /-- `kill(pid, 0)` -/
  probe : ℕ → ℕ → KillAnswer
  /-- `fcntl(lock_file, F_GETLK)`, which may fail -/
  getlk : ℕ → Option Flock
  /-- `time(NULL)` -/
  time : ℕ → ℕ

/-- How the attempts on one locker end: with the answer that has ended them, if there is one. -/
structure LockerEnd where
  attempts : ℕ
  tries : ℤ
  answer : Option KillAnswer

/-- What has been done about a locker, and whether it is known to be dead. -/
structure LockerVisit where
  pid : ℤ
  attempts : ℕ
  dead : Bool

/-- What the function leaves behind. `visits` and `unlocked` say what it has seen: `unlocked` that
no one has the lock any more. -/
structure KillRun where
  forceRestartTime : ℕ
  visits : List LockerVisit
  unlocked : Bool

/-- `INT_MIN` -/
def intMin : ℤ := -2 ^ 31

namespace Answers

variable (a : Answers)

/-- The inner loop, for one locker at attempt `j`. It has no value where so many turns are not
enough, or where `tries` would leave its range. -/
def killLocker (k : ℕ) : ℕ → ℕ → ℤ → Option LockerEnd
  | 0, _, _ => none
  | n + 1, j, tries =>
    if tries = 0 then some ⟨j, -1, none⟩
    else if tries ≤ intMin then none
    else if a.kill k j ≠ .ok then some ⟨j + 1, tries - 1, some (a.kill k j)⟩
    else if a.probe k j ≠ .ok then some ⟨j + 1, tries - 1, some (a.probe k j)⟩
    else killLocker k n (j + 1) (tries - 1)

/-- What follows the inner loop. -/
def afterLocker (k : ℕ) (pid : ℤ) (e : LockerEnd) (s : KillRun) : KillRun where
  forceRestartTime := if e.tries = 0 then a.time k else s.forceRestartTime
  visits := s.visits ++ [⟨pid, e.attempts, e.answer = some .esrch⟩]
  unlocked := s.unlocked

/-- The outer loop, at locker `k`. -/
def killLoop (fuel : ℕ) : ℕ → ℕ → ℤ → Flock → KillRun → Option KillRun
  | 0, _, _, _, _ => none
  | n + 1, k, tries, memUsageCheck, s =>
    if 0 < memUsageCheck.lPid then
      match a.killLocker k fuel 0 tries with
      | none => none
      | some e =>
        match a.getlk k with
        | none => some (a.afterLocker k memUsageCheck.lPid e s)
        | some l =>
          if l.lType = .unlck ∨ l.lPid ≤ 0 then
            some { a.afterLocker k memUsageCheck.lPid e s with unlocked := l.lType = .unlck }
          else killLoop fuel n (k + 1) e.tries l (a.afterLocker k memUsageCheck.lPid e s)
    else some s

/-- `kill_all_lockers`, with a bound on the turns of its loops -/
def killAllLockers (fuel : ℕ) (memUsageCheck : Flock) : Option KillRun :=
  a.killLoop fuel fuel 0 10 memUsageCheck ⟨0, [], false⟩

end Answers

/-- As far as the function has seen, the process is alive and still has its lock. -/
def KillRun.MayHold (s : KillRun) (pid : ℤ) : Prop :=
  s.unlocked = false ∧ ∃ (k : ℕ) (v : LockerVisit), s.visits[k]? = some v ∧ v.pid = pid ∧
    v.dead = false ∧ ∀ (i : ℕ) (u : LockerVisit), k < i → s.visits[i]? = some u → u.pid ≠ pid

namespace Answers

variable (a : Answers)

/-- The function returns after at most ten attempts on each locker, and asks for another restart if
one of them may still have its lock. -/
def KillsInTime (memUsageCheck : Flock) : Prop :=
  ∃ fuel s, a.killAllLockers fuel memUsageCheck = some s ∧ (∀ v ∈ s.visits, v.attempts ≤ 10) ∧
    ((∃ pid, s.MayHold pid) → s.forceRestartTime ≠ 0)

/-- The answer that ends the attempts on a locker, if it is given to attempt `j`. -/
def refusal (k j : ℕ) : Option KillAnswer :=
  if a.kill k j ≠ .ok then some (a.kill k j)
  else if a.probe k j ≠ .ok then some (a.probe k j)
  else none

variable {a : Answers} {k n j m : ℕ} {tries : ℤ} {e : LockerEnd}

/-- How one turn of the inner loop may go. -/
theorem killLocker_succ (a : Answers) (k n j : ℕ) (tries : ℤ) :
    a.killLocker k (n + 1) j tries =
      if tries = 0 then some ⟨j, -1, none⟩
      else if tries ≤ intMin then none
      else match a.refusal k j with
        | some x => some ⟨j + 1, tries - 1, some x⟩
        | none => a.killLocker k n (j + 1) (tries - 1) := by
  rw [killLocker, refusal]
  split_ifs <;> rfl

/-- The inner loop ends when the tries have run out, or with a refusal before that. -/
theorem killLocker_cases (h : a.killLocker k n j tries = some e) :
    (∃ t : ℕ, tries = t ∧ (∀ i < t, a.refusal k (j + i) = none) ∧ e = ⟨j + t, -1, none⟩) ∨
    ∃ m x, (∀ i < m, a.refusal k (j + i) = none) ∧ a.refusal k (j + m) = some x ∧
      (0 ≤ tries → m < tries) ∧ intMin ≤ tries - (m + 1) ∧
      e = ⟨j + m + 1, tries - (m + 1), some x⟩ := by
  induction n generalizing j tries with
  | zero => cases h
  | succ n ih =>
    rw [killLocker_succ] at h
    split_ifs at h with hzero hmin
    · cases h
      exact .inl ⟨0, hzero, by simp, rfl⟩
    · cases hx : a.refusal k j with
      | some x =>
        rw [hx] at h
        cases h
        exact .inr ⟨0, x, by simp, hx, fun hpos => by omega, by omega, by simp⟩
      | none =>
        rw [hx] at h
        have hhead : ∀ {t : ℕ}, (∀ i < t, a.refusal k (j + 1 + i) = none) →
            ∀ i < t + 1, a.refusal k (j + i) = none := by
          intro t ht i hi
          cases i with
          | zero => exact hx
          | succ i => exact (congrArg _ (by omega)).trans (ht i (by omega))
        rcases ih h with ⟨t, htries, ht, rfl⟩ | ⟨m, x, hm, hxm, hpos, hmin', rfl⟩
        · refine .inl ⟨t + 1, by omega, hhead ht, ?_⟩
          rw [Nat.add_right_comm, Nat.add_assoc]
        · refine .inr ⟨m + 1, x, hhead hm,
            (congrArg _ (by omega)).trans hxm, by omega, by omega, ?_⟩
          rw [LockerEnd.mk.injEq]
          exact ⟨by omega, by omega, rfl⟩

theorem killLocker_exhausted {t : ℕ} (ht : ∀ i < t, a.refusal k (j + i) = none) (hn : t < n) :
    a.killLocker k n j t = some ⟨j + t, -1, none⟩ := by
  have hmin : intMin < 0 := by decide
  induction t generalizing n j with
  | zero =>
    obtain ⟨n, rfl⟩ : ∃ m, n = m + 1 := ⟨n - 1, by omega⟩
    rw [killLocker_succ, if_pos (by simp)]
    rfl
  | succ t ih =>
    obtain ⟨n, rfl⟩ : ∃ m, n = m + 1 := ⟨n - 1, by omega⟩
    have hfirst : a.refusal k j = none := ht 0 (Nat.succ_pos t)
    have hrest := ih (n := n) (j := j + 1) (fun i hi => (congrArg _ (by omega)).trans
      (ht (i + 1) (by omega))) (by omega)
    have hpred : ((t + 1 : ℕ) : ℤ) - 1 = t := by omega
    rw [killLocker_succ, if_neg (by omega), if_neg (by omega), hfirst, hpred]
    refine hrest.trans ?_
    rw [Nat.add_right_comm, Nat.add_assoc]

theorem killLocker_refused {x : KillAnswer} (hm : ∀ i < m, a.refusal k (j + i) = none)
    (hx : a.refusal k (j + m) = some x) (hpos : 0 ≤ tries → m < tries)
    (hmin : intMin ≤ tries - (m + 1)) (hn : m < n) :
    a.killLocker k n j tries = some ⟨j + m + 1, tries - (m + 1), some x⟩ := by
  induction m generalizing n j tries with
  | zero =>
    obtain ⟨n, rfl⟩ : ∃ i, n = i + 1 := ⟨n - 1, by omega⟩
    rw [killLocker_succ, if_neg (by omega), if_neg (by omega), show a.refusal k j = some x from hx]
    simp
  | succ m ih =>
    obtain ⟨n, rfl⟩ : ∃ i, n = i + 1 := ⟨n - 1, by omega⟩
    have hfirst : a.refusal k j = none := hm 0 (Nat.succ_pos m)
    have hrest : a.killLocker k n (j + 1) (tries - 1) = _ :=
      ih (fun i hi => (congrArg _ (by omega)).trans (hm (i + 1) (by omega)))
        ((congrArg _ (by omega)).trans hx) (by omega) (by omega) (by omega)
    rw [killLocker_succ, if_neg (by omega), if_neg (by omega), hfirst]
    refine hrest.trans ?_
    rw [Option.some.injEq, LockerEnd.mk.injEq]
    exact ⟨by omega, by omega, rfl⟩

end Answers

end ZendOpcache
