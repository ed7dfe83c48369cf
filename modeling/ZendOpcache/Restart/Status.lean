import Mathlib.Tactic.Common
import ZendOpcache.Restart.Safety

/-! # The saved status

A scheduler saves and clears `accelerator_enabled` after an unlocked test of `restart_pending`, and
a restart puts the saved status back. The accelerator comes back after every restart as long as no
scheduler passes its test while another one, or a restart, is not done with the status, and no
restart is entered while a scheduler is not.
-/

namespace ZendOpcache

open Procs

/-- In `zend_accel_schedule_restart`, after the test of `restart_pending` -/
def Pc.scheduling : Pc → Bool
  | .setPending _ | .setReason _ | .readEnabled | .saveStatus _ | .disable => true
  | _ => false

/-- From taking the request off until the saved status is back. -/
def Pc.restoring : Pc → Bool
  | .clearPending | .restartLock | .setInProgress | .resetCacheVars | .cleanHash | .readStatus
  | .restoreStatus _ => true
  | _ => false

/-- With the request taken off -/
def Pc.served : Pc → Bool
  | .clearPending => false
  | pc => pc.restoring

/-- After the second test of `restart_pending`, before the request is taken off -/
def Pc.serving : Pc → Bool
  | .isInactive | .clearPending => true
  | _ => false

namespace Pc

variable {pc : Pc}

theorem served_underAllocLock (h : pc.served = true) : pc.underAllocLock = true := by
  cases pc <;> simp_all [served, restoring, underAllocLock, restarting, resetting]

theorem serving_underAllocLock (h : pc.serving = true) : pc.underAllocLock = true := by
  cases pc <;> simp_all [serving, underAllocLock, restarting]

theorem served_restoring (h : pc.served = true) : pc.restoring = true := by
  cases pc <;> simp_all [served, restoring]

end Pc

/-- What holds of the flags where a process stands in a scheduler or in a restart: a scheduler that
has not cleared the flag finds it set, and what it saves is that. -/
def ZendAccelSharedGlobals.Fits (g : ZendAccelSharedGlobals) : Pc → Prop
  | .setPending _ => g.acceleratorEnabled = true ∧ g.restartPending = false
  | .setReason _ | .readEnabled => g.acceleratorEnabled = true ∧ g.restartPending = true
  | .saveStatus v => g.acceleratorEnabled = true ∧ g.restartPending = true ∧ v = true
  | .disable =>
    g.acceleratorEnabled = true ∧ g.restartPending = true ∧ g.cacheStatusBeforeRestart = true
  | .isInactive | .clearPending => g.restartPending = true
  | .restartLock | .setInProgress | .resetCacheVars | .cleanHash | .readStatus =>
    g.restartPending = false ∧ g.cacheStatusBeforeRestart = true
  | .restoreStatus v => g.restartPending = false ∧ g.cacheStatusBeforeRestart = true ∧ v = true
  | _ => True

/-- What holds of the flags if no process is in a scheduler, or in a restart that has taken the
request off: the status is saved while a restart is pending. -/
def ZendAccelSharedGlobals.Settled (g : ZendAccelSharedGlobals) : Prop :=
  (g.restartPending = false ∧ g.acceleratorEnabled = true) ∨
    (g.restartPending = true ∧ g.cacheStatusBeforeRestart = true)

namespace ZendAccelSharedGlobals

variable {g g' : ZendAccelSharedGlobals} {pc : Pc}

/-- Where a process is in none of the sections, nothing is asked of the flags. -/
theorem fits_of_free (h : pc.scheduling = false) (h' : pc.served = false)
    (hserving : pc.serving = false) : g.Fits pc := by
  cases pc <;> simp_all [Fits, Pc.scheduling, Pc.served, Pc.restoring, Pc.serving]

/-- A process that found a request pending does not look at the other flags. -/
theorem Fits.of_pending (hf : g.Fits pc) (h : pc.scheduling = false) (h' : pc.served = false)
    (hp : g.restartPending = true → g'.restartPending = true) : g'.Fits pc := by
  cases pc <;> simp_all [Fits, Pc.scheduling, Pc.served, Pc.restoring]

theorem Fits.congr (hf : g.Fits pc) (hp : g'.restartPending = g.restartPending)
    (he : g'.acceleratorEnabled = g.acceleratorEnabled)
    (hc : g'.cacheStatusBeforeRestart = g.cacheStatusBeforeRestart) : g'.Fits pc := by
  cases pc <;> simp_all [Fits]

end ZendAccelSharedGlobals

namespace Process

variable {others : (Process → Bool) → Bool} {g g' : ZendAccelSharedGlobals} {l l' : Process}
  {a : Action}

/-- In a section whose flags are of no use to others -/
def busy (l : Process) : Bool := l.pc.scheduling || l.pc.served

/-- What a step of one process can do to the flags and the saved status. -/
structure StatusEffect (g : ZendAccelSharedGlobals) (l : Process) (a : Action) (l' : Process)
    (g' : ZendAccelSharedGlobals) : Prop where
  scheduling : l'.pc.scheduling = true → l.pc.scheduling = true ∨
    ((∃ reason, a = .zendAccelScheduleRestart reason) ∧ l.busy = false ∧ g.restartPending = false)
  served : l'.pc.served = true → l.pc.served = true ∨ (a = .next ∧ l.pc = .clearPending)
  keeps : l.busy = false → (a = .next → l.pc ≠ .clearPending) →
    g'.restartPending = g.restartPending ∧ g'.acceleratorEnabled = g.acceleratorEnabled ∧
      g'.cacheStatusBeforeRestart = g.cacheStatusBeforeRestart
  pending : l.pc.scheduling = true → g.restartPending = true → g'.restartPending = true
  fits : g.Fits l.pc → (l.busy = false → l'.busy = true → g.Settled) → g'.Fits l'.pc
  settled : g.Fits l.pc → l.busy = true → l'.busy = false → a ≠ .exit → g'.Settled

theorem next_statusEffect (h : l.next others g = some (l', g')) :
    l.StatusEffect g .next l' g' := by
  obtain ⟨pc, counted, alloc, usage, restart⟩ := l
  cases pc <;> simp only [next, goto] at h <;> (try split_ifs at h) <;> cases h
  all_goals
    constructor <;> simp_all [Pc.scheduling, Pc.served, Pc.restoring, busy,
      ZendAccelSharedGlobals.Fits, ZendAccelSharedGlobals.Settled]

theorem act_statusEffect (h : l.act others g a = some (l', g')) : l.StatusEffect g a l' g' := by
  cases a
  case next => exact next_statusEffect h
  all_goals
    simp only [act, goto, unlockAll, start] at h
    (try split_ifs at h) <;> cases h
  all_goals
    constructor <;> simp_all [Pc.scheduling, Pc.served, Pc.restoring, busy,
      ZendAccelSharedGlobals.Fits, ZendAccelSharedGlobals.Settled]

end Process

namespace Accel

variable {π : Type*} [Fintype π] [DecidableEq π] {s t : Accel π}

/-- Shared memory as `zend_accel_init_shm` leaves it, where the saved status is not set. -/
def fresh (π : Type*) (status : Bool) : Accel π :=
  { init π with shared := { (init π).shared with cacheStatusBeforeRestart := status } }

/-- The steps come in an order in which the status is used by one process at a time: none passes the
test of a scheduler while another one is in a scheduler or in a restart whose status is not back,
none takes the request off while another one is in a scheduler, and none dies in these sections. -/
def Ordered (s : Accel π) (x : π × Action) : Prop :=
  match x.2 with
  | .zendAccelScheduleRestart _ => s.shared.restartPending = false →
    ∀ q, q ≠ x.1 → (s.proc q).pc.scheduling = false ∧ (s.proc q).pc.restoring = false
  | .next => (s.proc x.1).pc = .clearPending → ∀ q, q ≠ x.1 → (s.proc q).pc.scheduling = false
  | .exit => (s.proc x.1).busy = false
  | _ => True

/-- One process at a time uses the status, and the flags are as it expects them. -/
structure Comes (s : Accel π) : Prop extends Locked s where
  alone : ∀ p q, p ≠ q → (s.proc p).pc.scheduling = true → (s.proc q).busy = false
  fits : ∀ p, s.shared.Fits (s.proc p).pc
  settled : (∀ p, (s.proc p).busy = false) → s.shared.Settled

omit [Fintype π] [DecidableEq π] in
theorem comes_fresh (status : Bool) : Comes (fresh π status) where
  toLocked := locked_of_start fun _ => rfl
  alone p q _ h := by simp [fresh, init, Process.start, Pc.scheduling] at h
  fits p := trivial
  settled _ := .inl ⟨rfl, rfl⟩

omit [Fintype π] in
/-- No other process uses the status when one enters a section. -/
theorem Comes.settled_of_enters (hs : Comes s) {p : π} {a : Action} (hg : s.Ordered (p, a))
    {l' : Process} {g' : ZendAccelSharedGlobals} (he : (s.proc p).StatusEffect s.shared a l' g')
    (hbusy : (s.proc p).busy = false) (hbusy' : l'.busy = true) :
    (∀ q, q ≠ p → (s.proc q).busy = false) ∧ s.shared.Settled := by
  have hother : ∀ q, q ≠ p → (s.proc q).busy = false := by
    intro q hq
    simp only [Process.busy, Bool.or_eq_true, Bool.or_eq_false_iff] at hbusy hbusy' ⊢
    rcases hbusy' with hl | hl
    · rcases he.scheduling hl with hl | ⟨⟨reason, rfl⟩, -, hpend⟩
      · simp [hbusy.1] at hl
      · obtain ⟨hno, hno'⟩ := hg hpend q hq
        refine ⟨hno, ?_⟩
        by_contra hserved
        simp [Pc.served_restoring (by simpa using hserved)] at hno'
    · rcases he.served hl with hl | ⟨rfl, hpc⟩
      · simp [hbusy.2] at hl
      · refine ⟨hg hpc q hq, ?_⟩
        by_contra hserved
        have := hs.toLocked.alone hq.symm (by rw [hpc]; rfl : (s.proc p).pc.underAllocLock = true)
        simp [Pc.served_underAllocLock (by simpa using hserved)] at this
  refine ⟨hother, hs.settled fun q => ?_⟩
  by_cases hq : q = p
  · exact hq ▸ hbusy
  · exact hother q hq

theorem Comes.step (hs : Comes s) {p : π} {a : Action} (hg : s.Ordered (p, a))
    (h : Step s (p, a) t) : Comes t := by
  obtain ⟨hact, hother⟩ := step_cases h
  have he := Process.act_statusEffect hact
  -- only one process is in a section of the allocation lock
  have hserved : ∀ q, q ≠ p → (s.proc p).pc.underAllocLock = true →
      (s.proc q).pc.served = false ∧ (s.proc q).pc.serving = false := by
    intro q hq hp
    have hno := hs.toLocked.alone hq.symm hp
    constructor
    · by_contra hq'
      simp [Pc.served_underAllocLock (by simpa using hq')] at hno
    · by_contra hq'
      simp [Pc.serving_underAllocLock (by simpa using hq')] at hno
  refine { hs.toLocked.step h with alone := ?_, fits := ?_, settled := ?_ }
  · intro q r hqr
    refine pairwise_step (R := fun (l m : Process) => l.pc.scheduling = true → m.busy = false)
      hs.alone (fun q hq => ⟨fun hl => ?_, fun hl => ?_⟩) hother hqr
    · cases hbusy : (s.proc p).busy with
      | false =>
        exact (hs.settled_of_enters hg he hbusy (by simp [Process.busy, hl])).1 q hq
      | true =>
        rcases he.scheduling hl with hl | ⟨-, hno, -⟩
        · exact hs.alone p q hq.symm hl
        · simp [hbusy] at hno
    · have hno := hs.alone q p hq hl
      by_contra hbusy
      have hfree := (hs.settled_of_enters hg he hno (by simpa using hbusy)).1 q hq
      simp [Process.busy, hl] at hfree
  · refine forall_step (I := fun (g : ZendAccelSharedGlobals) (l : Process) => g.Fits l.pc)
      hs.fits (he.fits (hs.fits p) fun hbusy hbusy' =>
        (hs.settled_of_enters hg he hbusy hbusy').2) (fun q hq hfits => ?_) hother
    by_cases hsched : (s.proc p).pc.scheduling = true
    · have hno := hs.alone p q hq.symm hsched
      simp only [Process.busy, Bool.or_eq_false_iff] at hno
      exact hfits.of_pending hno.1 hno.2 (he.pending hsched)
    by_cases hsv : (s.proc p).pc.served = true
    · have hno : (s.proc q).pc.scheduling = false := by
        by_contra hq'
        have := hs.alone q p hq (by simpa using hq')
        simp [Process.busy, hsv] at this
      obtain ⟨h₁, h₂⟩ := hserved q hq (Pc.served_underAllocLock hsv)
      exact ZendAccelSharedGlobals.fits_of_free hno h₁ h₂
    by_cases hclear : a = .next ∧ (s.proc p).pc = .clearPending
    · obtain ⟨rfl, hpc⟩ := hclear
      obtain ⟨h₁, h₂⟩ := hserved q hq (by rw [hpc]; rfl)
      exact ZendAccelSharedGlobals.fits_of_free (hg hpc q hq) h₁ h₂
    · obtain ⟨h₁, h₂, h₃⟩ := he.keeps (by simp [Process.busy, hsched, hsv])
        fun ha hpc => hclear ⟨ha, hpc⟩
      exact hfits.congr h₁ h₂ h₃
  · intro hfree
    cases hbusy : (s.proc p).busy with
    | true =>
      refine he.settled (hs.fits p) hbusy (hfree p) ?_
      rintro rfl
      simp [show (s.proc p).busy = false from hg] at hbusy
    | false =>
      have hsettled := hs.settled fun q => by
        by_cases hq : q = p
        · exact hq ▸ hbusy
        · exact hother q hq ▸ hfree q
      by_cases hclear : a = .next ∧ (s.proc p).pc = .clearPending
      · -- the process has entered the section
        obtain ⟨rfl, hpc⟩ := hclear
        have hact' := hact
        simp only [Process.act, Process.next, hpc, Option.some.injEq, Prod.mk.injEq] at hact'
        have := hfree p
        rw [← hact'.1] at this
        simp [Process.busy, Process.goto, Pc.served, Pc.restoring, Pc.scheduling] at this
      · obtain ⟨h₁, h₂, h₃⟩ := he.keeps hbusy fun ha hpc => hclear ⟨ha, hpc⟩
        simpa only [ZendAccelSharedGlobals.Settled, h₁, h₂, h₃] using hsettled

/-- In every run that keeps this order, whenever no restart is pending or on its way, the
accelerator is enabled. -/
theorem enabled_of_ordered_run {status : Bool} {w : List (π × Action)}
    (h : GuardedRun Step Ordered (fresh π status) w s) (hp : s.shared.restartPending = false)
    (hr : ∀ p, (s.proc p).pc.restoring = false) : s.shared.acceleratorEnabled = true := by
  have hs : Comes s := h.invariant (comes_fresh status) fun hs hg hstep => hs.step hg hstep
  by_cases hsched : ∃ p, (s.proc p).pc.scheduling = true
  · obtain ⟨p, hp'⟩ := hsched
    have hf := hs.fits p
    cases hpc : (s.proc p).pc <;>
      simp_all [Pc.scheduling, ZendAccelSharedGlobals.Fits]
  · have hfree : ∀ p, (s.proc p).busy = false := by
      intro p
      simp only [Process.busy, Bool.or_eq_false_iff]
      refine ⟨by simpa using fun hp' => hsched ⟨p, hp'⟩, ?_⟩
      by_contra hserved
      have := hr p
      simp [Pc.served_restoring (by simpa using hserved)] at this
    rcases hs.settled hfree with ⟨-, hen⟩ | ⟨hpend, -⟩
    · exact hen
    · simp [hp] at hpend

instance (s : Accel π) : (x : π × Action) → Decidable (s.Ordered x)
  | (p, .zendAccelScheduleRestart _) => inferInstanceAs (Decidable (_ → ∀ q, q ≠ p → _ ∧ _))
  | (p, .next) => inferInstanceAs (Decidable (_ → ∀ q, q ≠ p → _ = false))
  | (_, .exit) => inferInstanceAs (Decidable (_ = false))
  | (_, .persistentCompileFile) => inferInstanceAs (Decidable True)
  | (_, .acceleratorShmReadLock) => inferInstanceAs (Decidable True)
  | (_, .accelActivate) => inferInstanceAs (Decidable True)
  | (_, .accelDeactivate) => inferInstanceAs (Decidable True)

/-- One process schedules a restart, another one finds that it is pending and goes on, and the next
request restarts. -/
def restartedCalls : List (Bool × Action) :=
  restartCalls.take 2 ++ [(false, .zendAccelScheduleRestart .oom)] ++ restartCalls.drop 2 ++
    List.replicate 6 (true, .next)

theorem enabled_of_ordered_run_restarted : ∃ s : Accel Bool,
    GuardedRun Step Ordered (fresh Bool false) restartedCalls s ∧
    s.shared.acceleratorEnabled = true := by
  obtain ⟨s, hs, hp, hr⟩ : ∃ s, restartedCalls.foldlM
      (fun s x => if Ordered s x then Procs.step Process.act s x else none) (fresh Bool false) =
        some s ∧ s.shared.restartPending = false ∧ ∀ p, (s.proc p).pc.restoring = false :=
    ⟨_, rfl, rfl, by decide⟩
  have h : GuardedRun Step Ordered (fresh Bool false) _ s := GuardedRun.of_foldlM_guard hs
  exact ⟨s, h, enabled_of_ordered_run h hp hr⟩

/-- Two schedulers both find no restart pending, and the second saves the flag that the first one
has cleared; then a complete restart. -/
def twoSchedulersCalls : List (Bool × Action) :=
  [(false, .zendAccelScheduleRestart .user), (true, .zendAccelScheduleRestart .user)] ++
    List.replicate 5 (false, .next) ++ List.replicate 5 (true, .next) ++
    [(true, .accelActivate)] ++ List.replicate 14 (true, .next)

/-- Both processes are done, nothing is pending, and the accelerator is off. -/
theorem enabled_fails : ∃ s : Accel Bool, Run Step (fresh Bool true) twoSchedulersCalls s ∧
    (∀ p, (s.proc p).pc = .idle) ∧ s.shared.restartPending = false ∧
    s.shared.acceleratorEnabled = false := by
  exact ⟨_, GuardedRun.of_foldlM rfl, by decide, rfl, rfl⟩

end Accel

end ZendOpcache
