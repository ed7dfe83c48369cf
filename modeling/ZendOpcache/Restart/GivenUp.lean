import Mathlib.Algebra.BigOperators.Group.Finset.Basic
import Mathlib.Data.Nat.Find
import ZendOpcache.Restart.KillLockers

/-! # Lockers that are given up

The tries before a locker are what the lockers before it have left of ten, as long as these
have not needed more; after that they are negative and do not run out. With that,
`kill_all_lockers` returns in time, and asks for another restart where it should, exactly under a
condition on the answers that it gets.
-/

namespace ZendOpcache

namespace Answers

open Finset

variable {a : Answers} {k n t m : ℕ}

theorem exists_needed (a : Answers) (k : ℕ) : ∃ j, j = 10 ∨ a.refusal k j ≠ none := ⟨10, .inl rfl⟩

/-- The attempts that a locker needs until one is refused, or 11 if ten are not enough. -/
def needed (a : Answers) (k : ℕ) : ℕ := Nat.find (a.exists_needed k) + 1

/-- What the lockers before this one need together. -/
def spent (a : Answers) (k : ℕ) : ℕ := ∑ i ∈ range k, a.needed i

/-- What is needed by those lockers before this one that come after the tries have run out. -/
def overrun (a : Answers) (k : ℕ) : ℕ := ∑ i ∈ range k with 10 < a.spent i, a.needed i

/-- The attempts on this locker end with the news that it is dead. -/
def Dies (a : Answers) (k : ℕ) : Prop :=
  (a.spent (k + 1) ≤ 10 ∨ 10 < a.spent k) ∧ a.refusal k (a.needed k - 1) = some .esrch

/-- There is no locker after this one, as far as `fcntl` says. -/
def StopsAt (a : Answers) (k : ℕ) : Prop :=
  ∀ l, a.getlk k = some l → l.lType = .unlck ∨ l.lPid ≤ 0

/-- After this locker, no one has the lock. -/
def UnlockedAt (a : Answers) (k : ℕ) : Prop := ∃ l, a.getlk k = some l ∧ l.lType = .unlck

/-- The lockers, of which the first one is reported to the function -/
def locker (a : Answers) (l : Flock) : ℕ → Flock
  | 0 => l
  | k + 1 => (a.getlk k).getD (a.locker l k)

/-- There is an end to the lockers, those that come after the tries have run out need ten attempts
at most, and if one of the lockers may be left with its lock, the tries run out exactly with the
last attempt on one of them. -/
structure EndsInTime (a : Answers) (l : Flock) (n : ℕ) : Prop where
  stops : a.StopsAt n
  goesOn : ∀ k < n, ¬ a.StopsAt k
  needed_le : ∀ k ≤ n, 10 < a.spent k → a.needed k ≤ 10
  overrun_lt : a.overrun (n + 1) < 2 ^ 31
  restarts : ¬ a.UnlockedAt n →
    (∃ k ≤ n, ¬ a.Dies k ∧ ∀ i ≤ n, k < i → (a.locker l i).lPid ≠ (a.locker l k).lPid) →
    ∃ k ≤ n, a.spent (k + 1) = 10

theorem lt_needed_iff (ht : t ≤ 10) : t < a.needed k ↔ ∀ i < t, a.refusal k i = none := by
  rw [needed, Nat.lt_succ_iff, Nat.le_find_iff]
  constructor
  · intro h i hi
    by_contra hne
    exact h i hi (.inr hne)
  · rintro h i hi (rfl | hne)
    · omega
    · exact hne (h i hi)

theorem needed_eq (hm : m < 10) (h : ∀ i < m, a.refusal k i = none) (hne : a.refusal k m ≠ none) :
    a.needed k = m + 1 := by
  rw [needed, Nat.add_right_cancel_iff, Nat.find_eq_iff]
  refine ⟨.inr hne, fun i hi => ?_⟩
  rintro (rfl | hi')
  · omega
  · exact hi' (h i hi)

theorem needed_pos (a : Answers) (k : ℕ) : 0 < a.needed k := Nat.succ_pos _

theorem refusal_needed (h : a.needed k ≤ 10) : a.refusal k (a.needed k - 1) ≠ none := by
  rcases Nat.find_spec (a.exists_needed k) with hten | hne
  · rw [needed, hten] at h
    omega
  · exact hne

@[simp] theorem spent_zero (a : Answers) : a.spent 0 = 0 := rfl

theorem spent_succ (a : Answers) (k : ℕ) : a.spent (k + 1) = a.spent k + a.needed k :=
  sum_range_succ _ _

theorem spent_mono (a : Answers) : Monotone a.spent :=
  monotone_nat_of_le_succ fun k => by
    rw [spent_succ]
    exact Nat.le_add_right _ _

theorem overrun_succ (a : Answers) (k : ℕ) :
    a.overrun (k + 1) = a.overrun k + if 10 < a.spent k then a.needed k else 0 := by
  rw [overrun, overrun, sum_filter, sum_filter, sum_range_succ]

theorem overrun_eq_zero (h : a.spent k ≤ 10) : a.overrun k = 0 := by
  refine sum_eq_zero fun i hi => ?_
  obtain ⟨hi, hlt⟩ := mem_filter.mp hi
  have hle := a.spent_mono (mem_range.mp hi).le
  omega

theorem overrun_mono (a : Answers) : Monotone a.overrun :=
  monotone_nat_of_le_succ fun k => by
    rw [overrun_succ]
    exact Nat.le_add_right _ _

/-- The variable `tries` before a locker -/
def triesBefore (a : Answers) (k : ℕ) : ℤ :=
  if a.spent k ≤ 10 then 10 - a.spent k else -1 - a.overrun k

/-- How the attempts on a locker end, if there are ten of them at most. -/
def lockerEnd (a : Answers) (k : ℕ) : LockerEnd where
  attempts := if a.spent k ≤ 10 then min (10 - a.spent k) (a.needed k) else a.needed k
  tries := a.triesBefore (k + 1)
  answer := if a.spent (k + 1) ≤ 10 ∨ 10 < a.spent k then a.refusal k (a.needed k - 1) else none

/-- The attempts on a locker can be ended within the bounds. -/
def Fine (a : Answers) (k : ℕ) : Prop :=
  10 < a.spent k → a.needed k ≤ 10 ∧ a.overrun (k + 1) < 2 ^ 31

theorem lockerEnd_exhausted (h : a.spent k ≤ 10) (hlt : 10 - a.spent k < a.needed k) :
    a.lockerEnd k = ⟨10 - a.spent k, -1, none⟩ := by
  have hsucc := a.spent_succ k
  have hover := a.overrun_succ k
  rw [overrun_eq_zero h, if_neg (by omega)] at hover
  rw [lockerEnd, if_pos h, triesBefore, if_neg (by omega), hover, if_neg (by omega),
    Nat.min_eq_left hlt.le]
  rfl

theorem lockerEnd_refused (h : a.spent k ≤ 10 → a.needed k ≤ 10 - a.spent k) :
    a.lockerEnd k =
      ⟨a.needed k, a.triesBefore k - a.needed k, a.refusal k (a.needed k - 1)⟩ := by
  have hsucc := a.spent_succ k
  have hover := a.overrun_succ k
  rw [lockerEnd, triesBefore, triesBefore]
  by_cases hle : a.spent k ≤ 10
  · have hneeded := h hle
    rw [if_pos hle, if_pos (by omega), if_pos hle, if_pos (by omega), Nat.min_eq_right hneeded,
      LockerEnd.mk.injEq]
    exact ⟨rfl, by omega, rfl⟩
  · rw [if_pos (show 10 < a.spent k by omega)] at hover
    rw [if_neg hle, if_neg (by omega), if_neg hle, if_pos (by omega), LockerEnd.mk.injEq]
    exact ⟨rfl, by omega, rfl⟩

/-- The attempts on a locker end like this, if it takes ten of them at most. -/
theorem killLocker_eq {e : LockerEnd} (h : a.killLocker k n 0 (a.triesBefore k) = some e)
    (hattempts : e.attempts ≤ 10) : e = a.lockerEnd k ∧ a.Fine k := by
  have hsucc := a.spent_succ k
  have hover := a.overrun_succ k
  have hmin : intMin = -2147483648 := rfl
  rcases killLocker_cases h with ⟨t, ht, hnone, rfl⟩ | ⟨m, x, hnone, hx, hpos, hbound, rfl⟩
  · simp only [Nat.zero_add] at hnone hattempts ⊢
    have hle : a.spent k ≤ 10 := by
      by_contra hgt
      rw [triesBefore, if_neg hgt] at ht
      omega
    rw [triesBefore, if_pos hle] at ht
    obtain rfl : t = 10 - a.spent k := by omega
    refine ⟨(lockerEnd_exhausted hle ((lt_needed_iff (by omega)).mpr hnone)).symm, fun hgt => ?_⟩
    omega
  · simp only [Nat.zero_add] at hnone hx hattempts ⊢
    have hneeded := needed_eq (by omega) hnone (by simp [hx])
    rw [lockerEnd_refused, hneeded, Nat.add_sub_cancel, hx]
    · refine ⟨rfl, fun hgt => ⟨by omega, ?_⟩⟩
      rw [triesBefore, if_neg (by omega)] at hbound
      rw [hover, if_pos hgt, hneeded]
      omega
    · intro hle
      rw [triesBefore, if_pos hle] at hpos
      omega

/-- Conversely, they come to this end. -/
theorem killLocker_lockerEnd (h : a.Fine k) (hn : 11 ≤ n) :
    a.killLocker k n 0 (a.triesBefore k) = some (a.lockerEnd k) ∧
      (a.lockerEnd k).attempts ≤ 10 := by
  have hpos := a.needed_pos k
  have hover := a.overrun_succ k
  have hmin : intMin = -2147483648 := rfl
  by_cases hlt : a.spent k ≤ 10 ∧ 10 - a.spent k < a.needed k
  · obtain ⟨hle, hlt⟩ := hlt
    have hnone := (lt_needed_iff (by omega)).mp hlt
    have htries : a.triesBefore k = (10 - a.spent k : ℕ) := by
      rw [triesBefore, if_pos hle]
      omega
    rw [lockerEnd_exhausted hle hlt, htries]
    refine ⟨?_, by change 10 - a.spent k ≤ 10; omega⟩
    have hrun := killLocker_exhausted (j := 0) (by simpa using hnone)
        (show 10 - a.spent k < n by omega)
    rwa [Nat.zero_add] at hrun
  · have hle : a.spent k ≤ 10 → a.needed k ≤ 10 - a.spent k := fun hle => by
      by_contra hgt
      exact hlt ⟨hle, Nat.lt_of_not_le hgt⟩
    have hten : a.needed k ≤ 10 := by
      by_cases hspent : a.spent k ≤ 10
      · exact (hle hspent).trans (Nat.sub_le _ _)
      · exact (h (by omega)).1
    obtain ⟨x, hx⟩ := Option.ne_none_iff_exists'.mp (refusal_needed hten)
    have hlast : a.needed k - 1 < a.needed k := Nat.sub_lt hpos Nat.one_pos
    have hnone := (lt_needed_iff (by omega)).mp hlast
    have hcast : ((a.needed k - 1 : ℕ) : ℤ) + 1 = a.needed k := by omega
    have hrun : a.killLocker k n 0 (a.triesBefore k) = _ :=
      killLocker_refused (m := a.needed k - 1) (j := 0) (by simpa using hnone)
        (by simpa using hx) ?_ ?_ (by omega)
    · rw [lockerEnd_refused hle, hx, hrun, hcast, Nat.zero_add, Nat.sub_add_cancel hpos]
      exact ⟨rfl, hten⟩
    · intro htries
      rw [triesBefore] at htries ⊢
      split_ifs at htries ⊢ with hspent
      · have := hle hspent
        omega
      · omega
    · rw [hcast, triesBefore]
      split_ifs with hspent
      · omega
      · have hfine := (h (by omega)).2
        rw [hover, if_pos (by omega)] at hfine
        omega

theorem triesBefore_eq_zero_iff (a : Answers) (k : ℕ) : a.triesBefore k = 0 ↔ a.spent k = 10 := by
  rw [triesBefore]
  split_ifs <;> omega

theorem lockerEnd_answer_iff (a : Answers) (k : ℕ) :
    (a.lockerEnd k).answer = some .esrch ↔ a.Dies k := by
  rw [lockerEnd, Dies]
  by_cases h : a.spent (k + 1) ≤ 10 ∨ 10 < a.spent k
  · simp [h]
  · simp [h]

variable {l : Flock} {s s' : KillRun}

/-- What has been done about a locker -/
def visitAt (a : Answers) (l : Flock) (k : ℕ) : LockerVisit :=
  ⟨(a.locker l k).lPid, (a.lockerEnd k).attempts, (a.lockerEnd k).answer = some .esrch⟩

/-- The lockers before this one have been seen, as far as that is on record. -/
structure Seen (a : Answers) (l : Flock) (k : ℕ) (s : KillRun) : Prop where
  visits : s.visits = (List.range k).map (a.visitAt l)
  restart : s.forceRestartTime ≠ 0 ↔ ∃ i < k, a.spent (i + 1) = 10

theorem Seen.after (htime : ∀ k, a.time k ≠ 0) (h : a.Seen l k s) :
    a.Seen l (k + 1) (a.afterLocker k (a.locker l k).lPid (a.lockerEnd k) s) where
  visits := by
    rw [afterLocker, h.visits, List.range_succ, List.map_append]
    rfl
  restart := by
    have hzero : (a.lockerEnd k).tries = 0 ↔ a.spent (k + 1) = 10 :=
      a.triesBefore_eq_zero_iff (k + 1)
    rw [afterLocker]
    by_cases htries : (a.lockerEnd k).tries = 0
    · rw [if_pos htries]
      exact iff_of_true (htime k) ⟨k, Nat.lt_succ_self k, hzero.mp htries⟩
    · simp only [if_neg htries, h.restart]
      constructor
      · rintro ⟨i, hi, heq⟩
        exact ⟨i, Nat.lt_succ_of_lt hi, heq⟩
      · rintro ⟨i, hi, heq⟩
        rcases Nat.lt_succ_iff_lt_or_eq.mp hi with hi | rfl
        · exact ⟨i, hi, heq⟩
        · exact absurd (hzero.mpr heq) htries

/-- The function has returned after a locker. -/
structure Returned (a : Answers) (l : Flock) (m : ℕ) (s : KillRun) : Prop where
  stops : a.StopsAt m
  seen : a.Seen l (m + 1) s
  unlocked : s.unlocked = true ↔ a.UnlockedAt m

theorem not_stopsAt_iff : ¬ a.StopsAt k ↔
    ∃ l, a.getlk k = some l ∧ ¬ (l.lType = .unlck ∨ l.lPid ≤ 0) := by
  rw [StopsAt]
  push Not
  rfl

/-- One turn of the outer loop, where the attempts on the locker end. -/
theorem killLoop_succ {fuel : ℕ} (hpid : 0 < (a.locker l k).lPid)
    (he : a.killLocker k fuel 0 (a.triesBefore k) = some (a.lockerEnd k))
    (htime : ∀ k, a.time k ≠ 0) (hs : a.Seen l k s) (hlocked : s.unlocked = false) :
    (a.StopsAt k ∧ ∃ t, a.killLoop fuel (n + 1) k (a.triesBefore k) (a.locker l k) s = some t ∧
        a.Returned l k t) ∨
      (¬ a.StopsAt k ∧ 0 < (a.locker l (k + 1)).lPid ∧ ∃ t, a.Seen l (k + 1) t ∧
        t.unlocked = false ∧
        a.killLoop fuel (n + 1) k (a.triesBefore k) (a.locker l k) s =
          a.killLoop fuel n (k + 1) (a.triesBefore (k + 1)) (a.locker l (k + 1)) t) := by
  have hafter := hs.after htime
  rw [killLoop, if_pos hpid, he]
  cases hl : a.getlk k with
  | none =>
    have hstops : a.StopsAt k := fun l' hl' => by cases hl.symm.trans hl'
    refine .inl ⟨hstops, _, rfl, hstops, hafter, ?_⟩
    simp [afterLocker, hlocked, UnlockedAt, hl]
  | some l' =>
    by_cases hstop : l'.lType = .unlck ∨ l'.lPid ≤ 0
    · have hstops : a.StopsAt k := fun l'' hl'' => by
        cases hl.symm.trans hl''
        exact hstop
      refine .inl ⟨hstops, _, if_pos hstop, hstops, ⟨hafter.visits, hafter.restart⟩, ?_⟩
      simp [UnlockedAt, hl]
    · have hlocker : a.locker l (k + 1) = l' := by rw [locker, hl, Option.getD_some]
      refine .inr ⟨not_stopsAt_iff.mpr ⟨l', hl, hstop⟩, ?_, _, hafter, hlocked, ?_⟩
      · rw [hlocker]
        exact Int.lt_of_not_ge fun hle => hstop (.inr hle)
      · rw [hlocker]
        exact if_neg hstop

theorem mem_visits_afterLocker {pid : ℤ} {e : LockerEnd} {v : LockerVisit} :
    v ∈ (a.afterLocker k pid e s).visits ↔
      v ∈ s.visits ∨ v = ⟨pid, e.attempts, e.answer = some .esrch⟩ := by
  simp [afterLocker]

/-- What has been seen stays on record. -/
theorem killLoop_visits {fuel : ℕ} {tries : ℤ} {l : Flock} {v : LockerVisit}
    (h : a.killLoop fuel n k tries l s = some s') (hv : v ∈ s.visits) : v ∈ s'.visits := by
  induction n generalizing k tries l s with
  | zero => cases h
  | succ n ih =>
    rw [killLoop] at h
    split_ifs at h
    · cases he : a.killLocker k fuel 0 tries with
      | none =>
        rw [he] at h
        cases h
      | some e =>
        have hkeep : v ∈ (a.afterLocker k l.lPid e s).visits :=
          mem_visits_afterLocker.mpr (.inl hv)
        simp only [he] at h
        split at h
        · cases h
          exact hkeep
        · split_ifs at h
          · cases h
            exact hkeep
          · exact ih h hkeep
    · cases h
      exact hv

/-- Where the function returns, the attempts on each locker have ended, and are on record. -/
theorem killLoop_attempts {fuel : ℕ} {tries : ℤ} {l : Flock}
    (h : a.killLoop fuel (n + 1) k tries l s = some s') (hpid : 0 < l.lPid) :
    ∃ e, a.killLocker k fuel 0 tries = some e ∧ ∃ v ∈ s'.visits, v.attempts = e.attempts := by
  rw [killLoop, if_pos hpid] at h
  cases he : a.killLocker k fuel 0 tries with
  | none =>
    rw [he] at h
    cases h
  | some e =>
    have hlast : _ ∈ (a.afterLocker k l.lPid e s).visits := mem_visits_afterLocker.mpr (.inr rfl)
    simp only [he] at h
    refine ⟨e, rfl, ⟨l.lPid, e.attempts, e.answer = some .esrch⟩, ?_, rfl⟩
    split at h
    · cases h
      exact hlast
    · split_ifs at h
      · cases h
        exact hlast
      · exact killLoop_visits h hlast

theorem killLoop_returned {fuel : ℕ} (htime : ∀ k, a.time k ≠ 0)
    (h : a.killLoop fuel n k (a.triesBefore k) (a.locker l k) s = some s')
    (hattempts : ∀ v ∈ s'.visits, v.attempts ≤ 10) (hpid : 0 < (a.locker l k).lPid)
    (hs : a.Seen l k s) (hlocked : s.unlocked = false) (hfine : ∀ i < k, a.Fine i)
    (hgoes : ∀ i < k, ¬ a.StopsAt i) :
    ∃ m, (∀ i < m, ¬ a.StopsAt i) ∧ (∀ i < m + 1, a.Fine i) ∧ a.Returned l m s' := by
  induction n generalizing k s with
  | zero => cases h
  | succ n ih =>
    obtain ⟨e, he, v, hv, heq⟩ := killLoop_attempts h hpid
    obtain ⟨rfl, hfinek⟩ := killLocker_eq he (heq ▸ hattempts v hv)
    have hfine' : ∀ i < k + 1, a.Fine i := fun i hi => by
      rcases Nat.lt_succ_iff_lt_or_eq.mp hi with hi | rfl
      · exact hfine i hi
      · exact hfinek
    rcases killLoop_succ (n := n) hpid he htime hs hlocked with
      ⟨-, t, ht, hret⟩ | ⟨hnot, hpid', t, ht, hlocked', heq⟩
    · cases ht.symm.trans h
      exact ⟨k, hgoes, hfine', hret⟩
    · refine ih (heq.symm.trans h) hpid' ht hlocked' hfine' fun i hi => ?_
      rcases Nat.lt_succ_iff_lt_or_eq.mp hi with hi | rfl
      · exact hgoes i hi
      · exact hnot

theorem killLoop_returns {fuel : ℕ} (htime : ∀ k, a.time k ≠ 0) (hfuel : 11 ≤ fuel)
    (hstop : a.StopsAt m) (hgoes : ∀ i < m, ¬ a.StopsAt i) (hfine : ∀ i < m + 1, a.Fine i)
    (hkm : k ≤ m) (hn : m - k < n) (hpid : 0 < (a.locker l k).lPid) (hs : a.Seen l k s)
    (hlocked : s.unlocked = false) :
    ∃ s', a.killLoop fuel n k (a.triesBefore k) (a.locker l k) s = some s' ∧
      a.Returned l m s' := by
  induction n generalizing k s with
  | zero => exact absurd hn (Nat.not_lt_zero _)
  | succ n ih =>
    obtain ⟨he, -⟩ := killLocker_lockerEnd (hfine k (by omega)) hfuel
    rcases killLoop_succ (n := n) hpid he htime hs hlocked with
      ⟨hstop', t, ht, hret⟩ | ⟨hnot, hpid', t, ht, hlocked', heq⟩
    · obtain rfl : k = m := by
        by_contra hne
        exact hgoes k (by omega) hstop'
      exact ⟨t, ht, hret⟩
    · have hne : k ≠ m := fun hkm => hnot (hkm ▸ hstop)
      rw [heq]
      exact ih (by omega) (by omega) hpid' ht hlocked'

/-- Which lockers may still have their lock when the function has returned. -/
theorem Returned.exists_mayHold_iff (h : a.Returned l m s) : (∃ pid, s.MayHold pid) ↔
    ¬ a.UnlockedAt m ∧ ∃ k ≤ m, ¬ a.Dies k ∧
      ∀ i ≤ m, k < i → (a.locker l i).lPid ≠ (a.locker l k).lPid := by
  have hvisit : ∀ (k : ℕ) (v : LockerVisit), s.visits[k]? = some v ↔ k ≤ m ∧ a.visitAt l k = v := by
    intro k v
    rw [h.seen.visits, List.getElem?_map]
    simp only [Option.map_eq_some_iff, List.getElem?_eq_some_iff, List.length_range,
      List.getElem_range, Nat.lt_succ_iff]
    constructor
    · rintro ⟨i, ⟨hi, rfl⟩, hv⟩
      exact ⟨hi, hv⟩
    · rintro ⟨hk, hv⟩
      exact ⟨k, ⟨hk, rfl⟩, hv⟩
  have hunlocked : s.unlocked = false ↔ ¬ a.UnlockedAt m := by
    rw [← h.unlocked, Bool.not_eq_true]
  have hdead : ∀ k, (a.visitAt l k).dead = false ↔ ¬ a.Dies k := fun k => by
    rw [← lockerEnd_answer_iff]
    exact decide_eq_false_iff_not
  constructor
  · rintro ⟨pid, hlocked, k, v, hv, rfl, hv', hlast⟩
    obtain ⟨hk, rfl⟩ := (hvisit k v).mp hv
    refine ⟨hunlocked.mp hlocked, k, hk, (hdead k).mp hv', fun i hi hki => ?_⟩
    exact hlast i _ hki ((hvisit i _).mpr ⟨hi, rfl⟩)
  · rintro ⟨hlocked, k, hk, hdies, hlast⟩
    refine ⟨_, hunlocked.mpr hlocked, k, _, (hvisit k _).mpr ⟨hk, rfl⟩, rfl, (hdead k).mpr hdies,
      fun i u hki hu => ?_⟩
    obtain ⟨hi, rfl⟩ := (hvisit i u).mp hu
    exact hlast i hi hki

theorem seen_zero (a : Answers) (l : Flock) : a.Seen l 0 ⟨0, [], false⟩ := ⟨rfl, by simp⟩

theorem fine_iff : (∀ i < m + 1, a.Fine i) ↔
    (∀ k ≤ m, 10 < a.spent k → a.needed k ≤ 10) ∧ a.overrun (m + 1) < 2 ^ 31 := by
  constructor
  · intro h
    refine ⟨fun k hk hgt => (h k (by omega) hgt).1, ?_⟩
    by_cases hgt : 10 < a.spent m
    · exact (h m (Nat.lt_succ_self m) hgt).2
    · rw [overrun_succ, if_neg hgt, overrun_eq_zero (by omega)]
      decide
  · rintro ⟨hneeded, hover⟩ i hi hgt
    exact ⟨hneeded i (by omega) hgt, (a.overrun_mono hi).trans_lt hover⟩

/-- `kill_all_lockers` returns in time, and asks for another restart where a locker may be left with
its lock, exactly under the condition on the answers; if it is given no locker, it does nothing. -/
theorem killsInTime_iff (htime : ∀ k, a.time k ≠ 0) :
    a.KillsInTime l ↔ l.lPid ≤ 0 ∨ ∃ n, a.EndsInTime l n := by
  have htries : a.triesBefore 0 = 10 := rfl
  by_cases hpid : 0 < l.lPid
  · constructor
    · rintro ⟨fuel, s, hrun, hattempts, hrestart⟩
      rw [killAllLockers, ← htries] at hrun
      obtain ⟨m, hgoes, hfine, hret⟩ :=
        killLoop_returned htime hrun hattempts hpid (seen_zero a l) rfl
        (by simp) (by simp)
      obtain ⟨hneeded, hover⟩ := fine_iff.mp hfine
      refine .inr ⟨m, hret.stops, hgoes, hneeded, hover, fun hlocked hleft => ?_⟩
      obtain ⟨i, hi, heq⟩ := hret.seen.restart.mp
        (hrestart (hret.exists_mayHold_iff.mpr ⟨hlocked, hleft⟩))
      exact ⟨i, Nat.le_of_lt_succ hi, heq⟩
    · rintro (hle | ⟨m, h⟩)
      · omega
      · have hfine := fine_iff.mpr ⟨h.needed_le, h.overrun_lt⟩
        have hreturns : ∃ s, a.killLoop (m + 11) (m + 11) 0 10 l ⟨0, [], false⟩ = some s ∧
            a.Returned l m s :=
          killLoop_returns htime (by omega) h.stops h.goesOn hfine (Nat.zero_le m) (by omega) hpid
            (seen_zero a l) rfl
        obtain ⟨s, hrun, hret⟩ := hreturns
        refine ⟨m + 11, s, hrun, fun v hv => ?_, fun hleft => ?_⟩
        · rw [hret.seen.visits] at hv
          obtain ⟨i, hi, rfl⟩ := List.mem_map.mp hv
          exact (killLocker_lockerEnd (hfine i (List.mem_range.mp hi)) le_rfl).2
        · obtain ⟨hlocked, hleft⟩ := hret.exists_mayHold_iff.mp hleft
          obtain ⟨i, hi, heq⟩ := h.restarts hlocked hleft
          exact hret.seen.restart.mpr ⟨i, Nat.lt_succ_of_le hi, heq⟩
  · have hnone : a.killAllLockers 1 l = some ⟨0, [], false⟩ := by
      rw [killAllLockers, killLoop, if_neg hpid]
    refine ⟨fun _ => .inl (by omega), fun _ => ⟨1, _, hnone, by simp, ?_⟩⟩
    rintro ⟨pid, -, k, v, hv, -⟩
    cases hv

/-- Every locker dies at once, and after the second one `fcntl` fails. -/
theorem killsInTime_iff_dying :
    KillsInTime ⟨fun _ _ => .ok, fun _ _ => .esrch,
        fun k => if k = 0 then some ⟨.wrlck, 6⟩ else none, fun _ => 1⟩ ⟨.wrlck, 5⟩ ↔
      (5 : ℤ) ≤ 0 ∨ ∃ n, EndsInTime ⟨fun _ _ => .ok, fun _ _ => .esrch,
        fun k => if k = 0 then some ⟨.wrlck, 6⟩ else none, fun _ => 1⟩ ⟨.wrlck, 5⟩ n :=
  killsInTime_iff fun _ => Nat.one_ne_zero

/-- A locker that is not known to die takes up the tries of the first locker, and any number of
tries after that. -/
theorem killLocker_survivor (h : ∀ j, a.refusal k j = none) {fuel : ℕ} {tries : ℤ} {e : LockerEnd}
    (he : a.killLocker k fuel 0 tries = some e) : 0 ≤ tries ∧ e = ⟨tries.toNat, -1, none⟩ := by
  rcases killLocker_cases he with ⟨t, rfl, -, rfl⟩ | ⟨m, x, -, hx, -⟩
  · simp
  · cases (h _).symm.trans hx

/-- A locker survives `SIGKILL`. When `fcntl` fails after ten attempts, no restart is asked for;
when it goes on to report the locker, the function does not return. -/
theorem killAllLockers_survivor :
    ¬ KillsInTime ⟨fun _ _ => .ok, fun _ _ => .ok, fun _ => none, fun _ => 1⟩ ⟨.wrlck, 5⟩ ∧
      ∀ fuel, killAllLockers ⟨fun _ _ => .ok, fun _ _ => .ok, fun _ => some ⟨.wrlck, 5⟩, fun _ => 1⟩
        fuel ⟨.wrlck, 5⟩ = none := by
  constructor
  · rintro ⟨fuel, s, hrun, -, hrestart⟩
    cases fuel with
    | zero => cases hrun
    | succ n =>
      rw [killAllLockers, killLoop, if_pos (show (0 : ℤ) < 5 by decide)] at hrun
      split at hrun
      · cases hrun
      · next e he =>
        obtain ⟨-, rfl⟩ := killLocker_survivor (fun j => rfl) he
        cases hrun
        refine hrestart ⟨5, rfl, 0, _, rfl, rfl, rfl, fun i u hi hu => ?_⟩ rfl
        obtain ⟨j, rfl⟩ : ∃ j, i = j + 1 := ⟨i - 1, by omega⟩
        cases hu
  · intro fuel
    have hturn : ∀ n k tries s, tries < 0 →
        killLoop ⟨fun _ _ => .ok, fun _ _ => .ok, fun _ => some ⟨.wrlck, 5⟩,
          fun _ => 1⟩ fuel n k tries
          ⟨.wrlck, 5⟩ s = none := by
      intro n k tries s htries
      cases n with
      | zero => rfl
      | succ n =>
        rw [killLoop, if_pos (show (0 : ℤ) < 5 by decide)]
        split
        · rfl
        · next e he =>
          have hpos := (killLocker_survivor (fun j => rfl) he).1
          omega
    rw [killAllLockers]
    generalize hn : fuel = n
    cases n with
    | zero => rfl
    | succ n =>
      rw [killLoop, if_pos (show (0 : ℤ) < 5 by decide)]
      split
      · rfl
      · next e he =>
        obtain ⟨-, rfl⟩ := killLocker_survivor (fun j => rfl) he
        exact hn ▸ hturn n 1 (-1) _ (by decide)

end Answers

end ZendOpcache
