import ZendOpcache.Interned.Runs

/-! # The number of strings

Insertion counts a string and puts it on the list. A restart shortens the list and leaves the
count, which then has the strings too that were taken off the list.
-/

namespace ZendOpcache

namespace Interned

open Neighbours InternedStrings

/-- The buckets on the list, from a pointer on. -/
def followList (buffer : ℕ → Option Bucket) : ℕ → Option ℕ → Option (List ℕ)
  | 0, _ => none
  | _ + 1, none => some []
  | n + 1, some p =>
    match buffer p with
    | none => none
    | some b => (followList buffer n b.pListNext).map (p :: ·)

/-- The list from its head. -/
def InternedStrings.listBuckets (s : InternedStrings) : Option (List ℕ) :=
  followList s.buffer (s.finish + 1) s.pListHead

theorem firstAbove_inList (i n : ℕ) :
    firstAbove inList i n = if i + 1 < n then some (i + 1) else none := by
  induction n with
  | zero => rfl
  | succ n ih =>
    rw [firstAbove, ih]
    rcases Nat.lt_trichotomy (i + 1) n with hlt | rfl | hgt
    · simp [hlt, Nat.lt_succ_of_lt hlt]
    · simp [inList]
    · have : ¬ i + 1 < n + 1 := by omega
      simp [inList, Nat.not_lt.mpr hgt.le, show ¬ i < n by omega]

theorem countP_range_le (m n : ℕ) : (List.range n).countP (m ≤ ·) = n - m := by
  induction n with
  | zero => exact (Nat.zero_sub m).symm
  | succ n ih =>
    rw [List.range_succ, List.countP_append, ih, List.countP_singleton]
    rcases Nat.lt_or_ge n m with hlt | hge
    · simp only [Nat.not_le.mpr hlt, decide_false, Bool.false_eq_true, if_false]
      omega
    · simp only [hge, decide_true, if_true]
      omega

variable [ZendInlineHash (List UInt8)] {s t u : InternedStrings} {keys : List (List UInt8)}
  {kept : Option (List (List UInt8))} {op : Op} {w : List Op} {start megabytes : ℕ}

/-- The walk from the bucket with an index. -/
theorem Represents.followList_eq (h : Represents s keys) (fuel i : ℕ)
    (hfuel : keys.length - i < fuel) :
    followList s.buffer fuel
        (if i < keys.length then some (addr s.start keys i) else none) =
      some ((List.range' i (keys.length - i)).map (addr s.start keys)) := by
  induction fuel generalizing i with
  | zero => omega
  | succ fuel ih =>
    by_cases hi : i < keys.length
    · have hlink : (bucketAt s.start s.nTableSize keys i keys[i]).pListNext =
          if i + 1 < keys.length then some (addr s.start keys (i + 1)) else none := by
        simp only [bucketAt, firstAbove_inList]
        split_ifs <;> rfl
      rw [if_pos hi, followList, h.bucket (List.getElem?_eq_getElem hi)]
      dsimp only
      rw [hlink, ih (i + 1) (by omega), show keys.length - i = keys.length - (i + 1) + 1 by omega]
      rfl
    · rw [if_neg hi, Nat.sub_eq_zero_of_le (Nat.not_lt.mp hi)]
      rfl

/-- The list leads through the buckets of all strings. -/
theorem Represents.listBuckets_eq (h : Represents s keys) :
    s.listBuckets = some ((List.range keys.length).map (addr s.start keys)) := by
  rw [List.range_eq_range', ← Nat.sub_zero keys.length, ← h.followList_eq _ 0 h.length_lt,
    InternedStrings.listBuckets, h.listHead]
  cases keys <;> simp

/-- The strings that a restart takes off the list, those behind the saved top -/
def discards (s : InternedStrings) (op : Op) : ℕ :=
  match op, s.saved, s.listBuckets with
  | .restore, some saved, some l => l.countP (saved.top ≤ ·)
  | _, _, _ => 0

/-- The strings that the restarts of a run take off the list -/
def discarded : InternedStrings → List Op → ℕ := runSum InternedStrings.step discards

/-- A restart takes off the strings that were interned since the save. -/
theorem Holds.discards_restore (h : Holds s keys kept) {k : List (List UInt8)}
    (hk : kept = some k) : discards s .restore = keys.length - k.length := by
  obtain ⟨more, rfl⟩ := h.isPrefix k hk
  have hsaved : s.saved = some (rootsOf s.start s.nTableSize k) := h.saved.trans (by rw [hk]; rfl)
  have htop : (rootsOf s.start s.nTableSize k).top = addr s.start (k ++ more) k.length :=
    (addr_append le_rfl more).symm
  simp only [discards, hsaved, h.represents.listBuckets_eq, List.countP_map]
  rw [← countP_range_le]
  refine List.countP_congr fun i hi => ?_
  have hi := List.mem_range.mp hi
  rw [Function.comp_apply, htop, decide_eq_true_iff, decide_eq_true_iff]
  constructor
  · intro hle
    by_contra hlt
    exact absurd (addr_lt_addr (Nat.not_le.mp hlt) (by simp)) (Nat.not_lt.mpr hle)
  · exact fun hle => addr_le_addr hle hi.le

/-- The count is a `uint`, and no restart lowers it. -/
def Counted (init : InternedStrings) (w : List Op) (s : InternedStrings)
    (keys : List (List UInt8)) : Prop :=
  s.nNumOfElements.toNat = (keys.length + discarded init w) % 2 ^ 32

/-- One step: a string more is counted, and strings fewer are not. -/
theorem Counted.step {init : InternedStrings} (hc : Counted init w s keys) (h : Holds s keys kept)
    (hr : Run Step init w s) (hs : Step s op t) :
    ∃ keys' kept', Holds t keys' kept' ∧ Counted init (w ++ [op]) t keys' := by
  have hsnoc : discarded init (w ++ [op]) = discarded init w + discards s op := runSum_snoc hr
  unfold Counted at hc ⊢
  rw [hsnoc]
  obtain ⟨-, he⟩ := h.step hs
  cases he with
  | same a key heq => exact ⟨keys, kept, heq ▸ h, heq ▸ hc⟩
  | added a key ht hcount =>
    refine ⟨_, _, ht, ?_⟩
    have hone : discards s (.intern a key) = 0 := rfl
    rw [hcount, UInt32.toNat_add, hc, hone, List.length_append, List.length_singleton]
    simp only [UInt32.reduceToNat]
    omega
  | saved ht heq => exact ⟨_, _, ht, heq ▸ hc⟩
  | restored k hk ht hcount =>
    refine ⟨_, _, ht, ?_⟩
    have hle := (h.isPrefix k hk).length_le
    rw [hcount, hc, h.discards_restore hk]
    congr 1
    omega

theorem counted_of_run [ZendHashInit] (h : Run Step (.init start megabytes) w s) :
    ∃ keys kept, Holds s keys kept ∧ Counted (.init start megabytes) w s keys := by
  induction h with
  | nil => exact ⟨[], none, holds_init start megabytes, rfl⟩
  | snoc hr _ hs ih =>
    obtain ⟨keys, kept, h, hc⟩ := ih
    exact hc.step h hr hs

/-- The count is the number of buckets on the list if and only if that number fits into a `uint` and
the restarts of the run took off no strings, or 2^32 of them or a multiple of it. Then the buckets
that are counted fit into the used part of the buffer. -/
theorem nNumOfElements_iff [ZendHashInit] (h : Run Step (.init start megabytes) w s) :
    ∃ l, s.listBuckets = some l ∧
      (s.nNumOfElements.toNat = l.length ↔
        l.length < 2 ^ 32 ∧ 2 ^ 32 ∣ discarded (.init start megabytes) w) ∧
      (s.nNumOfElements.toNat = l.length →
        s.nNumOfElements.toNat * sizeofBucket ≤ s.top - s.start) := by
  obtain ⟨keys, kept, hs, hc⟩ := counted_of_run h
  refine ⟨_, hs.represents.listBuckets_eq, ?_, fun heq => ?_⟩
  · rw [List.length_map, List.length_range, show s.nNumOfElements.toNat = _ from hc]
    omega
  · have hsize := addr_length_ge s.start keys
    rw [← hs.represents.top] at hsize
    rw [heq, List.length_map, List.length_range]
    omega

end Interned

namespace Interned

open InternedStrings

section

local instance : ZendInlineHash (List UInt8) := djbx33a
local instance : ZendHashInit := powerOfTwo

/-- One string, and no restart. -/
theorem nNumOfElements_iff_one :
    ∃ s l, Run Step (.init 0 1) [.intern 8 [97, 0]] s ∧ s.listBuckets = some l ∧
      s.nNumOfElements.toNat = l.length := by
  obtain ⟨s, _, hs, -⟩ := (holds_init 0 1).represents.accelNewInternedString_result 8 [97, 0]
  have hstep : Step (.init 0 1) (.intern 8 [97, 0]) s := by
    rw [Step, InternedStrings.step, hs]
    rfl
  have hrun : Run Step (.init 0 1) [.intern 8 [97, 0]] s := .single trivial hstep
  obtain ⟨l, hl, hiff, -⟩ := nNumOfElements_iff hrun
  obtain ⟨keys, kept, h⟩ := holds_of_run hrun
  refine ⟨s, l, hrun, hl, hiff.mpr ⟨?_, ?_⟩⟩
  · have hlen := h.represents.length_lt
    have hfinish : s.finish = 1048576 := ((holds_init 0 1).step hstep).1.finish
    obtain rfl := Option.some.inj (h.represents.listBuckets_eq.symm.trans hl)
    rw [List.length_map, List.length_range]
    omega
  · have hnone : discarded (.init 0 1) [.intern 8 [97, 0]] = 0 := runSum_snoc (w := []) .nil
    exact hnone ▸ Nat.dvd_zero _

/-- After a restart that takes the only string away it is still counted. -/
theorem nNumOfElements_restart :
    ∃ s, Run Step (.init 0 1) [.save, .intern 8 [97, 0], .restore] s ∧ s.listBuckets = some [] ∧
      s.top = s.start ∧ s.nNumOfElements = 1 := by
  have hsave : Holds (InternedStrings.init 0 1).accelInternedStringsSaveState [] (some []) := by
    have hstep : Step (.init 0 1) .save (InternedStrings.init 0 1).accelInternedStringsSaveState :=
      rfl
    cases ((holds_init 0 1).step hstep).2 with
    | saved h => exact h
  have hkey : [97, 0] ∉ ([] : List (List UInt8)) := by simp
  have hfits := hsave.represents.accelNewInternedString_of_fits (a := 8) hkey (by decide)
  have hintern : Step (InternedStrings.init 0 1).accelInternedStringsSaveState
      (.intern 8 [97, 0]) _ :=
    congrArg (Option.map Prod.fst) hfits
  have hrep := hsave.represents.createBucket hkey (by decide)
  obtain ⟨r, hr, hempty, -, -, -, -, hcount⟩ := hrep.restore rfl
  refine ⟨r, ?_, hempty.listBuckets_eq, ?_, hcount⟩
  · exact .cons trivial rfl (.cons trivial hintern (.single trivial hr))
  · rw [hempty.top]
    exact addr_zero

end

end Interned

end ZendOpcache
