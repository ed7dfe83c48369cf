import Mathlib.Algebra.Ring.Nat
import Mathlib.Data.List.Basic
import Mathlib.Data.UInt
import Mathlib.Tactic.Common

/-! # The shared memory allocator

First fit over the segments of `zend_shared_alloc.c`. A request is rounded up to
the alignment in `size_t`, and the rounded size is then kept in 32 bits, so a
request is served in full exactly when its rounded size fits there.
-/

namespace ZendOpcache

/-- `ZEND_ALIGNED_SIZE` with a `PLATFORM_ALIGNMENT` of 8. -/
def zendAlignedSize (size : UInt64) : UInt64 := (size + 7) &&& ~~~7

structure ZendSharedSegment where
  size : UInt64
  pos : UInt64
  deriving DecidableEq, Repr

/-- A pointer into a segment. -/
structure SharedPtr where
  segment : ℕ
  offset : UInt64
  deriving DecidableEq, Repr

structure ZendSmmSharedGlobals where
  sharedSegments : List ZendSharedSegment
  sharedFree : UInt64
  memoryExhausted : Bool
  deriving DecidableEq, Repr

def minFreeMemory : UInt64 := 64 * 1024

/-- The bytes left in a segment. -/
def ZendSharedSegment.free (seg : ZendSharedSegment) : UInt64 := seg.size - seg.pos

/-- `unsigned int block_size` -/
def blockSize (size : UInt64) : UInt32 := (zendAlignedSize size).toUInt32

namespace ZendSmmSharedGlobals

def zendSharedAllocGetLargestFreeBlock (s : ZendSmmSharedGlobals) : UInt64 :=
  s.sharedSegments.foldl (fun largest seg => if largest < seg.free then seg.free else largest) 0

def sharedAllocFailed (s : ZendSmmSharedGlobals) : ZendSmmSharedGlobals :=
  if s.zendSharedAllocGetLargestFreeBlock < minFreeMemory then { s with memoryExhausted := true }
  else s

def zendSharedAlloc (s : ZendSmmSharedGlobals) (size : UInt64) :
    ZendSmmSharedGlobals × Option SharedPtr :=
  let block := (blockSize size).toUInt64
  if s.sharedFree < block then (s.sharedAllocFailed, none)
  else
    match s.sharedSegments.findIdx? fun seg => block ≤ seg.free with
    | none => (s.sharedAllocFailed, none)
    | some i =>
      match s.sharedSegments[i]? with
      | none => (s.sharedAllocFailed, none)
      | some seg =>
        ({ s with
            sharedSegments := s.sharedSegments.set i { seg with pos := seg.pos + block }
            sharedFree := s.sharedFree - block },
          some ⟨i, seg.pos⟩)

end ZendSmmSharedGlobals

section Rounding

theorem and_mask_eq {n : ℕ} (h : n < 2 ^ 64) : n &&& (2 ^ 64 - 8) = n / 8 * 8 := by
  have hl : (2 ^ 64 - 8 : ℕ) = (2 ^ 61 - 1) <<< 3 := by decide
  have hr : n / 8 * 8 = (n >>> 3) <<< 3 := by
    rw [Nat.shiftRight_eq_div_pow, Nat.shiftLeft_eq]
  rw [hl, hr]
  apply Nat.eq_of_testBit_eq
  intro i
  rw [Nat.testBit_and, Nat.testBit_shiftLeft, Nat.testBit_two_pow_sub_one,
    Nat.testBit_shiftLeft, Nat.testBit_shiftRight]
  by_cases hi : 3 ≤ i
  · rcases Nat.lt_or_ge i 64 with hi' | hi'
    · simp [hi, show i - 3 < 61 by omega]
    · have hn : n.testBit i = false :=
        Nat.testBit_lt_two_pow (Nat.lt_of_lt_of_le h (Nat.pow_le_pow_right (by decide) hi'))
      simp [hn, hi]
  · simp [hi]

theorem toNat_zendAlignedSize (size : UInt64) :
    (zendAlignedSize size).toNat = (size.toNat + 7) % 2 ^ 64 / 8 * 8 := by
  have hm : (~~~7 : UInt64).toNat = 2 ^ 64 - 8 := by decide
  rw [zendAlignedSize, UInt64.toNat_and, hm, UInt64.toNat_add]
  exact and_mask_eq (Nat.mod_lt _ (by decide))

theorem toNat_blockSize (size : UInt64) :
    (blockSize size).toUInt64.toNat = (size.toNat + 7) % 2 ^ 64 / 8 * 8 % 2 ^ 32 := by
  rw [blockSize, UInt32.toNat_toUInt64, UInt64.toNat_toUInt32, toNat_zendAlignedSize]

/-- The rounded size reaches the request exactly when it fits 32 bits. -/
theorem le_blockSize_iff (size : UInt64) :
    size.toNat ≤ (blockSize size).toUInt64.toNat ↔ size.toNat ≤ 2 ^ 32 - 8 := by
  have := size.toNat_lt
  rw [toNat_blockSize]
  omega

end Rounding

namespace ZendSmmSharedGlobals

variable {s t : ZendSmmSharedGlobals} {size : UInt64} {r : SharedPtr} {i : ℕ}
  {seg : ZendSharedSegment}

/-- The segment the search takes: the first with enough bytes left, if all segments together have
enough. -/
structure Takes (s : ZendSmmSharedGlobals) (size : UInt64) (i : ℕ) (seg : ZendSharedSegment) :
    Prop where
  total : (blockSize size).toUInt64 ≤ s.sharedFree
  segment : s.sharedSegments[i]? = some seg
  fits : (blockSize size).toUInt64 ≤ seg.free
  first : ∀ j seg', j < i → s.sharedSegments[j]? = some seg' →
    ¬ (blockSize size).toUInt64 ≤ seg'.free

/-- The pointer is the old position of its segment, which advanced by the request at least, and
the requested bytes from there lie inside the segment. -/
def Delivers (s t : ZendSmmSharedGlobals) (r : SharedPtr) (size : UInt64) : Prop :=
  ∃ seg seg', s.sharedSegments[r.segment]? = some seg ∧ t.sharedSegments[r.segment]? = some seg' ∧
    seg.pos.toNat + size.toNat ≤ seg'.pos.toNat ∧ seg.pos ≤ r.offset ∧
    r.offset.toNat + size.toNat ≤ seg.size.toNat

/-- What a successful call does. -/
theorem zendSharedAlloc_eq_some_iff : s.zendSharedAlloc size = (t, some r) ↔
    ∃ seg, s.Takes size r.segment seg ∧ r.offset = seg.pos ∧
      t = { s with
        sharedSegments := s.sharedSegments.set r.segment
          { seg with pos := seg.pos + (blockSize size).toUInt64 }
        sharedFree := s.sharedFree - (blockSize size).toUInt64 } := by
  unfold zendSharedAlloc
  constructor
  · intro h
    by_cases hf : s.sharedFree < (blockSize size).toUInt64
    · simp [hf] at h
    · simp only [if_neg hf] at h
      cases hi : s.sharedSegments.findIdx? fun seg => (blockSize size).toUInt64 ≤ seg.free with
      | none => simp [hi] at h
      | some i =>
        obtain ⟨hlt, hfit, hfirst⟩ := List.findIdx?_eq_some_iff_getElem.mp hi
        have hseg : s.sharedSegments[i]? = some s.sharedSegments[i] := List.getElem?_eq_getElem hlt
        simp only [hi, hseg, Prod.mk.injEq, Option.some.injEq] at h
        obtain ⟨rfl, rfl⟩ := h
        refine ⟨_, ⟨UInt64.not_lt.mp hf, hseg, by simpa using hfit, fun j seg' hj hs => ?_⟩, rfl,
          rfl⟩
        obtain ⟨hj', rfl⟩ := List.getElem?_eq_some_iff.mp hs
        simpa using hfirst j hj
  · rintro ⟨seg, ht, hr, rfl⟩
    have hi : s.sharedSegments.findIdx? (fun seg => (blockSize size).toUInt64 ≤ seg.free) =
        some r.segment := by
      obtain ⟨hlt, hget⟩ := List.getElem?_eq_some_iff.mp ht.segment
      refine List.findIdx?_eq_some_iff_getElem.mpr ⟨hlt, by simpa [hget] using ht.fits, ?_⟩
      intro j hj
      simpa using ht.first j _ hj (List.getElem?_eq_getElem (Nat.lt_trans hj hlt))
    simp only [if_neg (UInt64.not_lt.mpr ht.total), hi, ht.segment, ← hr]

/-- A served request is served in full exactly when its rounded size fits 32 bits and the position
of the segment taken is not beyond its end. -/
theorem Takes.delivers_iff (h : s.Takes size i seg) :
    s.Delivers { s with
      sharedSegments := s.sharedSegments.set i
        { seg with pos := seg.pos + (blockSize size).toUInt64 }
      sharedFree := s.sharedFree - (blockSize size).toUInt64 } ⟨i, seg.pos⟩ size ↔
    size.toNat ≤ 2 ^ 32 - 8 ∧ seg.pos ≤ seg.size := by
  have hset : (s.sharedSegments.set i
      { seg with pos := seg.pos + (blockSize size).toUInt64 })[i]? =
        some { seg with pos := seg.pos + (blockSize size).toUInt64 } := by
    rw [List.getElem?_set_self (List.getElem?_eq_some_iff.mp h.segment).1]
  have hfits := UInt64.le_iff_toNat_le.mp h.fits
  have hsz := seg.size.toNat_lt
  rw [ZendSharedSegment.free, UInt64.toNat_sub] at hfits
  rw [← le_blockSize_iff, UInt64.le_iff_toNat_le]
  constructor
  · rintro ⟨seg₁, seg₂, h₁, h₂, hadv, -, hin⟩
    obtain rfl := Option.some.inj (h.segment.symm.trans h₁)
    obtain rfl := Option.some.inj (hset.symm.trans h₂)
    simp only [UInt64.toNat_add] at hadv
    have hin' : seg.pos.toNat + size.toNat ≤ seg.size.toNat := hin
    omega
  · rintro ⟨hsize, hpos⟩
    refine ⟨seg, _, h.segment, hset, ?_, UInt64.le_refl _, ?_⟩
    · simp only [UInt64.toNat_add]
      omega
    · change seg.pos.toNat + size.toNat ≤ seg.size.toNat
      omega

/-- Every pointer a call returns is good for the whole request if and only if the rounded request
fits 32 bits and the segment taken has its position inside, whenever one is taken. -/
theorem zendSharedAlloc_delivers_iff (s : ZendSmmSharedGlobals) (size : UInt64) :
    (∀ t r, s.zendSharedAlloc size = (t, some r) → s.Delivers t r size) ↔
      ∀ i seg, s.Takes size i seg → size.toNat ≤ 2 ^ 32 - 8 ∧ seg.pos ≤ seg.size := by
  constructor
  · intro h i seg ht
    exact ht.delivers_iff.mp
      (h _ ⟨i, seg.pos⟩ (zendSharedAlloc_eq_some_iff.mpr ⟨seg, ht, rfl, rfl⟩))
  · rintro h t ⟨i, offset⟩ ha
    obtain ⟨seg, ht, rfl, rfl⟩ := zendSharedAlloc_eq_some_iff.mp ha
    exact ht.delivers_iff.mpr (h i seg ht)

/-- A request of 4 GiB, as an interned strings buffer of 4096 megabytes makes it, is answered with
a pointer, and nothing is taken. -/
theorem zendSharedAlloc_four_gib :
    let s : ZendSmmSharedGlobals := ⟨[⟨2 ^ 33, 4096⟩], 2 ^ 33 - 4096, false⟩
    s.zendSharedAlloc (4096 * 1024 * 1024) = (s, some ⟨0, 4096⟩) ∧
      ¬ s.Delivers s ⟨0, 4096⟩ (4096 * 1024 * 1024) := by
  refine ⟨by decide, ?_⟩
  rintro ⟨seg, seg', h, h', hadv, -⟩
  obtain rfl := Option.some.inj h
  obtain rfl := Option.some.inj h'
  exact absurd hadv (by decide)

end ZendSmmSharedGlobals

end ZendOpcache
