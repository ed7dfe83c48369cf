import Mathlib.Algebra.Order.BigOperators.Group.List
import Mathlib.Algebra.Order.Ring.Nat
import ZendOpcache.Memory.CreateSegments
import ZendOpcache.Transition.Run

/-! # Runs of the allocator

Over every run of allocations, saves and restarts the free bytes are those of the
segments together, so the early test of `zend_shared_alloc` never hides a segment with room, and
the blocks that are in use do not overlap.
-/

namespace ZendOpcache

namespace ZendSmmSharedGlobals

/-- The counters of the allocator agree. -/
structure Sound (s : ZendSmmSharedGlobals) : Prop where
  sharedFree : s.sharedFree.toNat =
    (s.sharedSegments.map fun seg => seg.size.toNat - seg.pos.toNat).sum
  pos_le : ∀ seg ∈ s.sharedSegments, seg.pos ≤ seg.size
  aligned : ∀ seg ∈ s.sharedSegments, 8 ∣ seg.pos.toNat

end ZendSmmSharedGlobals

/-- The allocator with the state that was saved last, and the blocks with their rounded sizes that
were handed out since the last restart. -/
structure SharedPool where
  globals : ZendSmmSharedGlobals
  saved : Option ZendSharedMemoryState
  blocks : List (SharedPtr × UInt64)

inductive SharedPoolCall where
  | alloc (size : UInt64)
  | saveState
  | restoreState

/-- Two blocks have no byte in common. -/
def BlocksDisjoint (x y : SharedPtr × UInt64) : Prop :=
  x.1.segment ≠ y.1.segment ∨ x.1.offset.toNat + x.2.toNat ≤ y.1.offset.toNat ∨
    y.1.offset.toNat + y.2.toNat ≤ x.1.offset.toNat

namespace SharedPool

/-- The pool before the first call; the flag is not initialized yet. -/
def startup (requested : UInt64) (segs : List ZendSharedSegment) (exhausted : Bool) : SharedPool :=
  ⟨⟨segs, requested, exhausted⟩, none, []⟩

/-- A call. Only what has been saved can be restored. -/
def step (p : SharedPool) : SharedPoolCall → Option SharedPool
  | .alloc size =>
    let (globals, r) := p.globals.zendSharedAlloc size
    let taken := r.toList.map fun r => (r, (blockSize size).toUInt64)
    some { p with globals := globals, blocks := taken ++ p.blocks }
  | .saveState => some { p with saved := some p.globals.zendSharedAllocSaveState }
  | .restoreState => p.saved.map fun saved =>
    { p with globals := p.globals.zendSharedAllocRestoreState saved, blocks := [] }

/-- The sizes and positions that the counters have room for. -/
def InRange (p : SharedPool) : SharedPoolCall → Prop
  | .alloc size => size.toNat < 2 ^ 32 - 8
  | .saveState => ∀ seg ∈ p.globals.sharedSegments, seg.pos.toNat < 2 ^ 31
  | .restoreState => True

/-- What every run keeps. -/
structure Inv (p : SharedPool) : Prop where
  sound : p.globals.Sound
  saved : ∀ m, p.saved = some m → ∃ s : ZendSmmSharedGlobals, s.Sound ∧
    s.sizes = p.globals.sizes ∧ m = s.zendSharedAllocSaveState ∧
    ∀ seg ∈ s.sharedSegments, seg.pos.toNat < 2 ^ 31
  below : ∀ x ∈ p.blocks, ∃ seg, p.globals.sharedSegments[x.1.segment]? = some seg ∧
    x.1.offset.toNat + x.2.toNat ≤ seg.pos.toNat
  disjoint : p.blocks.Pairwise BlocksDisjoint

end SharedPool

namespace ZendSmmSharedGlobals

variable {s t : ZendSmmSharedGlobals} {size : UInt64} {seg : ZendSharedSegment} {i : ℕ}

theorem sum_map_set {α : Type*} (f : α → ℕ) : ∀ (l : List α) (i : ℕ) (x y : α), l[i]? = some x →
    ((l.set i y).map f).sum + f x = (l.map f).sum + f y
  | [], i, _, _, h => by simp at h
  | a :: l, 0, x, y, h => by
    obtain rfl : a = x := by simpa using h
    simp only [List.set_cons_zero, List.map_cons, List.sum_cons]
    omega
  | a :: l, i + 1, x, y, h => by
    have := sum_map_set f l i x y (by simpa using h)
    simp only [List.set_cons_succ, List.map_cons, List.sum_cons]
    omega

theorem toNat_free (h : seg.pos ≤ seg.size) : seg.free.toNat = seg.size.toNat - seg.pos.toNat :=
  UInt64.toNat_sub_of_le _ _ h

theorem dvd_blockSize (size : UInt64) : 8 ∣ (blockSize size).toUInt64.toNat := by
  rw [toNat_blockSize]
  omega

/-- Sizes with room for the alignment are rounded without overflow. -/
theorem blockSize_eq (h : size.toNat < 2 ^ 32 - 8) :
    (blockSize size).toUInt64.toNat = (zendAlignedSize size).toNat := by
  rw [toNat_blockSize, toNat_zendAlignedSize]
  omega

/-- No segment has more bytes left than all of them together. -/
theorem Sound.free_le (h : s.Sound) (hseg : seg ∈ s.sharedSegments) : seg.free ≤ s.sharedFree := by
  rw [UInt64.le_iff_toNat_le, toNat_free (h.pos_le seg hseg), h.sharedFree]
  exact List.single_le_sum (fun _ _ => Nat.zero_le _) _ (List.mem_map.mpr ⟨seg, hseg, rfl⟩)

/-- The early test hides no segment. -/
theorem Sound.zendSharedAlloc_eq_none_iff (h : s.Sound) : (s.zendSharedAlloc size).2 = none ↔
    ∀ seg ∈ s.sharedSegments, seg.free < (blockSize size).toUInt64 := by
  constructor
  · intro hnone seg hseg
    unfold zendSharedAlloc at hnone
    dsimp only at hnone
    split at hnone
    · exact UInt64.lt_of_le_of_lt (h.free_le hseg) ‹_›
    · split at hnone
      · rename_i hidx
        have := List.findIdx?_eq_none_iff.mp hidx seg hseg
        simpa using this
      · rename_i i hidx
        obtain ⟨hlt, -⟩ := List.findIdx?_eq_some_iff_getElem.mp hidx
        simp [List.getElem?_eq_getElem hlt] at hnone
  · intro hall
    cases hr : (s.zendSharedAlloc size).2 with
    | none => rfl
    | some r =>
      obtain ⟨seg, ht, -⟩ := zendSharedAlloc_eq_some_iff.mp (Prod.ext rfl hr)
      have := hall seg (List.mem_of_getElem? ht.segment)
      exact absurd ht.fits (UInt64.not_le.mpr this)

theorem foldl_largest_lt_iff {m : UInt64} : ∀ (l : List ZendSharedSegment) (largest : UInt64),
    l.foldl (fun largest seg => if largest < seg.free then seg.free else largest) largest < m ↔
      largest < m ∧ ∀ seg ∈ l, seg.free < m
  | [], largest => by simp
  | seg :: l, largest => by
    rw [List.foldl_cons, foldl_largest_lt_iff l, List.forall_mem_cons]
    simp only [UInt64.lt_iff_toNat_lt]
    split_ifs <;> grind

theorem memoryExhausted_sharedAllocFailed : s.sharedAllocFailed.memoryExhausted = true ↔
    s.memoryExhausted = true ∨ ∀ seg ∈ s.sharedSegments, seg.free < minFreeMemory := by
  have hlargest : s.zendSharedAllocGetLargestFreeBlock < minFreeMemory ↔
      ∀ seg ∈ s.sharedSegments, seg.free < minFreeMemory := by
    rw [zendSharedAllocGetLargestFreeBlock, foldl_largest_lt_iff]
    simp [show (0 : UInt64) < minFreeMemory by decide]
  unfold sharedAllocFailed
  split_ifs with h
  · exact iff_of_true rfl (.inr (hlargest.mp h))
  · simp [← hlargest, h]

/-- A block that is handed out moves one position. -/
theorem Sound.takes (h : s.Sound) (ht : s.Takes size i seg) :
    Sound { s with
      sharedSegments := s.sharedSegments.set i
        { seg with pos := seg.pos + (blockSize size).toUInt64 }
      sharedFree := s.sharedFree - (blockSize size).toUInt64 } := by
  have hmem := List.mem_of_getElem? ht.segment
  have hpos := UInt64.le_iff_toNat_le.mp (h.pos_le seg hmem)
  have hfits := UInt64.le_iff_toNat_le.mp ht.fits
  rw [toNat_free (h.pos_le seg hmem)] at hfits
  have hsize := seg.size.toNat_lt
  have hpos' : (seg.pos + (blockSize size).toUInt64).toNat =
      seg.pos.toNat + (blockSize size).toUInt64.toNat := by
    rw [UInt64.toNat_add]
    omega
  constructor
  · have hsum := sum_map_set (fun seg => seg.size.toNat - seg.pos.toNat) _ i seg
      { seg with pos := seg.pos + (blockSize size).toUInt64 } ht.segment
    have hfree := h.sharedFree
    have htotal := UInt64.le_iff_toNat_le.mp ht.total
    simp only [hpos'] at hsum
    change (s.sharedFree - (blockSize size).toUInt64).toNat = ((s.sharedSegments.set i _).map _).sum
    rw [UInt64.toNat_sub_of_le _ _ ht.total]
    omega
  · intro seg' hseg'
    rcases List.mem_or_eq_of_mem_set hseg' with hseg' | rfl
    · exact h.pos_le seg' hseg'
    · rw [UInt64.le_iff_toNat_le]
      change (seg.pos + (blockSize size).toUInt64).toNat ≤ seg.size.toNat
      omega
  · intro seg' hseg'
    rcases List.mem_or_eq_of_mem_set hseg' with hseg' | rfl
    · exact h.aligned seg' hseg'
    · rw [hpos']
      exact Nat.dvd_add (h.aligned seg hmem) (dvd_blockSize size)

theorem Sound.zendSharedAlloc (h : s.Sound) (size : UInt64) : (s.zendSharedAlloc size).1.Sound := by
  obtain ⟨⟨t, r⟩, hr⟩ : ∃ x, s.zendSharedAlloc size = x := ⟨_, rfl⟩
  rw [hr]
  cases r with
  | none =>
    rw [zendSharedAlloc_eq_none hr, sharedAllocFailed_eq]
    exact ⟨h.sharedFree, h.pos_le, h.aligned⟩
  | some r =>
    obtain ⟨seg, ht, -, rfl⟩ := zendSharedAlloc_eq_some_iff.mp hr
    exact h.takes ht

/-- A block is taken from the position of its segment up to the new one; no position goes back. -/
theorem Sound.zendSharedAlloc_spec (h : s.Sound) (ha : s.zendSharedAlloc size = (t, some r)) :
    (∃ seg seg' : ZendSharedSegment, s.sharedSegments[r.segment]? = some seg ∧
      t.sharedSegments[r.segment]? = some seg' ∧
      r.offset = seg.pos ∧
      seg'.pos.toNat = seg.pos.toNat + (blockSize size).toUInt64.toNat) ∧
    ∀ (i : ℕ) (seg : ZendSharedSegment), s.sharedSegments[i]? = some seg →
      ∃ seg' : ZendSharedSegment, t.sharedSegments[i]? = some seg' ∧
        seg.pos.toNat ≤ seg'.pos.toNat := by
  obtain ⟨seg, ht, hoff, rfl⟩ := zendSharedAlloc_eq_some_iff.mp ha
  have hmem := List.mem_of_getElem? ht.segment
  have hlt := (List.getElem?_eq_some_iff.mp ht.segment).1
  have hpos : (seg.pos + (blockSize size).toUInt64).toNat =
      seg.pos.toNat + (blockSize size).toUInt64.toNat := by
    have hfits := UInt64.le_iff_toNat_le.mp ht.fits
    have hle := UInt64.le_iff_toNat_le.mp (h.pos_le seg hmem)
    have hsize := seg.size.toNat_lt
    rw [toNat_free (h.pos_le seg hmem)] at hfits
    rw [UInt64.toNat_add]
    omega
  have hself := List.getElem?_set_self
      (a := { seg with pos := seg.pos + (blockSize size).toUInt64 })
    hlt
  refine ⟨⟨seg, _, ht.segment, hself, hoff, hpos⟩, fun i seg' hseg' => ?_⟩
  by_cases hi : r.segment = i
  · subst hi
    obtain rfl : seg' = seg := Option.some.inj (hseg'.symm.trans ht.segment)
    refine ⟨_, hself, ?_⟩
    change _ ≤ (seg'.pos + (blockSize size).toUInt64).toNat
    omega
  · refine ⟨seg', ?_, le_rfl⟩
    change (s.sharedSegments.set r.segment _)[i]? = _
    rwa [List.getElem?_set_ne hi]

/-- A call that fails leaves the segments. -/
theorem sharedSegments_of_none (ha : s.zendSharedAlloc size = (t, none)) :
    t.sharedSegments = s.sharedSegments := by
  rw [zendSharedAlloc_eq_none ha, sharedAllocFailed_eq]

end ZendSmmSharedGlobals

namespace SharedPool

open ZendSmmSharedGlobals

variable {p q : SharedPool} {requested : UInt64} {segs : List ZendSharedSegment} {exhausted : Bool}

theorem inv_startup (h : CreatesSegments requested segs) (hpos : 1 ≤ requested.toNat)
    (hmax : requested.toNat ≤ memoryConsumptionMax) : (startup requested segs exhausted).Inv := by
  obtain ⟨hzero, hsum⟩ := h.spec hpos hmax
  refine ⟨⟨?_, fun seg hseg => ?_, fun seg hseg => ?_⟩, by simp [startup], by simp [startup],
    by simp [startup]⟩
  · change requested.toNat = _
    rw [← hsum]
    refine congrArg List.sum (List.map_congr_left fun seg hseg => ?_)
    rw [hzero seg hseg]
    rfl
  · rw [hzero seg hseg]
    exact UInt64.zero_le
  · rw [hzero seg hseg]
    exact ⟨0, rfl⟩

/-- Blocks below the old position are disjoint from the one that is handed out there. -/
theorem Inv.alloc (h : p.Inv) (size : UInt64) (hq : p.step (.alloc size) = some q) : q.Inv := by
  obtain ⟨⟨t, r⟩, hr⟩ : ∃ x, p.globals.zendSharedAlloc size = x := ⟨_, rfl⟩
  have hsound := h.sound.zendSharedAlloc size
  have hsizes := sizes_zendSharedAlloc p.globals size
  simp only [step, hr] at hq hsound hsizes
  obtain rfl := Option.some.inj hq
  have hsaved : ∀ m, p.saved = some m → ∃ s : ZendSmmSharedGlobals, s.Sound ∧
      s.sizes = t.sizes ∧ m = s.zendSharedAllocSaveState ∧
      ∀ seg ∈ s.sharedSegments, seg.pos.toNat < 2 ^ 31 := by
    rw [hsizes]
    exact h.saved
  cases r with
  | none =>
    have hsegs : t.sharedSegments = p.globals.sharedSegments := by
      rw [zendSharedAlloc_eq_none hr, sharedAllocFailed_eq]
    exact ⟨hsound, hsaved, fun x hx => hsegs ▸ h.below x hx, h.disjoint⟩
  | some r =>
    obtain ⟨⟨seg, seg', hseg, hself, hoff, hpos⟩, hmono⟩ := h.sound.zendSharedAlloc_spec hr
    refine ⟨hsound, hsaved, fun x hx => ?_, List.pairwise_cons.mpr ⟨fun x hx => ?_, h.disjoint⟩⟩
    · rcases List.mem_cons.mp hx with rfl | hx
      · exact ⟨seg', hself, by rw [hpos, hoff]⟩
      · obtain ⟨seg₁, hseg₁, hle⟩ := h.below x hx
        obtain ⟨seg₂, hseg₂, hle₂⟩ := hmono _ _ hseg₁
        exact ⟨seg₂, hseg₂, hle.trans hle₂⟩
    · obtain ⟨seg₁, hseg₁, hle⟩ := h.below x hx
      by_cases hs : r.segment = x.1.segment
      · obtain rfl : seg₁ = seg := Option.some.inj (hseg₁.symm.trans (hs ▸ hseg))
        exact .inr (.inr (by rw [hoff]; exact hle))
      · exact .inl hs

/-- A step keeps the invariant. -/
theorem Inv.step (h : p.Inv) {a : SharedPoolCall} (ha : p.InRange a) (hq : p.step a = some q) :
    q.Inv := by
  cases a with
  | alloc size => exact h.alloc size hq
  | saveState =>
    obtain rfl := Option.some.inj hq
    refine ⟨h.sound, fun m hm => ⟨p.globals, h.sound, rfl, ?_, ha⟩, h.below, h.disjoint⟩
    exact (Option.some.inj hm).symm
  | restoreState =>
    obtain ⟨m, hm, rfl⟩ := Option.map_eq_some_iff.mp hq
    obtain ⟨s, hs, hsizes, rfl, hlt⟩ := h.saved m hm
    have hback : p.globals.zendSharedAllocRestoreState s.zendSharedAllocSaveState =
        { s with memoryExhausted := false } :=
      restoreState_eq hsizes.symm fun seg hseg =>
        (ofPosition_eq_iff seg.pos).mpr (.inl (hlt seg hseg))
    rw [hback]
    refine ⟨⟨hs.sharedFree, hs.pos_le, hs.aligned⟩, fun m hm' => ⟨s, hs, rfl, ?_, hlt⟩, by simp,
      List.Pairwise.nil⟩
    exact Option.some.inj (hm'.symm.trans hm)

/-- In every state that a run of the allocator reaches, the counters agree and the blocks in use are
disjoint. A request fails exactly when no segment has the rounded size left; then nothing changes
but the flag, which is set if every segment has less than 64 KiB left. -/
theorem sound_of_run {w : List SharedPoolCall} (hpos : 1 ≤ requested.toNat)
    (hmax : requested.toNat ≤ memoryConsumptionMax) (hsegs : CreatesSegments requested segs)
    (hrun : GuardedRun (fun p a q => p.step a = some q) InRange (startup requested segs exhausted)
      w p) :
    p.globals.Sound ∧ p.blocks.Pairwise BlocksDisjoint ∧
    ∀ size : UInt64, size.toNat < 2 ^ 32 - 8 →
      ((p.globals.zendSharedAlloc size).2 = none ↔ ∀ seg ∈ p.globals.sharedSegments,
        seg.size.toNat - seg.pos.toNat < (zendAlignedSize size).toNat) ∧
      ∀ t, p.globals.zendSharedAlloc size = (t, none) →
        t = { p.globals with memoryExhausted := t.memoryExhausted } ∧
        (t.memoryExhausted = true ↔ p.globals.memoryExhausted = true ∨
          ∀ seg ∈ p.globals.sharedSegments, seg.size.toNat - seg.pos.toNat < 64 * 1024) := by
  have hinv : p.Inv := hrun.invariant (inv_startup hsegs hpos hmax) fun h ha hq => h.step ha hq
  refine ⟨hinv.sound, hinv.disjoint, fun size hsize => ⟨?_, fun t ht => ?_⟩⟩
  · rw [hinv.sound.zendSharedAlloc_eq_none_iff]
    refine forall₂_congr fun seg hseg => ?_
    rw [UInt64.lt_iff_toNat_lt, toNat_free (hinv.sound.pos_le seg hseg), blockSize_eq hsize]
  · obtain rfl := zendSharedAlloc_eq_none ht
    refine ⟨sharedAllocFailed_eq _, memoryExhausted_sharedAllocFailed.trans (or_congr_right ?_)⟩
    refine forall₂_congr fun seg hseg => ?_
    rw [UInt64.lt_iff_toNat_lt, toNat_free (hinv.sound.pos_le seg hseg)]
    rfl

instance (p : SharedPool) (a : SharedPoolCall) : Decidable (p.InRange a) :=
  match a with
  | .alloc size => inferInstanceAs (Decidable (size.toNat < 2 ^ 32 - 8))
  | .saveState =>
    inferInstanceAs (Decidable (∀ seg ∈ p.globals.sharedSegments, seg.pos.toNat < 2 ^ 31))
  | .restoreState => isTrue trivial

/-- A pool of 8 MB: the block that is handed out after the restart takes the place of the one before
it. -/
theorem sound_of_run_restart :
    let p : SharedPool := ⟨⟨[⟨2 ^ 23, 120⟩], 2 ^ 23 - 120, false⟩, some ⟨[104], 2 ^ 23 - 104⟩,
      [(⟨0, 104⟩, 16)]⟩
    p.globals.Sound ∧ p.blocks.Pairwise BlocksDisjoint ∧
      (p.globals.zendSharedAlloc (2 ^ 23)).2 = none := by
  have hsegs : CreatesSegments (2 ^ 23) [⟨2 ^ 23, 0⟩] := .inl ⟨true, rfl⟩
  have hrun : GuardedRun (fun p a q => SharedPool.step p a = some q) InRange
      (startup (2 ^ 23) [⟨2 ^ 23, 0⟩] true)
      [.alloc 100, .saveState, .alloc 5, .restoreState, .alloc 16] _ := .of_foldlM_guard rfl
  obtain ⟨hsound, hdisjoint, hnone⟩ := sound_of_run (by decide) (by decide) hsegs hrun
  exact ⟨hsound, hdisjoint, ((hnone (2 ^ 23) (by decide)).1).mpr (by decide)⟩

/-- In a pool of 2^57 bytes the number of segments of the shm model does not fit into an `int`: no
segment is created, and all bytes are free. -/
theorem startup_not_sound :
    let requested : UInt64 := 0x200000000000000
    CreatesSegments requested [] ∧
      GuardedRun (fun p a q => SharedPool.step p a = some q) InRange (startup requested [] false) []
        (startup requested [] false) ∧
      ¬(startup requested [] false).globals.Sound := by
  intro requested
  have hneeded : neededSize requested segAllocSizeMax = segAllocSizeMax := by
    rw [neededSize, dif_neg (by decide)]
  have hgranted : grantedSize (fun _ => true) segAllocSizeMax = some segAllocSizeMax := by
    rw [grantedSize, dif_pos (by decide), if_pos rfl]
  have hcount : segmentsCount requested segAllocSizeMax = 0 := by decide
  have hcreate : createSegmentsShm (fun _ => true) (fun _ => true) requested = some [] := by
    rw [createSegmentsShm, hneeded, hgranted, Option.bind_some, hcount]
    rfl
  exact ⟨.inr ⟨_, _, hcreate⟩, .nil, fun h => absurd h.sharedFree (by decide)⟩

end SharedPool

end ZendOpcache
