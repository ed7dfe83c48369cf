import ZendOpcache.Memory.SharedAlloc

/-! # The saved state of the allocator

`zend_shared_alloc_save_state` keeps the positions of the segments as `int`, and a
restart brings them back as `size_t`. A position survives exactly when it is below `2 ^ 31`, or
so close to the end of the address space that the sign makes up for what is cut off.
-/

namespace ZendOpcache

/-- `zend_shared_memory_state` -/
structure ZendSharedMemoryState where
  positions : List Int32
  sharedFree : UInt64
  deriving DecidableEq, Repr

/-- The conversion of a `size_t` to `int`. -/
def toPosition (pos : UInt64) : Int32 := pos.toUInt32.toInt32

/-- The conversion of an `int` to `size_t`. -/
def ofPosition (position : Int32) : UInt64 := position.toInt64.toUInt64

namespace ZendSmmSharedGlobals

def zendSharedAllocSaveState (s : ZendSmmSharedGlobals) : ZendSharedMemoryState where
  positions := s.sharedSegments.map fun seg => toPosition seg.pos
  sharedFree := s.sharedFree

def zendSharedAllocRestoreState (s : ZendSmmSharedGlobals) (saved : ZendSharedMemoryState) :
    ZendSmmSharedGlobals where
  sharedSegments := s.sharedSegments.zipWith (fun seg p => { seg with pos := ofPosition p })
    saved.positions
  sharedFree := saved.sharedFree
  memoryExhausted := false

/-- A sequence of allocations. -/
def zendSharedAllocs (s : ZendSmmSharedGlobals) (sizes : List UInt64) : ZendSmmSharedGlobals :=
  sizes.foldl (fun s size => (s.zendSharedAlloc size).1) s

/-- The sizes of the segments. -/
def sizes (s : ZendSmmSharedGlobals) : List UInt64 := s.sharedSegments.map (·.size)

/-- What a restart is to bring back of an earlier state. -/
structure Restores (t s : ZendSmmSharedGlobals) : Prop where
  pos : t.sharedSegments.map (·.pos) = s.sharedSegments.map (·.pos)
  sharedFree : t.sharedFree = s.sharedFree
  pos_le : (∀ seg ∈ s.sharedSegments, seg.pos ≤ seg.size) →
    ∀ seg ∈ t.sharedSegments, seg.pos ≤ seg.size

end ZendSmmSharedGlobals

section Positions

theorem toBitVec_ofPosition (pos : UInt64) :
    (ofPosition (toPosition pos)).toBitVec = (pos.toBitVec.setWidth 32).signExtend 64 := rfl

theorem toNat_ofPosition (pos : UInt64) : (ofPosition (toPosition pos)).toNat =
    if pos.toNat % 2 ^ 32 < 2 ^ 31 then pos.toNat % 2 ^ 32
    else 2 ^ 64 - 2 ^ 32 + pos.toNat % 2 ^ 32 := by
  rw [← UInt64.toNat_toBitVec, toBitVec_ofPosition, BitVec.toNat_signExtend]
  simp only [BitVec.msb_eq_decide, BitVec.toNat_setWidth, UInt64.toNat_toBitVec]
  split_ifs <;> simp_all <;> omega

/-- The positions that survive. -/
theorem ofPosition_eq_iff (pos : UInt64) : ofPosition (toPosition pos) = pos ↔
    pos.toNat < 2 ^ 31 ∨ 2 ^ 64 - 2 ^ 31 ≤ pos.toNat := by
  have := pos.toNat_lt
  rw [← UInt64.toNat_inj, toNat_ofPosition]
  split_ifs <;> omega

end Positions

namespace ZendSmmSharedGlobals

variable {s t : ZendSmmSharedGlobals} {size : UInt64}

theorem sharedAllocFailed_eq (s : ZendSmmSharedGlobals) :
    s.sharedAllocFailed = { s with memoryExhausted := s.sharedAllocFailed.memoryExhausted } := by
  unfold sharedAllocFailed
  split_ifs <;> rfl

/-- A call returns `NULL` exactly when it takes no segment, and then only the flag may change. -/
theorem zendSharedAlloc_eq_none (h : s.zendSharedAlloc size = (t, none)) :
    t = s.sharedAllocFailed := by
  unfold zendSharedAlloc at h
  dsimp only at h
  repeat' split at h
  all_goals simp_all

theorem sizes_zendSharedAlloc (s : ZendSmmSharedGlobals) (size : UInt64) :
    (s.zendSharedAlloc size).1.sizes = s.sizes := by
  obtain ⟨⟨t, r⟩, hr⟩ : ∃ x, s.zendSharedAlloc size = x := ⟨_, rfl⟩
  rw [hr]
  cases r with
  | none => rw [zendSharedAlloc_eq_none hr, sharedAllocFailed_eq]; rfl
  | some r =>
    obtain ⟨seg, ht, -, rfl⟩ := zendSharedAlloc_eq_some_iff.mp hr
    simp only [sizes, List.map_set]
    obtain ⟨hlt, hget⟩ := List.getElem?_eq_some_iff.mp ht.segment
    refine List.ext_getElem (by simp) fun i h₁ h₂ => ?_
    rw [List.getElem_set]
    split_ifs with hi
    · subst hi
      simp [hget]
    · rfl

theorem sizes_zendSharedAllocs (sizes : List UInt64) : ∀ s : ZendSmmSharedGlobals,
    (s.zendSharedAllocs sizes).sizes = s.sizes := by
  induction sizes with
  | nil => exact fun s => rfl
  | cons size sizes ih => exact fun s => (ih _).trans (sizes_zendSharedAlloc s size)

/-- A restart after any allocations leaves the segments with their sizes and the saved positions. -/
theorem sharedSegments_restoreState (h : t.sizes = s.sizes) :
    (t.zendSharedAllocRestoreState s.zendSharedAllocSaveState).sharedSegments =
      s.sharedSegments.map fun seg => { seg with pos := ofPosition (toPosition seg.pos) } := by
  obtain ⟨segs, free, ex⟩ := s
  obtain ⟨segs', free', ex'⟩ := t
  simp only [sizes, zendSharedAllocRestoreState, zendSharedAllocSaveState] at h ⊢
  induction segs generalizing segs' with
  | nil => simp_all
  | cons seg segs ih =>
    cases segs' with
    | nil => simp at h
    | cons seg' segs' =>
      simp only [List.map_cons, List.cons.injEq] at h
      simp [h.1, ih segs' h.2]

theorem restoreState_eq (hsizes : t.sizes = s.sizes)
    (h : ∀ seg ∈ s.sharedSegments, ofPosition (toPosition seg.pos) = seg.pos) :
    t.zendSharedAllocRestoreState s.zendSharedAllocSaveState =
      { s with memoryExhausted := false } := by
  have hsame : (t.zendSharedAllocRestoreState s.zendSharedAllocSaveState).sharedSegments =
      s.sharedSegments := by
    rw [sharedSegments_restoreState hsizes, List.map_congr_left (g := id), List.map_id]
    intro seg hseg
    rw [h seg hseg]
    rfl
  rw [← hsame]
  rfl

/-- A restart brings back the saved state exactly when no position is cut off. -/
theorem restoreState_restores_iff (s : ZendSmmSharedGlobals) (w : List UInt64) :
    ((s.zendSharedAllocs w).zendSharedAllocRestoreState s.zendSharedAllocSaveState).Restores s ↔
      ∀ seg ∈ s.sharedSegments, seg.pos.toNat < 2 ^ 31 ∨ 2 ^ 64 - 2 ^ 31 ≤ seg.pos.toNat := by
  have hsizes := sizes_zendSharedAllocs w s
  constructor
  · intro h seg hseg
    have hpos := h.pos
    rw [sharedSegments_restoreState hsizes, List.map_map, List.map_inj_left] at hpos
    exact (ofPosition_eq_iff seg.pos).mp (hpos seg hseg)
  · intro h
    rw [restoreState_eq hsizes fun seg hseg => (ofPosition_eq_iff seg.pos).mpr (h seg hseg)]
    exact ⟨rfl, rfl, id⟩

/-- A pool of 4 GiB with an interned strings buffer of 2 GiB: after the first restart the position
is beyond the end of the segment. -/
theorem restoreState_two_gib :
    let s : ZendSmmSharedGlobals := ⟨[⟨2 ^ 32, 2 ^ 31 + 2 ^ 20⟩], 2 ^ 31 - 2 ^ 20, false⟩
    let t := (s.zendSharedAllocs [4096]).zendSharedAllocRestoreState s.zendSharedAllocSaveState
    t.sharedSegments = [⟨2 ^ 32, 2 ^ 64 - 2 ^ 31 + 2 ^ 20⟩] ∧ ¬ t.Restores s := by
  refine ⟨by decide, fun h => ?_⟩
  exact absurd h.pos (by decide)

end ZendSmmSharedGlobals

end ZendOpcache
