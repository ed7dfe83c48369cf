import Mathlib.Algebra.BigOperators.Group.List.Basic
import ZendOpcache.Memory.SaveState

/-! # The segments of the pool

`create_segments` of the mmap and the shm model. The first cuts no segments; the second asks for
segments of one size, which shrinks until the system grants the first of them, and the last segment
takes what remains. The number of segments is an `int`.
-/

namespace ZendOpcache

def segAllocSizeMax : UInt64 := 32 * 1024 * 1024
def segAllocSizeMin : UInt64 := 2 * 1024 * 1024

/-- A smaller segment size, while that is not below the minimum. -/
theorem half_lt {size : UInt64} (h : segAllocSizeMin ≤ size) : (size >>> 1).toNat < size.toNat := by
  have h := UInt64.le_iff_toNat_le.mp h
  have : segAllocSizeMin.toNat = 2097152 := rfl
  rw [UInt64.toNat_shiftRight]
  simp only [UInt64.reduceToNat, Nat.reduceMod, Nat.shiftRight_eq_div_pow]
  omega

/-- The segment size that is really needed. -/
def neededSize (requested size : UInt64) : UInt64 :=
  if _h : requested * 2 ≤ size ∧ segAllocSizeMin < size then neededSize requested (size >>> 1)
  else size
termination_by size.toNat
decreasing_by exact half_lt (UInt64.le_of_lt _h.2)

/-- The segment size for which the system grants the first segment. -/
def grantedSize (shmget : UInt64 → Bool) (size : UInt64) : Option UInt64 :=
  if _h : segAllocSizeMin ≤ size then
    if shmget size then some size else grantedSize shmget (size >>> 1)
  else none
termination_by size.toNat
decreasing_by exact half_lt _h

/-- `MIN` -/
def minSize (x y : UInt64) : UInt64 := if y < x then y else x

/-- The loop over the segments. -/
def cutSegments (size : UInt64) : ℕ → UInt64 → List ZendSharedSegment
  | 0, _ => []
  | n + 1, remaining =>
    let allocateSize := minSize remaining size
    { size := allocateSize, pos := 0 } :: cutSegments size n (remaining - allocateSize)

/-- `shared_segments_count` -/
def segmentsCount (requested size : UInt64) : Int32 :=
  ((requested - 1) / size + 1).toUInt32.toInt32

/-- `create_segments` of the shm model. The system grants segments and attaches them, or not. -/
def createSegmentsShm (shmget : UInt64 → Bool) (shmat : ℕ → Bool) (requested : UInt64) :
    Option (List ZendSharedSegment) :=
  (grantedSize shmget (neededSize requested segAllocSizeMax)).bind fun size =>
    let count := (segmentsCount requested size).toInt.toNat
    if (List.range count).all shmat then some (cutSegments size count requested) else none

/-- `create_segments` of the mmap model -/
def createSegmentsMmap (mmap : Bool) (requested : UInt64) : Option (List ZendSharedSegment) :=
  if mmap then some [{ size := requested, pos := 0 }] else none

/-- The segments that one of the models creates. -/
def CreatesSegments (requested : UInt64) (segs : List ZendSharedSegment) : Prop :=
  (∃ mmap, createSegmentsMmap mmap requested = some segs) ∨
    ∃ shmget shmat, createSegmentsShm shmget shmat requested = some segs

/-- The largest pool: `OnUpdateMemoryConsumption` takes an `int` of megabytes. -/
def memoryConsumptionMax : ℕ := (2 ^ 31 - 1) * 2 ^ 20

theorem grantedSize_spec {shmget : UInt64 → Bool} {size granted : UInt64}
    (h : grantedSize shmget size = some granted) : segAllocSizeMin ≤ granted := by
  fun_induction grantedSize shmget size with
  | case1 size hle hget => exact Option.some.inj h ▸ hle
  | case2 size hle hget ih => exact ih h
  | case3 size hle => simp at h

theorem toNat_minSize (x y : UInt64) : (minSize x y).toNat = min x.toNat y.toNat := by
  unfold minSize
  split_ifs with h
  · have := UInt64.lt_iff_toNat_lt.mp h
    omega
  · have := UInt64.lt_iff_toNat_lt.not.mp h
    omega

theorem pos_cutSegments {size : UInt64} (n : ℕ) : ∀ (remaining : UInt64),
    ∀ seg ∈ cutSegments size n remaining, seg.pos = 0 := by
  induction n with
  | zero => simp [cutSegments]
  | succ n ih =>
    intro remaining seg hseg
    rcases List.mem_cons.mp hseg with rfl | hseg
    · rfl
    · exact ih _ seg hseg

/-- Enough segments hold all that is requested. -/
theorem sum_cutSegments {size : UInt64} (n : ℕ) : ∀ (remaining : UInt64),
    remaining.toNat ≤ n * size.toNat →
      ((cutSegments size n remaining).map (·.size.toNat)).sum = remaining.toNat := by
  induction n with
  | zero => exact fun remaining h => by simp [cutSegments]; omega
  | succ n ih =>
    intro remaining h
    have hmin := toNat_minSize remaining size
    have hle : minSize remaining size ≤ remaining := by
      rw [UInt64.le_iff_toNat_le, hmin]
      exact Nat.min_le_left _ _
    have hsub : (remaining - minSize remaining size).toNat =
        remaining.toNat - min remaining.toNat size.toNat := by
      rw [UInt64.toNat_sub_of_le _ _ hle, hmin]
    rw [Nat.succ_mul] at h
    have hrest := ih (remaining - minSize remaining size) (by omega)
    simp only [cutSegments, List.map_cons, List.sum_cons, hrest, hmin, hsub]
    omega

/-- The number of segments does not overflow, and is large enough. -/
theorem segmentsCount_spec {requested size : UInt64} (hpos : 1 ≤ requested.toNat)
    (hmax : requested.toNat ≤ memoryConsumptionMax) (hsize : segAllocSizeMin ≤ size) :
    requested.toNat ≤ (segmentsCount requested size).toInt.toNat * size.toNat := by
  have hmin := UInt64.le_iff_toNat_le.mp hsize
  have hconst : segAllocSizeMin.toNat = 2 ^ 21 := rfl
  rw [hconst] at hmin
  have hmem : memoryConsumptionMax = (2 ^ 31 - 1) * 2 ^ 20 := rfl
  have hsub : (requested - 1).toNat = requested.toNat - 1 :=
    UInt64.toNat_sub_of_le _ _ (UInt64.le_iff_toNat_le.mpr hpos)
  have hq : (requested.toNat - 1) / size.toNat < 2 ^ 31 - 1 := by
    rw [Nat.div_lt_iff_lt_mul (by omega)]
    calc requested.toNat - 1 < (2 ^ 31 - 1) * 2 ^ 20 := by omega
      _ ≤ (2 ^ 31 - 1) * size.toNat := Nat.mul_le_mul_left _ (by omega)
  have hcount : (segmentsCount requested size).toInt.toNat =
      (requested.toNat - 1) / size.toNat + 1 := by
    have hnat : ((requested - 1) / size + 1).toNat = (requested.toNat - 1) / size.toNat + 1 := by
      rw [UInt64.toNat_add, UInt64.toNat_div, hsub]
      exact Nat.mod_eq_of_lt (by change _ + 1 < _; omega)
    have hbits : (segmentsCount requested size).toInt =
        (((requested - 1) / size + 1).toBitVec.setWidth 32).toInt := rfl
    rw [hbits, BitVec.toInt_eq_toNat_of_lt] <;>
      rw [BitVec.toNat_setWidth, UInt64.toNat_toBitVec, hnat] <;> omega
  rw [hcount]
  have := Nat.lt_mul_div_succ (requested.toNat - 1) (show 0 < size.toNat by omega)
  rw [Nat.mul_comm] at this
  omega

/-- The segments hold what is requested, and nothing of it is taken. -/
theorem CreatesSegments.spec {requested : UInt64} {segs : List ZendSharedSegment}
    (h : CreatesSegments requested segs) (hpos : 1 ≤ requested.toNat)
    (hmax : requested.toNat ≤ memoryConsumptionMax) :
    (∀ seg ∈ segs, seg.pos = 0) ∧ (segs.map (·.size.toNat)).sum = requested.toNat := by
  rcases h with ⟨mmap, h⟩ | ⟨shmget, shmat, h⟩
  · unfold createSegmentsMmap at h
    split_ifs at h
    obtain rfl := Option.some.inj h
    simp
  · obtain ⟨size, hsize, h⟩ := Option.bind_eq_some_iff.mp h
    dsimp only at h
    split_ifs at h
    obtain rfl := Option.some.inj h
    exact ⟨pos_cutSegments _ _,
      sum_cutSegments _ _ (segmentsCount_spec hpos hmax (grantedSize_spec hsize))⟩

end ZendOpcache
