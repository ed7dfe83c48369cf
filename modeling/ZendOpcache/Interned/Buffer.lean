import Mathlib.Algebra.Order.Ring.Nat
import ZendOpcache.Hash.Basic

/-! # The interned strings buffer

The buckets that `accel_new_interned_string` puts into shared memory one after the other, with the
hash chains and the list that lead through them. A restart takes the buffer back to
the state that was saved at startup.
-/

namespace ZendOpcache

namespace Interned

/-- `sizeof(Bucket)` with pointers of 8 bytes -/
def sizeofBucket : ℕ := 72

/-- `ZEND_MM_ALIGNED_SIZE` -/
def zendMmAlignedSize (size : ℕ) : ℕ := (size + 7) / 8 * 8

/-- The bytes of the string stand right behind the bucket, where its own `arKey` points, and there
are `nKeyLength` of them. -/
structure Bucket where
  h : ℕ
  arKey : List UInt8
  pNext : Option ℕ
  pLast : Option ℕ
  pListNext : Option ℕ
  pListLast : Option ℕ
  deriving DecidableEq, Repr

/-- The argument and the result of the interning function: an address in the buffer, or one in the
memory of the process with the bytes that are there. -/
inductive CharPtr where
  | shared (a : ℕ)
  | process (a : ℕ) (bytes : List UInt8)
  deriving DecidableEq, Repr

/-- `interned_strings_saved_state` -/
structure SavedState where
  arBuckets : ℕ → Option ℕ
  pListHead : Option ℕ
  pListTail : Option ℕ
  top : ℕ

/-- The hash table `interned_strings` and the buffer from `start` to `finish`. The memory gives the
bucket that was last written at an address, and none where another was written over it. -/
structure InternedStrings where
  nTableSize : ℕ
  arBuckets : ℕ → Option ℕ
  pListHead : Option ℕ
  pListTail : Option ℕ
  nNumOfElements : UInt32
  buffer : ℕ → Option Bucket
  start : ℕ
  top : ℕ
  finish : ℕ
  saved : Option SavedState

/-- The table size that `zend_hash_init` of the engine takes for a number of elements -/
class ZendHashInit where
  zendHashSize : ℕ → ℕ
  zendHashSize_pos : ∀ nSize, 0 < zendHashSize nSize

export ZendHashInit (zendHashSize zendHashSize_pos)

/-- Writing a bucket and its string takes the place of what was there. -/
def storeBucket (buffer : ℕ → Option Bucket) (p size : ℕ) (b : Bucket) : ℕ → Option Bucket :=
  fun a => if a = p then some b else if p < a ∧ a < p + size then none else buffer a

/-- A write to a field of the bucket behind a pointer that is tested first. -/
def onBucket (buffer : ℕ → Option Bucket) (q : Option ℕ) (f : Bucket → Bucket) :
    ℕ → Option Bucket :=
  fun a => if q = some a then (buffer a).map f else buffer a

section

variable {buffer : ℕ → Option Bucket} {q : Option ℕ} {a : ℕ} {f : Bucket → Bucket}

theorem storeBucket_self {p size : ℕ} {b : Bucket} : storeBucket buffer p size b p = some b :=
  if_pos rfl

theorem storeBucket_of_lt {p size : ℕ} {b : Bucket} (h : a < p) :
    storeBucket buffer p size b a = buffer a := by
  unfold storeBucket
  rw [if_neg h.ne, if_neg (by omega)]

theorem storeBucket_inside {p size : ℕ} {b : Bucket} (h : p < a) (h' : a < p + size) :
    storeBucket buffer p size b a = none := by
  unfold storeBucket
  rw [if_neg h.ne', if_pos ⟨h, h'⟩]

theorem onBucket_eq_some {b : Bucket} (h : buffer a = some b) :
    onBucket buffer q f a = some (if q = some a then f b else b) := by
  unfold onBucket
  split_ifs
  · simp [h]
  · exact h

theorem onBucket_eq_none (h : buffer a = none) : onBucket buffer q f a = none := by
  unfold onBucket
  split_ifs
  · simp [h]
  · exact h

end

namespace InternedStrings

/-- The state that `zend_accel_init_shm` makes, for a buffer of some megabytes. -/
def init [ZendHashInit] (start megabytes : ℕ) : InternedStrings where
  nTableSize := zendHashSize (megabytes * 1024 * 1024 / (sizeofBucket + 8 + 8))
  arBuckets _ := none
  pListHead := none
  pListTail := none
  nNumOfElements := 0
  buffer _ := none
  start := start
  top := start
  finish := start + megabytes * 1024 * 1024
  saved := none

variable (s : InternedStrings)

/-- `h & nTableMask` -/
def nIndex (h : ℕ) : ℕ := h &&& (s.nTableSize - 1)

/-- The walk of a chain. More steps than the buffer has bytes stand for a walk that never ends. -/
def findBucket (buffer : ℕ → Option Bucket) (h : ℕ) (key : List UInt8) :
    ℕ → Option ℕ → Option (Option ℕ)
  | 0, _ => none
  | _ + 1, none => some none
  | n + 1, some p =>
    match buffer p with
    | none => none
    | some b => if b.h = h ∧ b.arKey = key then some (some p) else findBucket buffer h key n b.pNext

/-- The bytes behind a pointer to a string. -/
def stringAt (a : ℕ) : Option (List UInt8) :=
  if sizeofBucket ≤ a then (s.buffer (a - sizeofBucket)).map (·.arKey) else none

/-- The new bucket is the first of its chain and the last of the list. -/
def createBucket (h : ℕ) (key : List UInt8) : InternedStrings :=
  let p := s.top
  let size := zendMmAlignedSize (sizeofBucket + key.length)
  let pNext := s.arBuckets (s.nIndex h)
  let pListLast := s.pListTail
  let buffer := storeBucket s.buffer p size ⟨h, key, pNext, none, none, pListLast⟩
  let buffer := onBucket buffer pNext fun b => { b with pLast := some p }
  let buffer := onBucket buffer pListLast fun b => { b with pListNext := some p }
  { s with
    top := p + size
    buffer := buffer
    arBuckets := Function.update s.arBuckets (s.nIndex h) (some p)
    pListTail := some p
    pListHead := some (s.pListHead.getD p)
    nNumOfElements := s.nNumOfElements + 1 }

section Hash

variable [ZendInlineHash (List UInt8)]

/-- The search for an existing interned string. -/
def find (key : List UInt8) : Option (Option ℕ) :=
  let h := zendInlineHashFunc key
  findBucket s.buffer h key (s.finish + 1) (s.arBuckets (s.nIndex h))

/-- The result is `none` where the walk of the chain never ends or leaves the buckets. -/
def accelNewInternedString : CharPtr → Option (InternedStrings × CharPtr)
  | .shared a => some (s, .shared a)
  | .process a key =>
    match s.find key with
    | none => none
    | some (some p) => some (s, .shared (p + sizeofBucket))
    | some none =>
      if s.finish ≤ s.top + zendMmAlignedSize (sizeofBucket + key.length) then
        some (s, .process a key)
      else
        some (s.createBucket (zendInlineHashFunc key) key, .shared (s.top + sizeofBucket))

end Hash

def accelInternedStringsSaveState : InternedStrings :=
  { s with saved := some ⟨s.arBuckets, s.pListHead, s.pListTail, s.top⟩ }

/-- One turn of the loop over the table. -/
def restoreHead (saved : SavedState) (s : InternedStrings) (i : ℕ) : InternedStrings :=
  { s with
    arBuckets := Function.update s.arBuckets i (saved.arBuckets i)
    buffer := onBucket s.buffer (saved.arBuckets i) fun b => { b with pLast := none } }

/-- The result is `none` where no state was saved. -/
def accelInternedStringsRestoreState : Option InternedStrings :=
  s.saved.map fun saved =>
    let s := (List.range s.nTableSize).foldl (restoreHead saved) s
    let buffer := onBucket s.buffer saved.pListHead fun b => { b with pListLast := none }
    let buffer := onBucket buffer saved.pListTail fun b => { b with pListNext := none }
    { s with
      pListHead := saved.pListHead
      pListTail := saved.pListTail
      buffer := buffer
      top := saved.top }

end InternedStrings

end Interned

end ZendOpcache
