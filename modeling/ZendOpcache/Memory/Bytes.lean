import ZendOpcache.Memory.SharedAlloc

/-! # The bytes of shared memory

Reading and writing through pointers into the segments. A write is seen by the reads of
its own bytes and by no others.
-/

namespace ZendOpcache

/-- The bytes by segment and offset. -/
abbrev SharedMemory := ℕ → ℕ → Char

namespace SharedPtr

def add (p : SharedPtr) (n : ℕ) : SharedPtr := { p with offset := p.offset + UInt64.ofNat n }

theorem toNat_add {p : SharedPtr} {n : ℕ} (h : p.offset.toNat + n < 2 ^ 64) :
    (p.add n).offset.toNat = p.offset.toNat + n := by
  have hn : (UInt64.ofNat n).toNat = n :=
    UInt64.toNat_ofNat_of_lt' (Nat.lt_of_le_of_lt (Nat.le_add_left n _) h)
  change (p.offset + UInt64.ofNat n).toNat = _
  rw [UInt64.toNat_add, hn]
  omega

end SharedPtr

namespace SharedMemory

variable {m : SharedMemory} {p q : SharedPtr} {bytes : List Char} {n : ℕ}

/-- The byte behind a pointer. -/
def get (m : SharedMemory) (p : SharedPtr) : Char := m p.segment p.offset.toNat

/-- `n` bytes from a pointer on -/
def read (m : SharedMemory) (p : SharedPtr) (n : ℕ) : List Char :=
  (List.range n).map fun k => m p.segment (p.offset.toNat + k)

/-- `memcpy` of `bytes` to a pointer -/
def write (m : SharedMemory) (p : SharedPtr) (bytes : List Char) : SharedMemory := fun s k =>
  if s = p.segment ∧ p.offset.toNat ≤ k then (bytes[k - p.offset.toNat]?).getD (m s k) else m s k

@[simp] theorem length_read : (m.read p n).length = n := by simp [read]

theorem getElem_read {k : ℕ} (h : k < (m.read p n).length) :
    (m.read p n)[k] = m p.segment (p.offset.toNat + k) := by simp [read]

theorem read_write_self : (m.write p bytes).read p bytes.length = bytes := by
  refine List.ext_getElem (by simp) fun k h₁ h₂ => ?_
  rw [getElem_read]
  simp [write, List.getElem?_eq_getElem h₂]

/-- A write somewhere else. -/
theorem read_write_of_disjoint (h : q.segment ≠ p.segment ∨ q.offset.toNat + n ≤ p.offset.toNat ∨
    p.offset.toNat + bytes.length ≤ q.offset.toNat) :
    (m.write p bytes).read q n = m.read q n := by
  refine List.ext_getElem (by simp) fun k h₁ h₂ => ?_
  rw [getElem_read, getElem_read]
  have hk : k < n := by simpa using h₂
  unfold write
  split_ifs with hin
  · have : bytes.length ≤ q.offset.toNat + k - p.offset.toNat := by omega
    rw [List.getElem?_eq_none this]
    rfl
  · rfl

theorem read_take {k : ℕ} (h : k ≤ n) : (m.read p n).take k = m.read p k := by
  simp [read, ← List.map_take, List.take_range, Nat.min_eq_left h]

/-- The last byte of a text, behind a pointer. -/
theorem get_add {k : ℕ} (hk : k < n) (h : p.offset.toNat + k < 2 ^ 64) :
    some (m.get (p.add k)) = (m.read p n)[k]? := by
  rw [List.getElem?_eq_getElem (by simpa using hk), getElem_read, get, SharedPtr.toNat_add h]
  rfl

end SharedMemory

end ZendOpcache
