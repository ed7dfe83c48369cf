import Mathlib.Algebra.Order.BigOperators.Group.List
import ZendOpcache.Interned.Buffer
import ZendOpcache.Interned.Neighbours

/-! # The layout of the buffer

What the buffer holds is determined by the strings that were interned, oldest first:
their addresses follow from their lengths, and every link leads to a neighbour in the chain or in
the list.
-/

namespace ZendOpcache

namespace Interned

open Neighbours

variable {start size : ℕ} {keys : List (List UInt8)} {key : List UInt8} {i j n : ℕ}

def bucketSize (key : List UInt8) : ℕ := zendMmAlignedSize (sizeofBucket + key.length)

theorem sizeofBucket_le_bucketSize (key : List UInt8) :
    sizeofBucket + key.length ≤ bucketSize key := by
  unfold bucketSize zendMmAlignedSize
  omega

/-- The address of a bucket, and the top where there is no further one. -/
def addr (start : ℕ) (keys : List (List UInt8)) (i : ℕ) : ℕ :=
  start + ((keys.take i).map bucketSize).sum

@[simp] theorem addr_zero : addr start keys 0 = start := by simp [addr]

theorem addr_succ (h : keys[i]? = some key) :
    addr start keys (i + 1) = addr start keys i + bucketSize key := by
  unfold addr
  rw [List.take_add_one, h]
  simp [Nat.add_assoc]

theorem addr_lt_addr (hij : i < j) (hj : j ≤ keys.length) :
    addr start keys i < addr start keys j := by
  induction j, hij using Nat.le_induction with
  | base =>
    obtain ⟨key, hkey⟩ : ∃ key, keys[i]? = some key := ⟨_, List.getElem?_eq_getElem hj⟩
    have := sizeofBucket_le_bucketSize key
    rw [addr_succ hkey]
    unfold sizeofBucket at this
    omega
  | succ j hij ih =>
    obtain ⟨key, hkey⟩ : ∃ key, keys[j]? = some key := ⟨_, List.getElem?_eq_getElem hj⟩
    rw [addr_succ hkey]
    exact Nat.lt_of_lt_of_le (ih (Nat.le_of_succ_le hj)) (Nat.le_add_right _ _)

theorem addr_inj (hi : i ≤ keys.length) (hj : j ≤ keys.length)
    (h : addr start keys i = addr start keys j) : i = j := by
  rcases Nat.lt_trichotomy i j with hlt | heq | hlt
  · exact absurd h (Nat.ne_of_lt (addr_lt_addr hlt hj))
  · exact heq
  · exact absurd h.symm (Nat.ne_of_lt (addr_lt_addr hlt hi))

theorem addr_le_addr (hij : i ≤ j) (hj : j ≤ keys.length) :
    addr start keys i ≤ addr start keys j := by
  rcases Nat.lt_or_eq_of_le hij with hlt | rfl
  · exact (addr_lt_addr hlt hj).le
  · exact le_rfl

theorem addr_append (hi : i ≤ keys.length) (more : List (List UInt8)) :
    addr start (keys ++ more) i = addr start keys i := by
  rw [addr, addr, List.take_append_of_le_length hi]

/-- Every bucket takes its own size at least. -/
theorem addr_length_ge (start : ℕ) (keys : List (List UInt8)) :
    start + keys.length * sizeofBucket ≤ addr start keys keys.length := by
  unfold addr
  rw [List.take_length]
  induction keys with
  | nil => simp
  | cons key keys ih =>
    have := sizeofBucket_le_bucketSize key
    rw [List.map_cons, List.sum_cons, List.length_cons, Nat.succ_mul]
    omega

/-- The address of a member that was found below a bound. -/
theorem map_lastBelow_congr {p q : ℕ → Bool} {f g : ℕ → ℕ} (hp : ∀ k < n, p k = q k)
    (hf : ∀ k < n, f k = g k) : (lastBelow p n).map f = (lastBelow q n).map g := by
  rw [lastBelow_congr hp]
  cases hl : lastBelow q n with
  | none => rfl
  | some j => simp [hf j (lastBelow_eq_some.mp hl).1]

theorem map_firstAbove_congr {p : ℕ → Bool} {f g : ℕ → ℕ} (hf : ∀ k < n, f k = g k) :
    (firstAbove p i n).map f = (firstAbove p i n).map g := by
  cases hl : firstAbove p i n with
  | none => rfl
  | some j => simp [hf j (lt_of_firstAbove hl)]

/-- The link to the next member, after one more string. -/
theorem map_firstAbove_append (start : ℕ) (key : List UInt8) {p q : ℕ → Bool} (hi : i < keys.length)
    (hq : ∀ k < keys.length, q k = p k) (hp : p i = true) :
    (firstAbove q i (keys.length + 1)).map (addr start (keys ++ [key])) =
      if q keys.length = true ∧ lastBelow p keys.length = some i
      then some (addr start keys keys.length)
      else (firstAbove p i keys.length).map (addr start keys) := by
  rw [firstAbove_succ hi (hq i hi ▸ hp), lastBelow_congr hq, firstAbove_congr hq]
  split_ifs
  · rw [Option.map_some, addr_append le_rfl]
  · exact map_firstAbove_congr fun k hk => addr_append hk.le _

/-- The link to the next member, after strings were taken away. -/
theorem map_firstAbove_prefix (start : ℕ) (more : List (List UInt8)) {p q : ℕ → Bool}
    (hi : i < keys.length)
    (hq : ∀ k < keys.length, q k = p k) (hp : p i = true) :
    (firstAbove p i keys.length).map (addr start keys) =
      if lastBelow p keys.length = some i then none
      else (firstAbove q i (keys ++ more).length).map (addr start (keys ++ more)) := by
  have hle : keys.length ≤ (keys ++ more).length := by simp
  have hshort := firstAbove_of_le hle hi (hq i hi ▸ hp)
  rw [firstAbove_congr hq, lastBelow_congr hq] at hshort
  split_ifs at hshort ⊢
  · rw [hshort]
    rfl
  · rw [← hshort]
    exact map_firstAbove_congr fun k hk => (addr_append hk.le _).symm

theorem lastBelow_map_addr {p : ℕ → Bool} (hn : n ≤ keys.length) (hi : i < keys.length) :
    (lastBelow p n).map (addr start keys) = some (addr start keys i) ↔ lastBelow p n = some i := by
  rw [Option.map_eq_some_iff]
  constructor
  · rintro ⟨j, hj, heq⟩
    have hjn := (lastBelow_eq_some.mp hj).1
    rw [hj, addr_inj (by omega) hi.le heq]
  · exact fun h => ⟨i, h, rfl⟩

section Hash

variable [ZendInlineHash (List UInt8)]

/-- The chain of a string, in a table of some size. -/
def chainOf (size : ℕ) (key : List UInt8) : ℕ := zendInlineHashFunc key &&& (size - 1)

theorem nIndex_eq (s : InternedStrings) (key : List UInt8) :
    s.nIndex (zendInlineHashFunc key) = chainOf s.nTableSize key := rfl

theorem chainOf_lt (key : List UInt8) (h : 0 < size) : chainOf size key < size := by
  have := Nat.and_le_right (n := zendInlineHashFunc key) (m := size - 1)
  unfold chainOf
  omega

/-- The strings in a chain, by index. -/
def inChain (size : ℕ) (keys : List (List UInt8)) (c j : ℕ) : Bool :=
  (keys[j]?).map (chainOf size) == some c

theorem inChain_iff {c : ℕ} :
    inChain size keys c j = true ↔ ∃ key, keys[j]? = some key ∧ chainOf size key = c := by
  simp [inChain]

theorem inChain_self (hj : keys[j]? = some key) :
    inChain size keys (chainOf size key) j = true :=
  inChain_iff.mpr ⟨key, hj, rfl⟩

theorem inChain_append (hj : j < keys.length) (more : List (List UInt8)) (c : ℕ) :
    inChain size (keys ++ more) c j = inChain size keys c j := by
  rw [inChain, inChain, List.getElem?_append_left hj]

/-- The list leads through all buckets. -/
def inList (_ : ℕ) : Bool := true

/-- The bucket of the string with an index. -/
def bucketAt (start size : ℕ) (keys : List (List UInt8)) (i : ℕ) (key : List UInt8) : Bucket where
  h := zendInlineHashFunc key
  arKey := key
  pNext := (lastBelow (inChain size keys (chainOf size key)) i).map (addr start keys)
  pLast := (firstAbove (inChain size keys (chainOf size key)) i keys.length).map (addr start keys)
  pListNext := (firstAbove inList i keys.length).map (addr start keys)
  pListLast := (lastBelow inList i).map (addr start keys)

/-- The pointers into the buffer. -/
def rootsOf (start size : ℕ) (keys : List (List UInt8)) : SavedState where
  arBuckets c := (lastBelow (inChain size keys c) keys.length).map (addr start keys)
  pListHead := (keys.head?).map fun _ => start
  pListTail := (lastBelow inList keys.length).map (addr start keys)
  top := addr start keys keys.length

def InternedStrings.roots (s : InternedStrings) : SavedState :=
  ⟨s.arBuckets, s.pListHead, s.pListTail, s.top⟩

/-- The buffer holds the strings, and no bucket but theirs. -/
structure Represents (s : InternedStrings) (keys : List (List UInt8)) : Prop where
  tableSize : 0 < s.nTableSize
  roots : s.roots = rootsOf s.start s.nTableSize keys
  top_le : s.top ≤ s.finish
  bucket : ∀ {i key}, keys[i]? = some key →
    s.buffer (addr s.start keys i) = some (bucketAt s.start s.nTableSize keys i key)
  gap : ∀ {a}, a < s.top → (∀ i < keys.length, a ≠ addr s.start keys i) → s.buffer a = none
  nodup : keys.Nodup

theorem represents_init [ZendHashInit] (start megabytes : ℕ) :
    Represents (.init start megabytes) [] where
  tableSize := zendHashSize_pos _
  roots := rfl
  top_le := by simp [InternedStrings.init]
  bucket h := by simp at h
  gap _ _ := rfl
  nodup := List.nodup_nil

end Hash

end Interned

end ZendOpcache
