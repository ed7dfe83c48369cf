import Mathlib.Data.List.Pairwise
import ZendOpcache.HashTable.Buckets

/-! # Copying a hash table to shared memory

`zend_hash_persist` copies one bucket after the other and relinks each copy to its neighbours, of
which those before it are copies already and those after it are not. All along, every link leads
to where the bucket is at that moment.
-/

namespace ZendOpcache

namespace Tables

open Persist (Addr)

/-- `sizeof(Bucket)` and `sizeof(Bucket*)` of a 64-bit build -/
def sizeofBucket : ℕ := 72

def sizeofPointer : ℕ := 8

/-- `ZEND_ALIGNED_SIZE` -/
def zendAlignedSize (size : ℕ) : ℕ := (size + 7) / 8 * 8

/-- The first bytes of a string at a new address -/
def Memory.copyString (m : Memory) (a : Addr) (size : ℕ) (new : Addr) : Memory :=
  { m with strings := Function.update m.strings new ((m.strings a).map (·.take size)) }

def Memory.writeSlots (m : Memory) (a : Addr) (slots : List (Option Addr)) : Memory :=
  { m with slots := Function.update m.slots a (some slots) }

/-- Memory with the translation table and the place for the next copy, `ZCG(mem)`. The elements of
the tables are in the rest of the memory. -/
structure PersistState (ρ : Type) where
  memory : Memory
  mem : ℕ
  xlat : Addr → Option Addr
  rest : ρ

variable {ρ : Type}

namespace PersistState

variable (st : PersistState ρ)

def writeBucket (a : Addr) (b : Bucket) : PersistState ρ :=
  { st with memory := st.memory.writeBucket a b }

/-- `_zend_shared_memdup`, where `copy` is the `memcpy` to a new address -/
def zendSharedMemdup (source : Addr) (size : ℕ) (copy : Addr → Memory) : PersistState ρ × Addr :=
  match st.xlat source with
  | some b => (st, b)
  | none =>
    (⟨copy (.shared st.mem), st.mem + zendAlignedSize size,
      Function.update st.xlat source (some (.shared st.mem)), st.rest⟩, .shared st.mem)

/-- The key of the copy at `p`, unless it is interned -/
def persistKey (isInterned : Addr → Bool) (p : Addr) : Option (PersistState ρ) := do
  let b ← st.memory.buckets p
  if b.nKeyLength ≠ 0 ∧ isInterned b.arKey = false then
    let (st, key) := st.zendSharedMemdup b.arKey b.nKeyLength
      (st.memory.copyString b.arKey b.nKeyLength)
    some (st.writeBucket p { b with arKey := key })
  else some st

/-- The data pointer of the copy at `p`. What is in a block is up to `pPersistElement`. -/
def persistData (elSize : ℕ) (p : Addr) : Option (PersistState ρ) := do
  let b ← st.memory.buckets p
  match b.pDataPtr, b.pData with
  | none, .block data =>
    let (st, data) := st.zendSharedMemdup data elSize fun _ => st.memory
    some (st.writeBucket p { b with pData := .block data })
  | none, .own _ => none
  | some _, _ => some (st.writeBucket p { b with pData := .own p })

end PersistState

/-- The neighbour in one direction is told where the bucket is now. -/
def Memory.relink (p : Addr) (m : Memory) (l : Link) : Option Memory := do
  let b ← m.buckets p
  match b.link l with
  | none => some m
  | some n => do
    let x ← m.buckets n
    some (m.writeBucket n (x.setLink l.back (some p)))

section Persist

variable (isInterned : Addr → Bool) (pPersistElement : PersistState ρ → Location → PersistState ρ)
  (elSize : ℕ)

/-- The copy of a bucket with its key and its data pointer -/
def copyBucket (st : PersistState ρ) (q : Addr) : Option (PersistState ρ × Addr) := do
  let b ← st.memory.buckets q
  let (st, p) := st.zendSharedMemdup q sizeofBucket fun new => st.memory.writeBucket new b
  let st ← st.persistKey isInterned p
  let st ← st.persistData elSize p
  some (st, p)

/-- A turn of the loop. The old bucket is freed at the end of it. -/
def persistBucket (st : PersistState ρ) (q : Addr) : Option (PersistState ρ × Option Addr) := do
  let (st, p) ← copyBucket isInterned elSize st q
  let b ← st.memory.buckets p
  let st := pPersistElement st b.pData
  let m ← [Link.last, .next, .listLast, .listNext].foldlM (Memory.relink p) st.memory
  let b ← m.buckets p
  some ({ st with memory := { m with buckets := Function.update m.buckets q none } }, b.pListNext)

/-- The loop, with a bound on its turns -/
def persistBuckets : ℕ → PersistState ρ → Option Addr → Option (PersistState ρ)
  | _, st, none => some st
  | 0, _, some _ => none
  | n + 1, st, some q => do
    let (st, next) ← persistBucket isInterned pPersistElement elSize st q
    persistBuckets n st next

/-- The array of slots, which tables that have not been initialized do not have -/
def persistSlots (st : PersistState ρ) (ht : HashTable) : Option (PersistState ρ × HashTable) :=
  if ht.nTableMask = 0 then some (st, { ht with arBuckets := none }) else do
    let t ← ht.arBuckets
    let slots ← st.memory.slots t
    let slots := if ht.nNumOfElements = 0 then slots else slots.map (·.bind st.xlat)
    let (st, t) := st.zendSharedMemdup t (sizeofPointer * ht.nTableSize) fun new =>
      st.memory.writeSlots new slots
    some (st, { ht with arBuckets := some t })

/-- `zend_hash_persist` -/
def zendHashPersist (n : ℕ) (st : PersistState ρ) (ht : HashTable) :
    Option (PersistState ρ × HashTable) := do
  let st ← persistBuckets isInterned pPersistElement elSize n st ht.pListHead
  let ht := { ht with
    pListHead := ht.pListHead.bind st.xlat
    pListTail := ht.pListTail.bind st.xlat
    pInternalPointer := ht.pInternalPointer.bind st.xlat }
  persistSlots st ht

end Persist

namespace Memory

variable {m : Memory} {p x : Addr} {b c : Bucket} {l : Link}

theorem buckets_writeBucket_self : (m.writeBucket p b).buckets p = some b := by simp [writeBucket]

theorem buckets_writeBucket_of_ne (h : x ≠ p) : (m.writeBucket p b).buckets x = m.buckets x := by
  simp [writeBucket, h]

@[simp] theorem strings_writeBucket : (m.writeBucket p b).strings = m.strings := rfl
@[simp] theorem slots_writeBucket : (m.writeBucket p b).slots = m.slots := rfl

/-- After a copy is linked, the neighbours of the old bucket lead to the copy. -/
theorem foldlM_relink (ls : List Link) (hb : m.buckets p = some b)
    (hn : ∀ l ∈ ls, ∀ n, b.link l = some n → n ≠ p ∧ ∃ x, m.buckets n = some x) :
    ∃ m', ls.foldlM (relink p) m = some m' ∧ m'.strings = m.strings ∧ m'.slots = m.slots ∧
      m'.buckets p = some b ∧ (∀ x, m.buckets x = none → m'.buckets x = none) ∧
        ∀ x ≠ p, ∀ c, m.buckets x = some c → ∃ c', m'.buckets x = some c' ∧
          c'.data = c.data ∧ ∀ l, c'.link l =
            if l.back ∈ ls ∧ b.link l.back = some x then some p else c.link l := by
  induction ls generalizing m with
  | nil =>
    exact ⟨m, rfl, rfl, rfl, hb, fun _ h => h, fun x _ c hc => ⟨c, hc, rfl, fun l => by simp⟩⟩
  | cons k ls ih =>
    rw [List.foldlM_cons]
    cases hk : b.link k with
    | none =>
      have hstep : m.relink p k = some m := by simp [relink, hb, hk]
      obtain ⟨m', hm', hstr, hslots, hp, hnone, hother⟩ :=
        ih hb fun l hl n hln => hn l (List.mem_cons_of_mem _ hl) n hln
      refine ⟨m', by simpa [hstep] using hm', hstr, hslots, hp, hnone, fun x hx c hc => ?_⟩
      obtain ⟨c', hc', hdata, hlink⟩ := hother x hx c hc
      refine ⟨c', hc', hdata, fun l => ?_⟩
      rw [hlink]
      by_cases hl : l.back = k
      · simp [hl, hk]
      · simp [hl]
    | some n =>
      obtain ⟨hnp, y, hy⟩ := hn k (by simp) n hk
      have hstep : m.relink p k = some (m.writeBucket n (y.setLink k.back (some p))) := by
        simp [relink, hb, hk, hy]
      have hwrite : ∀ z w, m.buckets z = some w →
          ∃ w', (m.writeBucket n (y.setLink k.back (some p))).buckets z = some w' ∧
            w'.data = w.data ∧ ∀ l, w'.link l =
              if l.back = k ∧ z = n then some p else w.link l := by
        intro z w hw
        by_cases hz : z = n
        · subst hz
          obtain rfl : y = w := Option.some.inj (hy.symm.trans hw)
          refine ⟨_, buckets_writeBucket_self, Bucket.data_setLink y, fun l => ?_⟩
          rw [Bucket.link_setLink]
          have hback : l = k.back ↔ l.back = k :=
            ⟨fun h => by rw [h, Link.back_back], fun h => by rw [← h, Link.back_back]⟩
          simp [hback]
        · exact ⟨w, by rw [buckets_writeBucket_of_ne hz, hw], rfl, fun l => by simp [hz]⟩
      have hb' : (m.writeBucket n (y.setLink k.back (some p))).buckets p = some b := by
        rw [buckets_writeBucket_of_ne hnp.symm, hb]
      obtain ⟨m', hm', hstr, hslots, hp, hnone, hother⟩ := ih hb' fun l hl z hz => by
        obtain ⟨hzp, w, hw⟩ := hn l (List.mem_cons_of_mem _ hl) z hz
        obtain ⟨w', hw', -⟩ := hwrite z w hw
        exact ⟨hzp, w', hw'⟩
      refine ⟨m', by simpa [hstep] using hm', hstr, hslots, hp, fun x hx => ?_, fun x hx c hc => ?_⟩
      · have hxn : x ≠ n := by
          rintro rfl
          simp [hy] at hx
        exact hnone x (by rw [buckets_writeBucket_of_ne hxn, hx])
      obtain ⟨c₁, hc₁, hdata₁, hlink₁⟩ := hwrite x c hc
      obtain ⟨c', hc', hdata, hlink⟩ := hother x hx c₁ hc₁
      refine ⟨c', hc', hdata.trans hdata₁, fun l => ?_⟩
      rw [hlink, hlink₁]
      by_cases hl : l.back = k
      · by_cases hxn : x = n
        · simp [hl, hk, hxn]
        · have hne : b.link k ≠ some x := by
            rw [hk]
            exact fun h => hxn (Option.some.inj h).symm
          simp [hl, hxn, hne]
      · simp [hl]

end Memory

/-- The key of a bucket, unless it is interned -/
def Bucket.keyBlocks (isInterned : Addr → Bool) (b : Bucket) : List Addr :=
  if b.nKeyLength ≠ 0 ∧ isInterned b.arKey = false then [b.arKey] else []

/-- What `pData` leads to outside of a bucket -/
def Bucket.dataBlocks (b : Bucket) : List Addr :=
  match b.pDataPtr, b.pData with
  | none, .block d => [d]
  | _, _ => []

namespace Memory

/-- The blocks of a bucket, its own first -/
def blocksOf (isInterned : Addr → Bool) (m : Memory) (a : Addr) : List Addr :=
  match m.buckets a with
  | none => [a]
  | some b => a :: (b.keyBlocks isInterned ++ b.dataBlocks)

theorem mem_blocksOf_self {m : Memory} {x : Addr} {isInterned : Addr → Bool} :
    x ∈ m.blocksOf isInterned x := by
  unfold blocksOf
  split <;> simp

end Memory

theorem le_zendAlignedSize (size : ℕ) : size ≤ zendAlignedSize size := by
  unfold zendAlignedSize
  omega

/-- The address is not in what `ZCG(mem)` still leads to from `n` on. -/
def Before (n : ℕ) : Addr → Prop
  | .process _ => True
  | .shared k => k < n

theorem Before.ne {n k : ℕ} {a : Addr} (h : Before n a) (hk : n ≤ k) : a ≠ .shared k := by
  rintro rfl
  exact absurd h (Nat.not_lt.mpr hk)

/-- A block that has been taken from the memory between two positions -/
def Within (lo hi size : ℕ) (a : Addr) : Prop := ∃ k, a = .shared k ∧ lo ≤ k ∧ k + size ≤ hi

theorem Within.mono {lo lo' hi hi' size : ℕ} {a : Addr} (h : Within lo hi size a) (hlo : lo' ≤ lo)
    (hhi : hi ≤ hi') : Within lo' hi' size a := by
  obtain ⟨k, rfl, h₁, h₂⟩ := h
  exact ⟨k, rfl, hlo.trans h₁, h₂.trans hhi⟩

/-- What is before position `n` is as it was, and only the blocks `bs` are new in the table. -/
structure Extends (n : ℕ) (bs : List Addr) (st st' : PersistState ρ) : Prop where
  bucket : ∀ a, Before n a → st'.memory.buckets a = st.memory.buckets a
  string : ∀ a, Before n a → st'.memory.strings a = st.memory.strings a
  slots : st'.memory.slots = st.memory.slots
  mem : st.mem ≤ st'.mem
  xlat : ∀ a, a ∉ bs → st'.xlat a = st.xlat a
  rest : st'.rest = st.rest

theorem Extends.trans {n : ℕ} {bs bs' : List Addr} {st st₁ st₂ : PersistState ρ}
    (h : Extends n bs st st₁) (h' : Extends n bs' st₁ st₂) : Extends n (bs ++ bs') st st₂ where
  bucket a ha := (h'.bucket a ha).trans (h.bucket a ha)
  string a ha := (h'.string a ha).trans (h.string a ha)
  slots := h'.slots.trans h.slots
  mem := h.mem.trans h'.mem
  xlat a ha := (h'.xlat a fun hmem => ha (by simp [hmem])).trans
    (h.xlat a fun hmem => ha (by simp [hmem]))
  rest := h'.rest.trans h.rest

/-- A copy has its key and its data within the memory that has been taken. -/
structure Copied (isInterned : Addr → Bool) (elSize lo hi : ℕ) (p : Addr) (b : Bucket) : Prop where
  key : b.nKeyLength = 0 ∨ isInterned b.arKey = true ∨ Within lo hi b.nKeyLength b.arKey
  data : b.pData = .own p ∨ ∃ d, b.pData = .block d ∧ Within lo hi elSize d

namespace PersistState

variable {st : PersistState ρ} {isInterned : Addr → Bool} {elSize size : ℕ} {a p q : Addr}
  {b : Bucket} {copy : Addr → Memory} {k : Key}

theorem zendSharedMemdup_eq (h : st.xlat a = none) : st.zendSharedMemdup a size copy =
    (⟨copy (.shared st.mem), st.mem + zendAlignedSize size,
      Function.update st.xlat a (some (.shared st.mem)), st.rest⟩, .shared st.mem) := by
  simp [zendSharedMemdup, h]

variable (isInterned) in
/-- The key of a copy at `p` -/
theorem persistKey_spec {n : ℕ} (hn : n < st.mem) (hb : st.memory.buckets (.shared n) = some b)
    (hx : b.nKeyLength ≠ 0 → isInterned b.arKey = false → st.xlat b.arKey = none) :
    ∃ st' b', st.persistKey isInterned (.shared n) = some st' ∧
      Extends n (b.keyBlocks isInterned) st st' ∧
      st'.memory.buckets (.shared n) = some b' ∧ b'.h = b.h ∧ (∀ l, b'.link l = b.link l) ∧
      st'.memory.keyOf b' = st.memory.keyOf b ∧ b'.pDataPtr = b.pDataPtr ∧ b'.pData = b.pData ∧
      (b'.nKeyLength = 0 ∨ isInterned b'.arKey = true ∨
        Within st.mem st'.mem b'.nKeyLength b'.arKey) := by
  unfold persistKey Bucket.keyBlocks
  simp only [hb, Option.bind_eq_bind, Option.bind_some]
  split_ifs with hcond
  · rw [zendSharedMemdup_eq (hx hcond.1 hcond.2)]
    refine ⟨_, { b with arKey := .shared st.mem }, rfl, ?_, ?_, rfl, fun l => ?_, ?_, rfl, rfl,
      .inr (.inr ⟨st.mem, rfl, le_rfl, ?_⟩)⟩
    · constructor
      · intro a ha
        exact Memory.buckets_writeBucket_of_ne (ha.ne le_rfl)
      · intro a ha
        exact Function.update_of_ne (ha.ne hn.le) _ _
      · rfl
      · exact Nat.le_add_right _ _
      · intro a ha
        exact Function.update_of_ne (by simpa using ha) _ _
      · rfl
    · exact Memory.buckets_writeBucket_self
    · cases l <;> rfl
    · have hne := hcond.1
      simp [Memory.keyOf, writeBucket, Memory.copyString, hne, Function.comp_def, List.take_take]
    · exact Nat.add_le_add_left (le_zendAlignedSize _) _
  · refine ⟨st, b, rfl, ?_, hb, rfl, fun _ => rfl, rfl, rfl, rfl, ?_⟩
    · exact ⟨fun _ _ => rfl, fun _ _ => rfl, rfl, le_rfl, fun _ _ => rfl, rfl⟩
    · by_cases h₀ : b.nKeyLength = 0
      · exact .inl h₀
      · exact .inr (.inl (by simpa using fun h => hcond ⟨h₀, h⟩))

variable (elSize) in
/-- The data pointer of a copy at `p` -/
theorem persistData_spec {n : ℕ} (hb : st.memory.buckets (.shared n) = some b)
    (hx : ∀ d, b.pDataPtr = none → b.pData = .block d → st.xlat d = none)
    (hd : b.pDataPtr = none → ∃ d, b.pData = .block d) :
    ∃ st' b', st.persistData elSize (.shared n) = some st' ∧
      Extends n b.dataBlocks st st' ∧
      st'.memory.strings = st.memory.strings ∧ st'.memory.buckets (.shared n) = some b' ∧
      b'.h = b.h ∧ b'.nKeyLength = b.nKeyLength ∧ b'.arKey = b.arKey ∧ (∀ l, b'.link l = b.link l) ∧
      (b'.pData = .own (.shared n) ∨ ∃ d, b'.pData = .block d ∧
        Within st.mem st'.mem elSize d) := by
  unfold persistData Bucket.dataBlocks
  simp only [hb, Option.bind_eq_bind, Option.bind_some]
  cases hp : b.pDataPtr with
  | some z =>
    refine ⟨_, _, rfl, ?_, rfl,
      Memory.buckets_writeBucket_self, rfl, rfl, rfl, fun l => by cases l <;> rfl, .inl rfl⟩
    exact ⟨fun a ha => Memory.buckets_writeBucket_of_ne (ha.ne le_rfl), fun _ _ => rfl, rfl, le_rfl,
      fun _ _ => rfl, rfl⟩
  | none =>
    obtain ⟨d, hd⟩ := hd hp
    simp only [hd, zendSharedMemdup_eq (hx d hp hd)]
    refine ⟨_, _, rfl, ?_, rfl,
      Memory.buckets_writeBucket_self, rfl, rfl, rfl, fun l => by cases l <;> rfl,
      .inr ⟨_, rfl, st.mem, rfl, le_rfl, Nat.add_le_add_left (le_zendAlignedSize _) _⟩⟩
    exact ⟨fun a ha => Memory.buckets_writeBucket_of_ne (ha.ne le_rfl), fun _ _ => rfl, rfl,
      Nat.le_add_right _ _, fun a ha => Function.update_of_ne (by simpa using ha) _ _, rfl⟩

end PersistState

theorem keyOf_congr {m m' : Memory} {b c : Bucket} (hh : c.h = b.h)
    (hlen : c.nKeyLength = b.nKeyLength)
    (hkey : c.arKey = b.arKey) (hstr : b.nKeyLength ≠ 0 → m'.strings b.arKey = m.strings b.arKey) :
    m'.keyOf c = m.keyOf b := by
  unfold Memory.keyOf
  rw [hh, hlen, hkey]
  split_ifs with h₀
  · rfl
  · rw [hstr h₀]

section Copy

variable {st : PersistState ρ} {isInterned : Addr → Bool} {elSize : ℕ} {q : Addr} {b : Bucket}

variable (isInterned elSize) in
/-- A bucket is copied with its links, key and data. -/
theorem copyBucket_spec (hq : st.memory.buckets q = some b)
    (hun : ∀ a ∈ st.memory.blocksOf isInterned q, st.xlat a = none)
    (hnodup : (st.memory.blocksOf isInterned q).Nodup)
    (hkey : b.nKeyLength ≠ 0 → Before st.mem b.arKey)
    (hd : b.pDataPtr = none → ∃ d, b.pData = .block d) :
    ∃ st' b', copyBucket isInterned elSize st q = some (st', .shared st.mem) ∧
      Extends st.mem (st.memory.blocksOf isInterned q) st st' ∧
      st'.xlat q = some (.shared st.mem) ∧ st.mem + sizeofBucket ≤ st'.mem ∧
      st'.memory.buckets (.shared st.mem) = some b' ∧ b'.h = b.h ∧ (∀ l, b'.link l = b.link l) ∧
      st'.memory.keyOf b' = st.memory.keyOf b ∧
      Copied isInterned elSize st.mem st'.mem (.shared st.mem) b' := by
  have hblocks : st.memory.blocksOf isInterned q =
      q :: (b.keyBlocks isInterned ++ b.dataBlocks) := by rw [Memory.blocksOf, hq]
  rw [hblocks] at hun hnodup
  obtain ⟨hq', hnodup'⟩ := List.nodup_cons.mp hnodup
  obtain ⟨-, -, hdisj⟩ := List.nodup_append.mp hnodup'
  unfold copyBucket
  simp only [hq, Option.bind_eq_bind, Option.bind_some,
    PersistState.zendSharedMemdup_eq (hun q (by simp))]
  generalize hst₁ : (⟨st.memory.writeBucket (.shared st.mem) b,
    st.mem + zendAlignedSize sizeofBucket,
    Function.update st.xlat q (some (.shared st.mem)), st.rest⟩ : PersistState ρ) = st₁
  have hmem₁ : st₁.mem = st.mem + zendAlignedSize sizeofBucket := by rw [← hst₁]
  have hsize := le_zendAlignedSize sizeofBucket
  have hpos : st.mem < st₁.mem := by rw [hmem₁]; exact Nat.lt_add_of_pos_right (by decide)
  have h₁ : Extends st.mem [q] st st₁ := by
    subst hst₁
    exact ⟨fun a ha => Memory.buckets_writeBucket_of_ne (ha.ne le_rfl), fun _ _ => rfl, rfl,
      Nat.le_add_right _ _, fun a ha => Function.update_of_ne (by simpa using ha) _ _, rfl⟩
  have hb₁ : st₁.memory.buckets (.shared st.mem) = some b := by
    subst hst₁
    exact Memory.buckets_writeBucket_self
  have hxlat : ∀ a, a ≠ q → st₁.xlat a = st.xlat a := fun a ha => h₁.xlat a (by simpa using ha)
  have hxq : st₁.xlat q = some (.shared st.mem) := by
    subst hst₁
    exact Function.update_self _ _ _
  -- the key
  have hne : ∀ {x}, x ∈ b.keyBlocks isInterned ++ b.dataBlocks → x ≠ q := fun hx h => hq' (h ▸ hx)
  obtain ⟨st₂, b₂, hrun₂, h₂, hb₂, hh₂, hlink₂, hkey₂, hptr₂, hdata₂, hin₂⟩ :=
    PersistState.persistKey_spec isInterned hpos hb₁ fun hk₁ hk₂ => by
      have hmem : b.arKey ∈ b.keyBlocks isInterned ++ b.dataBlocks := by
        simp [Bucket.keyBlocks, hk₁, hk₂]
      rw [hxlat _ (hne hmem)]
      exact hun _ (List.mem_cons_of_mem _ hmem)
  -- the data
  obtain ⟨st₃, b₃, hrun₃, h₃, hstr₃, hb₃, hh₃, hlen₃, har₃, hlink₃, hin₃⟩ :=
    PersistState.persistData_spec elSize hb₂
      (fun d hp hpd => by
        rw [hptr₂] at hp
        rw [hdata₂] at hpd
        have hmem : d ∈ b.dataBlocks := by simp [Bucket.dataBlocks, hp, hpd]
        have hmem' : d ∈ b.keyBlocks isInterned ++ b.dataBlocks := List.mem_append_right _ hmem
        rw [h₂.xlat, hxlat _ (hne hmem')]
        · exact hun _ (List.mem_cons_of_mem _ hmem')
        · exact fun h => hdisj d h d hmem rfl)
      (fun hp => hdata₂ ▸ hd (hptr₂ ▸ hp))
  have hsame : b₂.dataBlocks = b.dataBlocks := by simp [Bucket.dataBlocks, hptr₂, hdata₂]
  rw [hsame] at h₃
  refine ⟨st₃, b₃, ?_, ?_, ?_, ?_, hb₃, hh₃.trans hh₂, fun l => (hlink₃ l).trans (hlink₂ l), ?_, ?_⟩
  · simp [hrun₂, hrun₃]
  · rw [hblocks]
    exact h₁.trans (h₂.trans h₃)
  · rw [h₃.xlat, h₂.xlat, hxq]
    · exact fun h => hne (List.mem_append_left _ h) rfl
    · exact fun h => hne (List.mem_append_right _ h) rfl
  · have := h₂.mem.trans h₃.mem
    omega
  · have hk : st₃.memory.keyOf b₃ = st₂.memory.keyOf b₂ := by
      simp [Memory.keyOf, hstr₃, hh₃, hlen₃, har₃]
    have hk₁ : st₁.memory.keyOf b = st.memory.keyOf b :=
      keyOf_congr rfl rfl rfl fun h₀ => h₁.string _ (hkey h₀)
    rw [hk, hkey₂, hk₁]
  · constructor
    · rw [hlen₃, har₃]
      exact hin₂.imp_right (Or.imp_right fun h => h.mono hpos.le h₃.mem)
    · exact hin₃.imp_right fun ⟨d, hd, h⟩ => ⟨d, hd, h.mono (hpos.le.trans h₂.mem) le_rfl⟩

end Copy

/-- The blocks of a table -/
def tableBlocks (isInterned : Addr → Bool) (m : Memory) (ht : HashTable) (as : List Addr) :
    List Addr :=
  as.flatMap (m.blocksOf isInterned) ++ ht.arBuckets.toList

/-- What `pPersistElement` leaves alone: the table, which does not belong to the elements, and what
has been copied before. It may set the `pDataPtr` of a copy. -/
structure Keeps (table : List Addr) (st st' : PersistState ρ) : Prop where
  bucket : ∀ a ∈ table, st'.memory.buckets a = st.memory.buckets a
  copy : ∀ k < st.mem, ∀ b, st.memory.buckets (.shared k) = some b →
    ∃ p, st'.memory.buckets (.shared k) = some { b with pDataPtr := p }
  string : ∀ a, (a ∈ table ∨ ∃ k < st.mem, a = .shared k) →
    st'.memory.strings a = st.memory.strings a
  slots : ∀ a ∈ table, st'.memory.slots a = st.memory.slots a
  mem : st.mem ≤ st'.mem
  xlat : ∀ a ∈ table, st'.xlat a = st.xlat a

/-- `pPersistElement` does so as long as the rest of the memory is good, which it stays. -/
structure Persists (Good : ρ → Prop) (table : List Addr)
    (pPersistElement : PersistState ρ → Location → PersistState ρ) : Prop where
  keeps : ∀ st l, Good st.rest → Keeps table st (pPersistElement st l)
  good : ∀ st l, Good st.rest → Good (pPersistElement st l).rest

/-- A table of the process, none of which has been copied. Its blocks are its own. -/
structure Ready (isInterned : Addr → Bool) (st : PersistState ρ) (ht : HashTable) (as : List Addr) :
    Prop where
  wf : WellFormed st.memory ht as
  nodup : (tableBlocks isInterned st.memory ht as).Nodup
  process : ∀ a ∈ tableBlocks isInterned st.memory ht as, ∃ k, a = .process k
  xlat : ∀ a ∈ tableBlocks isInterned st.memory ht as, st.xlat a = none
  data : ∀ a ∈ as, ∀ b, st.memory.buckets a = some b → b.pDataPtr = none → ∃ d, b.pData = .block d
  interned : ∀ a, isInterned a = true → ∃ k < st.mem, a = .shared k

/-- The loop is before the first bucket of `rest`; the buckets are where `f` says. -/
structure Moving (Good : ρ → Prop) (isInterned : Addr → Bool) (elSize : ℕ) (st₀ : PersistState ρ)
    (ht : HashTable) (as rest : List Addr) (f : Addr → Addr) (st : PersistState ρ) : Prop where
  sub : ∀ a ∈ rest, a ∈ as
  nodup : rest.Nodup
  list : ∃ p, Linked (st₀.memory.link .listNext) (st₀.memory.link .listLast) p rest
  located : Relocated st₀.memory st.memory as f
  stay : ∀ a ∈ rest, f a = a ∧ ∀ b, st₀.memory.buckets a = some b →
    ∃ b', st.memory.buckets a = some b' ∧ b'.data = b.data
  moved : ∀ a ∈ as, a ∉ rest → Within st₀.mem st.mem sizeofBucket (f a) ∧
    st.xlat a = some (f a) ∧ st.memory.buckets a = none ∧
      ∃ b, st.memory.buckets (f a) = some b ∧ Copied isInterned elSize st₀.mem st.mem (f a) b
  string : ∀ a, (a ∈ tableBlocks isInterned st₀.memory ht as ∨ ∃ k < st₀.mem, a = .shared k) →
    st.memory.strings a = st₀.memory.strings a
  slots : ∀ a ∈ tableBlocks isInterned st₀.memory ht as, st.memory.slots a = st₀.memory.slots a
  mem : st₀.mem ≤ st.mem
  xlat : ∀ a ∈ tableBlocks isInterned st₀.memory ht rest, st.xlat a = none
  good : Good st.rest

theorem Copied.congr {isInterned : Addr → Bool} {elSize lo lo' hi hi' : ℕ} {p : Addr}
    {b b' : Bucket} (h : Copied isInterned elSize lo hi p b) (hlo : lo' ≤ lo) (hhi : hi ≤ hi')
    (hlen : b'.nKeyLength = b.nKeyLength)
    (hkey : b'.arKey = b.arKey) (hdata : b'.pData = b.pData) :
    Copied isInterned elSize lo' hi' p b' where
  key := by
    rw [hlen, hkey]
    exact h.key.imp_right (Or.imp_right fun h => h.mono hlo hhi)
  data := by
    rw [hdata]
    exact h.data.imp_right fun ⟨d, hd, h⟩ => ⟨d, hd, h.mono hlo hhi⟩

section Blocks

variable {isInterned : Addr → Bool} {m m' : Memory} {ht : HashTable} {as rest : List Addr}
  {a x : Addr} {b b' : Bucket}

theorem mem_tableBlocks_of_mem (ha : a ∈ as) : a ∈ tableBlocks isInterned m ht as :=
  List.mem_append_left _ (List.mem_flatMap.mpr ⟨a, ha, Memory.mem_blocksOf_self⟩)

theorem tableBlocks_subset (h : ∀ a ∈ rest, a ∈ as) (hx : x ∈ tableBlocks isInterned m ht rest) :
    x ∈ tableBlocks isInterned m ht as := by
  rcases List.mem_append.mp hx with hx | hx
  · obtain ⟨a, ha, hx⟩ := List.mem_flatMap.mp hx
    exact List.mem_append_left _ (List.mem_flatMap.mpr ⟨a, h a ha, hx⟩)
  · exact List.mem_append_right _ hx

variable (isInterned ht) in
/-- The key of a bucket is one of the blocks, or is interned, or there is none. -/
theorem arKey_mem (ha : a ∈ as) (hb : m.buckets a = some b) : b.nKeyLength = 0 ∨
    isInterned b.arKey = true ∨ b.arKey ∈ tableBlocks isInterned m ht as := by
  by_cases h₀ : b.nKeyLength = 0
  · exact .inl h₀
  · cases hi : isInterned b.arKey with
    | true => exact .inr (.inl rfl)
    | false =>
      refine .inr (.inr (List.mem_append_left _ (List.mem_flatMap.mpr ⟨a, ha, ?_⟩)))
      simp [Memory.blocksOf, hb, Bucket.keyBlocks, h₀, hi]

theorem blocksOf_congr (hb : m.buckets a = some b) (hb' : m'.buckets a = some b')
    (h : b'.data = b.data) : m'.blocksOf isInterned a = m.blocksOf isInterned a := by
  simp only [Bucket.data, Prod.mk.injEq] at h
  obtain ⟨-, h₁, h₂, h₃, h₄⟩ := h
  simp only [Memory.blocksOf, hb, hb', Bucket.keyBlocks, Bucket.dataBlocks, h₁, h₂, h₃, h₄]

end Blocks

section Step

variable {Good : ρ → Prop} {isInterned : Addr → Bool}
  {pPersistElement : PersistState ρ → Location → PersistState ρ}
  {elSize : ℕ} {st₀ st st' : PersistState ρ} {ht : HashTable} {as rest : List Addr}
  {f : Addr → Addr} {q a : Addr} {b c : Bucket}

/-- Each bucket is in what `pPersistElement` leaves alone. -/
theorem Moving.kept (h : Moving Good isInterned elSize st₀ ht as rest f st) (ha : a ∈ as) :
    (f a = a ∧ a ∈ rest ∧ a ∈ tableBlocks isInterned st₀.memory ht as) ∨
      ∃ k < st.mem, f a = .shared k := by
  by_cases hr : a ∈ rest
  · exact .inl ⟨(h.stay a hr).1, hr, mem_tableBlocks_of_mem ha⟩
  · obtain ⟨⟨k, hk, -, hle⟩, -⟩ := h.moved a ha hr
    exact .inr ⟨k, by unfold sizeofBucket at hle; omega, hk⟩

theorem Moving.before (hr : Ready isInterned st₀ ht as)
    (h : Moving Good isInterned elSize st₀ ht as rest f st) (ha : a ∈ as) :
      Before st.mem (f a) := by
  rcases h.kept ha with ⟨hf, -, hmem⟩ | ⟨k, hk, hf⟩
  · obtain ⟨k, hk⟩ := hr.process a hmem
    rw [hf, hk]
    trivial
  · rw [hf]
    exact hk

/-- So is its key. -/
theorem Moving.key_kept (hr : Ready isInterned st₀ ht as)
    (h : Moving Good isInterned elSize st₀ ht as rest f st) (ha : a ∈ as)
    (hc : st.memory.buckets (f a) = some c) : c.nKeyLength = 0 ∨
      c.arKey ∈ tableBlocks isInterned st₀.memory ht as ∨ ∃ k < st.mem, c.arKey = .shared k := by
  by_cases hrest : a ∈ rest
  · obtain ⟨b, hb⟩ := hr.wf.isSome a ha
    obtain ⟨hf, hdata⟩ := h.stay a hrest
    obtain ⟨b', hb', hdata⟩ := hdata b hb
    rw [hf] at hc
    obtain rfl : c = b' := Option.some.inj (hc.symm.trans hb')
    simp only [Bucket.data, Prod.mk.injEq] at hdata
    rw [hdata.2.1, hdata.2.2.1]
    rcases arKey_mem isInterned ht ha hb with h₀ | hi | hmem
    · exact .inl h₀
    · obtain ⟨k, hk, heq⟩ := hr.interned _ hi
      exact .inr (.inr ⟨k, hk.trans_le h.mem, heq⟩)
    · exact .inr (.inl hmem)
  · obtain ⟨-, -, -, c', hc', hcopied⟩ := h.moved a ha hrest
    obtain rfl : c = c' := Option.some.inj (hc.symm.trans hc')
    rcases hcopied.key with h₀ | hi | ⟨k, hk, -, hle⟩
    · exact .inl h₀
    · obtain ⟨k, hk, heq⟩ := hr.interned _ hi
      exact .inr (.inr ⟨k, hk.trans_le h.mem, heq⟩)
    · by_cases h₀ : c.nKeyLength = 0
      · exact .inl h₀
      · exact .inr (.inr ⟨k, by omega, hk⟩)

/-- Bucket `q` is copied to the end of the memory, and its element is stored. -/
structure Stored (isInterned : Addr → Bool) (elSize : ℕ) (table : List Addr) (q : Addr) (b : Bucket)
    (st st' : PersistState ρ) : Prop where
  bucket : ∀ a ∈ table, st'.memory.buckets a = st.memory.buckets a
  copy : ∀ k < st.mem, ∀ c, st.memory.buckets (.shared k) = some c →
    ∃ p, st'.memory.buckets (.shared k) = some { c with pDataPtr := p }
  string : ∀ a, (a ∈ table ∨ ∃ k < st.mem, a = .shared k) →
    st'.memory.strings a = st.memory.strings a
  slots : ∀ a ∈ table, st'.memory.slots a = st.memory.slots a
  mem : st.mem + sizeofBucket ≤ st'.mem
  xlat : ∀ a ∈ table, a ∉ st.memory.blocksOf isInterned q → st'.xlat a = st.xlat a
  xlat_self : st'.xlat q = some (.shared st.mem)
  new : ∃ b', st'.memory.buckets (.shared st.mem) = some b' ∧ b'.h = b.h ∧
    (∀ l, b'.link l = b.link l) ∧ st'.memory.keyOf b' = st.memory.keyOf b ∧
      Copied isInterned elSize st.mem st'.mem (.shared st.mem) b'

theorem link_pDataPtr (b : Bucket) (z : Option Addr) (l : Link) :
    ({ b with pDataPtr := z } : Bucket).link l = b.link l := by cases l <;> rfl

theorem stored {table : List Addr} {st₁ : PersistState ρ} {b₁ : Bucket}
    (hprocess : ∀ a ∈ table, ∃ k, a = .process k) (hq : q ∈ table)
    (hinterned : ∀ a, isInterned a = true → ∃ k < st.mem, a = .shared k)
    (hext : Extends st.mem (st.memory.blocksOf isInterned q) st st₁)
    (hxlat : st₁.xlat q = some (.shared st.mem)) (hmem : st.mem + sizeofBucket ≤ st₁.mem)
    (hb₁ : st₁.memory.buckets (.shared st.mem) = some b₁) (hh : b₁.h = b.h)
    (hlink : ∀ l, b₁.link l = b.link l) (hkey : st₁.memory.keyOf b₁ = st.memory.keyOf b)
    (hcopied : Copied isInterned elSize st.mem st₁.mem (.shared st.mem) b₁)
    (hk : Keeps table st₁ st') : Stored isInterned elSize table q b st st' := by
  have hpos : 0 < sizeofBucket := by decide
  have hbefore : ∀ a ∈ table, Before st.mem a := fun a ha => by
    obtain ⟨k, rfl⟩ := hprocess a ha
    trivial
  constructor
  · exact fun a ha => (hk.bucket a ha).trans (hext.bucket a (hbefore a ha))
  · intro k hlt c hc
    exact hk.copy k (hlt.trans_le hext.mem) c ((hext.bucket (.shared k) hlt).trans hc)
  · intro a ha
    rcases ha with ha | ⟨k, hlt, rfl⟩
    · exact (hk.string a (.inl ha)).trans (hext.string a (hbefore a ha))
    · exact (hk.string _ (.inr ⟨k, hlt.trans_le hext.mem, rfl⟩)).trans (hext.string (.shared k) hlt)
  · exact fun a ha => (hk.slots a ha).trans (congrFun hext.slots a)
  · exact hmem.trans hk.mem
  · exact fun a ha hnot => (hk.xlat a ha).trans (hext.xlat a hnot)
  · exact (hk.xlat q hq).trans hxlat
  · obtain ⟨z, hz⟩ := hk.copy st.mem (by omega) b₁ hb₁
    refine ⟨_, hz, hh, fun l => (link_pDataPtr b₁ z l).trans (hlink l), ?_,
      hcopied.congr le_rfl hk.mem rfl rfl rfl⟩
    rw [← hkey]
    refine keyOf_congr rfl rfl rfl fun h₀ => hk.string _ (.inr ?_)
    -- the key is interned or is a copy
    rcases hcopied.key with h | h | ⟨k, hk', -, hle⟩
    · exact absurd h h₀
    · obtain ⟨k, hlt, heq⟩ := hinterned _ h
      exact ⟨k, by omega, heq⟩
    · exact ⟨k, by omega, hk'⟩

/-- Where a bucket is found after another one has been stored -/
theorem Moving.bucket_stored (h : Moving Good isInterned elSize st₀ ht as rest f st)
    (hs : Stored isInterned elSize (tableBlocks isInterned st₀.memory ht as) q b st st')
    (ha : a ∈ as) (hc : st.memory.buckets (f a) = some c) :
    ∃ z, st'.memory.buckets (f a) = some { c with pDataPtr := z } := by
  rcases h.kept ha with ⟨hf, -, hmem⟩ | ⟨k, hk, hf⟩
  · rw [hf] at hc ⊢
    exact ⟨c.pDataPtr, (hs.bucket a hmem).trans hc⟩
  · rw [hf] at hc ⊢
    exact hs.copy k hk c hc

/-- The first bucket that is left -/
theorem Moving.first (hr : Ready isInterned st₀ ht as)
    (h : Moving Good isInterned elSize st₀ ht as (q :: rest) f st) : q ∈ as ∧ f q = q ∧
      ∃ b₀ b, st₀.memory.buckets q = some b₀ ∧ st.memory.buckets q = some b ∧ b.data = b₀.data ∧
        b.h = b₀.h ∧ st.memory.keyOf b = st₀.memory.keyOf b₀ ∧
          (∀ l, b.link l = (b₀.link l).map f) ∧
            st.memory.blocksOf isInterned q = st₀.memory.blocksOf isInterned q := by
  have hq := h.sub q (by simp)
  obtain ⟨hfq, hdata⟩ := h.stay q (by simp)
  obtain ⟨b₀, hb₀⟩ := hr.wf.isSome q hq
  obtain ⟨b, hb, hdata⟩ := hdata b₀ hb₀
  obtain ⟨b', hb', hh, hkey, hlink⟩ := h.located.bucket q hq b₀ hb₀
  rw [hfq] at hb'
  obtain rfl : b = b' := Option.some.inj (hb.symm.trans hb')
  exact ⟨hq, hfq, b₀, b, hb₀, hb, hdata, hh, hkey, hlink, blocksOf_congr hb₀ hb hdata⟩

theorem Moving.stored_first (hr : Ready isInterned st₀ ht as)
    (hf : Persists Good (tableBlocks isInterned st₀.memory ht as) pPersistElement)
    (h : Moving Good isInterned elSize st₀ ht as (q :: rest) f st)
    (hb : st.memory.buckets q = some b) :
    ∃ st₁ b₁, copyBucket isInterned elSize st q = some (st₁, .shared st.mem) ∧
      st₁.memory.buckets (.shared st.mem) = some b₁ ∧
        Stored isInterned elSize (tableBlocks isInterned st₀.memory ht as) q b st
          (pPersistElement st₁ b₁.pData) ∧ Good (pPersistElement st₁ b₁.pData).rest := by
  obtain ⟨hq, -, b₀, b', hb₀, hb', hdata, -, -, -, hblocks⟩ := h.first hr
  obtain rfl : b = b' := Option.some.inj (hb.symm.trans hb')
  have hmem : ∀ a ∈ st.memory.blocksOf isInterned q,
      a ∈ tableBlocks isInterned st₀.memory ht (q :: rest) := fun a ha =>
    List.mem_append_left _ (List.mem_flatMap.mpr ⟨q, by simp, hblocks ▸ ha⟩)
  have hinterned : ∀ a, isInterned a = true → ∃ k < st.mem, a = .shared k := fun a ha => by
    obtain ⟨k, hk, heq⟩ := hr.interned a ha
    exact ⟨k, hk.trans_le h.mem, heq⟩
  simp only [Bucket.data, Prod.mk.injEq] at hdata
  -- the blocks of one bucket are different
  have hnodup : (st.memory.blocksOf isInterned q).Nodup := by
    rw [hblocks]
    exact (List.nodup_flatMap.mp (List.nodup_append.mp hr.nodup).1).1 q hq
  have hkey : b.nKeyLength ≠ 0 → Before st.mem b.arKey := fun h₀ => by
    rcases h.key_kept hr hq ((h.stay q (by simp)).1.symm ▸ hb) with h | h | ⟨k, hk, heq⟩
    · exact absurd h h₀
    · obtain ⟨k, hk⟩ := hr.process _ h
      rw [hk]
      trivial
    · rw [heq]
      exact hk
  have hdata' : b.pDataPtr = none → ∃ d, b.pData = .block d := fun hp => by
    obtain ⟨d, hd⟩ := hr.data q hq b₀ hb₀ (hdata.2.2.2.2 ▸ hp)
    exact ⟨d, hdata.2.2.2.1.trans hd⟩
  obtain ⟨st₁, b₁, hrun, hext, hxlat, hsize, hb₁, hh, hlink, hkeyOf, hcopied⟩ :=
    copyBucket_spec isInterned elSize hb
      (fun a ha => h.xlat a (hmem a ha)) hnodup hkey hdata'
  have hgood : Good st₁.rest := hext.rest ▸ h.good
  exact ⟨st₁, b₁, hrun, hb₁, stored hr.process (mem_tableBlocks_of_mem hq) hinterned hext hxlat
    hsize hb₁ hh hlink hkeyOf hcopied (hf.keeps _ _ hgood), hf.good _ _ hgood⟩

/-- After the element has been stored, the neighbours are linked to the copy and the old bucket is
freed. -/
structure Turned (as : List Addr) (f : Addr → Addr) (q : Addr) (b : Bucket) (n : ℕ)
    (st st' : PersistState ρ) : Prop where
  mem : st'.mem = st.mem
  xlat : st'.xlat = st.xlat
  string : st'.memory.strings = st.memory.strings
  slots : st'.memory.slots = st.memory.slots
  gone : st'.memory.buckets q = none
  new : st'.memory.buckets (.shared n) = st.memory.buckets (.shared n)
  none : ∀ x, st.memory.buckets x = none → st'.memory.buckets x = none
  rest : st'.rest = st.rest
  other : ∀ x ∈ as, x ≠ q → ∀ c, st.memory.buckets (f x) = some c → ∃ c',
    st'.memory.buckets (f x) = some c' ∧ c'.data = c.data ∧ ∀ l, c'.link l =
      if b.link l.back = some (f x) then some (.shared n) else c.link l

/-- A turn of the loop -/
theorem Moving.turned (hr : Ready isInterned st₀ ht as)
    (hf : Persists Good (tableBlocks isInterned st₀.memory ht as) pPersistElement)
    (h : Moving Good isInterned elSize st₀ ht as (q :: rest) f st) (hb : st.memory.buckets q =
      some b) :
    ∃ st₂ st', persistBucket isInterned pPersistElement elSize st q = some (st', rest.head?) ∧
      Stored isInterned elSize (tableBlocks isInterned st₀.memory ht as) q b st st₂ ∧
        Good st₂.rest ∧ Turned as f q b st.mem st₂ st' := by
  obtain ⟨hq, hfq, b₀, b', hb₀, hb', -, -, -, hlink, -⟩ := h.first hr
  obtain rfl : b = b' := Option.some.inj (hb.symm.trans hb')
  obtain ⟨st₁, b₁, hcopy, hb₁, hs, hgood⟩ := h.stored_first hr hf hb
  generalize hst₂ : pPersistElement st₁ b₁.pData = st₂ at hs hgood
  obtain ⟨b₂, hb₂, -, hlink₂, -, -⟩ := hs.new
  have hne : ∀ x ∈ as, f x ≠ .shared st.mem := fun x hx => (h.before hr hx).ne le_rfl
  -- the neighbours are where `f` says
  have hn : ∀ l n, b₂.link l = some n → n ≠ .shared st.mem ∧
      ∃ x, st₂.memory.buckets n = some x := by
    intro l n hn
    rw [hlink₂, hlink] at hn
    obtain ⟨x, hx, rfl⟩ := Option.map_eq_some_iff.mp hn
    obtain ⟨hxas, -, -⟩ := hr.wf.back (l := l) hq (by simpa [Memory.link, hb₀] using hx)
    obtain ⟨bx, hbx⟩ := hr.wf.isSome x hxas
    obtain ⟨c, hc, -⟩ := h.located.bucket x hxas bx hbx
    obtain ⟨z, hz⟩ := h.bucket_stored hs hxas hc
    exact ⟨hne x hxas, _, hz⟩
  obtain ⟨m, hm, hstr, hslots, hp, hnone, hother⟩ :=
    Memory.foldlM_relink [.last, .next, .listLast, .listNext] hb₂ fun l _ => hn l
  have hall : ∀ l : Link, l.back ∈ [Link.last, .next, .listLast, .listNext] := fun l => by
    cases l <;> decide
  have hpq : Addr.shared st.mem ≠ q := fun heq => hne q hq (hfq.trans heq.symm)
  have hfne : ∀ x ∈ as, x ≠ q → f x ≠ q := fun x hx hxq heq =>
    hxq (h.located.inj x hx q hq (heq.trans hfq.symm))
  refine ⟨st₂, { st₂ with memory := { m with buckets := Function.update m.buckets q none } },
    ?_, hs, hgood, ⟨rfl, rfl, hstr, hslots, Function.update_self _ _ _, ?_, fun x hx => ?_,
      rfl, ?_⟩⟩
  · -- the loop goes on with the next bucket, which has not been copied
    obtain ⟨p₀, -, hnext, -⟩ := h.list
    have hb₀next : b₀.link .listNext = rest.head? := by simpa [Memory.link, hb₀] using hnext
    have hnext₂ : b₂.pListNext = rest.head? := by
      rw [show b₂.pListNext = b₂.link .listNext from rfl, hlink₂, hlink, hb₀next]
      cases rest with
      | nil => rfl
      | cons r rs => simp [(h.stay r (by simp)).1]
    unfold persistBucket
    simp only [hcopy, hb₁, Option.bind_eq_bind, Option.bind_some, hst₂, hm, hp, hnext₂]
  · simp only [Function.update_of_ne hpq, hp, hb₂]
  · by_cases hxq : x = q
    · subst hxq
      exact Function.update_self _ _ _
    · simp only [Function.update_of_ne hxq, hnone x hx]
  · intro x hx hxq c hc
    obtain ⟨c', hc', hdata, hlink'⟩ := hother (f x) (hne x hx) c hc
    refine ⟨c', ?_, hdata, fun l => ?_⟩
    · simp only [Function.update_of_ne (hfne x hx hxq), hc']
    · rw [hlink', hlink₂]
      simp only [hall l, true_and]

/-- All links that led to the old bucket lead to the new one. -/
theorem Moving.relocated (hr : Ready isInterned st₀ ht as)
    (h : Moving Good isInterned elSize st₀ ht as (q :: rest) f st)
    (hb : st.memory.buckets q = some b)
    {st₂ : PersistState ρ}
    (hs : Stored isInterned elSize (tableBlocks isInterned st₀.memory ht as) q b st st₂)
    (ht' : Turned as f q b st.mem st₂ st') :
    Relocated st₀.memory st'.memory as (Function.update f q (.shared st.mem)) := by
  obtain ⟨hq, hfq, b₀, b', hb₀, hb', -, hh, hkey, hlink, -⟩ := h.first hr
  obtain rfl : b = b' := Option.some.inj (hb.symm.trans hb')
  have hne : ∀ x ∈ as, f x ≠ .shared st.mem := fun x hx => (h.before hr hx).ne le_rfl
  constructor
  · intro x hx y hy hxy
    by_cases hxq : x = q
    · by_cases hyq : y = q
      · rw [hxq, hyq]
      · rw [hxq, Function.update_self, Function.update_of_ne hyq] at hxy
        exact absurd hxy.symm (hne y hy)
    · by_cases hyq : y = q
      · rw [hyq, Function.update_self, Function.update_of_ne hxq] at hxy
        exact absurd hxy (hne x hx)
      · rw [Function.update_of_ne hxq, Function.update_of_ne hyq] at hxy
        exact h.located.inj x hx y hy hxy
  · intro x hx bx hbx
    by_cases hxq : x = q
    · subst hxq
      obtain rfl : b₀ = bx := Option.some.inj (hb₀.symm.trans hbx)
      obtain ⟨b₂, hb₂, hh₂, hlink₂, hkey₂, -⟩ := hs.new
      refine ⟨b₂, by rw [Function.update_self, ht'.new, hb₂], hh₂.trans hh, ?_, fun l => ?_⟩
      · rw [← hkey, ← hkey₂]
        exact keyOf_congr rfl rfl rfl fun _ => congrFun ht'.string _
      · rw [hlink₂, hlink]
        refine Option.map_congr fun y hy => ?_
        obtain ⟨-, hyx, -⟩ := hr.wf.back (l := l) hx (by simpa [Memory.link, hb₀] using hy)
        rw [Function.update_of_ne hyx]
    · obtain ⟨c, hc, hch, hckey, hclink⟩ := h.located.bucket x hx bx hbx
      obtain ⟨z, hz⟩ := h.bucket_stored hs hx hc
      obtain ⟨c', hc', hdata, hlink'⟩ := ht'.other x hx hxq _ hz
      simp only [Bucket.data, Prod.mk.injEq] at hdata
      refine ⟨c', by rw [Function.update_of_ne hxq, hc'], hdata.1.trans hch, ?_, fun l => ?_⟩
      · rw [← hckey]
        refine keyOf_congr hdata.1 hdata.2.1 hdata.2.2.1 fun h₀ => ?_
        rw [ht'.string]
        exact hs.string _ ((h.key_kept hr hx hc).resolve_left h₀)
      · rw [hlink', link_pDataPtr c z, hclink, hlink]
        -- a link to the old bucket is one that the old bucket has in the other direction
        have hiff : (b₀.link l.back).map f = some (f x) ↔ bx.link l = some q := by
          rw [Option.map_eq_some_iff]
          constructor
          · rintro ⟨y, hy, hfy⟩
            obtain ⟨hyas, -, hyback⟩ :=
              hr.wf.back (l := l.back) hq (by simpa [Memory.link, hb₀] using hy)
            obtain rfl := h.located.inj y hyas x hx hfy
            simpa [Memory.link, hbx] using hyback
          · intro hl
            obtain ⟨-, -, hlback⟩ := hr.wf.back (l := l) hx (by simpa [Memory.link, hbx] using hl)
            exact ⟨x, by simpa [Memory.link, hb₀] using hlback, rfl⟩
        simp only [hiff]
        split_ifs with hl
        · simp [hl]
        · refine Option.map_congr fun y hy => ?_
          have hyq : y ≠ q := by
            rintro rfl
            exact hl hy
          rw [Function.update_of_ne hyq]

/-- The invariant goes on to the next bucket. -/
theorem Moving.step (hr : Ready isInterned st₀ ht as)
    (hf : Persists Good (tableBlocks isInterned st₀.memory ht as) pPersistElement)
    (h : Moving Good isInterned elSize st₀ ht as (q :: rest) f st) :
    ∃ st', persistBucket isInterned pPersistElement elSize st q = some (st', rest.head?) ∧
      Moving Good isInterned elSize st₀ ht as rest (Function.update f q (.shared st.mem)) st' := by
  obtain ⟨hq, hfq, b₀, b, hb₀, hb, -, -, -, -, hblocks⟩ := h.first hr
  obtain ⟨hqrest, hrest⟩ := List.nodup_cons.mp h.nodup
  obtain ⟨st₂, st', hrun, hs, hgood, ht'⟩ := h.turned hr hf hb
  have hmem : st.mem ≤ st'.mem := by
    rw [ht'.mem]
    exact (Nat.le_add_right _ _).trans hs.mem
  have hne : ∀ x ∈ rest, x ≠ q := by
    rintro x hx rfl
    exact hqrest hx
  have hsub : ∀ x ∈ rest, x ∈ as := fun x hx => h.sub x (List.mem_cons_of_mem _ hx)
  -- the blocks of the other buckets are not touched
  have hapart : ∀ x ∈ as, x ≠ q → ∀ a ∈ st₀.memory.blocksOf isInterned x,
      a ∉ st.memory.blocksOf isInterned q := by
    intro x hx hxq a hax haq
    rw [hblocks] at haq
    have hpair := (List.nodup_flatMap.mp (List.nodup_append.mp hr.nodup).1).2
    have : Std.Symm (Function.onFun List.Disjoint (st₀.memory.blocksOf isInterned)) :=
      ⟨fun _ _ h _ hx hy => h hy hx⟩
    exact hpair.forall hx hq hxq hax haq
  have hother : ∀ a ∈ tableBlocks isInterned st₀.memory ht rest,
      a ∉ st.memory.blocksOf isInterned q := by
    intro a ha
    rcases List.mem_append.mp ha with ha | ha
    · obtain ⟨x, hx, hax⟩ := List.mem_flatMap.mp ha
      exact hapart x (hsub x hx) (hne x hx) a hax
    · intro haq
      rw [hblocks] at haq
      exact (List.nodup_append.mp hr.nodup).2.2 a (List.mem_flatMap.mpr ⟨q, hq, haq⟩) a ha rfl
  refine ⟨st', hrun, ?_⟩
  constructor
  · exact hsub
  · exact hrest
  · obtain ⟨p₀, -, -, hlist⟩ := h.list
    exact ⟨some q, hlist⟩
  · exact h.relocated hr hb hs ht'
  · intro x hx
    obtain ⟨hfx, hdata⟩ := h.stay x (List.mem_cons_of_mem _ hx)
    refine ⟨by rw [Function.update_of_ne (hne x hx), hfx], fun bx hbx => ?_⟩
    obtain ⟨c, hc, hdata⟩ := hdata bx hbx
    have hc₂ := (hs.bucket x (mem_tableBlocks_of_mem (hsub x hx))).trans hc
    obtain ⟨c', hc', hdata', -⟩ := ht'.other x (hsub x hx) (hne x hx) c (hfx.symm ▸ hc₂)
    exact ⟨c', hfx ▸ hc', hdata'.trans hdata⟩
  · intro x hx hxrest
    by_cases hxq : x = q
    · subst hxq
      obtain ⟨b₂, hb₂, -, -, -, hcopied⟩ := hs.new
      rw [Function.update_self, ht'.xlat, ht'.new, ht'.mem]
      exact ⟨⟨st.mem, rfl, h.mem, hs.mem⟩, hs.xlat_self, ht'.gone, b₂, hb₂,
        hcopied.congr h.mem le_rfl rfl rfl rfl⟩
    · have hnot : x ∉ q :: rest := by simp [hxq, hxrest]
      obtain ⟨hin, hxlat, hgone, c, hc, hcopied⟩ := h.moved x hx hnot
      have hxt : x ∈ tableBlocks isInterned st₀.memory ht as := mem_tableBlocks_of_mem hx
      obtain ⟨z, hz⟩ := h.bucket_stored hs hx hc
      obtain ⟨c', hc', hdata, -⟩ := ht'.other x hx hxq _ hz
      simp only [Bucket.data, Prod.mk.injEq] at hdata
      rw [Function.update_of_ne hxq, ht'.xlat,
        hs.xlat x hxt (hapart x hx hxq x Memory.mem_blocksOf_self)]
      exact ⟨hin.mono le_rfl hmem, hxlat, ht'.none x ((hs.bucket x hxt).trans hgone), c', hc',
        hcopied.congr le_rfl hmem hdata.2.1 hdata.2.2.1 hdata.2.2.2.1⟩
  · intro a ha
    rw [ht'.string, hs.string a (ha.imp_right fun ⟨k, hk, heq⟩ => ⟨k, hk.trans_le h.mem, heq⟩)]
    exact h.string a ha
  · intro a ha
    rw [ht'.slots, hs.slots a ha, h.slots a ha]
  · exact h.mem.trans hmem
  · intro a ha
    rw [ht'.xlat, hs.xlat a (tableBlocks_subset hsub ha) (hother a ha)]
    exact h.xlat a (tableBlocks_subset (fun x hx => List.mem_cons_of_mem _ hx) ha)
  · rw [ht'.rest]
    exact hgood

theorem Ready.moving (hr : Ready isInterned st ht as) (hgood : Good st.rest) :
    Moving Good isInterned elSize st ht as as id st := by
  constructor
  · exact fun a ha => ha
  · exact hr.wf.nodup
  · exact ⟨none, hr.wf.list⟩
  · exact ⟨fun a _ a' _ h => h, fun a ha b hb => ⟨b, hb, rfl, rfl, fun l => by simp⟩⟩
  · exact fun a ha => ⟨rfl, fun b hb => ⟨b, hb, rfl⟩⟩
  · exact fun a ha hnot => absurd ha hnot
  · exact fun _ _ => rfl
  · exact fun _ _ => rfl
  · exact le_rfl
  · exact hr.xlat
  · exact hgood

variable (elSize) in
/-- The whole loop -/
theorem Moving.run (hr : Ready isInterned st₀ ht as)
    (hf : Persists Good (tableBlocks isInterned st₀.memory ht as) pPersistElement) :
    ∀ {rest : List Addr} {f : Addr → Addr} {st : PersistState ρ} {n : ℕ},
      Moving Good isInterned elSize st₀ ht as rest f st → rest.length ≤ n →
        ∃ st' f', persistBuckets isInterned pPersistElement elSize n st rest.head? = some st' ∧
          Moving Good isInterned elSize st₀ ht as [] f' st'
  | [], f, st, n, h, _ => ⟨st, f, by cases n <;> rfl, h⟩
  | q :: rest, f, st, n + 1, h, hn => by
    obtain ⟨st₁, hstep, h₁⟩ := h.step hr hf
    obtain ⟨st', f', hrun, h'⟩ := Moving.run hr hf h₁ (Nat.le_of_succ_le_succ hn)
    refine ⟨st', f', ?_, h'⟩
    rw [List.head?_cons, persistBuckets, hstep]
    exact hrun

end Step

/-- What `zend_hash_persist` leaves: the same table, with all its blocks in the memory that was
taken for them, and nothing of the old buckets. -/
structure Persisted (isInterned : Addr → Bool) (elSize : ℕ) (st : PersistState ρ) (ht : HashTable)
    (as : List Addr) (f : Addr → Addr) (st' : PersistState ρ) (ht' : HashTable) : Prop where
  wf : WellFormed st'.memory ht' (as.map f)
  relocated : Relocated st.memory st'.memory as f
  internal : ht'.pInternalPointer = ht.pInternalPointer.map f
  nextFree : ht'.nNextFreeElement = ht.nNextFreeElement
  find : ∀ k, st'.memory.find ht' k = (st.memory.find ht k).map f
  bucket : ∀ a ∈ as, Within st.mem st'.mem sizeofBucket (f a) ∧
    ∃ b, st'.memory.buckets (f a) = some b ∧ Copied isInterned elSize st.mem st'.mem (f a) b
  arBuckets : ∀ t, ht'.arBuckets = some t → Within st.mem st'.mem (sizeofPointer * ht.nTableSize) t
  gone : ∀ a ∈ as, st'.memory.buckets a = none

section Whole

variable {Good : ρ → Prop} {isInterned : Addr → Bool}
  {pPersistElement : PersistState ρ → Location → PersistState ρ}
  {elSize : ℕ} {st : PersistState ρ} {ht : HashTable} {as : List Addr} {n : ℕ}

/-- The array of slots, after all buckets have been copied -/
theorem Moving.persistSlots {st₁ : PersistState ρ} {f : Addr → Addr}
    (h : Moving Good isInterned elSize st ht as [] f st₁) (hr : Ready isInterned st ht as)
    (ht₁ : HashTable)
    (hmask : ht₁.nTableMask = ht.nTableMask) (hsize : ht₁.nTableSize = ht.nTableSize)
    (hnum : ht₁.nNumOfElements = ht.nNumOfElements) (harr : ht₁.arBuckets = ht.arBuckets) :
    ∃ st' t', Tables.persistSlots st₁ ht₁ = some (st', { ht₁ with arBuckets := t' }) ∧
      st₁.mem ≤ st'.mem ∧ st'.memory.buckets = st₁.memory.buckets ∧
      st'.memory.strings = st₁.memory.strings ∧
      ((ht.arBuckets = none ∧ t' = none) ∨ ∃ t b slots, ht.arBuckets = some t ∧ t' = some b ∧
        Within st.mem st'.mem (sizeofPointer * ht.nTableSize) b ∧
          st.memory.slots t = some slots ∧ st'.memory.slots b = some (slots.map (·.map f))) := by
  unfold Tables.persistSlots
  rw [hmask, hsize, hnum, harr]
  rcases hr.wf.mask with ⟨h₀, hnone, -⟩ | ⟨h₀, -, t, slots, hat, hslots, -⟩
  · rw [if_pos h₀]
    exact ⟨st₁, none, rfl, le_rfl, rfl, rfl, .inl ⟨hnone, rfl⟩⟩
  · have htable : ∀ {l : List Addr}, t ∈ tableBlocks isInterned st.memory ht l := fun {l} =>
      List.mem_append_right _ (by simp [hat])
    have hslots₁ : st₁.memory.slots t = some slots := (h.slots t htable).trans hslots
    -- each slot leads to a bucket of the table
    have hmap : ∀ c ∈ slots, (∀ a, c = some a → a ∈ as) ∧ c.bind st₁.xlat = c.map f := by
      intro c hc
      obtain ⟨i, hi⟩ := List.mem_iff_getElem?.mp hc
      obtain ⟨cs, rfl, -, -, hmem⟩ := hr.wf.chain i c (by simp [Memory.arBuckets, hat, hslots, hi])
      have has : ∀ a, cs.head? = some a → a ∈ as := fun a ha =>
        ((hmem a).mp (List.mem_of_mem_head? ha)).1
      refine ⟨has, ?_⟩
      cases hhead : cs.head? with
      | none => rfl
      | some a => exact (h.moved a (has a hhead) (by simp)).2.1
    have hnew : (if ht.nNumOfElements = 0 then slots else slots.map (·.bind st₁.xlat)) =
        slots.map (·.map f) := by
      split_ifs with hzero
      · have hnil : as = [] := List.length_eq_zero_iff.mp (hr.wf.size.symm.trans hzero)
        refine (List.map_id slots).symm.trans (List.map_congr_left fun c hc => ?_)
        cases c with
        | none => rfl
        | some a => simpa [hnil] using (hmap _ hc).1 a rfl
      · exact List.map_congr_left fun c hc => (hmap c hc).2
    rw [if_neg h₀, hat]
    simp only [Option.bind_eq_bind, Option.bind_some, hslots₁, hnew,
      PersistState.zendSharedMemdup_eq (h.xlat t htable)]
    refine ⟨_, some (.shared st₁.mem), rfl, Nat.le_add_right _ _, rfl, rfl,
      .inr ⟨t, _, slots, rfl, rfl, ⟨_, rfl, h.mem, ?_⟩, hslots, Function.update_self _ _ _⟩⟩
    exact Nat.add_le_add_left (le_zendAlignedSize _) _

/-- What is left after the loop: the pointers of the header and the array of slots -/
theorem Moving.finish {st₁ : PersistState ρ} {f : Addr → Addr} (hr : Ready isInterned st ht as)
    (hrun : persistBuckets isInterned pPersistElement elSize n st as.head? = some st₁)
    (h : Moving Good isInterned elSize st ht as [] f st₁) :
    ∃ st' ht', zendHashPersist isInterned pPersistElement elSize n st ht = some (st', ht') ∧
      Persisted isInterned elSize st ht as f st' ht' := by
  have hmoved := fun a ha => h.moved a ha (by simp)
  have hbind : ∀ p : Option Addr, (∀ a, p = some a → a ∈ as) → p.bind st₁.xlat = p.map f := by
    intro p hp
    cases p with
    | none => rfl
    | some a => exact (hmoved a (hp a rfl)).2.1
  have hhead := hbind ht.pListHead fun a ha => List.mem_of_mem_head? (hr.wf.head ▸ ha)
  have htail := hbind ht.pListTail fun a ha => List.mem_of_getLast? (hr.wf.tail ▸ ha)
  have hinternal := hbind ht.pInternalPointer hr.wf.internal
  obtain ⟨st', t', hslots, hmem, hbuckets, hstrings, harr⟩ := h.persistSlots hr
    { ht with
      pListHead := ht.pListHead.map f
      pListTail := ht.pListTail.map f
      pInternalPointer := ht.pInternalPointer.map f } rfl rfl rfl rfl
  have hrel : Relocated st.memory st'.memory as f := by
    refine ⟨h.located.inj, fun a ha b hb => ?_⟩
    obtain ⟨b', hb', hh, hkey, hlink⟩ := h.located.bucket a ha b hb
    refine ⟨b', hbuckets ▸ hb', hh, ?_, hlink⟩
    rw [← hkey]
    exact keyOf_congr rfl rfl rfl fun _ => congrFun hstrings _
  let ht' : HashTable := { ht with
    pListHead := ht.pListHead.map f
    pListTail := ht.pListTail.map f
    pInternalPointer := ht.pInternalPointer.map f
    arBuckets := t' }
  have hwf : WellFormed st'.memory ht' (as.map f) :=
    hrel.wellFormed hr.wf rfl rfl rfl rfl rfl rfl
      (harr.imp id fun ⟨t, b, slots, h₁, h₂, _, h₃, h₄⟩ => ⟨t, b, slots, h₁, h₂, h₃, h₄⟩)
  refine ⟨st', ht', ?_, hwf, hrel, rfl, rfl, fun k => hrel.find hr.wf hwf k, fun a ha => ?_,
    fun t hat => ?_, fun a ha => ?_⟩
  · unfold zendHashPersist
    simp only [hr.wf.head, hrun, Option.bind_eq_bind, Option.bind_some]
    rw [← hr.wf.head, hhead, htail, hinternal]
    exact hslots
  · obtain ⟨hin, -, -, b, hb, hcopied⟩ := hmoved a ha
    exact ⟨hin.mono le_rfl hmem, b, hbuckets ▸ hb, hcopied.congr le_rfl hmem rfl rfl rfl⟩
  · rcases harr with ⟨-, h₂⟩ | ⟨-, b, -, -, h₂, hin, -⟩
    · simp [ht', h₂] at hat
    · obtain rfl : b = t := by simpa [ht', h₂] using hat
      exact hin
  · rw [hbuckets]
    exact (hmoved a ha).2.2.1

/-- The loop of `zend_hash_persist` never reads a bucket that has been freed or is not there, and it
leaves the same table in shared memory: the same order, chains and lookups. -/
theorem zendHashPersist_persisted (hr : Ready isInterned st ht as)
    (hf : Persists Good (tableBlocks isInterned st.memory ht as) pPersistElement)
    (hgood : Good st.rest) (hn : as.length ≤ n) :
    ∃ st' ht' f, zendHashPersist isInterned pPersistElement elSize n st ht = some (st', ht') ∧
      Persisted isInterned elSize st ht as f st' ht' := by
  obtain ⟨st₁, f, hrun, h⟩ := Moving.run elSize hr hf (hr.moving hgood) hn
  obtain ⟨st', ht', hpersist, hpersisted⟩ := h.finish hr hrun
  exact ⟨st', ht', f, hpersist, hpersisted⟩

end Whole

section Example

def firstProperty : Bucket :=
  ⟨1, 2, .shared 8, .block (.process 3), none, some (.process 2), none, none, some (.process 2)⟩

def secondProperty : Bucket :=
  ⟨9, 3, .process 4, .block (.process 5), none, none, some (.process 1), some (.process 1), none⟩

/-- A table of two properties in one chain, of which the first has an interned name. -/
def twoProperties : PersistState Unit where
  memory :=
    { buckets := fun a => match a with
        | .process 1 => some firstProperty
        | .process 2 => some secondProperty
        | _ => none
      strings := fun a => match a with
        | .shared 8 => some [97, 0]
        | .process 4 => some [98, 98, 0]
        | _ => none
      slots := fun a => match a with
        | .process 6 => some [none, some (.process 2), none, none, none, none, none, none]
        | _ => none }
  mem := 64
  xlat _ := none
  rest := ()

def propertiesInfo : HashTable :=
  ⟨8, 7, 2, 0, some (.process 1), some (.process 1), some (.process 2), some (.process 6)⟩

def isInternedName : Addr → Bool := fun a => a == .shared 8

theorem wellFormed_twoProperties :
    WellFormed twoProperties.memory propertiesInfo [.process 1, .process 2] where
  nodup := by decide
  isSome a ha := by
    obtain rfl | rfl : a = .process 1 ∨ a = .process 2 := by simpa using ha
    exacts [⟨_, rfl⟩, ⟨_, rfl⟩]
  head := rfl
  tail := rfl
  internal a ha := by
    obtain rfl : .process 1 = a := Option.some.inj ha
    decide
  list := ⟨rfl, rfl, rfl, rfl, trivial⟩
  size := rfl
  mask := .inr ⟨by decide, by decide, .process 6, _, rfl, rfl, rfl⟩
  chain i c hc := by
    have hslot : ∀ a b, twoProperties.memory.buckets a = some b → propertiesInfo.slot b.h = 1 ∧
        (a = .process 1 ∨ a = .process 2) := by
      intro a b hb
      simp only [twoProperties] at hb
      split at hb
      · obtain rfl := Option.some.inj hb
        exact ⟨by decide, .inl rfl⟩
      · obtain rfl := Option.some.inj hb
        exact ⟨by decide, .inr rfl⟩
      · simp at hb
    by_cases hi : i = 1
    · subst hi
      obtain rfl : some (.process 2) = c := Option.some.inj hc
      refine ⟨[.process 2, .process 1], rfl, by decide, ⟨rfl, rfl, rfl, rfl, trivial⟩, fun a => ?_⟩
      constructor
      · intro ha
        obtain rfl | rfl : a = .process 2 ∨ a = .process 1 := by simpa using ha
        · exact ⟨by decide, secondProperty, rfl, by decide⟩
        · exact ⟨by decide, firstProperty, rfl, by decide⟩
      · rintro ⟨-, b, hb, -⟩
        rcases (hslot a b hb).2 with rfl | rfl <;> decide
    · refine ⟨[], ?_, by decide, trivial, fun a => ?_⟩
      · have hall : ∀ i < 8, i ≠ 1 →
            (twoProperties.memory.arBuckets propertiesInfo)[i]? = some none := by decide
        have hlt : i < 8 := (List.getElem?_eq_some_iff.mp hc).1
        rw [hall i hlt hi] at hc
        exact (Option.some.inj hc).symm
      · refine iff_of_false (by simp) ?_
        rintro ⟨-, b, hb, heq⟩
        exact hi (heq.symm.trans (hslot a b hb).1)
  key_isSome a ha := by
    obtain rfl | rfl : a = .process 1 ∨ a = .process 2 := by simpa using ha
    exacts [⟨_, rfl⟩, ⟨_, rfl⟩]
  key_inj a ha a' ha' h := by
    obtain rfl | rfl : a = .process 1 ∨ a = .process 2 := by simpa using ha
    all_goals
      obtain rfl | rfl : a' = .process 1 ∨ a' = .process 2 := by simpa using ha'
    exacts [rfl, absurd h (by decide), absurd h (by decide), rfl]

theorem ready_twoProperties :
    Ready isInternedName twoProperties propertiesInfo [.process 1, .process 2] where
  wf := wellFormed_twoProperties
  nodup := by decide
  process a ha := by
    have hall : ∀ a ∈ tableBlocks isInternedName twoProperties.memory propertiesInfo
        [.process 1, .process 2], a.isShared = false := by decide
    cases a with
    | process k => exact ⟨k, rfl⟩
    | shared k => exact absurd (hall _ ha) (by simp [Addr.isShared])
  xlat _ _ := rfl
  data a ha b hb _ := by
    obtain rfl | rfl : a = .process 1 ∨ a = .process 2 := by simpa using ha
    · obtain rfl : firstProperty = b := Option.some.inj hb
      exact ⟨_, rfl⟩
    · obtain rfl : secondProperty = b := Option.some.inj hb
      exact ⟨_, rfl⟩
  interned a ha := ⟨8, by decide, by simpa [isInternedName] using ha⟩

/-- `zend_persist_property_info` has nothing to store for names that are interned. -/
theorem persists_of_interned (table : List Addr) :
    Persists (fun _ : Unit => True) table fun st _ => st where
  keeps _ _ _ := ⟨fun _ _ => rfl, fun _ _ b hb => ⟨b.pDataPtr, hb⟩, fun _ _ => rfl,
    fun _ _ => rfl, le_rfl, fun _ _ => rfl⟩
  good _ _ _ := trivial

theorem zendHashPersist_twoProperties : ∃ st' ht' f,
    zendHashPersist isInternedName (fun st _ => st) 56 2 twoProperties propertiesInfo =
      some (st', ht') ∧
      Persisted isInternedName 56 twoProperties propertiesInfo [.process 1, .process 2] f st'
        ht' :=
  zendHashPersist_persisted ready_twoProperties (persists_of_interned _) trivial le_rfl

end Example

end Tables

end ZendOpcache
