import Mathlib.Data.List.Nodup
import Mathlib.Data.List.Perm.Subperm
import ZendOpcache.HashTable.Linked
import ZendOpcache.Persist.Entries

/-! # PHP hash tables in memory

A `HashTable` has its buckets in two kinds of doubly linked lists: all of them in the order of
insertion, and those of one slot of `arBuckets` in a chain, which a lookup follows.
-/

namespace ZendOpcache

namespace Tables

open Persist (Addr)

/-- `pData`: the field `pDataPtr` of a bucket, or a block of its own -/
inductive Location where
  | own (bucket : Addr)
  | block (address : Addr)
  deriving DecidableEq, Repr

/-- A `Bucket`. The key, where `nKeyLength` is not 0, is a string of its own. -/
structure Bucket where
  h : UInt64
  nKeyLength : ℕ
  arKey : Addr
  pData : Location
  pDataPtr : Option Addr
  pListNext : Option Addr
  pListLast : Option Addr
  pNext : Option Addr
  pLast : Option Addr
  deriving DecidableEq, Repr

/-- The pointers of a bucket to other buckets -/
inductive Link where
  | listNext | listLast | next | last
  deriving DecidableEq, Repr

/-- The pointer that leads back -/
def Link.back : Link → Link
  | .listNext => .listLast
  | .listLast => .listNext
  | .next => .last
  | .last => .next

@[simp] theorem Link.back_back (l : Link) : l.back.back = l := by cases l <;> rfl

namespace Bucket

def link (b : Bucket) : Link → Option Addr
  | .listNext => b.pListNext
  | .listLast => b.pListLast
  | .next => b.pNext
  | .last => b.pLast

def setLink (b : Bucket) : Link → Option Addr → Bucket
  | .listNext, p => { b with pListNext := p }
  | .listLast, p => { b with pListLast := p }
  | .next, p => { b with pNext := p }
  | .last, p => { b with pLast := p }

/-- A bucket without its links -/
def data (b : Bucket) : UInt64 × ℕ × Addr × Location × Option Addr :=
  (b.h, b.nKeyLength, b.arKey, b.pData, b.pDataPtr)

variable (b : Bucket) {l l' : Link} {p : Option Addr}

theorem link_setLink : (b.setLink l p).link l' = if l' = l then p else b.link l' := by
  cases l <;> cases l' <;> rfl

@[simp] theorem data_setLink : (b.setLink l p).data = b.data := by cases l <;> rfl

end Bucket

/-- A `HashTable`. `arBuckets` is `none` for the one empty slot of tables that have not been
initialized. -/
structure HashTable where
  nTableSize : ℕ
  nTableMask : ℕ
  nNumOfElements : ℕ
  nNextFreeElement : UInt64
  pInternalPointer : Option Addr
  pListHead : Option Addr
  pListTail : Option Addr
  arBuckets : Option Addr
  deriving DecidableEq, Repr

/-- The slot of a hash value -/
def HashTable.slot (ht : HashTable) (h : UInt64) : ℕ := h.toNat &&& ht.nTableMask

/-- The buckets, the keys and the arrays of slots by their addresses -/
structure Memory where
  buckets : Addr → Option Bucket
  strings : Addr → Option (List UInt8)
  slots : Addr → Option (List (Option Addr))

/-- A key: the hash value, and the string unless the key is a number -/
abbrev Key := UInt64 × Option (List UInt8)

namespace Memory

variable (m : Memory) (ht : HashTable)

def link (l : Link) (a : Addr) : Option Addr := (m.buckets a).bind (·.link l)

def writeBucket (a : Addr) (b : Bucket) : Memory :=
  { m with buckets := Function.update m.buckets a (some b) }

/-- The slots of a table -/
def arBuckets : List (Option Addr) :=
  match ht.arBuckets with
  | none => [none]
  | some a => (m.slots a).getD []

def keyOf (b : Bucket) : Option Key :=
  if b.nKeyLength = 0 then some (b.h, none) else
    (m.strings b.arKey).map fun s => (b.h, some (s.take b.nKeyLength))

/-- The key of the bucket at an address -/
def key (a : Addr) : Option Key := (m.buckets a).bind m.keyOf

/-- A chain, as far as a lookup follows it -/
def findFrom (k : Key) : ℕ → Option Addr → Option Addr
  | 0, _ => none
  | _, none => none
  | n + 1, some a => if m.key a = some k then some a else findFrom k n (m.link .next a)

/-- The lookup of a key -/
def find (k : Key) : Option Addr :=
  m.findFrom k ht.nNumOfElements ((m.arBuckets ht)[ht.slot k.1]?).join

end Memory

/-- The buckets `as` are those of the table, in their order. -/
structure WellFormed (m : Memory) (ht : HashTable) (as : List Addr) : Prop where
  nodup : as.Nodup
  isSome : ∀ a ∈ as, ∃ b, m.buckets a = some b
  head : ht.pListHead = as.head?
  tail : ht.pListTail = as.getLast?
  internal : ∀ a, ht.pInternalPointer = some a → a ∈ as
  list : Linked (m.link .listNext) (m.link .listLast) none as
  size : ht.nNumOfElements = as.length
  /-- A mask of 0 says that the table has not been initialized. -/
  mask : (ht.nTableMask = 0 ∧ ht.arBuckets = none ∧ as = []) ∨
    (ht.nTableMask ≠ 0 ∧ ht.nTableMask < ht.nTableSize ∧
      ∃ t slots, ht.arBuckets = some t ∧ m.slots t = some slots ∧ slots.length = ht.nTableSize)
  chain : ∀ i c, (m.arBuckets ht)[i]? = some c → ∃ cs : List Addr, c = cs.head? ∧ cs.Nodup ∧
    Linked (m.link .next) (m.link .last) none cs ∧
      ∀ a, a ∈ cs ↔ a ∈ as ∧ ∃ b, m.buckets a = some b ∧ ht.slot b.h = i
  key_isSome : ∀ a ∈ as, ∃ k, m.key a = some k
  key_inj : ∀ a ∈ as, ∀ a' ∈ as, m.key a = m.key a' → a = a'

namespace WellFormed

variable {m : Memory} {ht : HashTable} {as : List Addr} {a c : Addr} {b : Bucket} {k : Key}
  {l : Link}

theorem slot_lt (h : WellFormed m ht as) (ha : a ∈ as) (x : UInt64) :
    ∃ c, (m.arBuckets ht)[ht.slot x]? = some c := by
  rcases h.mask with ⟨-, -, rfl⟩ | ⟨-, hlt, t, slots, ht', hslots, hlen⟩
  · cases ha
  · refine ⟨_, List.getElem?_eq_getElem ?_⟩
    simp only [Memory.arBuckets, ht', hslots, Option.getD_some, hlen]
    exact Nat.lt_of_le_of_lt Nat.and_le_right hlt

/-- Each pointer of a bucket leads to another one of the table, which points back. -/
theorem back (h : WellFormed m ht as) (ha : a ∈ as) (hc : m.link l a = some c) :
    c ∈ as ∧ c ≠ a ∧ m.link l.back c = some a := by
  obtain ⟨b, hb⟩ := h.isSome a ha
  obtain ⟨s, hs⟩ := h.slot_lt ha b.h
  obtain ⟨cs, -, hnodup, hcs, hmem⟩ := h.chain _ s hs
  have hacs : a ∈ cs := (hmem a).mpr ⟨ha, b, hb, rfl⟩
  cases l with
  | listNext =>
    obtain ⟨hc', hback⟩ := h.list.next_eq ha hc
    exact ⟨hc', by rintro rfl; exact h.list.next_ne h.nodup ha hc, hback⟩
  | listLast =>
    obtain ⟨hc', hback⟩ := h.list.last_eq_none ha hc
    exact ⟨hc', by rintro rfl; exact h.list.next_ne h.nodup ha hback, hback⟩
  | next =>
    obtain ⟨hc', hback⟩ := hcs.next_eq hacs hc
    exact ⟨((hmem c).mp hc').1, by rintro rfl; exact hcs.next_ne hnodup hacs hc, hback⟩
  | last =>
    obtain ⟨hc', hback⟩ := hcs.last_eq_none hacs hc
    exact ⟨((hmem c).mp hc').1, by rintro rfl; exact hcs.next_ne hnodup hacs hback, hback⟩

end WellFormed

namespace Memory

variable {m : Memory} {ht : HashTable} {as cs : List Addr} {p : Option Addr} {k : Key}

/-- A lookup finds the first bucket of the chain that has the key. -/
theorem findFrom_eq (h : Linked (m.link .next) (m.link .last) p cs) {n : ℕ} (hn : cs.length ≤ n) :
    m.findFrom k n cs.head? = cs.find? fun a => m.key a = some k := by
  induction cs generalizing n p with
  | nil => cases n <;> rfl
  | cons c cs ih =>
    obtain ⟨-, hnext, hcs⟩ := h
    cases n with
    | zero => simp at hn
    | succ n =>
      rw [List.head?_cons, findFrom, hnext]
      by_cases hc : m.key c = some k
      · rw [if_pos hc, List.find?_cons_of_pos (by simpa using hc)]
      · rw [if_neg hc, List.find?_cons_of_neg (by simpa using hc)]
        exact ih hcs (by simpa using hn)

end Memory

theorem WellFormed.find_eq_some_iff {m : Memory} {ht : HashTable} {as : List Addr} {a : Addr}
    {k : Key}
    (h : WellFormed m ht as) : m.find ht k = some a ↔ a ∈ as ∧ m.key a = some k := by
  unfold Memory.find
  cases hs : (m.arBuckets ht)[ht.slot k.1]? with
  | none =>
    refine iff_of_false ?_ fun ⟨ha, _⟩ => ?_
    · cases ht.nNumOfElements <;> simp [Memory.findFrom]
    · obtain ⟨c, hc⟩ := h.slot_lt ha k.1
      simp [hc] at hs
  | some c =>
    obtain ⟨cs, rfl, hnodup, hcs, hmem⟩ := h.chain _ c hs
    have hlen : cs.length ≤ ht.nNumOfElements := by
      rw [h.size]
      exact (List.subperm_of_subset hnodup fun a ha => ((hmem a).mp ha).1).length_le
    rw [Option.join_some, Memory.findFrom_eq hcs hlen, List.find?_eq_some_iff_append]
    constructor
    · rintro ⟨hk, before, after, rfl, -⟩
      exact ⟨((hmem a).mp (by simp)).1, by simpa using hk⟩
    · rintro ⟨ha, hk⟩
      obtain ⟨b, hb⟩ := h.isSome a ha
      have hslot : ht.slot b.h = ht.slot k.1 := by
        have : m.keyOf b = some k := by simpa [Memory.key, hb] using hk
        unfold Memory.keyOf at this
        split_ifs at this
        · rw [← Option.some.inj this]
        · obtain ⟨s, -, hs⟩ := Option.map_eq_some_iff.mp this
          rw [← hs]
      obtain ⟨before, after, hcs'⟩ := List.append_of_mem ((hmem a).mpr ⟨ha, b, hb, hslot⟩)
      refine ⟨by simpa using hk, before, after, hcs', fun x hx => ?_⟩
      have hxa : x ≠ a := by
        rintro rfl
        rw [hcs'] at hnodup
        exact (List.nodup_append.mp hnodup).2.2 x hx x (by simp) rfl
      have hxs : x ∈ as := ((hmem x).mp (by simp [hcs', hx])).1
      simpa using fun hkx => hxa (h.key_inj x hxs a ha (hkx.trans hk.symm))

/-- Two tables with the same keys in the same order find the same. -/
theorem WellFormed.find_map {m m' : Memory} {ht ht' : HashTable} {as : List Addr} {f : Addr → Addr}
    (h : WellFormed m ht as) (h' : WellFormed m' ht' (as.map f))
    (hkey : ∀ a ∈ as, m'.key (f a) = m.key a) (k : Key) :
    m'.find ht' k = (m.find ht k).map f := by
  cases hk : m.find ht k with
  | some a =>
    obtain ⟨ha, hka⟩ := h.find_eq_some_iff.mp hk
    exact h'.find_eq_some_iff.mpr ⟨List.mem_map_of_mem ha, (hkey a ha).trans hka⟩
  | none =>
    refine Option.eq_none_iff_forall_ne_some.mpr fun a' ha' => ?_
    obtain ⟨hmem, hka⟩ := h'.find_eq_some_iff.mp ha'
    obtain ⟨a, ha, rfl⟩ := List.mem_map.mp hmem
    have := h.find_eq_some_iff.mpr ⟨ha, (hkey a ha).symm.trans hka⟩
    simp [hk] at this

/-- Bucket `q` is put at the end of the list and at the front of its chain, which begins at `c`. -/
structure Inserted (m m' : Memory) (as : List Addr) (q : Addr) (b : Bucket) (c : Option Addr) :
    Prop where
  bucket : m'.buckets q = some b
  listNext : b.pListNext = none
  listLast : b.pListLast = as.getLast?
  next : b.pNext = c
  last : b.pLast = none
  key : ∃ k, m'.keyOf b = some k ∧ ∀ a ∈ as, m.key a ≠ some k
  other : ∀ a ∈ as, ∀ x, m.buckets a = some x → ∃ x', m'.buckets a = some x' ∧ x'.h = x.h ∧
    m'.keyOf x' = m.keyOf x ∧ x'.pListLast = x.pListLast ∧ x'.pNext = x.pNext ∧
      x'.pListNext = (if as.getLast? = some a then some q else x.pListNext) ∧
        x'.pLast = if c = some a then some q else x.pLast

/-- A table is still well formed after an insertion. -/
theorem WellFormed.insert {m m' : Memory} {ht ht' : HashTable} {as : List Addr} {q t : Addr}
    {b : Bucket} {c : Option Addr} {slots : List (Option Addr)} (h : WellFormed m ht as)
    (hi : Inserted m m' as q b c) (hq : q ∉ as) (hmask : ht.nTableMask ≠ 0)
    (ht₀ : ht.arBuckets = some t) (hslots : m.slots t = some slots)
    (hc : slots[ht.slot b.h]? = some c) (hmask' : ht'.nTableMask = ht.nTableMask)
    (hsize' : ht'.nTableSize = ht.nTableSize) (hnum' : ht'.nNumOfElements = ht.nNumOfElements + 1)
    (hhead' : ht'.pListHead = ht.pListHead.or (some q)) (htail' : ht'.pListTail = some q)
    (hinternal' : ∀ a, ht'.pInternalPointer = some a → a ∈ as ++ [q])
    (ht₁ : ht'.arBuckets = some t) (hslots' : m'.slots t =
      some (slots.set (ht.slot b.h) (some q))) :
    WellFormed m' ht' (as ++ [q]) := by
  have hlinks : ∀ a ∈ as, m'.link .listLast a = m.link .listLast a ∧
      m'.link .next a = m.link .next a ∧
      m'.link .listNext a = (if as.getLast? = some a then some q else m.link .listNext a) ∧
      m'.link .last a = (if c = some a then some q else m.link .last a) ∧
      m'.key a = m.key a := by
    intro a ha
    obtain ⟨x, hx⟩ := h.isSome a ha
    obtain ⟨x', hx', -, hkey, h₁, h₂, h₃, h₄⟩ := hi.other a ha x hx
    simp [Memory.link, Memory.key, Bucket.link, hx, hx', h₁, h₂, h₃, h₄, hkey]
  have hself : m'.link .listNext q = none ∧ m'.link .listLast q = as.getLast? ∧
      m'.link .next q = c ∧ m'.link .last q = none := by
    simp [Memory.link, Bucket.link, hi.bucket, hi.listNext, hi.listLast, hi.next, hi.last]
  have hkeyq : m'.key q = m'.keyOf b := by simp [Memory.key, hi.bucket]
  obtain ⟨k, hk, hnew⟩ := hi.key
  obtain ⟨hlt, hlen⟩ : ht.nTableMask < ht.nTableSize ∧ slots.length = ht.nTableSize := by
    rcases h.mask with ⟨h₀, -⟩ | ⟨-, hlt, t', slots', ht', hs', hlen⟩
    · exact absurd h₀ hmask
    · obtain rfl : t = t' := Option.some.inj (ht₀.symm.trans ht')
      obtain rfl : slots = slots' := Option.some.inj (hslots.symm.trans hs')
      exact ⟨hlt, hlen⟩
  have hslot' : ∀ x, ht'.slot x = ht.slot x := fun x => by simp [HashTable.slot, hmask']
  have harr : m.arBuckets ht = slots := by simp [Memory.arBuckets, ht₀, hslots]
  have harr' : m'.arBuckets ht' = slots.set (ht.slot b.h) (some q) := by
    simp [Memory.arBuckets, ht₁, hslots']
  constructor
  · exact List.nodup_append.mpr ⟨h.nodup, List.nodup_singleton q, fun a ha a' ha' heq =>
      hq (List.mem_singleton.mp ha' ▸ heq ▸ ha)⟩
  · intro a ha
    rcases List.mem_append.mp ha with ha | ha
    · obtain ⟨x, hx⟩ := h.isSome a ha
      obtain ⟨x', hx', -⟩ := hi.other a ha x hx
      exact ⟨x', hx'⟩
    · exact ⟨b, List.mem_singleton.mp ha ▸ hi.bucket⟩
  · rw [hhead', h.head]
    cases as <;> rfl
  · rw [htail']
    simp
  · exact hinternal'
  · exact h.list.concat h.nodup (fun a ha => (hlinks a ha).2.2.1) (fun a ha => (hlinks a ha).1)
      hself.1 (by rw [hself.2.1, Option.or_none])
  · rw [hnum', h.size, List.length_append, List.length_singleton]
  · exact .inr ⟨hmask' ▸ hmask, by omega, t, _, ht₁, hslots', by simpa [hsize'] using hlen⟩
  · intro i d hd
    rw [harr', List.getElem?_set] at hd
    by_cases hi' : ht.slot b.h = i
    · -- the chain of the new bucket
      subst hi'
      obtain ⟨cs, hcs, hnodup, hlinked, hmem⟩ := h.chain _ c (by rw [harr, hc])
      have hsub : ∀ a ∈ cs, a ∈ as := fun a ha => ((hmem a).mp ha).1
      obtain rfl : some q = d := by
        rw [if_pos rfl] at hd
        split_ifs at hd
        exact Option.some.inj hd
      refine ⟨q :: cs, rfl, List.nodup_cons.mpr ⟨fun hqc => hq (hsub q hqc), hnodup⟩, ?_,
        fun a => ?_⟩
      · refine hlinked.cons hnodup (fun a ha => (hlinks a (hsub a ha)).2.1) (fun a ha => ?_)
          (hself.2.2.1.trans hcs) hself.2.2.2
        rw [(hlinks a (hsub a ha)).2.2.2.1, hcs]
      · rw [List.mem_cons, List.mem_append, List.mem_singleton, hmem]
        constructor
        · rintro (rfl | ⟨ha, x, hx, hslot⟩)
          · exact ⟨.inr rfl, b, hi.bucket, hslot' _⟩
          · obtain ⟨x', hx', hh, -⟩ := hi.other a ha x hx
            exact ⟨.inl ha, x', hx', by rw [hslot', hh, hslot]⟩
        · rintro ⟨ha | rfl, x', hx', hslot⟩
          · obtain ⟨x, hx⟩ := h.isSome a ha
            obtain ⟨x'', hx'', hh, -⟩ := hi.other a ha x hx
            obtain rfl : x' = x'' := Option.some.inj (hx'.symm.trans hx'')
            exact .inr ⟨ha, x, hx, by rw [← hh, ← hslot', hslot]⟩
          · exact .inl rfl
    · -- another chain
      rw [if_neg hi'] at hd
      obtain ⟨cs, rfl, hnodup, hlinked, hmem⟩ := h.chain i d (by rw [harr, hd])
      have hsub : ∀ a ∈ cs, a ∈ as := fun a ha => ((hmem a).mp ha).1
      refine ⟨cs, rfl, hnodup, hlinked.congr (fun a ha => (hlinks a (hsub a ha)).2.1)
        (fun a ha => ?_), fun a => ?_⟩
      · rw [(hlinks a (hsub a ha)).2.2.2.1, if_neg]
        -- the first bucket of the other chain is in that chain
        rintro rfl
        obtain ⟨ds, hds, -, -, hmem'⟩ := h.chain _ (some a) (by rw [harr, hc])
        obtain ⟨-, x, hx, hslot⟩ := (hmem a).mp ha
        obtain ⟨-, x', hx', hslot'⟩ := (hmem' a).mp (List.mem_of_mem_head? hds.symm)
        obtain rfl : x = x' := Option.some.inj (hx.symm.trans hx')
        exact hi' (hslot'.symm.trans hslot)
      · rw [hmem]
        constructor
        · rintro ⟨ha, x, hx, hslot⟩
          obtain ⟨x', hx', hh, -⟩ := hi.other a ha x hx
          exact ⟨List.mem_append_left _ ha, x', hx', by rw [hslot', hh, hslot]⟩
        · rintro ⟨ha, x', hx', hslot⟩
          rcases List.mem_append.mp ha with ha | ha
          · obtain ⟨x, hx⟩ := h.isSome a ha
            obtain ⟨x'', hx'', hh, -⟩ := hi.other a ha x hx
            obtain rfl : x' = x'' := Option.some.inj (hx'.symm.trans hx'')
            exact ⟨ha, x, hx, by rw [← hh, ← hslot', hslot]⟩
          · rw [List.mem_singleton.mp ha, hi.bucket] at hx'
            obtain rfl := Option.some.inj hx'
            exact absurd ((hslot' _).symm.trans hslot) hi'
  · intro a ha
    rcases List.mem_append.mp ha with ha | ha
    · rw [(hlinks a ha).2.2.2.2]
      exact h.key_isSome a ha
    · rw [List.mem_singleton.mp ha, hkeyq]
      exact ⟨k, hk⟩
  · intro a ha a' ha' heq
    rcases List.mem_append.mp ha with ha | ha <;> rcases List.mem_append.mp ha' with ha' | ha'
    · rw [(hlinks a ha).2.2.2.2, (hlinks a' ha').2.2.2.2] at heq
      exact h.key_inj a ha a' ha' heq
    · rw [List.mem_singleton.mp ha', hkeyq, (hlinks a ha).2.2.2.2, hk] at heq
      exact absurd heq (hnew a ha)
    · rw [List.mem_singleton.mp ha, hkeyq, (hlinks a' ha').2.2.2.2, hk] at heq
      exact absurd heq.symm (hnew a' ha')
    · rw [List.mem_singleton.mp ha, List.mem_singleton.mp ha']

/-- Every bucket is somewhere else, with its key and with links to where the others are now. -/
structure Relocated (m m' : Memory) (as : List Addr) (f : Addr → Addr) : Prop where
  inj : ∀ a ∈ as, ∀ a' ∈ as, f a = f a' → a = a'
  bucket : ∀ a ∈ as, ∀ b, m.buckets a = some b → ∃ b', m'.buckets (f a) = some b' ∧ b'.h = b.h ∧
    m'.keyOf b' = m.keyOf b ∧ ∀ l, b'.link l = (b.link l).map f

namespace Relocated

variable {m m' : Memory} {ht ht' : HashTable} {as : List Addr} {f : Addr → Addr} {a : Addr}

theorem link (h : Relocated m m' as f) (hwf : WellFormed m ht as) (ha : a ∈ as) (l : Link) :
    m'.link l (f a) = (m.link l a).map f := by
  obtain ⟨b, hb⟩ := hwf.isSome a ha
  obtain ⟨b', hb', -, -, hlink⟩ := h.bucket a ha b hb
  simp [Memory.link, hb, hb', hlink]

theorem key (h : Relocated m m' as f) (hwf : WellFormed m ht as) (ha : a ∈ as) :
    m'.key (f a) = m.key a := by
  obtain ⟨b, hb⟩ := hwf.isSome a ha
  obtain ⟨b', hb', -, hkey, -⟩ := h.bucket a ha b hb
  simp [Memory.key, hb, hb', hkey]

/-- The table is the same one, with its buckets at other places. -/
theorem wellFormed (h : Relocated m m' as f) (hwf : WellFormed m ht as)
    (hhead : ht'.pListHead = ht.pListHead.map f) (htail : ht'.pListTail = ht.pListTail.map f)
    (hinternal : ht'.pInternalPointer = ht.pInternalPointer.map f)
    (hnum : ht'.nNumOfElements = ht.nNumOfElements) (hmask : ht'.nTableMask = ht.nTableMask)
    (hsize : ht'.nTableSize = ht.nTableSize)
    (harr : (ht.arBuckets = none ∧ ht'.arBuckets = none) ∨ ∃ t t' slots, ht.arBuckets = some t ∧
      ht'.arBuckets = some t' ∧ m.slots t = some slots ∧
        m'.slots t' = some (slots.map (·.map f))) :
    WellFormed m' ht' (as.map f) := by
  have hslot : ∀ x, ht'.slot x = ht.slot x := fun x => by simp [HashTable.slot, hmask]
  have hslots : m'.arBuckets ht' = (m.arBuckets ht).map (·.map f) := by
    rcases harr with ⟨h₁, h₂⟩ | ⟨t, t', slots, h₁, h₂, h₃, h₄⟩
    · simp [Memory.arBuckets, h₁, h₂]
    · simp [Memory.arBuckets, h₁, h₂, h₃, h₄]
  constructor
  · exact List.Nodup.map_on h.inj hwf.nodup
  · intro a' ha'
    obtain ⟨a, ha, rfl⟩ := List.mem_map.mp ha'
    obtain ⟨b, hb⟩ := hwf.isSome a ha
    obtain ⟨b', hb', -⟩ := h.bucket a ha b hb
    exact ⟨b', hb'⟩
  · rw [hhead, hwf.head, List.head?_map]
  · rw [htail, hwf.tail, List.getLast?_map]
  · intro a' ha'
    obtain ⟨a, ha, rfl⟩ := Option.map_eq_some_iff.mp (hinternal.symm.trans ha')
    exact List.mem_map_of_mem (hwf.internal a ha)
  · exact hwf.list.map (fun a ha => h.link hwf ha .listNext) fun a ha => h.link hwf ha .listLast
  · rw [hnum, hwf.size, List.length_map]
  · rw [hmask, hsize]
    rcases hwf.mask with ⟨h₀, hnone, rfl⟩ | ⟨h₀, hlt, t, slots, ht, hslots, hlen⟩
    · rcases harr with ⟨-, h₂⟩ | ⟨t, t', slots, h₁, -⟩
      · exact .inl ⟨h₀, h₂, rfl⟩
      · simp [hnone] at h₁
    · rcases harr with ⟨h₁, -⟩ | ⟨t₁, t', slots', h₁, h₂, h₃, h₄⟩
      · simp [ht] at h₁
      · obtain rfl : t = t₁ := Option.some.inj (ht.symm.trans h₁)
        obtain rfl : slots = slots' := Option.some.inj (hslots.symm.trans h₃)
        exact .inr ⟨h₀, hlt, t', _, h₂, h₄, by simpa using hlen⟩
  · intro i c hc
    rw [hslots, List.getElem?_map] at hc
    obtain ⟨c, hslot', rfl⟩ := Option.map_eq_some_iff.mp hc
    obtain ⟨cs, rfl, hnodup, hcs, hmem⟩ := hwf.chain i c hslot'
    have has : ∀ a ∈ cs, a ∈ as := fun a ha => ((hmem a).mp ha).1
    refine ⟨cs.map f, by rw [List.head?_map],
      List.Nodup.map_on (fun a ha a' ha' => h.inj a (has a ha) a' (has a' ha')) hnodup,
      hcs.map (fun a ha => h.link hwf (has a ha) .next)
        fun a ha => h.link hwf (has a ha) .last, fun a' => ?_⟩
    constructor
    · intro ha'
      obtain ⟨a, ha, rfl⟩ := List.mem_map.mp ha'
      obtain ⟨haas, b, hb, hi⟩ := (hmem a).mp ha
      obtain ⟨b', hb', hh, -⟩ := h.bucket a haas b hb
      exact ⟨List.mem_map_of_mem haas, b', hb', by rw [hslot, hh, hi]⟩
    · rintro ⟨ha', b', hb', hi⟩
      obtain ⟨a, ha, rfl⟩ := List.mem_map.mp ha'
      obtain ⟨b, hb⟩ := hwf.isSome a ha
      obtain ⟨b'', hb'', hh, -⟩ := h.bucket a ha b hb
      obtain rfl : b' = b'' := Option.some.inj (hb'.symm.trans hb'')
      exact List.mem_map_of_mem ((hmem a).mpr ⟨ha, b, hb, by rw [← hslot, ← hh, hi]⟩)
  · intro a' ha'
    obtain ⟨a, ha, rfl⟩ := List.mem_map.mp ha'
    rw [h.key hwf ha]
    exact hwf.key_isSome a ha
  · intro x hx y hy hxy
    obtain ⟨a, ha, rfl⟩ := List.mem_map.mp hx
    obtain ⟨a', ha', rfl⟩ := List.mem_map.mp hy
    rw [h.key hwf ha, h.key hwf ha'] at hxy
    exact congrArg f (hwf.key_inj a ha a' ha' hxy)

/-- A lookup finds a key where its bucket is now. -/
theorem find (h : Relocated m m' as f) (hwf : WellFormed m ht as)
    (hwf' : WellFormed m' ht' (as.map f)) (k : Key) : m'.find ht' k = (m.find ht k).map f :=
  hwf.find_map hwf' (fun _ ha => h.key hwf ha) k

end Relocated

end Tables

end ZendOpcache
