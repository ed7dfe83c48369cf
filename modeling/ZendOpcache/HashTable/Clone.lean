import ZendOpcache.HashTable.Persist

/-! # Cloning a hash table

The loop that `zend_hash_clone_zval`, `zend_hash_clone_methods` and `zend_hash_clone_prop_info` have
in common. The new buckets are put into empty chains one after the other, so a chain may come out
in another order than that of the source; the keys are found all the same.
-/

namespace ZendOpcache

namespace Tables

open Persist (Addr)

variable {ρ : Type}

/-- Memory of the process, which is free from `next` on. The data are in the rest of the memory. -/
structure CloneState (ρ : Type) where
  memory : Memory
  next : ℕ
  rest : ρ

/-- The pointer `NULL`, as far as it is a key -/
def nullKey : Addr := .process 0

section Clone

variable (isInterned : Addr → Bool) (copyData : CloneState ρ → Addr → Addr → CloneState ρ)

/-- `emalloc` of a bucket, with place for the key unless it is interned -/
def newBucket (st : CloneState ρ) (b : Bucket) : CloneState ρ × Addr :=
  if b.nKeyLength = 0 then ({ st with next := st.next + sizeofBucket }, nullKey)
  else if isInterned b.arKey then ({ st with next := st.next + sizeofBucket }, b.arKey)
  else
    let key := Addr.process (st.next + sizeofBucket)
    ({ st with
        memory := st.memory.copyString b.arKey b.nKeyLength key
        next := st.next + sizeofBucket + b.nKeyLength }, key)

/-- A field of the bucket that a pointer leads to, if it leads to one -/
def Memory.update (m : Memory) (p : Option Addr) (g : Bucket → Bucket) : Option Memory :=
  match p with
  | none => some m
  | some n => (m.buckets n).map fun x => m.writeBucket n (g x)

/-- A new bucket is put at the front of the chain of slot `i` and after the bucket at `prev`. -/
def Memory.linkNew (m : Memory) (t : Addr) (slots : List (Option Addr)) (i : ℕ) (prev : Option Addr)
    (q : Addr) (new : Bucket) : Option Memory := do
  let m ← (m.writeBucket q new).update new.pNext ({ · with pLast := some q })
  (m.writeSlots t (slots.set i (some q))).update prev ({ · with pListNext := some q })

/-- A turn of the loop, for the bucket at `p`. `prev` leads to the bucket whose `pListNext` is set,
and is `none` for `pListHead`; `copyData` sets `pData` and `pDataPtr`. -/
def cloneBucket (st : CloneState ρ) (ht : HashTable) (prev : Option Addr) (p : Addr) :
    Option (CloneState ρ × HashTable × Option Addr) := do
  let b ← st.memory.buckets p
  let q := Addr.process st.next
  let (st, arKey) := newBucket isInterned st b
  let t ← ht.arBuckets
  let slots ← st.memory.slots t
  let c ← slots[ht.slot b.h]?
  let new : Bucket := ⟨b.h, b.nKeyLength, arKey, .own q, none, none, ht.pListTail, c, none⟩
  let m ← st.memory.linkNew t slots (ht.slot b.h) prev q new
  let ht := { ht with
    pListTail := some q
    pListHead := if prev = none then some q else ht.pListHead }
  let st := copyData { st with memory := m } p q
  let b ← st.memory.buckets p
  some (st, ht, b.pListNext)

/-- The loop, with a bound on its turns -/
def cloneBuckets : ℕ → CloneState ρ → HashTable → Option Addr → Option Addr →
    Option (CloneState ρ × HashTable)
  | _, st, ht, _, none => some (st, ht)
  | 0, _, _, _, some _ => none
  | n + 1, st, ht, prev, some p => do
    let q := Addr.process st.next
    let (st, ht, next) ← cloneBucket isInterned copyData st ht prev p
    cloneBuckets n st ht (some q) next

/-- The table without buckets that the loop begins with -/
def cloneHeader (st : CloneState ρ) (source : HashTable) : CloneState ρ × HashTable :=
  let ht := { source with pInternalPointer := none, pListHead := none, pListTail := none }
  if source.nTableMask = 0 then (st, { ht with arBuckets := none })
  else
    let t := Addr.process st.next
    ({ st with
        memory := st.memory.writeSlots t (List.replicate source.nTableSize none)
        next := st.next + sizeofPointer * source.nTableSize }, { ht with arBuckets := some t })

/-- The common loop of `zend_hash_clone_zval`, `zend_hash_clone_methods` and
`zend_hash_clone_prop_info` -/
def zendHashClone (n : ℕ) (st : CloneState ρ) (source : HashTable) :
    Option (CloneState ρ × HashTable) := do
  let (st, ht) := cloneHeader st source
  if source.nTableMask = 0 then some (st, ht) else
    let (st, ht) ← cloneBuckets isInterned copyData n st ht none source.pListHead
    some (st, { ht with pInternalPointer := ht.pListHead })

end Clone

/-- The address is not in what is still free from `n` on. -/
def Older (n : ℕ) : Addr → Prop
  | .process k => k < n
  | .shared _ => True

theorem Older.mono {n n' : ℕ} {a : Addr} (h : Older n a) (hle : n ≤ n') : Older n' a := by
  cases a with
  | process k => exact Nat.lt_of_lt_of_le h hle
  | shared k => trivial

theorem Older.ne {n k : ℕ} {a : Addr} (h : Older n a) (hk : n ≤ k) : a ≠ .process k := by
  rintro rfl
  exact absurd h (Nat.not_lt.mpr hk)

/-- What copying the data of a bucket leaves alone -/
structure CopiesData (Good : ρ → Prop) (copyData : CloneState ρ → Addr → Addr → CloneState ρ) :
    Prop where
  bucket : ∀ st p q a, Good st.rest → Older st.next a → a ≠ q →
    (copyData st p q).memory.buckets a = st.memory.buckets a
  self : ∀ st p q b, Good st.rest → st.memory.buckets q = some b →
    ∃ d z, (copyData st p q).memory.buckets q = some { b with pData := d, pDataPtr := z }
  string : ∀ st p q a, Good st.rest → Older st.next a →
    (copyData st p q).memory.strings a = st.memory.strings a
  slots : ∀ st p q a, Good st.rest → Older st.next a →
    (copyData st p q).memory.slots a = st.memory.slots a
  next : ∀ st p q, Good st.rest → st.next ≤ (copyData st p q).next
  good : ∀ st p q, Good st.rest → Good (copyData st p q).rest

/-- The buckets `done` have been cloned to where `f` says. -/
structure Cloning (Good : ρ → Prop) (st₀ : CloneState ρ) (source : HashTable) (as done : List Addr)
    (f : Addr → Addr) (st : CloneState ρ) (ht : HashTable) : Prop where
  sub : ∀ a ∈ done, a ∈ as
  wf : WellFormed st.memory { ht with nNumOfElements := done.length } (done.map f)
  mask : ht.nTableMask = source.nTableMask
  size : ht.nTableSize = source.nTableSize
  num : ht.nNumOfElements = source.nNumOfElements
  nextFree : ht.nNextFreeElement = source.nNextFreeElement
  internal : ht.pInternalPointer = none
  arr : ∃ k, ht.arBuckets = some (.process k) ∧ st₀.next ≤ k ∧ k < st.next ∧
    ∃ slots, st.memory.slots (.process k) = some slots
  next : st₀.next ≤ st.next
  bucket : ∀ a, Older st₀.next a → st.memory.buckets a = st₀.memory.buckets a
  string : ∀ a, Older st₀.next a → st.memory.strings a = st₀.memory.strings a
  slots : ∀ a, Older st₀.next a → st.memory.slots a = st₀.memory.slots a
  fresh : ∀ a ∈ done, ∃ k, f a = .process k ∧ st₀.next ≤ k ∧ k < st.next
  key : ∀ a ∈ done, st.memory.key (f a) = st₀.memory.key a
  arKey : ∀ a ∈ done, ∀ b, st.memory.buckets (f a) = some b → b.nKeyLength ≠ 0 →
    Older st.next b.arKey
  good : Good st.rest

theorem Memory.update_spec {m : Memory} {p : Option Addr} {g : Bucket → Bucket}
    (h : ∀ n, p = some n → ∃ x, m.buckets n = some x) :
    ∃ m', m.update p g = some m' ∧ m'.strings = m.strings ∧ m'.slots = m.slots ∧
      ∀ a, m'.buckets a = if p = some a then (m.buckets a).map g else m.buckets a := by
  cases p with
  | none => exact ⟨m, rfl, rfl, rfl, fun a => by simp⟩
  | some n =>
    obtain ⟨x, hx⟩ := h n rfl
    refine ⟨m.writeBucket n (g x), by simp [Memory.update, hx], rfl, rfl, fun a => ?_⟩
    by_cases ha : n = a
    · subst ha
      rw [if_pos rfl, hx]
      exact Memory.buckets_writeBucket_self
    · rw [if_neg fun heq => ha (Option.some.inj heq)]
      exact Memory.buckets_writeBucket_of_ne (Ne.symm ha)

theorem Memory.linkNew_spec {m : Memory} {t q : Addr} (slots : List (Option Addr)) (i : ℕ)
    {prev : Option Addr} {new : Bucket} (hnext : ∀ n, new.pNext = some n → n ≠ q ∧
      ∃ x, m.buckets n = some x)
    (hprev : ∀ n, prev = some n → n ≠ q ∧ ∃ x, m.buckets n = some x) :
    ∃ m', m.linkNew t slots i prev q new = some m' ∧ m'.strings = m.strings ∧
      m'.slots = Function.update m.slots t (some (slots.set i (some q))) ∧
      m'.buckets q = some new ∧
      (∀ a, a ≠ q → new.pNext ≠ some a → prev ≠ some a → m'.buckets a = m.buckets a) ∧
      ∀ a, a ≠ q → ∀ x, m.buckets a = some x → ∃ x', m'.buckets a = some x' ∧ x'.data = x.data ∧
        x'.pListLast = x.pListLast ∧ x'.pNext = x.pNext ∧
          x'.pListNext = (if prev = some a then some q else x.pListNext) ∧
            x'.pLast = if new.pNext = some a then some q else x.pLast := by
  have hm₁ : ∀ a, a ≠ q → (m.writeBucket q new).buckets a = m.buckets a := fun a ha =>
    Memory.buckets_writeBucket_of_ne ha
  obtain ⟨m₂, hrun₂, hstr₂, hslots₂, hm₂⟩ := Memory.update_spec (m := m.writeBucket q new)
    (p := new.pNext) (g := ({ · with pLast := some q })) fun n hn => by
      obtain ⟨hne, x, hx⟩ := hnext n hn
      exact ⟨x, (hm₁ n hne).trans hx⟩
  obtain ⟨m₃, hrun₃, hstr₃, hslots₃, hm₃⟩ :=
    Memory.update_spec (m := m₂.writeSlots t (slots.set i (some q))) (p := prev)
      (g := ({ · with pListNext := some q })) fun n hn => by
        obtain ⟨hne, x, hx⟩ := hprev n hn
        change ∃ x, m₂.buckets n = some x
        rw [hm₂, hm₁ n hne, hx]
        split_ifs
        exacts [⟨_, rfl⟩, ⟨_, rfl⟩]
  have hbuckets : ∀ a, (m₂.writeSlots t (slots.set i (some q))).buckets a = m₂.buckets a :=
    fun _ => rfl
  refine ⟨m₃, ?_, hstr₃.trans hstr₂, ?_, ?_, fun a ha h₁ h₂ => ?_, fun a ha x hx => ?_⟩
  · simp [Memory.linkNew, hrun₂, hrun₃]
  · rw [hslots₃]
    exact congrArg (Function.update · t (some (slots.set i (some q)))) hslots₂
  · rw [hm₃, if_neg fun h => (hprev q h).1 rfl, hbuckets, hm₂, if_neg fun h => (hnext q h).1 rfl]
    exact Memory.buckets_writeBucket_self
  · rw [hm₃, if_neg h₂, hbuckets, hm₂, if_neg h₁, hm₁ a ha]
  · rw [hm₃, hbuckets, hm₂, hm₁ a ha, hx]
    split_ifs <;> exact ⟨_, rfl, rfl, rfl, rfl, rfl, rfl⟩

section Step

variable {isInterned : Addr → Bool} {copyData : CloneState ρ → Addr → Addr → CloneState ρ}
  {Good : ρ → Prop} {st₀ st : CloneState ρ} {source ht : HashTable} {as done : List Addr}
  {f : Addr → Addr} {a p : Addr} {b : Bucket}

variable (isInterned) in
/-- The new bucket has the key of the old one. -/
theorem newBucket_spec (hkey : b.nKeyLength ≠ 0 → Older st.next b.arKey) :
    ∃ st₁ arKey, newBucket isInterned st b = (st₁, arKey) ∧ st₁.rest = st.rest ∧
      st₁.memory.buckets = st.memory.buckets ∧ st₁.memory.slots = st.memory.slots ∧
      (∀ a, Older (st.next + sizeofBucket) a → st₁.memory.strings a = st.memory.strings a) ∧
      st.next + sizeofBucket ≤ st₁.next ∧ (b.nKeyLength ≠ 0 → Older st₁.next arKey) ∧
      ∀ c : Bucket, c.h = b.h → c.nKeyLength = b.nKeyLength → c.arKey = arKey →
        st₁.memory.keyOf c = st.memory.keyOf b := by
  unfold newBucket
  split_ifs with h₀ hi
  · refine ⟨_, _, rfl, rfl, rfl, rfl, fun _ _ => rfl, le_rfl, fun h => absurd h₀ h,
      fun c hh hlen _ => ?_⟩
    simp [Memory.keyOf, hlen, h₀, hh]
  · refine ⟨_, _, rfl, rfl, rfl, rfl, fun _ _ => rfl, le_rfl,
      fun h => (hkey h).mono (Nat.le_add_right _ _), fun c hh hlen hc => ?_⟩
    exact keyOf_congr hh hlen hc fun _ => rfl
  · refine ⟨_, _, rfl, rfl, rfl, rfl, fun a ha => ?_, Nat.le_add_right _ _, fun h => ?_,
      fun c hh hlen hc => ?_⟩
    · exact Function.update_of_ne (ha.ne le_rfl) _ _
    · exact Nat.lt_add_of_pos_right (Nat.pos_of_ne_zero h)
    · simp [Memory.keyOf, Memory.copyString, hlen, h₀, hh, hc, Function.comp_def, List.take_take]

/-- What a turn of the loop does to the memory -/
structure Turn (Good : ρ → Prop) (st₀ st st' : CloneState ρ) (as : List Addr) (p t : Addr)
    (slots : List (Option Addr)) (ht : HashTable) : Prop where
  arr : ht.arBuckets = some t
  slots_eq : st.memory.slots t = some slots
  inserted : ∃ b b' c, st₀.memory.buckets p = some b ∧ b'.h = b.h ∧
    slots[ht.slot b.h]? = some c ∧
    Inserted st.memory st'.memory as (.process st.next) b' c ∧
    st'.memory.slots t = some (slots.set (ht.slot b.h) (some (.process st.next))) ∧
    st'.memory.keyOf b' = st₀.memory.key p ∧ (b'.nKeyLength ≠ 0 → Older st'.next b'.arKey)
  next : st.next < st'.next
  bucket : ∀ a, Older st₀.next a → st'.memory.buckets a = st₀.memory.buckets a
  string : ∀ a, Older st.next a → st'.memory.strings a = st.memory.strings a
  slots : ∀ a, Older st.next a → a ≠ t → st'.memory.slots a = st.memory.slots a
  data : ∀ a ∈ as, ∀ x, st.memory.buckets a = some x → ∃ x', st'.memory.buckets a = some x' ∧
    x'.data = x.data
  good : Good st'.rest

/-- The header after a turn -/
def HashTable.appended (ht : HashTable) (q : Addr) : HashTable :=
  { ht with
    pListTail := some q
    pListHead := if ht.pListTail = none then some q else ht.pListHead }

variable (isInterned) in
theorem Cloning.turn (hwf : WellFormed st₀.memory source as) (hd : CopiesData Good copyData)
    (hold : ∀ a ∈ as, Older st₀.next a)
    (hkey : ∀ a ∈ as, ∀ b, st₀.memory.buckets a = some b → b.nKeyLength ≠ 0 →
      Older st₀.next b.arKey)
    (hmask : source.nTableMask ≠ 0) (h : Cloning Good st₀ source as done f st ht) (hp : p ∈ as)
    (hnew : p ∉ done) :
    ∃ st' t slots, cloneBucket isInterned copyData st ht ht.pListTail p =
      some (st', ht.appended (.process st.next), st₀.memory.link .listNext p) ∧
        Turn Good st₀ st st' (done.map f) p t slots ht := by
  obtain ⟨b, hb₀⟩ := hwf.isSome p hp
  have hb : st.memory.buckets p = some b := (h.bucket p (hold p hp)).trans hb₀
  obtain ⟨st₁, arKey, hnewb, hrest₁, hbuckets₁, hslots₁, hstr₁, hnext₁, holder₁, hkey₁⟩ :=
    newBucket_spec isInterned fun h₀ => (hkey p hp b hb₀ h₀).mono h.next
  obtain ⟨t, ht₀, htold, slots, hslots⟩ : ∃ t, ht.arBuckets = some t ∧ Older st.next t ∧
      ∃ slots, st.memory.slots t = some slots := by
    obtain ⟨k, hat, -, hlt, hslots⟩ := h.arr
    exact ⟨.process k, hat, hlt, hslots⟩
  have hsize : 0 < sizeofBucket := by decide
  have hmask' : ht.nTableMask ≠ 0 := h.mask.symm ▸ hmask
  have hq : Addr.process st.next ∉ done.map f := by
    intro hq
    obtain ⟨a, ha, heq⟩ := List.mem_map.mp hq
    obtain ⟨k, hk, -, hlt⟩ := h.fresh a ha
    rw [hk] at heq
    exact absurd (Addr.process.inj heq) hlt.ne
  have hisSome : ∀ a, a ∈ done.map f → a ≠ .process st.next ∧
      ∃ x, st.memory.buckets a = some x := fun a ha =>
    ⟨fun heq => hq (heq ▸ ha), h.wf.isSome a ha⟩
  -- the slot of the new bucket
  have hlen : slots.length = ht.nTableSize ∧ ht.nTableMask < ht.nTableSize := by
    rcases h.wf.mask with ⟨h₀, -⟩ | ⟨-, hlt, t', slots', ht', hs', hlen⟩
    · exact absurd h₀ hmask'
    · obtain rfl : t = t' := Option.some.inj (ht₀.symm.trans ht')
      obtain rfl : slots = slots' := Option.some.inj (hslots.symm.trans hs')
      exact ⟨hlen, hlt⟩
  obtain ⟨c, hc⟩ : ∃ c, slots[ht.slot b.h]? = some c :=
    ⟨_, List.getElem?_eq_getElem (hlen.1 ▸ Nat.lt_of_le_of_lt Nat.and_le_right hlen.2)⟩
  have hcmem : ∀ n, c = some n → n ∈ done.map f := by
    rintro n rfl
    obtain ⟨cs, hcs, -, -, hmem⟩ := h.wf.chain (ht.slot b.h) (some n)
      (by simpa [Memory.arBuckets, ht₀, hslots] using hc)
    exact ((hmem n).mp (List.mem_of_mem_head? hcs.symm)).1
  have htail : ht.pListTail = (done.map f).getLast? := h.wf.tail
  have htmem : ∀ n, ht.pListTail = some n → n ∈ done.map f := fun n hn =>
    List.mem_of_getLast? (htail ▸ hn)
  have htmem' : ∀ n, ht.pListTail = some n → n ≠ .process st.next ∧
      ∃ x, st₁.memory.buckets n = some x := fun n hn => hbuckets₁ ▸ hisSome n (htmem n hn)
  let new : Bucket := ⟨b.h, b.nKeyLength, arKey, .own (.process st.next), none, none, ht.pListTail,
    c, none⟩
  have hcmem' : ∀ n, new.pNext = some n → n ≠ .process st.next ∧
      ∃ x, st₁.memory.buckets n = some x := fun n hn => hbuckets₁ ▸ hisSome n (hcmem n hn)
  obtain ⟨m, hrun, hstr, hslots', hself, hsame, hother⟩ := Memory.linkNew_spec (t := t)
    slots (ht.slot b.h) hcmem' htmem'
  let st₂ : CloneState ρ := { st₁ with memory := m }
  have hgood : Good st₂.rest := by
    change Good st₁.rest
    exact hrest₁ ▸ h.good
  have hnext₂ : st.next + sizeofBucket ≤ st₂.next := hnext₁
  have hq₂ : Older st₂.next (.process st.next) := Nat.lt_of_lt_of_le (by omega) hnext₂
  obtain ⟨d, z, hself'⟩ := hd.self st₂ p (.process st.next) new hgood hself
  let st' := copyData st₂ p (.process st.next)
  have hnext' : st₂.next ≤ st'.next := hd.next st₂ p _ hgood
  -- the strings that there are stay
  have hstrings : ∀ a, Older (st.next + sizeofBucket) a →
      st'.memory.strings a = st.memory.strings a := fun a ha => by
    rw [hd.string st₂ p _ a hgood (ha.mono hnext₂)]
    exact (congrFun hstr a).trans (hstr₁ a ha)
  have hother' : ∀ a ∈ done.map f, ∀ x, st.memory.buckets a = some x → ∃ x',
      st'.memory.buckets a = some x' ∧ x'.data = x.data ∧ x'.pListLast = x.pListLast ∧
        x'.pNext = x.pNext ∧
          x'.pListNext = (if ht.pListTail = some a then some (.process st.next) else x.pListNext) ∧
            x'.pLast = if c = some a then some (.process st.next) else x.pLast := by
    intro a ha x hx
    obtain ⟨hne, -⟩ := hisSome a ha
    obtain ⟨x', hx', hprops⟩ := hother a hne x (hbuckets₁ ▸ hx)
    obtain ⟨a₀, ha₀, rfl⟩ := List.mem_map.mp ha
    obtain ⟨k, hk, -, hlt⟩ := h.fresh a₀ ha₀
    refine ⟨x', ?_, hprops⟩
    rw [hd.bucket st₂ p _ _ hgood (hk ▸ Nat.lt_of_lt_of_le (by omega) hnext₂) hne]
    exact hx'
  -- and so does the source
  have hsource : ∀ a, Older st₀.next a → a ≠ .process st.next ∧ a ∉ done.map f := fun a ha => by
    refine ⟨ha.ne h.next, fun hmem => ?_⟩
    obtain ⟨a₀, ha₀, rfl⟩ := List.mem_map.mp hmem
    obtain ⟨k, hk, hle, -⟩ := h.fresh a₀ ha₀
    exact ha.ne hle hk
  have hsource' : ∀ a, Older st₀.next a → st'.memory.buckets a = st₀.memory.buckets a := by
    intro a ha
    obtain ⟨hne, hnot⟩ := hsource a ha
    rw [hd.bucket st₂ p _ a hgood (ha.mono (h.next.trans (by omega))) hne, ← h.bucket a ha,
      ← hbuckets₁]
    exact hsame a hne (fun hc => hnot (hcmem a hc)) fun ht => hnot (htmem a ht)
  obtain ⟨k, hk⟩ := hwf.key_isSome p hp
  have hkeyb : st₀.memory.keyOf b = some k := by simpa [Memory.key, hb₀] using hk
  let b' : Bucket := { new with pData := d, pDataPtr := z }
  have hkey' : st'.memory.keyOf b' = some k := by
    have h₁ : st'.memory.keyOf b' = st₁.memory.keyOf new :=
      keyOf_congr rfl rfl rfl fun h₀ => by
        rw [hd.string st₂ p _ arKey hgood (holder₁ h₀)]
        exact congrFun hstr arKey
    have h₂ : st.memory.keyOf b = st₀.memory.keyOf b :=
      keyOf_congr rfl rfl rfl fun h₀ => h.string _ (hkey p hp b hb₀ h₀)
    rw [h₁, hkey₁ new rfl rfl rfl, h₂, hkeyb]
  have hinserted : Inserted st.memory st'.memory (done.map f) (.process st.next) b' c := by
    refine ⟨hself', rfl, htail, rfl, rfl, ⟨k, hkey', fun a ha hak => ?_⟩, fun a ha x hx => ?_⟩
    · obtain ⟨a₀, ha₀, rfl⟩ := List.mem_map.mp ha
      rw [h.key a₀ ha₀, ← hk] at hak
      exact hnew (hwf.key_inj a₀ (h.sub a₀ ha₀) p hp hak ▸ ha₀)
    · obtain ⟨x', hx', hdata, h₁, h₂, h₃, h₄⟩ := hother' a ha x hx
      simp only [Bucket.data, Prod.mk.injEq] at hdata
      refine ⟨x', hx', hdata.1, ?_, h₁, h₂, htail ▸ h₃, h₄⟩
      refine keyOf_congr hdata.1 hdata.2.1 hdata.2.2.1 fun h₀ => hstrings _ ?_
      obtain ⟨a₀, ha₀, rfl⟩ := List.mem_map.mp ha
      exact (h.arKey a₀ ha₀ x hx h₀).mono (Nat.le_add_right _ _)
  refine ⟨st', t, slots, ?_, ht₀, hslots, ⟨b, b', c, hb₀, rfl, hc, hinserted, ?_, ?_, ?_⟩,
    by omega, hsource', fun a ha => hstrings a (ha.mono (Nat.le_add_right _ _)),
    fun a ha hat => ?_, fun a ha x hx => ?_, hd.good st₂ p _ hgood⟩
  · have hp' : st'.memory.buckets p = some b := (hsource' p (hold p hp)).trans hb₀
    have hslots₀ : st₁.memory.slots t = some slots := (congrFun hslots₁ t).trans hslots
    have hlink : st₀.memory.link .listNext p = b.pListNext := by
      simp [Memory.link, hb₀, Bucket.link]
    unfold cloneBucket
    simp only [hb, Option.bind_eq_bind, Option.bind_some, hnewb, ht₀, hslots₀, hc]
    rw [show (⟨b.h, b.nKeyLength, arKey, .own (.process st.next), none, none, ht.pListTail,
      c, none⟩ :
      Bucket) = new from rfl, hrun, Option.bind_some]
    change (st'.memory.buckets p).bind _ = _
    rw [hp', Option.bind_some, hlink, HashTable.appended, ht₀]
  · rw [hd.slots st₂ p _ t hgood (htold.mono (by omega))]
    change m.slots t = _
    rw [hslots', Function.update_self]
  · rw [hkey', hk]
  · exact fun h₀ => (holder₁ h₀).mono hnext'
  · rw [hd.slots st₂ p _ a hgood (ha.mono (by omega))]
    change m.slots a = _
    rw [hslots', Function.update_of_ne hat, hslots₁]
  · obtain ⟨x', hx', hdata, -⟩ := hother' a ha x hx
    exact ⟨x', hx', hdata⟩

theorem Cloning.step (hmask : source.nTableMask ≠ 0)
    (h : Cloning Good st₀ source as done f st ht) (hp : p ∈ as) (hnew : p ∉ done)
    {st' : CloneState ρ} {t : Addr} {slots : List (Option Addr)}
    (ht' : Turn Good st₀ st st' (done.map f) p t slots ht) :
    Cloning Good st₀ source as (done ++ [p]) (Function.update f p (.process st.next)) st'
      (ht.appended (.process st.next)) := by
  obtain ⟨b, b', c, hb, hh, hc, hinserted, hslots', hkey', holder'⟩ := ht'.inserted
  obtain ⟨k, hat, hle, hlt, -⟩ := h.arr
  obtain rfl : t = .process k := Option.some.inj (ht'.arr.symm.trans hat)
  have hfresh : ∀ a ∈ done, f a ≠ .process st.next := by
    intro a ha heq
    obtain ⟨k, hk, -, hlt⟩ := h.fresh a ha
    rw [hk] at heq
    exact absurd (Addr.process.inj heq) hlt.ne
  have hf : ∀ a ∈ done, Function.update f p (.process st.next) a = f a := fun a ha =>
    Function.update_of_ne (by rintro rfl; exact hnew ha) _ _
  have hmap : (done ++ [p]).map (Function.update f p (.process st.next)) =
      done.map f ++ [.process st.next] := by
    simp [List.map_congr_left hf]
  have hq : Addr.process st.next ∉ done.map f := fun hq => by
    obtain ⟨a, ha, heq⟩ := List.mem_map.mp hq
    exact hfresh a ha heq
  have htail : ht.pListTail = (done.map f).getLast? := h.wf.tail
  have hhead : ht.pListHead = (done.map f).head? := h.wf.head
  constructor
  · intro a ha
    rcases List.mem_append.mp ha with ha | ha
    · exact h.sub a ha
    · exact List.mem_singleton.mp ha ▸ hp
  · rw [hmap]
    refine h.wf.insert hinserted hq (h.mask.symm ▸ hmask) ht'.arr ht'.slots_eq (hh ▸ hc) rfl rfl
      (by simp) ?_ rfl (fun a ha => by simp [HashTable.appended, h.internal] at ha) ht'.arr
      (hh ▸ hslots')
    simp only [HashTable.appended, htail, hhead]
    cases done <;> simp
  · exact h.mask
  · exact h.size
  · exact h.num
  · exact h.nextFree
  · exact h.internal
  · exact ⟨k, hat, hle, hlt.trans ht'.next, _, hslots'⟩
  · exact h.next.trans ht'.next.le
  · exact ht'.bucket
  · exact fun a ha => (ht'.string a (ha.mono h.next)).trans (h.string a ha)
  · exact fun a ha => (ht'.slots a (ha.mono h.next) (ha.ne hle)).trans (h.slots a ha)
  · intro a ha
    rcases List.mem_append.mp ha with ha | ha
    · obtain ⟨k, hk, hle, hlt⟩ := h.fresh a ha
      exact ⟨k, (hf a ha).trans hk, hle, hlt.trans ht'.next⟩
    · rw [List.mem_singleton.mp ha]
      exact ⟨st.next, Function.update_self _ _ _, h.next, ht'.next⟩
  · intro a ha
    rcases List.mem_append.mp ha with ha | ha
    · obtain ⟨x, hx⟩ := h.wf.isSome (f a) (List.mem_map_of_mem ha)
      obtain ⟨x', hx', -, hkeyx, -⟩ := hinserted.other (f a) (List.mem_map_of_mem ha) x hx
      rw [hf a ha, ← h.key a ha]
      simp [Memory.key, hx, hx', hkeyx]
    · rw [List.mem_singleton.mp ha, Function.update_self, ← hkey']
      simp [Memory.key, hinserted.bucket]
  · intro a ha x hx h₀
    rcases List.mem_append.mp ha with ha | ha
    · rw [hf a ha] at hx
      obtain ⟨y, hy⟩ := h.wf.isSome (f a) (List.mem_map_of_mem ha)
      obtain ⟨y', hy', hdata⟩ := ht'.data (f a) (List.mem_map_of_mem ha) y hy
      obtain rfl : x = y' := Option.some.inj (hx.symm.trans hy')
      simp only [Bucket.data, Prod.mk.injEq] at hdata
      rw [hdata.2.2.1]
      exact (h.arKey a ha y hy (hdata.2.1 ▸ h₀)).mono ht'.next.le
    · rw [List.mem_singleton.mp ha, Function.update_self, hinserted.bucket] at hx
      obtain rfl := Option.some.inj hx
      exact holder' h₀
  · exact ht'.good

variable (isInterned) in
/-- The whole loop, from the first bucket that is left -/
theorem Cloning.run (hwf : WellFormed st₀.memory source as) (hd : CopiesData Good copyData)
    (hold : ∀ a ∈ as, Older st₀.next a)
    (hkey : ∀ a ∈ as, ∀ b, st₀.memory.buckets a = some b → b.nKeyLength ≠ 0 →
      Older st₀.next b.arKey) (hmask : source.nTableMask ≠ 0) :
    ∀ {rest done : List Addr} {f : Addr → Addr} {st : CloneState ρ} {ht : HashTable} {n : ℕ}
      {q : Option Addr}, as = done ++ rest →
      Linked (st₀.memory.link .listNext) (st₀.memory.link .listLast) q rest →
        Cloning Good st₀ source as done f st ht → rest.length ≤ n →
          ∃ st' ht' f', cloneBuckets isInterned copyData n st ht ht.pListTail rest.head? =
            some (st', ht') ∧ Cloning Good st₀ source as as f' st' ht'
  | [], done, f, st, ht, n, q, has, _, h, _ => by
    obtain rfl : as = done := by simpa using has
    exact ⟨st, ht, f, by cases n <;> rfl, h⟩
  | p :: rest, done, f, st, ht, n + 1, q, has, hlist, h, hn => by
    obtain ⟨-, hnext, hlist⟩ := hlist
    have hp : p ∈ as := by simp [has]
    have hnew : p ∉ done := fun hmem => by
      have hnodup := hwf.nodup
      rw [has] at hnodup
      exact (List.nodup_append.mp hnodup).2.2 p hmem p (by simp) rfl
    obtain ⟨st₁, t, slots, hrun, hturn⟩ :=
      h.turn isInterned hwf hd hold hkey hmask hp hnew
    have h₁ := h.step hmask hp hnew hturn
    obtain ⟨st', ht', f', hrun', h'⟩ := Cloning.run hwf hd hold hkey hmask
      (by rw [has, List.append_assoc, List.singleton_append]) hlist h₁ (Nat.le_of_succ_le_succ hn)
    refine ⟨st', ht', f', ?_, h'⟩
    rw [List.head?_cons, cloneBuckets, hrun]
    simp only [Option.bind_eq_bind, Option.bind_some, hnext]
    exact hrun'

end Step

/-- A table that may be cloned: all of it is in memory that is in use. -/
structure Clonable (st : CloneState ρ) (source : HashTable) (as : List Addr) : Prop where
  wf : WellFormed st.memory source as
  bucket : ∀ a ∈ as, Older st.next a
  slots : ∀ t, source.arBuckets = some t → Older st.next t
  key : ∀ a ∈ as, ∀ b, st.memory.buckets a = some b → b.nKeyLength ≠ 0 → Older st.next b.arKey

/-- Another process has the same shared memory. -/
def SameShared (m m' : Memory) : Prop :=
  ∀ k, m'.buckets (.shared k) = m.buckets (.shared k) ∧
    m'.strings (.shared k) = m.strings (.shared k) ∧ m'.slots (.shared k) = m.slots (.shared k)

/-- What a clone has in common with its source, which is as it was: the keys in their order, and
the lookups. -/
structure Cloned (st : CloneState ρ) (source : HashTable) (as : List Addr) (f : Addr → Addr)
    (st' : CloneState ρ) (ht : HashTable) : Prop where
  wf : WellFormed st'.memory ht (as.map f)
  key : ∀ a ∈ as, st'.memory.key (f a) = st.memory.key a
  find : ∀ k, st'.memory.find ht k = (st.memory.find source k).map f
  internal : ht.pInternalPointer = (as.map f).head?
  nextFree : ht.nNextFreeElement = source.nNextFreeElement
  fresh : ∀ a ∈ as, ∃ k, f a = .process k ∧ st.next ≤ k ∧ k < st'.next
  source : WellFormed st'.memory source as
  shared : SameShared st.memory st'.memory

section Whole

variable {isInterned : Addr → Bool} {copyData : CloneState ρ → Addr → Addr → CloneState ρ}
  {Good : ρ → Prop} {st st' : CloneState ρ} {source ht : HashTable} {as : List Addr}
  {f : Addr → Addr} {n : ℕ}

/-- A table stays as it is while other memory is written. -/
theorem Clonable.wellFormed (h : Clonable st source as)
    (hbucket : ∀ a, Older st.next a → st'.memory.buckets a = st.memory.buckets a)
    (hstring : ∀ a, Older st.next a → st'.memory.strings a = st.memory.strings a)
    (hslots : ∀ a, Older st.next a → st'.memory.slots a = st.memory.slots a) :
    WellFormed st'.memory source as := by
  have hrel : Relocated st.memory st'.memory as id := by
    refine ⟨fun a _ a' _ heq => heq, fun a ha b hb => ⟨b, ?_, rfl, ?_, fun l => ?_⟩⟩
    · exact (hbucket a (h.bucket a ha)).trans hb
    · exact keyOf_congr rfl rfl rfl fun h₀ => hstring _ (h.key a ha b hb h₀)
    · rw [Option.map_id, id]
  rw [← List.map_id as]
  refine hrel.wellFormed h.wf ?_ ?_ ?_ rfl rfl rfl ?_
  · rw [Option.map_id, id]
  · rw [Option.map_id, id]
  · rw [Option.map_id, id]
  · rcases h.wf.mask with ⟨-, hnone, -⟩ | ⟨-, -, t, slots, hat, hs, -⟩
    · exact .inl ⟨hnone, hnone⟩
    · refine .inr ⟨t, t, slots, hat, hat, hs, ?_⟩
      rw [hslots t (h.slots t hat), hs, Option.map_id_fun, List.map_id_fun, id]

/-- The table that the loop begins with is empty. -/
theorem Clonable.cloning (h : Clonable st source as) (hgood : Good st.rest)
    (hmask : source.nTableMask ≠ 0) :
    ∃ st₁ ht₁, cloneHeader st source = (st₁, ht₁) ∧ ht₁.pListTail = none ∧
      ∀ f, Cloning Good st source as [] f st₁ ht₁ := by
  obtain ⟨hlt, hpos⟩ : source.nTableMask < source.nTableSize ∧ 0 < source.nTableSize := by
    rcases h.wf.mask with ⟨h₀, -⟩ | ⟨-, hlt, -⟩
    · exact absurd h₀ hmask
    · exact ⟨hlt, Nat.zero_lt_of_lt hlt⟩
  refine ⟨_, _, by rw [cloneHeader, if_neg hmask], rfl, fun f => ?_⟩
  have hsize : st.next < st.next + sizeofPointer * source.nTableSize :=
    Nat.lt_add_of_pos_right (Nat.mul_pos (by decide) hpos)
  have hslots : (st.memory.writeSlots (.process st.next)
      (List.replicate source.nTableSize none)).slots (.process st.next) =
        some (List.replicate source.nTableSize none) := Function.update_self _ _ _
  constructor
  · simp
  · constructor
    · exact List.nodup_nil
    · simp
    · rfl
    · rfl
    · simp
    · exact Linked.nil
    · rfl
    · exact .inr ⟨hmask, hlt, _, _, rfl, hslots, List.length_replicate⟩
    · intro i c hc
      have hc' : (List.replicate source.nTableSize (none : Option Addr))[i]? = some c := by
        simpa [Memory.arBuckets, hslots] using hc
      obtain rfl : none = c := by
        rw [List.getElem?_replicate] at hc'
        split_ifs at hc'
        exact Option.some.inj hc'
      exact ⟨[], rfl, List.nodup_nil, Linked.nil, by simp⟩
    · simp
    · simp
  · rfl
  · rfl
  · rfl
  · rfl
  · rfl
  · exact ⟨st.next, rfl, le_rfl, hsize, _, hslots⟩
  · exact hsize.le
  · exact fun _ _ => rfl
  · exact fun _ _ => rfl
  · exact fun a ha => Function.update_of_ne (ha.ne le_rfl) _ _
  · simp
  · simp
  · simp
  · exact hgood

variable (isInterned) in
/-- A clone has the keys of its source in the same order, and finds each of them; the source is
as it was. -/
theorem zendHashClone_cloned (h : Clonable st source as) (hd : CopiesData Good copyData)
    (hgood : Good st.rest) (hn : as.length ≤ n) :
    ∃ st' ht f, zendHashClone isInterned copyData n st source = some (st', ht) ∧
      Cloned st source as f st' ht := by
  by_cases hmask : source.nTableMask = 0
  · -- nothing is cloned of a table that has not been initialized
    obtain ⟨rfl, harr⟩ : as = [] ∧ source.arBuckets = none := by
      rcases h.wf.mask with ⟨-, hnone, hnil⟩ | ⟨h₀, -⟩
      · exact ⟨hnil, hnone⟩
      · exact absurd hmask h₀
    have hwf : WellFormed st.memory { source with
        pInternalPointer := none, pListHead := none, pListTail := none, arBuckets := none }
        ([].map id) := by
      obtain ⟨h₁, h₂, h₃, h₄, h₅, h₆, h₇, h₈, h₉, h₁₀, h₁₁⟩ := h.wf
      exact ⟨h₁, h₂, rfl, rfl, by simp, h₆, h₇, .inl ⟨hmask, rfl, rfl⟩,
        fun i c hc => h₉ i c (by simpa [Memory.arBuckets, harr] using hc), h₁₀, h₁₁⟩
    refine ⟨st, _, id, ?_, hwf, by simp, fun k => h.wf.find_map hwf (by simp) k, rfl, rfl, by simp,
      h.wf, fun k => ⟨rfl, rfl, rfl⟩⟩
    simp [zendHashClone, cloneHeader, hmask]
  · obtain ⟨st₁, ht₁, hheader, htail, hcloning⟩ := h.cloning hgood hmask
    obtain ⟨st', ht, f, hrun, hdone⟩ :=
      Cloning.run isInterned h.wf hd h.bucket h.key hmask rfl h.wf.list (hcloning id) hn
    have hwf : WellFormed st'.memory { ht with pInternalPointer := ht.pListHead } (as.map f) := by
      obtain ⟨h₁, h₂, h₃, h₄, h₅, h₆, h₇, h₈, h₉, h₁₀, h₁₁⟩ := hdone.wf
      exact ⟨h₁, h₂, h₃, h₄, fun a ha => List.mem_of_mem_head? (h₃ ▸ ha), h₆,
        (hdone.num.trans h.wf.size).trans (List.length_map f).symm, h₈, h₉, h₁₀, h₁₁⟩
    refine ⟨st', _, f, ?_, hwf, hdone.key, fun k => h.wf.find_map hwf hdone.key k, hdone.wf.head,
      hdone.nextFree, hdone.fresh, h.wellFormed hdone.bucket hdone.string hdone.slots,
      fun k => ⟨hdone.bucket _ trivial, hdone.string _ trivial, hdone.slots _ trivial⟩⟩
    unfold zendHashClone
    rw [hheader]
    simp only [if_neg hmask, Option.bind_eq_bind]
    rw [h.wf.head, ← htail, hrun, Option.bind_some]

end Whole

section RoundTrip

variable {σ : Type} {isInterned : Addr → Bool}
  {pPersistElement : PersistState ρ → Location → PersistState ρ} {elSize : ℕ}
    {st st' : PersistState ρ}
  {ht ht' : HashTable} {as : List Addr} {f : Addr → Addr}
  {copyData : CloneState σ → Addr → Addr → CloneState σ} {GoodPersist : ρ → Prop}
  {GoodClone : σ → Prop} {n n' : ℕ}

/-- All of a stored table is in shared memory. -/
theorem Persisted.clonable (h : Persisted isInterned elSize st ht as f st' ht')
    (hwf : WellFormed st.memory ht as) (hinterned : ∀ a, isInterned a = true → ∃ k, a = .shared k)
    {cs : CloneState σ} (hshared : SameShared st'.memory cs.memory) :
    Clonable cs ht' (as.map f) ∧ ∀ a ∈ as, cs.memory.key (f a) = st.memory.key a := by
  have hcopied : ∀ a ∈ as, (∃ k, f a = .shared k) ∧ ∃ b, st'.memory.buckets (f a) = some b ∧
      (b.nKeyLength ≠ 0 → ∃ k, b.arKey = .shared k) := by
    intro a ha
    obtain ⟨⟨k, hk, -⟩, b, hb, hkey, -⟩ := h.bucket a ha
    refine ⟨⟨k, hk⟩, b, hb, fun h₀ => ?_⟩
    obtain h | h | ⟨k', hk', -⟩ := hkey
    · exact absurd h h₀
    · exact hinterned _ h
    · exact ⟨k', hk'⟩
  have hslots : ∀ t, ht'.arBuckets = some t → ∃ k, t = .shared k := fun t hat => by
    obtain ⟨k, hk, -⟩ := h.arBuckets t hat
    exact ⟨k, hk⟩
  have hbucket : ∀ a ∈ as, cs.memory.buckets (f a) = st'.memory.buckets (f a) := fun a ha => by
    obtain ⟨k, hk⟩ := (hcopied a ha).1
    rw [hk]
    exact (hshared k).1
  have hkeyOf : ∀ a ∈ as, ∀ b, st'.memory.buckets (f a) = some b →
      cs.memory.keyOf b = st'.memory.keyOf b := by
    intro a ha b hb
    refine keyOf_congr rfl rfl rfl fun h₀ => ?_
    obtain ⟨-, b', hb', hkey⟩ := hcopied a ha
    obtain rfl : b = b' := Option.some.inj (hb.symm.trans hb')
    obtain ⟨k, hk⟩ := hkey h₀
    rw [hk]
    exact (hshared k).2.1
  have hrel : Relocated st'.memory cs.memory (as.map f) id := by
    refine ⟨fun a _ a' _ heq => heq, fun a' ha' b hb => ?_⟩
    obtain ⟨a, ha, rfl⟩ := List.mem_map.mp ha'
    exact ⟨b, (hbucket a ha).trans hb, rfl, hkeyOf a ha b hb, fun l => by rw [Option.map_id, id]⟩
  refine ⟨⟨?_, fun a' ha' => ?_, fun t hat => ?_, fun a' ha' b hb h₀ => ?_⟩, fun a ha => ?_⟩
  · rw [← List.map_id (as.map f)]
    refine hrel.wellFormed h.wf ?_ ?_ ?_ rfl rfl rfl ?_
    · rw [Option.map_id, id]
    · rw [Option.map_id, id]
    · rw [Option.map_id, id]
    · rcases h.wf.mask with ⟨-, hnone, -⟩ | ⟨-, -, t, slots, hat, hs, -⟩
      · exact .inl ⟨hnone, hnone⟩
      · refine .inr ⟨t, t, slots, hat, hat, hs, ?_⟩
        obtain ⟨k, rfl⟩ := hslots t hat
        rw [(hshared k).2.2, hs, Option.map_id_fun, List.map_id_fun, id]
  · obtain ⟨a, ha, rfl⟩ := List.mem_map.mp ha'
    obtain ⟨k, hk⟩ := (hcopied a ha).1
    exact hk ▸ trivial
  · obtain ⟨k, rfl⟩ := hslots t hat
    trivial
  · obtain ⟨a, ha, rfl⟩ := List.mem_map.mp ha'
    obtain ⟨-, b', hb', hkey⟩ := hcopied a ha
    obtain rfl : b = b' := Option.some.inj (((hbucket a ha).symm.trans hb).symm.trans hb')
    obtain ⟨k, hk⟩ := hkey h₀
    exact hk ▸ trivial
  · exact (hrel.key h.wf (List.mem_map_of_mem ha)).trans (h.relocated.key hwf ha)

/-- A table that has been stored is there for each process that has the same shared memory: it may
be cloned, the clone has the keys of the table that was stored in their order and finds each of
them, and afterwards it may be cloned again. -/
theorem zendHashPersist_zendHashClone (hr : Ready isInterned st ht as)
    (hf : Persists GoodPersist (tableBlocks isInterned st.memory ht as) pPersistElement)
    (hgood : GoodPersist st.rest) (hn : as.length ≤ n) (hd : CopiesData GoodClone copyData) :
    ∃ (st' : PersistState ρ) (ht' : HashTable) (f : Addr → Addr),
      zendHashPersist isInterned pPersistElement elSize n st ht = some (st', ht') ∧
      ∀ cs : CloneState σ, SameShared st'.memory cs.memory → GoodClone cs.rest →
        ∀ n' ≥ as.length, ∃ (cs' : CloneState σ) (ht'' : HashTable) (g : Addr → Addr),
          zendHashClone isInterned copyData n' cs ht' = some (cs', ht'') ∧
          WellFormed cs'.memory ht'' (as.map (g ∘ f)) ∧
          (∀ a ∈ as, cs'.memory.key (g (f a)) = st.memory.key a) ∧
          (∀ k, cs'.memory.find ht'' k = (st.memory.find ht k).map (g ∘ f)) ∧
          ht''.nNextFreeElement = ht.nNextFreeElement ∧
          SameShared st'.memory cs'.memory := by
  obtain ⟨st₁, f, hrun, h⟩ := Moving.run elSize hr hf (hr.moving hgood) hn
  obtain ⟨st', ht', hpersist, hstored⟩ := h.finish hr hrun
  refine ⟨st', ht', f, hpersist, fun cs hshared hcs n' hn' => ?_⟩
  obtain ⟨hclonable, hkey⟩ := hstored.clonable hr.wf
    (fun a ha => (hr.interned a ha).imp fun k hk => hk.2) hshared
  obtain ⟨cs', ht'', g, hclone, h'⟩ := zendHashClone_cloned isInterned hclonable hd hcs
    ((List.length_map f).symm ▸ hn')
  have hkeys : ∀ a ∈ as, cs'.memory.key (g (f a)) = st.memory.key a := fun a ha =>
    (h'.key (f a) (List.mem_map_of_mem ha)).trans (hkey a ha)
  have hwf : WellFormed cs'.memory ht'' (as.map (g ∘ f)) := by
    rw [← List.map_map]
    exact h'.wf
  exact ⟨cs', ht'', g, hclone, hwf, hkeys, fun k => hr.wf.find_map hwf hkeys k,
    h'.nextFree.trans hstored.nextFree, fun k => ⟨(h'.shared k).1.trans (hshared k).1,
      (h'.shared k).2.1.trans (hshared k).2.1, (h'.shared k).2.2.trans (hshared k).2.2⟩⟩

end RoundTrip

section Example

/-- The data of a clone of `properties_info`, which are a block of their own -/
def clonePropertyInfo (st : CloneState Unit) (_ q : Addr) : CloneState Unit :=
  match st.memory.buckets q with
  | none => st
  | some b =>
    { st with
      memory := st.memory.writeBucket q
        { b with pData := .block (.process st.next), pDataPtr := none }
      next := st.next + 56 }

theorem copiesData_clonePropertyInfo : CopiesData (fun _ => True) clonePropertyInfo where
  bucket st p q a _ _ ha := by
    unfold clonePropertyInfo
    split
    · rfl
    · exact Memory.buckets_writeBucket_of_ne ha
  self st p q b _ hb := by
    refine ⟨.block (.process st.next), none, ?_⟩
    simp only [clonePropertyInfo, hb]
    exact Memory.buckets_writeBucket_self
  string st p q a _ _ := by
    unfold clonePropertyInfo
    split <;> rfl
  slots st p q a _ _ := by
    unfold clonePropertyInfo
    split <;> rfl
  next st p q _ := by
    unfold clonePropertyInfo
    split
    · exact le_rfl
    · exact Nat.le_add_right _ _
  good _ _ _ _ := trivial

theorem zendHashPersist_zendHashClone_twoProperties :
    ∃ (st' : PersistState Unit) (ht' : HashTable) (f : Addr → Addr),
      zendHashPersist isInternedName (fun st _ => st) 56 2 twoProperties propertiesInfo =
        some (st', ht') ∧
      ∀ cs : CloneState Unit, SameShared st'.memory cs.memory → True →
        ∀ n' ≥ 2, ∃ (cs' : CloneState Unit) (ht'' : HashTable) (g : Addr → Addr),
          zendHashClone isInternedName clonePropertyInfo n' cs ht' = some (cs', ht'') ∧
          WellFormed cs'.memory ht'' ([.process 1, .process 2].map (g ∘ f)) ∧
          (∀ a ∈ [.process 1, .process 2],
            cs'.memory.key (g (f a)) = twoProperties.memory.key a) ∧
          (∀ k, cs'.memory.find ht'' k =
            (twoProperties.memory.find propertiesInfo k).map (g ∘ f)) ∧
          ht''.nNextFreeElement = 0 ∧ SameShared st'.memory cs'.memory :=
  zendHashPersist_zendHashClone ready_twoProperties (persists_of_interned _) trivial le_rfl
    copiesData_clonePropertyInfo

end Example

end Tables

end ZendOpcache
