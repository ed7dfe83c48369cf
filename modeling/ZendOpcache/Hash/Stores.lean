import ZendOpcache.Hash.Indirection

/-! # The update store by store

`zend_accel_hash_find` runs without a lock, so it may read the table between any two stores of an
update. A new entry is linked last and an alias is redirected by one store. Only where a direct
entry becomes an alias does a reader see an entry pointer as the value.
-/

namespace ZendOpcache

namespace ZendAccelHash

/-- An entry in memory. The key pointer leads to the bytes, of which `key_length` belong to it. -/
structure EntryCells (δ : Type*) where
  hashValue : ℕ
  key : List UInt8
  keyLength : ℕ
  next : Option ℕ
  data : VoidPtr δ
  indirect : Bool
  deriving DecidableEq, Repr

/-- The table in shared memory. Of the preallocated entries those from `num_entries` on hold what
was there before. -/
structure HashMemory (δ : Type*) where
  hashTable : ℕ → Option ℕ
  hashEntries : ℕ → EntryCells δ
  numEntries : ℕ
  maxNumEntries : ℕ
  numDirectEntries : ℕ

/-- One store. -/
inductive Store (δ : Type*) where
  | numEntries (n : ℕ)
  | numDirectEntries (n : ℕ)
  | data (i : ℕ) (x : VoidPtr δ)
  | indirect (i : ℕ) (b : Bool)
  | hashValue (i n : ℕ)
  | key (i : ℕ) (k : List UInt8)
  | keyLength (i n : ℕ)
  | next (i : ℕ) (p : Option ℕ)
  | hashTable (b : ℕ) (p : Option ℕ)
  deriving DecidableEq, Repr

namespace HashMemory

variable {δ : Type*} (m : HashMemory δ)

/-- A store to an entry. -/
def setEntry (i : ℕ) (f : EntryCells δ → EntryCells δ) : HashMemory δ :=
  { m with hashEntries := Function.update m.hashEntries i (f (m.hashEntries i)) }

def store : Store δ → HashMemory δ
  | .numEntries n => { m with numEntries := n }
  | .numDirectEntries n => { m with numDirectEntries := n }
  | .data i x => m.setEntry i ({ · with data := x })
  | .indirect i b => m.setEntry i ({ · with indirect := b })
  | .hashValue i n => m.setEntry i ({ · with hashValue := n })
  | .key i k => m.setEntry i ({ · with key := k })
  | .keyLength i n => m.setEntry i ({ · with keyLength := n })
  | .next i p => m.setEntry i ({ · with next := p })
  | .hashTable b p => { m with hashTable := Function.update m.hashTable b p }

def stores (l : List (Store δ)) : HashMemory δ := l.foldl store m

/-- `while (indirect_bucket->indirect)` -/
def followIndirect : ℕ → ℕ → Option ℕ
  | 0, _ => none
  | n + 1, i =>
    if (m.hashEntries i).indirect then
      match (m.hashEntries i).data with
      | .entry j => followIndirect n j
      | .data _ => none
    else some i

variable [ZendInlineHash (List UInt8)]

/-- `hash_value`, `key_length` and `memcmp` -/
def EntryCells.hasKey (e : EntryCells δ) (k : List UInt8) : Bool :=
  e.hashValue == zendInlineHashFunc k && e.keyLength == k.length && e.key.take k.length == k

/-- The walk of a chain. More steps than there are entries stand for one that never ends. -/
def walk (k : List UInt8) : ℕ → Option ℕ → Option (Option ℕ)
  | 0, _ => none
  | _ + 1, none => some none
  | n + 1, some i =>
    if EntryCells.hasKey (m.hashEntries i) k then some (some i)
    else walk k n (m.hashEntries i).next

def lookup (k : List UInt8) : Option (Option ℕ) :=
  m.walk k (m.maxNumEntries + 1) (m.hashTable (zendInlineHashFunc k % m.maxNumEntries))

/-- The result is `none` where the walk never ends, or follows a value as an entry. -/
def zendAccelHashFind (k : List UInt8) : Option (Option (VoidPtr δ)) :=
  match m.lookup k with
  | none => none
  | some none => some none
  | some (some i) =>
    if (m.hashEntries i).indirect then
      match (m.hashEntries i).data with
      | .entry j => some (some (m.hashEntries j).data)
      | .data _ => none
    else some (some (m.hashEntries i).data)

/-- The stores into an entry whose key was found. -/
def overwriteStores (i : ℕ) : VoidPtr δ → Option (List (Store δ))
  | .entry b =>
    if (m.hashEntries i).indirect then some [.data i (.entry b)]
    else some [.numDirectEntries (m.numDirectEntries - 1), .data i (.entry b), .indirect i true]
  | .data d =>
    if (m.hashEntries i).indirect then
      match (m.hashEntries i).data with
      | .entry j => some [.data j (.data d)]
      | .data _ => none
    else some [.data i (.data d)]

/-- The stores that make the next free entry, before it is linked. -/
def entryStores (k : List UInt8) (value : VoidPtr δ) : List (Store δ) :=
  [.numEntries (m.numEntries + 1)] ++
  (match value with
    | .entry b => [.data m.numEntries (.entry b), .indirect m.numEntries true]
    | .data d => [.numDirectEntries (m.numDirectEntries + 1), .data m.numEntries (.data d),
        .indirect m.numEntries false]) ++
  [.hashValue m.numEntries (zendInlineHashFunc k), .key m.numEntries k,
    .keyLength m.numEntries k.length,
    .next m.numEntries (m.hashTable (zendInlineHashFunc k % m.maxNumEntries))]

/-- The stores of `zend_accel_hash_update` in program order, once the new target was followed. -/
def resolvedStores (k : List UInt8) (value : VoidPtr δ) : Option (List (Store δ)) :=
  match m.lookup k with
  | none => none
  | some (some i) => m.overwriteStores i value
  | some none =>
    if m.numEntries = m.maxNumEntries then some []
    else some (m.entryStores k value ++
      [.hashTable (zendInlineHashFunc k % m.maxNumEntries) (some m.numEntries)])

def updateStores (k : List UInt8) : VoidPtr δ → Option (List (Store δ))
  | .data d => m.resolvedStores k (.data d)
  | .entry b => (m.followIndirect (m.maxNumEntries + 1) b).bind fun c =>
      m.resolvedStores k (.entry c)

/-- A reader between two stores gets what it got before them or gets after them, and never an entry
pointer. -/
def AtomicFind (l : List (Store δ)) : Prop :=
  ∀ n k, ((m.stores (l.take n)).zendAccelHashFind k = m.zendAccelHashFind k ∨
      (m.stores (l.take n)).zendAccelHashFind k = (m.stores l).zendAccelHashFind k) ∧
    ∀ i, (m.stores (l.take n)).zendAccelHashFind k ≠ some (some (.entry i))

/-! ### The table in memory -/

def cellsOf (e : ZendAccelHashEntry (List UInt8) δ) : EntryCells δ :=
  ⟨e.hashValue, e.key, e.key.length, e.next, e.data, e.indirect⟩

/-- The memory holds the entries of a table, whatever the counters say. -/
structure Holds (m : HashMemory δ) (h : ZendAccelHash (List UInt8) δ) : Prop where
  hashTable : m.hashTable = h.hashTable
  maxNumEntries : m.maxNumEntries = h.maxNumEntries
  entry : ∀ {i : ℕ} {e : ZendAccelHashEntry (List UInt8) δ}, h.hashEntries[i]? = some e →
    m.hashEntries i = cellsOf e

variable {m} {h h' : ZendAccelHash (List UInt8) δ} {k : List UInt8} {i j c n n' : ℕ}
  {e : ZendAccelHashEntry (List UInt8) δ} {p : Option ℕ}

/-- The update makes an alias of a direct entry. -/
def TurnsDirect (h : ZendAccelHash (List UInt8) δ) (k : List UInt8) : VoidPtr δ → Prop
  | .data _ => False
  | .entry _ => ∃ i e, h.lookup k = some i ∧ h.hashEntries[i]? = some e ∧ e.indirect = false

theorem hasKey_cellsOf : EntryCells.hasKey (cellsOf e) k = true ↔
    e.hashValue = zendInlineHashFunc k ∧ e.key = k := by
  unfold EntryCells.hasKey cellsOf
  simp only [Bool.and_eq_true, beq_iff_eq, and_assoc]
  constructor
  · rintro ⟨hhash, hlen, htake⟩
    rw [← hlen, List.take_length] at htake
    exact ⟨hhash, htake⟩
  · rintro ⟨hhash, rfl⟩
    exact ⟨hhash, rfl, List.take_length⟩

/-- Both walks find the same entry. -/
theorem Holds.walk_eq (hm : m.Holds h) (hw : WellFormed h) (hn : 0 < n) (hn' : 0 < n')
    (hp : ∀ j, p = some j → j < h.numEntries ∧ j + 1 < n ∧ j + 1 < n') :
    m.walk k n p = some (ZendAccelHash.walk h.hashEntries k n' p) := by
  induction n generalizing n' p with
  | zero => omega
  | succ n ih =>
    obtain ⟨n', rfl⟩ : ∃ l, n' = l + 1 := ⟨n' - 1, by omega⟩
    cases p with
    | none => rfl
    | some j =>
      obtain ⟨hj, hjn, hjn'⟩ := hp j rfl
      have he := List.getElem?_eq_getElem hj
      rw [walk, ZendAccelHash.walk, hm.entry he, he]
      dsimp only
      by_cases hkey : EntryCells.hasKey (cellsOf h.hashEntries[j]) k = true
      · rw [if_pos hkey, if_pos (hasKey_cellsOf.mp hkey)]
      · rw [if_neg hkey, if_neg (mt hasKey_cellsOf.mpr hkey)]
        refine ih (by omega) (by omega) fun l hl => ?_
        have := hw.next_lt he hl
        omega

theorem Holds.lookup_eq (hm : m.Holds h) (hw : WellFormed h) (k : List UInt8) :
    m.lookup k = some (h.lookup k) := by
  unfold lookup ZendAccelHash.lookup index
  rw [hm.hashTable, hm.maxNumEntries]
  refine hm.walk_eq hw (Nat.succ_pos _) (Nat.succ_pos _) fun j hj => ?_
  have h₁ := hw.head_lt hj
  have h₂ := hw.length_le
  omega

theorem Holds.find_eq (hm : m.Holds h) (hw : WellFormed h) (ho : OneLevel h) (k : List UInt8) :
    m.zendAccelHashFind k = some (h.zendAccelHashFind k) := by
  unfold zendAccelHashFind ZendAccelHash.zendAccelHashFind
  rw [hm.lookup_eq hw]
  cases hl : h.lookup k with
  | none => rfl
  | some i =>
    obtain ⟨-, e, he, -⟩ := lookup_sound hl
    rw [Option.bind_some, he, Option.bind_some]
    dsimp only
    rw [hm.entry he]
    cases hi : e.indirect with
    | false => simp [cellsOf, hi]
    | true =>
      obtain ⟨j, e', hj, he', -⟩ := ho.target he hi
      simp [cellsOf, hi, hj, deref, he', hm.entry he']

/-- Where every state between the stores holds the table before or the one after, readers see
nothing else. -/
theorem atomicFind_of_holds {l : List (Store δ)} (hm : m.Holds h) (hw : WellFormed h)
    (ho : OneLevel h) (hm' : (m.stores l).Holds h') (hw' : WellFormed h') (ho' : OneLevel h')
    (hmid : ∀ n, (m.stores (l.take n)).Holds h ∨ (m.stores (l.take n)).Holds h') :
    m.AtomicFind l := by
  intro n k
  rcases hmid n with hn | hn
  · rw [hn.find_eq hw ho, hm.find_eq hw ho]
    refine ⟨.inl rfl, fun i hi => ?_⟩
    obtain ⟨d, hd⟩ := ho.find_data (Option.some.inj hi)
    cases hd
  · rw [hn.find_eq hw' ho', hm'.find_eq hw' ho']
    refine ⟨.inr rfl, fun i hi => ?_⟩
    obtain ⟨d, hd⟩ := ho'.find_data (Option.some.inj hi)
    cases hd

/-! ### What the stores change -/

omit [ZendInlineHash (List UInt8)] in
/-- A store to one entry. -/
theorem Holds.setEntry (hm : m.Holds h) (i : ℕ) {f : EntryCells δ → EntryCells δ}
    {g : ZendAccelHashEntry (List UInt8) δ → ZendAccelHashEntry (List UInt8) δ}
    (hfg : ∀ e, f (cellsOf e) = cellsOf (g e)) :
    (m.setEntry i f).Holds { h with hashEntries := h.hashEntries.modify i g } where
  hashTable := hm.hashTable
  maxNumEntries := hm.maxNumEntries
  entry {j e} he := by
    obtain ⟨e₀, he₀, rfl⟩ := getElem?_modify_cases he
    have hj := hm.entry he₀
    unfold HashMemory.setEntry
    by_cases hij : i = j
    · subst hij
      rw [if_pos rfl, ← hfg, ← hj]
      exact Function.update_self ..
    · rw [if_neg hij, ← hj]
      exact Function.update_of_ne (Ne.symm hij) ..

omit [ZendInlineHash (List UInt8)] in
theorem Holds.store_data (hm : m.Holds h) (i : ℕ) (x : VoidPtr δ) : (m.store (.data i x)).Holds
    { h with hashEntries := h.hashEntries.modify i fun e => { e with data := x } } :=
  hm.setEntry i (f := ({ · with data := x })) fun _ => rfl

omit [ZendInlineHash (List UInt8)] in
theorem Holds.store_indirect (hm : m.Holds h) (i : ℕ) (b : Bool) :
    (m.store (.indirect i b)).Holds
      { h with hashEntries := h.hashEntries.modify i fun e => { e with indirect := b } } :=
  hm.setEntry i (f := ({ · with indirect := b })) fun _ => rfl

/-- A store that readers cannot reach: to a counter, or to an entry that is not linked. -/
def unlinked (N : ℕ) : Store δ → Prop
  | .numEntries _ | .numDirectEntries _ => True
  | .data i _ | .indirect i _ | .hashValue i _ | .key i _ | .keyLength i _ | .next i _ => i = N
  | .hashTable _ _ => False

omit [ZendInlineHash (List UInt8)] in
theorem Holds.setEntry_unlinked (hm : m.Holds h) (f : EntryCells δ → EntryCells δ) :
    (m.setEntry h.numEntries f).Holds h where
  hashTable := hm.hashTable
  maxNumEntries := hm.maxNumEntries
  entry {i e} he := by
    have hi : i ≠ h.numEntries := Nat.ne_of_lt (getElem?_lt he)
    exact (Function.update_of_ne hi _ _).trans (hm.entry he)

omit [ZendInlineHash (List UInt8)] in
theorem Holds.store_unlinked (hm : m.Holds h) {s : Store δ} (hs : unlinked h.numEntries s) :
    (m.store s).Holds h := by
  cases s with
  | numEntries n => exact ⟨hm.hashTable, hm.maxNumEntries, hm.entry⟩
  | numDirectEntries n => exact ⟨hm.hashTable, hm.maxNumEntries, hm.entry⟩
  | hashTable b p => exact hs.elim
  | data i x =>
    obtain rfl : i = h.numEntries := hs
    exact hm.setEntry_unlinked ({ · with data := x })
  | indirect i b =>
    obtain rfl : i = h.numEntries := hs
    exact hm.setEntry_unlinked ({ · with indirect := b })
  | hashValue i n =>
    obtain rfl : i = h.numEntries := hs
    exact hm.setEntry_unlinked ({ · with hashValue := n })
  | key i k =>
    obtain rfl : i = h.numEntries := hs
    exact hm.setEntry_unlinked ({ · with key := k })
  | keyLength i n =>
    obtain rfl : i = h.numEntries := hs
    exact hm.setEntry_unlinked ({ · with keyLength := n })
  | next i p =>
    obtain rfl : i = h.numEntries := hs
    exact hm.setEntry_unlinked ({ · with next := p })

omit [ZendInlineHash (List UInt8)] in
theorem Holds.stores_unlinked {l : List (Store δ)} (hm : m.Holds h)
    (hl : ∀ s ∈ l, unlinked h.numEntries s) : (m.stores l).Holds h := by
  induction l generalizing m with
  | nil => exact hm
  | cons s l ih =>
    exact ih (hm.store_unlinked (hl s List.mem_cons_self))
      fun t ht => hl t (List.mem_cons_of_mem s ht)

/-- All stores before the last one make an entry that is not linked yet. -/
theorem unlinked_entryStores {v : VoidPtr δ} : ∀ s ∈ m.entryStores k v,
    unlinked m.numEntries s := by
  intro s hs
  cases v <;> simp only [entryStores, List.mem_append, List.mem_cons, List.not_mem_nil,
    or_false] at hs <;> rcases hs with (rfl | hs) | rfl | rfl | rfl | rfl
  case data.inl.inr =>
    rcases hs with rfl | rfl | rfl
    exacts [trivial, rfl, rfl]
  case entry.inl.inr => rcases hs with rfl | rfl <;> rfl
  all_goals first | rfl | trivial

/-! ### The update -/

/-- The memory is the table. -/
structure Represents (m : HashMemory δ) (h : ZendAccelHash (List UInt8) δ) : Prop
    extends m.Holds h where
  numEntries : m.numEntries = h.numEntries
  numDirectEntries : m.numDirectEntries = h.numDirectEntries

omit [ZendInlineHash (List UInt8)] in
/-- The entry of the key was found. Only the store of an entry pointer into a direct entry takes
more than one step. -/
theorem Represents.overwriteStores (hm : m.Represents h) (ho : OneLevel h)
    (he : h.hashEntries[i]? = some e) (v : VoidPtr δ) :
    ∃ l, m.overwriteStores i v = some l ∧ (m.stores l).Represents (h.overwrite i v) ∧
      (e.indirect = true ∨ (∃ d, v = .data d) → l.length ≤ 1) := by
  have hi : (m.hashEntries i).indirect = e.indirect := by rw [hm.entry he]; rfl
  have hdata : (m.hashEntries i).data = e.data := by rw [hm.entry he]; rfl
  have hnum : m.numEntries = (h.overwrite i v).numEntries :=
    hm.numEntries.trans (sameTable_overwrite h i v).numEntries_eq.symm
  unfold HashMemory.overwriteStores
  cases v with
  | data d =>
    cases hind : e.indirect with
    | true =>
      obtain ⟨j, e', hj, he', -⟩ := ho.target he hind
      refine ⟨[.data j (.data d)], by simp [hi, hind, hdata, hj], ?_, fun _ => le_rfl⟩
      rw [overwrite_alias_data he hind hj] at hnum ⊢
      exact ⟨hm.toHolds.store_data j _, hnum, hm.numDirectEntries⟩
    | false =>
      refine ⟨[.data i (.data d)], by simp [hi, hind], ?_, fun _ => le_rfl⟩
      rw [overwrite_direct_data he hind] at hnum ⊢
      exact ⟨hm.toHolds.store_data i _, hnum, hm.numDirectEntries⟩
  | entry c =>
    cases hind : e.indirect with
    | true =>
      refine ⟨[.data i (.entry c)], by simp [hi, hind], ?_, fun _ => le_rfl⟩
      rw [overwrite_alias_entry he hind] at hnum ⊢
      exact ⟨hm.toHolds.store_data i _, hnum, hm.numDirectEntries⟩
    | false =>
      refine ⟨[.numDirectEntries (m.numDirectEntries - 1), .data i (.entry c), .indirect i true],
        by simp [hi, hind], ?_, by simp⟩
      rw [overwrite_direct_entry he hind] at hnum ⊢
      have hholds := (hm.toHolds.store_data i (.entry c)).store_indirect i true
      simp only [List.modify_modify_eq] at hholds
      refine ⟨⟨hholds.hashTable, hholds.maxNumEntries, hholds.entry⟩, hnum, ?_⟩
      exact congrArg (· - 1) hm.numDirectEntries

/-- The new entry is complete when it is linked. -/
theorem Represents.append (hm : m.Represents h) (k : List UInt8) (v : VoidPtr δ) :
    (m.stores (m.entryStores k v ++
      [.hashTable (zendInlineHashFunc k % m.maxNumEntries) (some m.numEntries)])).Represents
        (h.append k v) := by
  have hidx : zendInlineHashFunc k % m.maxNumEntries = h.index k := by
    rw [hm.maxNumEntries]
    rfl
  have hself := getElem?_append_self (h := h) (k := k) (v := v)
  obtain ⟨e, he, hkey, hdata, hnext, hhash, hind⟩ := hself
  have hentries : (m.stores (m.entryStores k v ++
      [.hashTable (zendInlineHashFunc k % m.maxNumEntries) (some m.numEntries)])).hashEntries =
        Function.update m.hashEntries m.numEntries (cellsOf e) := by
    cases v <;> simp [stores, entryStores, store, HashMemory.setEntry, cellsOf, hkey, hdata,
      hnext, hhash, hind, hidx, hm.hashTable]
  refine ⟨⟨?_, ?_, ?_⟩, ?_, ?_⟩
  · rw [hidx]
    cases v <;> simp [stores, entryStores, store, HashMemory.setEntry, ZendAccelHash.append,
      hm.hashTable, hm.numEntries]
  · cases v <;> exact hm.maxNumEntries
  · intro i e' he'
    rw [hentries, hm.numEntries]
    rcases Nat.lt_or_ge i h.numEntries with hi | hi
    · rw [Function.update_of_ne (Nat.ne_of_lt hi)]
      exact hm.entry ((getElem?_append_lt hi).symm.trans he')
    · have hlt := getElem?_lt he'
      rw [numEntries_append] at hlt
      obtain rfl : i = h.numEntries := by omega
      obtain rfl := Option.some.inj (he.symm.trans he')
      exact Function.update_self ..
  · rw [numEntries_append, ← hm.numEntries]
    cases v <;> rfl
  · cases v
    · exact congrArg (· + 1) hm.numDirectEntries
    · exact hm.numDirectEntries

theorem Represents.resolvedStores (hm : m.Represents h) (hw : WellFormed h) (ho : OneLevel h)
    (k : List UInt8) (v : VoidPtr δ) : ∃ l, m.resolvedStores k v = some l ∧
      (m.stores l).Represents (h.updateResolved k v).1 ∧ (¬TurnsDirect h k v →
        ∀ n, (m.stores (l.take n)).Holds h ∨
          (m.stores (l.take n)).Holds (h.updateResolved k v).1) := by
  unfold HashMemory.resolvedStores updateResolved
  rw [hm.lookup_eq hw]
  cases hl : h.lookup k with
  | some i =>
    obtain ⟨-, e, he, -⟩ := lookup_sound hl
    obtain ⟨l, hstores, hafter, hlen⟩ := hm.overwriteStores ho he v
    refine ⟨l, hstores, hafter, fun hturn n => ?_⟩
    have hone : l.length ≤ 1 := by
      refine hlen ?_
      cases v with
      | data d => exact .inr ⟨d, rfl⟩
      | entry c =>
        exact .inl (eq_true_of_ne_false fun hind => hturn ⟨i, e, hl, he, hind⟩)
    cases n with
    | zero => exact .inl hm.toHolds
    | succ n =>
      rw [List.take_of_length_le (by omega)]
      exact .inr hafter.toHolds
  | none =>
    by_cases hfull : m.numEntries = m.maxNumEntries
    · have hfull' : h.numEntries = h.maxNumEntries := by
        rw [← hm.numEntries, hfull, hm.maxNumEntries]
      simp only [if_pos hfull, if_pos hfull']
      exact ⟨[], rfl, hm, fun _ n => .inl (by rw [List.take_nil]; exact hm.toHolds)⟩
    · have hfull' : h.numEntries ≠ h.maxNumEntries := by
        rwa [← hm.numEntries, ← hm.maxNumEntries]
      simp only [if_neg hfull, if_neg hfull']
      refine ⟨_, rfl, hm.append k v, fun _ n => ?_⟩
      rcases Nat.lt_or_ge (m.entryStores k v).length n with hn | hn
      · rw [List.take_of_length_le (by rw [List.length_append]; exact hn)]
        exact .inr (hm.append k v).toHolds
      · rw [List.take_append_of_le_length hn]
        exact .inl (hm.toHolds.stores_unlinked fun s hs =>
          hm.numEntries ▸ unlinked_entryStores s (List.mem_of_mem_take hs))

/-- The new target is followed in memory as in the table. -/
theorem Holds.followIndirect_eq (hm : m.Holds h) (hw : WellFormed h) (ho : OneLevel h) {b : ℕ}
    (hb : b < h.numEntries) : m.followIndirect (m.maxNumEntries + 1) b =
      ZendAccelHash.followIndirect h.hashEntries (h.numEntries + 1) b := by
  have hle := hw.length_le
  rw [hm.maxNumEntries]
  obtain ⟨n, hn⟩ : ∃ n, h.maxNumEntries = n + 1 := ⟨h.maxNumEntries - 1, by omega⟩
  obtain ⟨l, hl⟩ : ∃ l, h.numEntries = l + 1 := ⟨h.numEntries - 1, by omega⟩
  rw [hn, hl]
  obtain ⟨e, he⟩ : ∃ e, h.hashEntries[b]? = some e := ⟨_, List.getElem?_eq_getElem hb⟩
  cases hi : e.indirect with
  | false =>
    rw [ZendAccelHash.followIndirect_direct he hi]
    simp [HashMemory.followIndirect, hm.entry he, cellsOf, hi]
  | true =>
    obtain ⟨j, e', hj, he', hd⟩ := ho.target he hi
    rw [ZendAccelHash.followIndirect_alias he hi hj, ZendAccelHash.followIndirect_direct he' hd]
    simp [HashMemory.followIndirect, hm.entry he, cellsOf, hi, hj, hm.entry he', hd]

/-- A direct entry that becomes an alias holds an entry pointer between the last two stores. -/
theorem Holds.find_between (hm : m.Holds h) (hw : WellFormed h) {e} (hl : h.lookup k = some i)
    (he : h.hashEntries[i]? = some e) (hd : e.indirect = false) (n c : ℕ) :
    (m.stores [.numDirectEntries n, .data i (.entry c)]).zendAccelHashFind k =
      some (some (.entry c)) := by
  have hm₂ : (m.stores [.numDirectEntries n, .data i (.entry c)]).Holds
      { h with hashEntries := h.hashEntries.modify i fun e => { e with data := .entry c } } :=
    (hm.store_unlinked (s := .numDirectEntries n) trivial).store_data i (.entry c)
  have hs : SameTable h
      { h with hashEntries := h.hashEntries.modify i fun e => { e with data := .entry c } } :=
    ⟨rfl, rfl, sameLinks_modify _ _ fun _ => rfl⟩
  have he₂ := getElem?_modify_some (fun e => { e with data := .entry c }) he i
  rw [if_pos rfl] at he₂
  unfold zendAccelHashFind
  rw [hm₂.lookup_eq (hw.sameTable hs), hs.lookup_eq, hl]
  dsimp only
  rw [hm₂.entry he₂]
  simp [cellsOf, hd]

/-- Readers see the table before the update or after it exactly when the update does not make an
alias of a direct entry. -/
theorem Represents.resolvedStores_atomicFind_iff (hm : m.Represents h) (hw : WellFormed h)
    (ho : OneLevel h) (v : VoidPtr δ) (ho' : ¬TurnsDirect h k v →
      OneLevel (h.updateResolved k v).1) : ∃ l, m.resolvedStores k v = some l ∧
      (m.stores l).Represents (h.updateResolved k v).1 ∧
        (m.AtomicFind l ↔ ¬TurnsDirect h k v) := by
  obtain ⟨l, hstores, hafter, hmid⟩ := hm.resolvedStores hw ho k v
  refine ⟨l, hstores, hafter, ?_, ?_⟩
  · intro hatomic hturn
    cases v with
    | data d => exact hturn
    | entry c =>
      obtain ⟨i, e, hl, he, hd⟩ := hturn
      have hi : (m.hashEntries i).indirect = false := by rw [hm.entry he]; exact hd
      have hlist : l = [.numDirectEntries (m.numDirectEntries - 1), .data i (.entry c),
          .indirect i true] := by
        simpa [HashMemory.resolvedStores, hm.lookup_eq hw, hl, HashMemory.overwriteStores, hi]
          using hstores.symm
      subst hlist
      exact (hatomic 2 k).2 c (hm.find_between hw hl he hd _ c)
  · intro hturn
    exact atomicFind_of_holds hm.toHolds hw ho hafter.toHolds
      (hw.updateResolved (r := (h.updateResolved k v).2) rfl) (ho' hturn) (hmid hturn)

/-- The stores of an update lead from the table to the updated one, and lookups between them need
no lock exactly when no direct entry becomes an alias. -/
theorem updateStores_atomicFind_iff (hm : m.Represents h) (hw : WellFormed h) (ho : OneLevel h)
    (k : List UInt8) (v : VoidPtr δ) (hv : ∀ b, v = .entry b → b < h.numEntries) :
    ∃ l h' r, m.updateStores k v = some l ∧ h.zendAccelHashUpdate k v = some (h', r) ∧
      (m.stores l).Represents h' ∧ (m.AtomicFind l ↔ ¬TurnsDirect h k v) := by
  cases v with
  | data d =>
    obtain ⟨l, hstores, hafter, hiff⟩ := hm.resolvedStores_atomicFind_iff hw ho (k := k) (.data d)
      fun _ => ho.update_data (r := (h.updateResolved k (.data d)).2) rfl
    exact ⟨l, _, _, hstores, rfl, hafter, hiff⟩
  | entry b =>
    have hb := hv b rfl
    obtain ⟨c, hc⟩ := ho.followIndirect_ends hb
    obtain ⟨l, hstores, hafter, hiff⟩ := hm.resolvedStores_atomicFind_iff hw ho (k := k) (.entry c)
      fun hturn => (ho.update_entry_iff (r := (h.updateResolved k (.entry c)).2) hc rfl).mpr
        fun i e hl he hd => (hturn ⟨i, e, hl, he, hd⟩).elim
    refine ⟨l, _, (h.updateResolved k (.entry c)).2, ?_, ?_, hafter, hiff⟩
    · rw [updateStores, hm.followIndirect_eq hw ho hb, hc]
      exact hstores
    · rw [zendAccelHashUpdate, hc]
      rfl

end HashMemory

end ZendAccelHash

/-! ### Two cached scripts -/

section TwoScripts

open ZendAccelHash HashMemory

local instance : ZendInlineHash (List UInt8) := ⟨List.length⟩

/-- The keys `a` and `b` with scripts 10 and 20, in one chain. -/
def twoScripts : ZendAccelHash (List UInt8) ℕ :=
  (((zendAccelHashInit 5).updateResolved [97] (.data 10)).1.updateResolved [98] (.data 20)).1

def twoScriptsMemory : HashMemory ℕ where
  hashTable := twoScripts.hashTable
  hashEntries i := ((twoScripts.hashEntries[i]?).map cellsOf).getD ⟨0, [], 0, none, .data 0, false⟩
  numEntries := 2
  maxNumEntries := 5
  numDirectEntries := 2

theorem represents_twoScripts : twoScriptsMemory.Represents twoScripts where
  hashTable := rfl
  maxNumEntries := rfl
  entry he := by simp [twoScriptsMemory, he]
  numEntries := rfl
  numDirectEntries := rfl

theorem wellFormed_twoScripts : WellFormed twoScripts :=
  ((wellFormed_init 5).updateResolved (Prod.eta _).symm).updateResolved (Prod.eta _).symm

theorem oneLevel_twoScripts : OneLevel twoScripts :=
  ((oneLevel_init 5).update_data (Prod.eta _).symm).update_data (Prod.eta _).symm

/-- A new alias `cc` of `a`, in another chain. -/
theorem updateStores_atomicFind_iff_alias : ∃ l h' r,
    twoScriptsMemory.updateStores [99, 99] (.entry 0) = some l ∧
      twoScripts.zendAccelHashUpdate [99, 99] (.entry 0) = some (h', r) ∧
      (twoScriptsMemory.stores l).Represents h' ∧
      (twoScriptsMemory.AtomicFind l ↔ ¬TurnsDirect twoScripts [99, 99] (.entry 0)) :=
  updateStores_atomicFind_iff represents_twoScripts wellFormed_twoScripts oneLevel_twoScripts _ _
    fun b hb => by
      obtain rfl := VoidPtr.entry.inj hb
      decide

/-- The key `b` becomes an alias of `a`. Between the last two stores its value is an entry
pointer. -/
theorem updateStores_entryPointer : WellFormed twoScripts ∧ OneLevel twoScripts ∧
    twoScriptsMemory.Represents twoScripts ∧
    twoScriptsMemory.updateStores [98] (.entry 0) =
      some [.numDirectEntries 1, .data 1 (.entry 0), .indirect 1 true] ∧
    twoScriptsMemory.zendAccelHashFind [98] = some (some (.data 20)) ∧
    (twoScriptsMemory.stores [.numDirectEntries 1, .data 1 (.entry 0)]).zendAccelHashFind [98] =
      some (some (.entry 0)) ∧
    (twoScriptsMemory.stores [.numDirectEntries 1, .data 1 (.entry 0),
      .indirect 1 true]).zendAccelHashFind [98] = some (some (.data 10)) :=
  ⟨wellFormed_twoScripts, oneLevel_twoScripts, represents_twoScripts, by decide, by decide,
    by decide, by decide⟩

end TwoScripts

end ZendOpcache
