import Mathlib.Data.Nat.Basic
import Mathlib.Tactic.Common
import ZendOpcache.Hash.Basic

/-! # Chains and key lookup

Chains lead to entries of smaller index, so every walk ends. In a well-formed
table the walk for a key finds exactly the linked entry with that key. Stores
into `data` keep all walks, and a new entry changes the walk of its own key only.
-/

namespace ZendOpcache

variable {κ δ : Type*}

/-- The part of an entry that walks read. -/
def ZendAccelHashEntry.links (e : ZendAccelHashEntry κ δ) : ℕ × κ × Option ℕ :=
  (e.hashValue, e.key, e.next)

namespace ZendAccelHash

/-- The entries met from a chain pointer. -/
inductive ChainFrom (es : List (ZendAccelHashEntry κ δ)) : Option ℕ → ℕ → Prop where
  | here {i : ℕ} {e : ZendAccelHashEntry κ δ} : es[i]? = some e → ChainFrom es (some i) i
  | next {i j : ℕ} {e : ZendAccelHashEntry κ δ} : es[i]? = some e → ChainFrom es e.next j →
      ChainFrom es (some i) j

/-- An entry is linked when the chain of some bucket leads to it. -/
def Linked (h : ZendAccelHash κ δ) (i : ℕ) : Prop :=
  ∃ b, ChainFrom h.hashEntries (h.hashTable b) i

theorem ChainFrom.exists_entry {es : List (ZendAccelHashEntry κ δ)} {p : Option ℕ} {i : ℕ}
    (h : ChainFrom es p i) : ∃ e, es[i]? = some e := by
  induction h with
  | here he => exact ⟨_, he⟩
  | next _ _ ih => exact ih

/-- Two entry arrays that agree on everything but `data` and `indirect`. -/
def SameLinks (es es' : List (ZendAccelHashEntry κ δ)) : Prop :=
  ∀ i : ℕ, (es[i]?).map ZendAccelHashEntry.links = (es'[i]?).map ZendAccelHashEntry.links

theorem SameLinks.symm {es es' : List (ZendAccelHashEntry κ δ)} (h : SameLinks es es') :
    SameLinks es' es := fun i => (h i).symm

theorem SameLinks.getElem?_some {es es' : List (ZendAccelHashEntry κ δ)} (h : SameLinks es es')
    {i : ℕ} {e : ZendAccelHashEntry κ δ} (he : es[i]? = some e) :
    ∃ e', es'[i]? = some e' ∧ e'.hashValue = e.hashValue ∧ e'.key = e.key ∧ e'.next = e.next := by
  have hi := h i
  rw [he] at hi
  cases he' : es'[i]? with
  | none => simp [he'] at hi
  | some e' =>
    simp only [he', Option.map_some, Option.some.injEq, ZendAccelHashEntry.links,
      Prod.mk.injEq] at hi
    exact ⟨e', rfl, hi.1.symm, hi.2.1.symm, hi.2.2.symm⟩

theorem SameLinks.length_eq {es es' : List (ZendAccelHashEntry κ δ)} (h : SameLinks es es') :
    es.length = es'.length := by
  have h₁ := h es.length
  have h₂ := h es'.length
  simp only [List.getElem?_eq_none (le_refl _), Option.map_none] at h₁ h₂
  have h₁' := List.getElem?_eq_none_iff.mp (Option.map_eq_none_iff.mp h₁.symm)
  have h₂' := List.getElem?_eq_none_iff.mp (Option.map_eq_none_iff.mp h₂)
  omega

theorem sameLinks_modify (es : List (ZendAccelHashEntry κ δ)) (i : ℕ)
    {f : ZendAccelHashEntry κ δ → ZendAccelHashEntry κ δ} (hf : ∀ e, (f e).links = e.links) :
    SameLinks es (es.modify i f) := by
  intro j
  rw [List.getElem?_modify]
  cases es[j]? with
  | none => rfl
  | some e =>
    by_cases hij : i = j <;> simp [hij, hf]

theorem ChainFrom.sameLinks {es es' : List (ZendAccelHashEntry κ δ)} (h : SameLinks es es')
    {p : Option ℕ} {i : ℕ} (hc : ChainFrom es p i) : ChainFrom es' p i := by
  induction hc with
  | here he =>
    obtain ⟨e', he', _⟩ := h.getElem?_some he
    exact .here he'
  | next he _ ih =>
    obtain ⟨e', he', _, _, hn⟩ := h.getElem?_some he
    exact .next he' (hn ▸ ih)

section Lookup

variable [ZendInlineHash κ]

theorem walk_sameLinks [DecidableEq κ] {es es' : List (ZendAccelHashEntry κ δ)}
    (h : SameLinks es es') (k : κ) (n : ℕ) (p : Option ℕ) : walk es k n p = walk es' k n p := by
  induction n generalizing p with
  | zero => rfl
  | succ n ih =>
    cases p with
    | none => rfl
    | some i =>
      cases he : es[i]? with
      | none =>
        have hi := h i
        rw [he, Option.map_none] at hi
        have he' := Option.map_eq_none_iff.mp hi.symm
        simp [walk, he, he']
      | some e =>
        obtain ⟨e', he', hh, hk, hn⟩ := h.getElem?_some he
        simp [walk, he, he', hh, hk, hn, ih]

/-- The structural invariant of the table. -/
structure WellFormed (h : ZendAccelHash κ δ) : Prop where
  length_le : h.numEntries ≤ h.maxNumEntries
  head_lt : ∀ {b i}, h.hashTable b = some i → i < h.numEntries
  next_lt : ∀ {i : ℕ} {e : ZendAccelHashEntry κ δ} {j : ℕ}, h.hashEntries[i]? = some e →
    e.next = some j → j < i
  hashValue_eq : ∀ {i : ℕ} {e : ZendAccelHashEntry κ δ}, h.hashEntries[i]? = some e →
    e.hashValue = zendInlineHashFunc e.key
  bucket_eq : ∀ {b i : ℕ} {e : ZendAccelHashEntry κ δ}, ChainFrom h.hashEntries (h.hashTable b) i →
    h.hashEntries[i]? = some e → h.index e.key = b
  key_inj : ∀ {i j : ℕ} {e e' : ZendAccelHashEntry κ δ}, h.Linked i → h.Linked j →
    h.hashEntries[i]? = some e →
    h.hashEntries[j]? = some e' → e.key = e'.key → i = j

theorem wellFormed_init (n : ℕ) : WellFormed (zendAccelHashInit n : ZendAccelHash κ δ) where
  length_le := by simp [zendAccelHashInit, numEntries]
  head_lt h := by simp [zendAccelHashInit] at h
  next_lt h := by simp [zendAccelHashInit] at h
  hashValue_eq h := by simp [zendAccelHashInit] at h
  bucket_eq _ h := by simp [zendAccelHashInit] at h
  key_inj _ _ h := by simp [zendAccelHashInit] at h

section Walk

variable {es : List (ZendAccelHashEntry κ δ)} {k : κ} {n i : ℕ} {p : Option ℕ}

theorem walk_sound [DecidableEq κ] (h : walk es k n p = some i) :
    ChainFrom es p i ∧ ∃ e, es[i]? = some e ∧ e.key = k := by
  induction n generalizing p with
  | zero => simp [walk] at h
  | succ n ih =>
    cases p with
    | none => simp [walk] at h
    | some j =>
      cases he : es[j]? with
      | none => simp [walk, he] at h
      | some e =>
        simp only [walk, he] at h
        split_ifs at h with hk
        · obtain rfl : j = i := by simpa using h
          exact ⟨.here he, e, he, hk.2⟩
        · obtain ⟨hc, hkey⟩ := ih h
          exact ⟨.next he hc, hkey⟩

/-- A walk with fuel above its first index meets every entry of the chain. -/
theorem walk_complete [DecidableEq κ] (hlt : ∀ {i : ℕ} {e : ZendAccelHashEntry κ δ} {j : ℕ},
    es[i]? = some e → e.next = some j → j < i)
    (hhash : ∀ {i : ℕ} {e : ZendAccelHashEntry κ δ}, es[i]? = some e → e.hashValue =
      zendInlineHashFunc e.key)
    {e : ZendAccelHashEntry κ δ} (hc : ChainFrom es p i) (he : es[i]? = some e)
    (hk : e.key = k) (hn : ∀ j, p = some j → j < n) : ∃ i', walk es k n p = some i' := by
  induction hc generalizing n with
  | @here i e' he' =>
    obtain rfl : e' = e := by simpa [he] using he'.symm
    have hi := hn i rfl
    obtain ⟨n, rfl⟩ : ∃ m, n = m + 1 := ⟨n - 1, by omega⟩
    exact ⟨i, by simp [walk, he, hhash he, hk]⟩
  | @next i j e' he' hc ih =>
    have hi := hn i rfl
    obtain ⟨n, rfl⟩ : ∃ m, n = m + 1 := ⟨n - 1, by omega⟩
    by_cases hm : e'.hashValue = zendInlineHashFunc k ∧ e'.key = k
    · exact ⟨i, by simp [walk, he', hm]⟩
    · obtain ⟨i', hi'⟩ := ih he (n := n) fun l hl => by have := hlt he' hl; omega
      exact ⟨i', by simp [walk, he', hm, hi']⟩

end Walk

variable {h : ZendAccelHash κ δ} {k : κ} {i : ℕ}

omit [ZendInlineHash κ] in
theorem Linked.exists_entry (hl : h.Linked i) : ∃ e, h.hashEntries[i]? = some e :=
  hl.choose_spec.exists_entry

theorem lookup_sound [DecidableEq κ] (hf : h.lookup k = some i) :
    h.Linked i ∧ ∃ e, h.hashEntries[i]? = some e ∧ e.key = k :=
  let ⟨hc, he⟩ := walk_sound hf
  ⟨⟨_, hc⟩, he⟩

/-- The walk for a key finds exactly the linked entry with that key. -/
theorem WellFormed.lookup_eq_some_iff [DecidableEq κ] (hw : WellFormed h) :
    h.lookup k = some i ↔ h.Linked i ∧ ∃ e, h.hashEntries[i]? = some e ∧ e.key = k := by
  refine ⟨lookup_sound, ?_⟩
  rintro ⟨hl, e, he, hk⟩
  obtain ⟨b, hc⟩ := id hl
  obtain rfl : h.index k = b := hk ▸ hw.bucket_eq hc he
  obtain ⟨i', hi'⟩ := walk_complete (k := k) (n := h.numEntries + 1) hw.next_lt
    hw.hashValue_eq hc he hk fun j hj => by have := hw.head_lt hj; omega
  obtain ⟨hl', e', he', hk'⟩ := lookup_sound (h := h) (k := k) (i := i') hi'
  rw [hw.key_inj hl hl' he he' (hk.trans hk'.symm)]
  exact hi'

theorem WellFormed.lookup_key [DecidableEq κ] (hw : WellFormed h) {e : ZendAccelHashEntry κ δ}
    (hl : h.Linked i) (he : h.hashEntries[i]? = some e) : h.lookup e.key = some i :=
  hw.lookup_eq_some_iff.mpr ⟨hl, e, he, rfl⟩

/-- A table whose walks read the same is well formed with the same lookups. -/
structure SameTable (h h' : ZendAccelHash κ δ) : Prop where
  hashTable_eq : h'.hashTable = h.hashTable
  maxNumEntries_eq : h'.maxNumEntries = h.maxNumEntries
  links : SameLinks h.hashEntries h'.hashEntries

section SameTable

variable {h' : ZendAccelHash κ δ}

omit [ZendInlineHash κ] in
theorem SameTable.numEntries_eq (hs : SameTable h h') : h'.numEntries = h.numEntries :=
  hs.links.length_eq.symm

omit [ZendInlineHash κ] in
theorem SameTable.linked_iff (hs : SameTable h h') : h'.Linked i ↔ h.Linked i := by
  unfold Linked
  rw [hs.hashTable_eq]
  exact exists_congr fun b => ⟨fun h => h.sameLinks hs.links.symm, fun h => h.sameLinks hs.links⟩

theorem SameTable.lookup_eq [DecidableEq κ] (hs : SameTable h h') (k : κ) :
    h'.lookup k = h.lookup k := by
  unfold lookup index
  rw [hs.hashTable_eq, hs.maxNumEntries_eq, hs.numEntries_eq, walk_sameLinks hs.links]

theorem WellFormed.sameTable (hw : WellFormed h) (hs : SameTable h h') : WellFormed h' where
  length_le := by rw [hs.numEntries_eq, hs.maxNumEntries_eq]; exact hw.length_le
  head_lt hb := by rw [hs.numEntries_eq]; exact hw.head_lt (hs.hashTable_eq ▸ hb)
  next_lt he hn := by
    obtain ⟨e₀, he₀, _, _, hn₀⟩ := hs.links.symm.getElem?_some he
    exact hw.next_lt he₀ (hn₀.trans hn)
  hashValue_eq he := by
    obtain ⟨e₀, he₀, hh, hk, _⟩ := hs.links.symm.getElem?_some he
    rw [← hh, ← hk]; exact hw.hashValue_eq he₀
  bucket_eq hc he := by
    obtain ⟨e₀, he₀, _, hk, _⟩ := hs.links.symm.getElem?_some he
    rw [hs.hashTable_eq] at hc
    have hb := hw.bucket_eq (hc.sameLinks hs.links.symm) he₀
    rwa [index, hs.maxNumEntries_eq, ← hk]
  key_inj hi hj he he' hk := by
    obtain ⟨e₀, he₀, _, hk₀, _⟩ := hs.links.symm.getElem?_some he
    obtain ⟨e₁, he₁, _, hk₁, _⟩ := hs.links.symm.getElem?_some he'
    exact hw.key_inj (hs.linked_iff.mp hi) (hs.linked_iff.mp hj) he₀ he₁
      (hk₀.trans (hk.trans hk₁.symm))

end SameTable

omit [ZendInlineHash κ] in
theorem sameTable_overwrite (h : ZendAccelHash κ δ) (i : ℕ) (v : VoidPtr δ) :
    SameTable h (h.overwrite i v) := by
  unfold overwrite
  split
  · exact ⟨rfl, rfl, fun _ => rfl⟩
  · split
    · exact ⟨rfl, rfl, sameLinks_modify _ _ fun _ => rfl⟩
    · split
      · exact ⟨rfl, rfl, sameLinks_modify _ _ fun _ => rfl⟩
      · exact ⟨rfl, rfl, fun _ => rfl⟩
    · exact ⟨rfl, rfl, sameLinks_modify _ _ fun _ => rfl⟩
    · exact ⟨rfl, rfl, sameLinks_modify _ _ fun _ => rfl⟩

section Append

variable {v : VoidPtr δ}

@[simp] theorem numEntries_append : (h.append k v).numEntries = h.numEntries + 1 := by
  simp [append, numEntries]

theorem getElem?_append_lt (hi : i < h.numEntries) :
    (h.append k v).hashEntries[i]? = h.hashEntries[i]? :=
  List.getElem?_append_left hi

theorem getElem?_append_self :
    ∃ e, (h.append k v).hashEntries[h.numEntries]? = some e ∧ e.key = k ∧
      e.data = v ∧ e.next = h.hashTable (h.index k) ∧
      e.hashValue = zendInlineHashFunc k ∧ e.indirect = (match v with
        | .entry _ => true
        | .data _ => false) :=
  ⟨_, List.getElem?_concat_length, rfl, rfl, rfl, rfl, rfl⟩

omit [ZendInlineHash κ] in
theorem getElem?_lt {e : ZendAccelHashEntry κ δ} (he : h.hashEntries[i]? = some e) :
    i < h.numEntries :=
  (List.getElem?_eq_some_iff.mp he).1

/-- Old chains are unchanged by a new entry: they never reach its index. -/
theorem WellFormed.chainFrom_append_iff (hw : WellFormed h) {p : Option ℕ}
    (hp : ∀ j, p = some j → j < h.numEntries) :
    ChainFrom (h.append k v).hashEntries p i ↔ ChainFrom h.hashEntries p i := by
  constructor
  · intro hc
    induction hc with
    | @here i e he => exact .here ((getElem?_append_lt (hp i rfl)).symm.trans he)
    | @next i j e he _ ih =>
      have he' := (getElem?_append_lt (hp i rfl)).symm.trans he
      exact .next he' (ih fun j hj => Nat.lt_trans (hw.next_lt he' hj) (hp i rfl))
  · intro hc
    clear hp
    induction hc with
    | here he => exact .here ((getElem?_append_lt (getElem?_lt he)).trans he)
    | next he _ ih => exact .next ((getElem?_append_lt (getElem?_lt he)).trans he) ih

theorem WellFormed.chainFrom_append (hw : WellFormed h) {b : ℕ}
    (hc : ChainFrom (h.append k v).hashEntries ((h.append k v).hashTable b) i) :
    (i = h.numEntries ∧ b = h.index k) ∨ ChainFrom h.hashEntries (h.hashTable b) i := by
  by_cases hb : b = h.index k
  · subst hb
    have ht : (h.append k v).hashTable (h.index k) = some h.numEntries := by
      simp [append]
    rw [ht] at hc
    cases hc with
    | here _ => exact .inl ⟨rfl, rfl⟩
    | next he hc =>
      obtain ⟨e', he', _, _, hn, _⟩ := getElem?_append_self (h := h) (k := k) (v := v)
      obtain rfl := Option.some.inj (he.symm.trans he')
      rw [hn] at hc
      exact .inr ((hw.chainFrom_append_iff fun j hj => hw.head_lt hj).mp hc)
  · have ht : (h.append k v).hashTable b = h.hashTable b := by simp [append, hb]
    rw [ht] at hc
    exact .inr ((hw.chainFrom_append_iff fun j hj => hw.head_lt hj).mp hc)

theorem linked_append_self : (h.append k v).Linked h.numEntries := by
  obtain ⟨e, he, _⟩ := getElem?_append_self (h := h) (k := k) (v := v)
  refine ⟨h.index k, ?_⟩
  rw [show (h.append k v).hashTable (h.index k) = some h.numEntries by simp [append]]
  exact .here he

theorem WellFormed.linked_append (hw : WellFormed h) (hl : h.Linked i) :
    (h.append k v).Linked i := by
  obtain ⟨b, hc⟩ := hl
  have hc' := (hw.chainFrom_append_iff (k := k) (v := v)
    fun j hj => hw.head_lt hj).mpr hc
  refine ⟨b, ?_⟩
  by_cases hb : b = h.index k
  · subst hb
    obtain ⟨e, he, _, _, hn, _⟩ := getElem?_append_self (h := h) (k := k) (v := v)
    rw [show (h.append k v).hashTable (h.index k) = some h.numEntries by simp [append]]
    exact .next he (hn ▸ hc')
  · rwa [show (h.append k v).hashTable b = h.hashTable b by simp [append, hb]]

/-- The entries of the extended table are the old ones and the new one. -/
theorem getElem?_append_cases {e : ZendAccelHashEntry κ δ}
    (he : (h.append k v).hashEntries[i]? = some e) :
    h.hashEntries[i]? = some e ∨ (i = h.numEntries ∧ e.key = k ∧ e.data = v ∧
      e.next = h.hashTable (h.index k) ∧ e.hashValue = zendInlineHashFunc k) := by
  rcases Nat.lt_or_ge i h.numEntries with hi | hi
  · exact .inl ((getElem?_append_lt hi).symm.trans he)
  · have hi' := getElem?_lt he
    rw [numEntries_append] at hi'
    obtain rfl : i = h.numEntries := by omega
    obtain ⟨e', he', hk, hd, hn, hh, _⟩ :=
      getElem?_append_self (h := h) (k := k) (v := v)
    obtain rfl := Option.some.inj (he.symm.trans he')
    exact .inr ⟨rfl, hk, hd, hn, hh⟩

theorem WellFormed.linked_append_cases (hw : WellFormed h)
    (hl : (h.append k v).Linked i) : i = h.numEntries ∨ h.Linked i := by
  obtain ⟨b, hc⟩ := hl
  rcases hw.chainFrom_append hc with ⟨rfl, _⟩ | hc
  · exact .inl rfl
  · exact .inr ⟨b, hc⟩

theorem WellFormed.append [DecidableEq κ] (hw : WellFormed h) (hn : h.lookup k = none)
    (hf : h.numEntries ≠ h.maxNumEntries) : WellFormed (h.append k v) where
  length_le := by
    have := hw.length_le
    rw [numEntries_append]
    change h.numEntries + 1 ≤ h.maxNumEntries
    omega
  head_lt {b i} hb := by
    rw [numEntries_append]
    by_cases hbk : b = h.index k
    · subst hbk
      simp only [ZendAccelHash.append, Function.update_self, Option.some.injEq] at hb
      omega
    · simp only [ZendAccelHash.append, ne_eq, hbk, not_false_eq_true,
        Function.update_of_ne] at hb
      have := hw.head_lt hb
      omega
  next_lt he hj := by
    rcases getElem?_append_cases he with he | ⟨rfl, _, _, hn, _⟩
    · exact hw.next_lt he hj
    · exact hw.head_lt (hn ▸ hj)
  hashValue_eq he := by
    rcases getElem?_append_cases he with he | ⟨_, hk, _, _, hh⟩
    · exact hw.hashValue_eq he
    · rw [hh, hk]
  bucket_eq {b i e} hc he := by
    change h.index e.key = b
    rcases getElem?_append_cases he with he | ⟨rfl, hk, _⟩
    · rcases hw.chainFrom_append hc with ⟨rfl, _⟩ | hc
      · exact absurd (getElem?_lt he) (lt_irrefl _)
      · exact hw.bucket_eq hc he
    · rcases hw.chainFrom_append hc with ⟨_, hb⟩ | hc
      · rw [hk, hb]
      · obtain ⟨e', he'⟩ := hc.exists_entry
        exact absurd (getElem?_lt he') (lt_irrefl _)
  key_inj {i j e e'} hi hj he he' hk := by
    have hfresh : ∀ {j : ℕ} {e : ZendAccelHashEntry κ δ}, h.Linked j →
        h.hashEntries[j]? = some e → e.key ≠ k := by
      intro j e hl he hke
      have := hw.lookup_key hl he
      rw [hke, hn] at this
      exact absurd this (by simp)
    have hold : ∀ {j : ℕ} {e : ZendAccelHashEntry κ δ}, (h.append k v).Linked j →
        h.hashEntries[j]? = some e → h.Linked j := fun hl he =>
      (hw.linked_append_cases hl).resolve_left fun hj => absurd (getElem?_lt he) (by omega)
    rcases getElem?_append_cases he with he | ⟨rfl, hke, _⟩ <;>
      rcases getElem?_append_cases he' with he' | ⟨rfl, hke', _⟩
    · exact hw.key_inj (hold hi he) (hold hj he') he he' hk
    · exact absurd (hk.trans hke') (hfresh (hold hi he) he)
    · exact absurd (hk.symm.trans hke) (hfresh (hold hj he') he')
    · rfl

/-- A new entry changes the lookup of its own k only. -/
theorem WellFormed.lookup_append [DecidableEq κ] (hw : WellFormed h) (hn : h.lookup k = none)
    (hf : h.numEntries ≠ h.maxNumEntries) (k' : κ) :
    (h.append k v).lookup k' = if k' = k then some h.numEntries else h.lookup k' := by
  have hw' := hw.append (v := v) hn hf
  split_ifs with hk
  · obtain ⟨e, he, hke, _⟩ := getElem?_append_self (h := h) (k := k) (v := v)
    exact hw'.lookup_eq_some_iff.mpr ⟨linked_append_self, e, he, hke.trans hk.symm⟩
  · apply Option.ext
    intro i
    rw [hw'.lookup_eq_some_iff, hw.lookup_eq_some_iff]
    constructor
    · rintro ⟨hl, e, he, hke⟩
      rcases getElem?_append_cases he with he | ⟨rfl, hke', _⟩
      · exact ⟨(hw.linked_append_cases hl).resolve_left fun hi =>
          absurd (getElem?_lt he) (by omega), e, he, hke⟩
      · exact absurd (hke.symm.trans hke') hk
    · rintro ⟨hl, e, he, hke⟩
      exact ⟨hw.linked_append hl, e, (getElem?_append_lt (getElem?_lt he)).trans he, hke⟩

end Append

end Lookup

end ZendAccelHash

end ZendOpcache
