import ZendOpcache.Hash.Indirection

/-! # Owners of keys

The owner of a key is the key of the direct entry at which its lookup ends. A
direct store under a key that is no alias gives the key to itself, a safe link
gives it to the owner of its target, and both leave all other owners unchanged.
-/

namespace ZendOpcache.ZendAccelHash

variable {κ δ : Type*} [DecidableEq κ] [ZendInlineHash κ]
variable {h h' : ZendAccelHash κ δ} {k k' : κ} {i j b c : ℕ} {e e' : ZendAccelHashEntry κ δ}

/-- The key of the entry that `zend_accel_hash_find_entry` returns. -/
def owner (h : ZendAccelHash κ δ) (k : κ) : Option κ :=
  (h.zendAccelHashFindEntry k).bind fun j => (h.hashEntries[j]?).map (·.key)

/-- The key is not linked as an alias. -/
def NoAlias (h : ZendAccelHash κ δ) (k : κ) : Prop :=
  ∀ (i : ℕ) (e : ZendAccelHashEntry κ δ), h.lookup k = some i → h.hashEntries[i]? = some e →
    e.indirect = false

/-- No alias leads to a direct entry of the key. -/
def NoAliasTo (h : ZendAccelHash κ δ) (k : κ) : Prop :=
  ∀ (i : ℕ) (e : ZendAccelHashEntry κ δ), h.lookup k = some i → h.hashEntries[i]? = some e →
    e.indirect = false → ∀ (j : ℕ) (e' : ZendAccelHashEntry κ δ), h.hashEntries[j]? = some e' →
      e'.indirect = true → e'.data ≠ .entry i

theorem NoAlias.of_lookup_none (hl : h.lookup k = none) : NoAlias h k :=
  fun _ _ hi => by simp [hl] at hi

theorem NoAliasTo.of_lookup_none (hl : h.lookup k = none) : NoAliasTo h k :=
  fun _ _ hi => by simp [hl] at hi

section FindEntry

theorem findEntry_of_direct (hl : h.lookup k = some i) (he : h.hashEntries[i]? = some e)
    (hd : e.indirect = false) : h.zendAccelHashFindEntry k = some i := by
  simp [zendAccelHashFindEntry, hl, he, hd]

theorem findEntry_of_alias (hl : h.lookup k = some i) (he : h.hashEntries[i]? = some e)
    (ha : e.indirect = true) (hj : e.data = .entry j) : h.zendAccelHashFindEntry k = some j := by
  simp [zendAccelHashFindEntry, hl, he, ha, hj]

theorem findEntry_none (hl : h.lookup k = none) : h.zendAccelHashFindEntry k = none := by
  simp [zendAccelHashFindEntry, hl]

theorem owner_of_findEntry (hf : h.zendAccelHashFindEntry k = some j)
    (he : h.hashEntries[j]? = some e) : h.owner k = some e.key := by
  simp [owner, hf, he]

theorem owner_none (hl : h.lookup k = none) : h.owner k = none := by
  simp [owner, findEntry_none hl]

/-- With one level of indirection a key that is found has a direct entry behind it. -/
theorem OneLevel.findEntry_isSome (ho : OneLevel h) (hl : h.lookup k = some i) :
    ∃ j e, h.zendAccelHashFindEntry k = some j ∧ h.hashEntries[j]? = some e ∧
      e.indirect = false := by
  obtain ⟨e, he⟩ := (lookup_sound hl).1.exists_entry
  cases hi : e.indirect with
  | false => exact ⟨i, e, findEntry_of_direct hl he hi, he, hi⟩
  | true =>
    obtain ⟨j, e', hj, he', hd⟩ := ho.target he hi
    exact ⟨j, e', findEntry_of_alias hl he hi hj, he', hd⟩

/-- A lookup reads the value of the entry that `find_entry` returns. -/
theorem find_eq_findEntry (h : ZendAccelHash κ δ) (k : κ) : h.zendAccelHashFind k =
    (h.zendAccelHashFindEntry k).bind fun j => (h.hashEntries[j]?).map (·.data) := by
  cases hl : h.lookup k with
  | none => simp [zendAccelHashFind, zendAccelHashFindEntry, hl]
  | some i =>
    obtain ⟨e, he⟩ := (lookup_sound hl).1.exists_entry
    cases hi : e.indirect with
    | false => simp [zendAccelHashFind, zendAccelHashFindEntry, hl, he, hi]
    | true =>
      cases hd : e.data <;>
        simp [zendAccelHashFind, zendAccelHashFindEntry, hl, he, hi, hd, deref]

theorem OneLevel.find_none (ho : OneLevel h) (hf : h.zendAccelHashFind k = none) :
    h.lookup k = none := by
  cases hl : h.lookup k with
  | none => rfl
  | some i =>
    obtain ⟨j, e, hj, he, -⟩ := ho.findEntry_isSome hl
    simp [find_eq_findEntry, hj, he] at hf

theorem owner_self (hl : h.lookup k = some i) (he : h.hashEntries[i]? = some e)
    (hd : e.indirect = false) : h.owner k = some k := by
  obtain ⟨-, e', he', hk⟩ := lookup_sound hl
  obtain rfl := Option.some.inj (he.symm.trans he')
  rw [owner_of_findEntry (findEntry_of_direct hl he hd) he, hk]

/-- A key that is no alias leads to its own direct entry. -/
theorem NoAlias.entry_of_lookup (hn : NoAlias h k) (hl : h.lookup k = some i) :
    ∃ e, h.lookup k = some i ∧ h.hashEntries[i]? = some e ∧ e.indirect = false ∧ e.key = k := by
  obtain ⟨-, e, he, hk⟩ := lookup_sound hl
  exact ⟨e, hl, he, hn i e hl he, hk⟩

theorem NoAlias.lookup_of_findEntry (hn : NoAlias h k) (hf : h.zendAccelHashFindEntry k = some i) :
    ∃ e, h.lookup k = some i ∧ h.hashEntries[i]? = some e ∧ e.indirect = false ∧ e.key = k := by
  obtain ⟨j, hl, -⟩ := Option.bind_eq_some_iff.mp hf
  obtain ⟨e, -, he, hd, hk⟩ := hn.entry_of_lookup hl
  obtain rfl : j = i := Option.some.inj ((findEntry_of_direct hl he hd).symm.trans hf)
  exact ⟨e, hl, he, hd, hk⟩

end FindEntry

section Overwrite

variable {f : ZendAccelHashEntry κ δ → ZendAccelHashEntry κ δ}

/-- Two tables with the same links agree on the entry of a key if its own entry has the same flag
and the same target. -/
theorem findEntry_congr (hs : SameTable h h')
    (hk : ∀ i e e', h.lookup k = some i → h.hashEntries[i]? = some e →
      h'.hashEntries[i]? = some e' → e'.indirect = e.indirect ∧
        (e.indirect = true → e'.data = e.data)) :
    h'.zendAccelHashFindEntry k = h.zendAccelHashFindEntry k := by
  cases hl : h.lookup k with
  | none => rw [findEntry_none hl, findEntry_none ((hs.lookup_eq k).trans hl)]
  | some i =>
    obtain ⟨e, he⟩ := (lookup_sound hl).1.exists_entry
    obtain ⟨e', he', -⟩ := hs.links.getElem?_some he
    obtain ⟨hi, hd⟩ := hk i e e' hl he he'
    simp only [zendAccelHashFindEntry, hs.lookup_eq, hl, he, he', hi, Option.bind_some]
    cases hei : e.indirect with
    | false => rfl
    | true => rw [hd hei]

theorem owner_congr (hs : SameTable h h')
    (hk : ∀ i e e', h.lookup k = some i → h.hashEntries[i]? = some e →
      h'.hashEntries[i]? = some e' → e'.indirect = e.indirect ∧
        (e.indirect = true → e'.data = e.data)) : h'.owner k = h.owner k := by
  have hkey : ∀ j : ℕ, (h'.hashEntries[j]?).map (·.key) = (h.hashEntries[j]?).map (·.key) := by
    intro j
    cases he : h.hashEntries[j]? with
    | none =>
      have hj := hs.links j
      rw [he, Option.map_none] at hj
      rw [Option.map_eq_none_iff.mp hj.symm]
    | some e =>
      obtain ⟨e', he', _, hke, _⟩ := hs.links.getElem?_some he
      simp [he', hke]
  simp only [owner, findEntry_congr hs hk, hkey]

theorem NoAlias.owner_overwrite_data (hn : NoAlias h k) (hl : h.lookup k = some i)
    (d : δ) (k' : κ) :
    (h.overwrite i (.data d)).owner k' = if k' = k then some k else h.owner k' := by
  obtain ⟨e, he⟩ := (lookup_sound hl).1.exists_entry
  have hd := hn i e hl he
  have hs := sameTable_overwrite h i (.data d)
  have heq : (h.overwrite i (.data d)).owner k' = h.owner k' := by
    refine owner_congr hs fun i' e₀ e₁ _ he₀ he₁ => ?_
    rw [overwrite_direct_data he hd] at he₁
    obtain ⟨e₂, he₂, rfl⟩ := getElem?_modify_cases he₁
    obtain rfl := Option.some.inj (he₀.symm.trans he₂)
    split_ifs with hii
    · subst hii
      obtain rfl := Option.some.inj (he.symm.trans he₀)
      exact ⟨rfl, fun ha => by simp [hd] at ha⟩
    · exact ⟨rfl, fun _ => rfl⟩
  split_ifs with hk
  · rw [heq, hk, owner_self hl he hd]
  · exact heq

theorem owner_overwrite_entry (hl : h.lookup k = some i) (hc : h.hashEntries[c]? = some e')
    (k' : κ) :
    (h.overwrite i (.entry c)).owner k' = if k' = k then some e'.key else h.owner k' := by
  obtain ⟨e, he⟩ := (lookup_sound hl).1.exists_entry
  have hs := sameTable_overwrite h i (.entry c)
  obtain ⟨f, hf, hfa, hfd⟩ := exists_overwrite_entry he c
  split_ifs with hk
  · subst hk
    have he₁ := getElem?_modify_some f he i
    rw [if_pos rfl, ← hf] at he₁
    obtain ⟨e₂, he₂, _, hk₂, _⟩ := hs.links.getElem?_some hc
    rw [owner_of_findEntry (findEntry_of_alias ((hs.lookup_eq k').trans hl) he₁ hfa hfd) he₂, hk₂]
  · refine owner_congr hs fun i' e₀ e₁ hl' he₀ he₁ => ?_
    rw [hf] at he₁
    obtain ⟨e₂, he₂, rfl⟩ := getElem?_modify_cases he₁
    obtain rfl := Option.some.inj (he₀.symm.trans he₂)
    have hii : i ≠ i' := by
      rintro rfl
      obtain ⟨-, e₃, he₃, hk₃⟩ := lookup_sound hl
      obtain ⟨-, e₄, he₄, hk₄⟩ := lookup_sound hl'
      obtain rfl := Option.some.inj (he₃.symm.trans he₄)
      exact hk (hk₄.symm.trans hk₃)
    rw [if_neg hii]
    exact ⟨rfl, fun _ => rfl⟩

end Overwrite

section Append

variable {v : VoidPtr δ}

theorem OneLevel.owner_append_ne (ho : OneLevel h) (hw : WellFormed h) (hn : h.lookup k = none)
    (hf : h.numEntries ≠ h.maxNumEntries) (hk : k' ≠ k) :
    (h.append k v).owner k' = h.owner k' := by
  have hl' := hw.lookup_append (v := v) hn hf k'
  rw [if_neg hk] at hl'
  cases hl : h.lookup k' with
  | none => rw [owner_none hl, owner_none (hl'.trans hl)]
  | some i =>
    rw [hl] at hl'
    obtain ⟨e, he⟩ := (lookup_sound hl).1.exists_entry
    have he₁ := (getElem?_append_lt (k := k) (v := v) (getElem?_lt he)).trans he
    cases hi : e.indirect with
    | false =>
      rw [owner_of_findEntry (findEntry_of_direct hl he hi) he,
        owner_of_findEntry (findEntry_of_direct hl' he₁ hi) he₁]
    | true =>
      obtain ⟨j, e', hj, he', -⟩ := ho.target he hi
      have he₂ := (getElem?_append_lt (k := k) (v := v) (getElem?_lt he')).trans he'
      rw [owner_of_findEntry (findEntry_of_alias hl he hi hj) he',
        owner_of_findEntry (findEntry_of_alias hl' he₁ hi hj) he₂]

theorem OneLevel.owner_append_data (ho : OneLevel h) (hw : WellFormed h)
    (hn : h.lookup k = none) (hf : h.numEntries ≠ h.maxNumEntries) (d : δ) (k' : κ) :
    (h.append k (.data d)).owner k' = if k' = k then some k else h.owner k' := by
  split_ifs with hk
  · subst hk
    obtain ⟨e, he, _, _, _, _, hi⟩ := getElem?_append_self (h := h) (k := k') (v := .data d)
    exact owner_self ((hw.lookup_append hn hf k').trans (if_pos rfl)) he hi
  · exact ho.owner_append_ne hw hn hf hk

theorem OneLevel.owner_append_entry (ho : OneLevel h) (hw : WellFormed h)
    (hn : h.lookup k = none) (hf : h.numEntries ≠ h.maxNumEntries)
    (hc : h.hashEntries[c]? = some e') (k' : κ) :
    (h.append k (.entry c)).owner k' = if k' = k then some e'.key else h.owner k' := by
  split_ifs with hk
  · subst hk
    obtain ⟨e, he, _, hd, _, _, hi⟩ := getElem?_append_self (h := h) (k := k') (v := .entry c)
    have he₁ := (getElem?_append_lt (k := k') (v := .entry c) (getElem?_lt hc)).trans hc
    exact owner_of_findEntry
      (findEntry_of_alias ((hw.lookup_append hn hf k').trans (if_pos rfl)) he hi hd) he₁
  · exact ho.owner_append_ne hw hn hf hk

end Append

section Update

variable {r : Option ℕ} {d : δ}

/-- A direct store under a key that is no alias. -/
theorem OneLevel.owner_update_data (ho : OneLevel h) (hw : WellFormed h) (hn : NoAlias h k)
    (hu : h.updateResolved k (.data d) = (h', r)) (k' : κ) :
    h'.owner k' = if k' = k ∧ r.isSome then some k else h.owner k' := by
  rcases updateResolved_cases hu with ⟨i, hl, rfl, rfl⟩ | ⟨_, _, rfl, rfl⟩ | ⟨hl, hf, rfl, rfl⟩
  · simpa using hn.owner_overwrite_data hl d k'
  · simp
  · simpa using ho.owner_append_data hw hl hf d k'

/-- A link onto a direct entry. -/
theorem OneLevel.owner_update_entry (ho : OneLevel h) (hw : WellFormed h)
    (hc : h.hashEntries[c]? = some e') (hu : h.updateResolved k (.entry c) = (h', r)) (k' : κ) :
    h'.owner k' = if k' = k ∧ r.isSome then some e'.key else h.owner k' := by
  rcases updateResolved_cases hu with ⟨i, hl, rfl, rfl⟩ | ⟨_, _, rfl, rfl⟩ | ⟨hl, hf, rfl, rfl⟩
  · simpa using owner_overwrite_entry hl hc k'
  · simp
  · simpa using ho.owner_append_entry hw hl hf hc k'

/-- The entry that a direct store under a key that is no alias returns. -/
theorem NoAlias.returned (hn : NoAlias h k) (hu : h.updateResolved k (.data d) = (h', r))
    (hr : r = some i) : ∃ e, h'.hashEntries[i]? = some e ∧ e.indirect = false ∧ e.key = k := by
  rcases updateResolved_cases hu with ⟨j, hl, rfl, rfl⟩ | ⟨_, _, _, rfl⟩ | ⟨_, _, rfl, rfl⟩
  · obtain rfl := Option.some.inj hr
    obtain ⟨-, e, he, hk⟩ := lookup_sound hl
    have hd := hn j e hl he
    rw [overwrite_direct_data he hd]
    refine ⟨_, getElem?_modify_some _ he j, ?_⟩
    rw [if_pos rfl]
    exact ⟨hd, hk⟩
  · simp at hr
  · obtain rfl := Option.some.inj hr
    obtain ⟨e, he, hk, _, _, _, hi⟩ := getElem?_append_self (h := h) (k := k) (v := .data d)
    exact ⟨e, he, hi, hk⟩

/-- A direct store under a key that is no alias writes the entry of that key only. -/
theorem NoAlias.update_data_cases (hn : NoAlias h k) (hu : h.updateResolved k (.data d) = (h', r))
    (he : h'.hashEntries[i]? = some e) :
    (e.key = k ∧ e.data = .data d) ∨ h.hashEntries[i]? = some e := by
  rcases updateResolved_cases hu with ⟨j, hl, rfl, _⟩ | ⟨_, _, rfl, _⟩ | ⟨_, _, rfl, _⟩
  · obtain ⟨-, e₀, he₀, hk⟩ := lookup_sound hl
    rw [overwrite_direct_data he₀ (hn j e₀ hl he₀)] at he
    obtain ⟨e₁, he₁, rfl⟩ := getElem?_modify_cases he
    split_ifs with hij
    · subst hij
      obtain rfl := Option.some.inj (he₀.symm.trans he₁)
      exact .inl ⟨hk, rfl⟩
    · exact .inr he₁
  · exact .inr he
  · rcases getElem?_append_cases he with he | ⟨-, hk, hd, -⟩
    · exact .inr he
    · exact .inl ⟨hk, hd⟩

/-- A link leaves every entry alone that is direct afterwards. -/
theorem update_entry_direct (hu : h.updateResolved k (.entry c) = (h', r))
    (he : h'.hashEntries[i]? = some e) (hd : e.indirect = false) :
    h.hashEntries[i]? = some e := by
  rcases updateResolved_cases hu with ⟨j, hl, rfl, _⟩ | ⟨_, _, rfl, _⟩ | ⟨_, _, rfl, _⟩
  · obtain ⟨-, e₀, he₀, -⟩ := lookup_sound hl
    cases hi : e₀.indirect with
    | false =>
      rw [overwrite_direct_entry he₀ hi] at he
      obtain ⟨e₁, he₁, rfl⟩ := getElem?_modify_cases he
      split_ifs at hd ⊢
      exact he₁
    | true =>
      rw [overwrite_alias_entry he₀ hi] at he
      obtain ⟨e₁, he₁, rfl⟩ := getElem?_modify_cases he
      split_ifs at hd ⊢ with hij
      · subst hij
        obtain rfl := Option.some.inj (he₀.symm.trans he₁)
        exact absurd (hi.symm.trans hd) (by simp)
      · exact he₁
  · exact he
  · rcases getElem?_append_cases he with he | ⟨rfl, -⟩
    · exact he
    · obtain ⟨e₀, he₀, -, -, -, -, hi⟩ := getElem?_append_self (h := h) (k := k) (v := .entry c)
      obtain rfl := Option.some.inj (he.symm.trans he₀)
      simp [hd] at hi

/-- A key that is found stays at its entry. -/
theorem WellFormed.lookup_updateResolved (hw : WellFormed h) {v : VoidPtr δ}
    (hu : h.updateResolved k v = (h', r)) (hl : h.lookup k' = some i) :
    h'.lookup k' = some i := by
  rcases updateResolved_cases hu with ⟨j, _, rfl, _⟩ | ⟨_, _, rfl, _⟩ | ⟨hn, hf, rfl, _⟩
  · rw [(sameTable_overwrite h j v).lookup_eq, hl]
  · exact hl
  · rw [hw.lookup_append hn hf, if_neg, hl]
    rintro rfl
    simp [hn] at hl

theorem WellFormed.lookup_of_updateResolved (hw : WellFormed h) {v : VoidPtr δ}
    (hu : h.updateResolved k v = (h', r)) (hk : k' ≠ k) (hl : h'.lookup k' = some i) :
    h.lookup k' = some i := by
  rcases updateResolved_cases hu with ⟨j, _, rfl, _⟩ | ⟨_, _, rfl, _⟩ | ⟨hn, hf, rfl, _⟩
  · rwa [(sameTable_overwrite h j v).lookup_eq] at hl
  · exact hl
  · rwa [hw.lookup_append hn hf, if_neg hk] at hl

/-- A direct store under another key brings no alias to a key. -/
theorem NoAliasTo.update_data (ha : NoAliasTo h k') (hw : WellFormed h) (hn : NoAlias h k)
    (hk : k' ≠ k) (hu : h.updateResolved k (.data d) = (h', r)) : NoAliasTo h' k' := by
  intro i e hl he hd j e' he' hi hj
  have hl' := hw.lookup_of_updateResolved hu hk hl
  rcases hn.update_data_cases hu he with ⟨hke, -⟩ | he
  · obtain ⟨-, e₀, he₀, hk₀⟩ := lookup_sound hl
    obtain rfl := Option.some.inj (he.symm.trans he₀)
    exact hk (hk₀.symm.trans hke)
  · rcases hn.update_data_cases hu he' with ⟨-, hd'⟩ | he'
    · simp [hd'] at hj
    · exact ha i e hl' he hd j e' he' hi hj

end Update

end ZendOpcache.ZendAccelHash
