import ZendOpcache.Hash.Unlink

/-! # The direct entries

The table counts the linked entries that are not aliases. Every update and every
unlink keeps that count, from a fresh or a cleaned table on.
-/

namespace ZendOpcache.ZendAccelHash

variable {κ δ : Type*} [ZendInlineHash κ]
variable {h h' : ZendAccelHash κ δ} {k : κ} {b i j n : ℕ} {v : VoidPtr δ} {r : Option ℕ}
variable {e e' : ZendAccelHashEntry κ δ}

/-- The entry is there and is not an alias. -/
def Direct (h : ZendAccelHash κ δ) (i : ℕ) : Prop :=
  ∃ e, h.hashEntries[i]? = some e ∧ e.indirect = false

def directEntries (h : ZendAccelHash κ δ) : Set ℕ := {i | h.Linked i ∧ h.Direct i}

/-- The structural invariant, and the count of the direct entries. -/
structure Counted (h : ZendAccelHash κ δ) : Prop extends WellFormed h where
  numDirectEntries_eq : h.numDirectEntries = h.directEntries.ncard

omit [ZendInlineHash κ] in
theorem direct_iff (he : h.hashEntries[i]? = some e) : h.Direct i ↔ e.indirect = false := by
  simp [Direct, he]

omit [ZendInlineHash κ] in
theorem finite_directEntries (h : ZendAccelHash κ δ) : h.directEntries.Finite :=
  (Finset.range h.numEntries).finite_toSet.subset fun _ ⟨_, _, he, _⟩ => by
    simpa using getElem?_lt he

omit [ZendInlineHash κ] in
theorem directEntries_of_nil (hes : h.hashEntries = []) : h.directEntries = ∅ := by
  simp [directEntries, Direct, hes]

theorem wellFormed_clean (h : ZendAccelHash κ δ) : WellFormed h.zendAccelHashClean where
  length_le := by simp [zendAccelHashClean, numEntries]
  head_lt h := by simp [zendAccelHashClean] at h
  next_lt h := by simp [zendAccelHashClean] at h
  hashValue_eq h := by simp [zendAccelHashClean] at h
  bucket_eq _ h := by simp [zendAccelHashClean] at h
  key_inj _ _ h := by simp [zendAccelHashClean] at h

theorem counted_init (n : ℕ) : Counted (zendAccelHashInit n : ZendAccelHash κ δ) :=
  ⟨wellFormed_init n, by rw [directEntries_of_nil rfl, Set.ncard_empty]; rfl⟩

theorem counted_clean (h : ZendAccelHash κ δ) : Counted h.zendAccelHashClean :=
  ⟨wellFormed_clean h, by rw [directEntries_of_nil rfl, Set.ncard_empty]; rfl⟩

section Overwrite

omit [ZendInlineHash κ] in
theorem SameTable.directEntries_eq (hs : SameTable h h') (hd : ∀ i, h'.Direct i ↔ h.Direct i) :
    h'.directEntries = h.directEntries := by
  ext i
  exact and_congr hs.linked_iff (hd i)

/-- A store that keeps the links and the flags keeps the count. -/
theorem Counted.modify (hc : Counted h) (i : ℕ)
    {f : ZendAccelHashEntry κ δ → ZendAccelHashEntry κ δ} (hlinks : ∀ e, (f e).links = e.links)
    (hf : ∀ e, (f e).indirect = e.indirect) :
    Counted { h with hashEntries := h.hashEntries.modify i f } := by
  have hs : SameTable h { h with hashEntries := h.hashEntries.modify i f } :=
    ⟨rfl, rfl, sameLinks_modify _ _ hlinks⟩
  refine ⟨hc.toWellFormed.sameTable hs, hc.numDirectEntries_eq.trans ?_⟩
  rw [hs.directEntries_eq]
  intro j
  have hflag : ∀ e, (if i = j then f e else e).indirect = e.indirect := by
    intro e
    split_ifs <;> simp [hf]
  constructor
  · rintro ⟨e, he, hd⟩
    obtain ⟨e₀, he₀, rfl⟩ := getElem?_modify_cases he
    exact ⟨e₀, he₀, (hflag e₀).symm.trans hd⟩
  · rintro ⟨e, he, hd⟩
    exact ⟨_, getElem?_modify_some f he i, (hflag e).trans hd⟩

/-- An entry that becomes an alias is no longer counted. -/
theorem Counted.overwrite_direct_entry (hc : Counted h) (hl : h.Linked i)
    (he : h.hashEntries[i]? = some e) (hd : e.indirect = false) {c : ℕ} :
    Counted (h.overwrite i (.entry c)) := by
  have hs := sameTable_overwrite h i (.entry c)
  refine ⟨hc.toWellFormed.sameTable hs, ?_⟩
  have hes : (h.overwrite i (.entry c)).hashEntries = h.hashEntries.modify i fun e =>
      { e with data := .entry c, indirect := true } := by
    rw [ZendAccelHash.overwrite_direct_entry he hd]
  have hset : (h.overwrite i (.entry c)).directEntries = h.directEntries \ {i} := by
    ext j
    simp only [directEntries, Direct, hs.linked_iff, Set.mem_ofPred_eq, Set.mem_sdiff,
      Set.mem_singleton_iff]
    constructor
    · rintro ⟨hlj, e', he', hd'⟩
      rw [hes] at he'
      obtain ⟨e₀, he₀, rfl⟩ := getElem?_modify_cases he'
      split_ifs at hd' with hij
      exact ⟨⟨hlj, e₀, he₀, hd'⟩, fun hji => hij hji.symm⟩
    · rintro ⟨⟨hlj, e', he', hd'⟩, hij⟩
      refine ⟨hlj, e', ?_, hd'⟩
      rw [hes, getElem?_modify_some _ he', if_neg fun hji => hij hji.symm]
  have hmem : i ∈ h.directEntries := ⟨hl, e, he, hd⟩
  rw [hset, Set.ncard_sdiff_singleton_of_mem hmem, ← hc.numDirectEntries_eq,
    ZendAccelHash.overwrite_direct_entry he hd]

theorem Counted.overwrite (hc : Counted h) (hl : h.Linked i) (v : VoidPtr δ) :
    Counted (h.overwrite i v) := by
  obtain ⟨e, he⟩ := hl.exists_entry
  cases hi : e.indirect with
  | false =>
    cases v with
    | data d =>
      rw [overwrite_direct_data he hi]
      exact hc.modify i (fun _ => rfl) fun _ => rfl
    | entry c => exact hc.overwrite_direct_entry hl he hi
  | true =>
    cases v with
    | data d =>
      cases hd : e.data with
      | data d' =>
        have heq : h.overwrite i (.data d) = h := by simp [ZendAccelHash.overwrite, he, hi, hd]
        rwa [heq]
      | entry j =>
        rw [overwrite_alias_data he hi hd]
        exact hc.modify j (fun _ => rfl) fun _ => rfl
    | entry c =>
      rw [overwrite_alias_entry he hi]
      exact hc.modify i (fun _ => rfl) fun _ => rfl

end Overwrite

section Append

/-- A new entry is counted unless it is an alias. -/
theorem Counted.append [DecidableEq κ] (hc : Counted h) (hl : h.lookup k = none)
    (hf : h.numEntries ≠ h.maxNumEntries) (v : VoidPtr δ) : Counted (h.append k v) := by
  refine ⟨hc.toWellFormed.append hl hf, ?_⟩
  obtain ⟨e, he, -, -, -, -, hi⟩ := getElem?_append_self (h := h) (k := k) (v := v)
  have hold : ∀ j, j ≠ h.numEntries →
      (j ∈ (h.append k v).directEntries ↔ j ∈ h.directEntries) := by
    intro j hj
    constructor
    · rintro ⟨hlj, e', he', hd⟩
      exact ⟨(hc.linked_append_cases hlj).resolve_left hj, e',
        (getElem?_append_cases he').resolve_right fun hne => hj hne.1, hd⟩
    · rintro ⟨hlj, e', he', hd⟩
      exact ⟨hc.linked_append hlj, e', (getElem?_append_lt (getElem?_lt he')).trans he', hd⟩
  have hnew : h.numEntries ∉ h.directEntries := fun ⟨_, e', he', _⟩ =>
    absurd (getElem?_lt he') (lt_irrefl _)
  cases v with
  | data d =>
    have hset : (h.append k (.data d)).directEntries = insert h.numEntries h.directEntries := by
      ext j
      by_cases hj : j = h.numEntries
      · subst hj
        simpa using ⟨linked_append_self, e, he, hi⟩
      · simp [hold j hj, hj]
    rw [hset, Set.ncard_insert_of_notMem hnew h.finite_directEntries, ← hc.numDirectEntries_eq]
    rfl
  | entry c =>
    have hset : (h.append k (.entry c)).directEntries = h.directEntries := by
      ext j
      by_cases hj : j = h.numEntries
      · subst hj
        refine iff_of_false (fun ⟨_, e', he', hd⟩ => ?_) hnew
        obtain rfl := Option.some.inj (he.symm.trans he')
        simp [hi] at hd
      · exact hold j hj
    rw [hset, ← hc.numDirectEntries_eq]
    rfl

end Append

omit [ZendInlineHash κ] in
theorem direct_unlinkEntry [DecidableEq κ] {last : Option ℕ} :
    (h.unlinkEntry b last e).Direct j ↔ h.Direct j := by
  constructor
  · rintro ⟨e', he', hd⟩
    obtain ⟨e₀, he₀, -, -, -, hi, -⟩ := getElem?_unlinkEntry he'
    exact ⟨e₀, he₀, hi ▸ hd⟩
  · rintro ⟨e', he', hd⟩
    cases last with
    | none => exact ⟨e', he', hd⟩
    | some q =>
      refine ⟨_, getElem?_modify_some _ he' q, ?_⟩
      split_ifs <;> exact hd

/-- An unlinked entry is no longer counted. -/
theorem Counted.unlink [DecidableEq κ] (hc : Counted h) (k : κ) :
    Counted (h.zendAccelHashUnlink k).1 := by
  cases hl : h.lookup k with
  | none => rwa [zendAccelHashUnlink_of_lookup_none hl]
  | some i =>
    obtain ⟨pre, post, e, hch, he, heq⟩ := hc.toWellFormed.exists_unlinkEntry hl
    rw [heq]
    refine ⟨hc.toWellFormed.unlinkEntry hch he, ?_⟩
    have hset : (h.unlinkEntry (h.index k) pre.getLast? e).directEntries =
        h.directEntries \ {i} := by
      ext j
      simp only [directEntries, Set.mem_ofPred_eq, Set.mem_sdiff, Set.mem_singleton_iff,
        hc.toWellFormed.linked_unlinkEntry hch he, direct_unlinkEntry]
      exact and_right_comm
    rw [hset]
    have hli := (lookup_sound hl).1
    cases hi : e.indirect with
    | false =>
      have hmem : i ∈ h.directEntries := ⟨hli, e, he, hi⟩
      rw [Set.ncard_sdiff_singleton_of_mem hmem, ← hc.numDirectEntries_eq]
      simp [unlinkEntry, hi]
    | true =>
      have hmem : i ∉ h.directEntries := by
        rintro ⟨-, hd⟩
        simp [direct_iff he, hi] at hd
      rw [Set.sdiff_singleton_eq_self hmem, ← hc.numDirectEntries_eq]
      simp [unlinkEntry, hi]

theorem Counted.updateResolved [DecidableEq κ] (hc : Counted h)
    (hu : h.updateResolved k v = (h', r)) :
    Counted h' := by
  rcases updateResolved_cases hu with ⟨i, hl, rfl, -⟩ | ⟨-, -, rfl, -⟩ | ⟨hl, hf, rfl, -⟩
  · exact hc.overwrite (lookup_sound hl).1 v
  · exact hc
  · exact hc.append hl hf v

theorem Counted.update [DecidableEq κ] (hc : Counted h)
    (hu : h.zendAccelHashUpdate k v = some (h', r)) : Counted h' := by
  cases v with
  | data d => exact hc.updateResolved (Option.some.inj hu)
  | entry b =>
    obtain ⟨c, -, hu⟩ := Option.map_eq_some_iff.mp hu
    exact hc.updateResolved hu

section Run

/-- A call that changes the table. -/
inductive TableCall (κ δ : Type*) where
  | update (key : κ) (value : VoidPtr δ)
  | unlink (key : κ)
  deriving DecidableEq, Repr

/-- One call; an update has no result when the chain of its target never ends. -/
def tableCall [DecidableEq κ] (h : ZendAccelHash κ δ) : TableCall κ δ → Option (ZendAccelHash κ δ)
  | .update key value => (h.zendAccelHashUpdate key value).map Prod.fst
  | .unlink key => some (h.zendAccelHashUnlink key).1

def TableStep [DecidableEq κ] (h : ZendAccelHash κ δ) (c : TableCall κ δ)
    (h' : ZendAccelHash κ δ) : Prop :=
  h.tableCall c = some h'

theorem Counted.step [DecidableEq κ] (hc : Counted h) {c : TableCall κ δ} (hs : TableStep h c h') :
    Counted h' := by
  cases c with
  | update key value =>
    obtain ⟨⟨h₁, r⟩, hu, rfl⟩ := Option.map_eq_some_iff.mp hs
    exact hc.update hu
  | unlink key =>
    obtain rfl := Option.some.inj hs
    exact hc.unlink key

/-- From a fresh or a cleaned table on, whatever calls are made, with whatever hash values. -/
theorem structure_of_run [DecidableEq κ] {h₀ : ZendAccelHash κ δ} {w : List (TableCall κ δ)}
    (h0 : (∃ n, h₀ = zendAccelHashInit n) ∨ ∃ g : ZendAccelHash κ δ, h₀ = g.zendAccelHashClean)
    (hr : Run TableStep h₀ w h) :
    h.numEntries ≤ h.maxNumEntries ∧
    (∀ b, ∃ l, Chain h.hashEntries (h.hashTable b) l ∧ l.Pairwise (· > ·)) ∧
    (∀ (i j : ℕ) e, h.hashEntries[i]? = some e → e.next = some j → j < i) ∧
    (∀ (b i : ℕ) e, ChainFrom h.hashEntries (h.hashTable b) i → h.hashEntries[i]? = some e →
      b = e.hashValue % h.maxNumEntries) ∧
    (∀ (i j : ℕ) e e', h.Linked i → h.Linked j → h.hashEntries[i]? = some e →
      h.hashEntries[j]? = some e' → e.key = e'.key → i = j) ∧
    (∀ e, h.hashEntries[0]? = some e → e.next = none) ∧
    h.numDirectEntries =
      {i | h.Linked i ∧ ∃ e, h.hashEntries[i]? = some e ∧ e.indirect = false}.ncard := by
  have hinit : Counted h₀ := by
    rcases h0 with ⟨n, rfl⟩ | ⟨g, rfl⟩
    · exact counted_init n
    · exact counted_clean g
  have hc : Counted h := hr.invariant hinit fun hc _ hs => hc.step hs
  refine ⟨hc.length_le, fun b => ?_, fun i j e he hj => hc.next_lt he hj, fun b i e hcf he => ?_,
    fun i j e e' hi hj he he' hk => hc.key_inj hi hj he he' hk, fun e he => ?_,
    hc.numDirectEntries_eq⟩
  · obtain ⟨l, hl⟩ := hc.toWellFormed.exists_chain (p := h.hashTable b) fun _ hi => hc.head_lt hi
    exact ⟨l, hl, hc.toWellFormed.chain_sorted hl⟩
  · rw [hc.hashValue_eq he]
    exact (hc.bucket_eq hcf he).symm
  · exact Option.eq_none_iff_forall_ne_some.mpr fun j hj =>
      absurd (hc.next_lt he hj) (Nat.not_lt_zero j)

end Run

section Collision

local instance : ZendInlineHash Bool := ⟨fun _ => 0⟩

/-- Two keys of one bucket: the first becomes an alias of the second, which is unlinked and then
stored again. -/
def collisionCalls : List (TableCall Bool ℕ) :=
  [.update false (.data 10), .update true (.data 20), .update false (.entry 1), .unlink true,
    .update true (.data 21)]

theorem structure_of_run_collision : ∃ h : ZendAccelHash Bool ℕ,
    Run TableStep (zendAccelHashInit 5) collisionCalls h ∧ h.numDirectEntries = 1 ∧
    h.numDirectEntries =
      {i | h.Linked i ∧ ∃ e, h.hashEntries[i]? = some e ∧ e.indirect = false}.ncard := by
  suffices ∃ h : ZendAccelHash Bool ℕ,
      Run TableStep (zendAccelHashInit 5) collisionCalls h ∧ h.numDirectEntries = 1 by
    obtain ⟨h, hr, hn⟩ := this
    exact ⟨h, hr, hn, (structure_of_run (.inl ⟨5, rfl⟩) hr).2.2.2.2.2.2⟩
  exact ⟨_, GuardedRun.of_foldlM rfl, rfl⟩

end Collision

end ZendOpcache.ZendAccelHash
