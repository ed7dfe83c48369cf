import Mathlib.Data.Set.Card
import ZendOpcache.Hash.Indirection

/-! # Unlinking and the structure of the table

`zend_accel_hash_unlink` takes an entry out of its chain. Whatever updates and
unlinks are done, every chain stays finite and acyclic, an entry is only in the
chain of its hash value, keys stay distinct and the direct entries are counted.
-/

namespace ZendOpcache.ZendAccelHash

variable {κ δ : Type*} [ZendInlineHash κ]
variable {h h' : ZendAccelHash κ δ} {k : κ} {b i j n : ℕ} {p : Option ℕ}
variable {e e' : ZendAccelHashEntry κ δ} {es es' : List (ZendAccelHashEntry κ δ)}
variable {l pre post : List ℕ}

/-- The walk for the key, which also remembers `last_entry`. -/
def unlinkWalk [DecidableEq κ] (es : List (ZendAccelHashEntry κ δ)) (key : κ) :
    ℕ → Option ℕ → Option ℕ → Option (Option ℕ × ℕ)
  | 0, _, _ => none
  | _ + 1, _, none => none
  | n + 1, last, some i =>
    match es[i]? with
    | none => none
    | some e =>
      if e.hashValue = zendInlineHashFunc key ∧ e.key = key then some (last, i)
      else unlinkWalk es key n (some i) e.next

/-- Lead the pointer to an entry, from the entry before it or from its bucket, past it. -/
def unlinkEntry (h : ZendAccelHash κ δ) (b : ℕ) (last : Option ℕ)
    (e : ZendAccelHashEntry κ δ) : ZendAccelHash κ δ where
  hashTable := match last with
    | some _ => h.hashTable
    | none => Function.update h.hashTable b e.next
  hashEntries := match last with
    | some l => h.hashEntries.modify l fun e' => { e' with next := e.next }
    | none => h.hashEntries
  maxNumEntries := h.maxNumEntries
  numDirectEntries := if e.indirect then h.numDirectEntries else h.numDirectEntries - 1

/-- The flag is `SUCCESS`. -/
def zendAccelHashUnlink [DecidableEq κ] (h : ZendAccelHash κ δ) (key : κ) :
    ZendAccelHash κ δ × Bool :=
  match unlinkWalk h.hashEntries key (h.numEntries + 1) none (h.hashTable (h.index key)) with
  | none => (h, false)
  | some (last, i) =>
    match h.hashEntries[i]? with
    | none => (h, false)
    | some e => (h.unlinkEntry (h.index key) last e, true)

/-- The chain from a pointer goes through exactly these entries, and ends. -/
inductive Chain (es : List (ZendAccelHashEntry κ δ)) : Option ℕ → List ℕ → Prop where
  | nil : Chain es none []
  | cons {i : ℕ} {e : ZendAccelHashEntry κ δ} {l : List ℕ} : es[i]? = some e →
      Chain es e.next l → Chain es (some i) (i :: l)

section Chains

omit [ZendInlineHash κ] in
theorem Chain.mem_iff (hc : Chain es p l) : ChainFrom es p j ↔ j ∈ l := by
  constructor
  · intro hf
    induction hf generalizing l with
    | here he =>
      cases hc with
      | cons _ _ => simp
    | next he _ ih =>
      cases hc with
      | cons he' hc =>
        obtain rfl := Option.some.inj (he.symm.trans he')
        exact List.mem_cons_of_mem _ (ih hc)
  · intro hj
    induction hc with
    | nil => simp at hj
    | cons he _ ih =>
      rcases List.mem_cons.mp hj with rfl | hj
      · exact .here he
      · exact .next he (ih hj)

omit [ZendInlineHash κ] in
/-- A chain only depends on the entries that it goes through. -/
theorem Chain.congr (hc : Chain es p l) (hes : ∀ j ∈ l, es'[j]? = es[j]?) : Chain es' p l := by
  induction hc with
  | nil => exact .nil
  | cons he _ ih =>
    exact .cons ((hes _ List.mem_cons_self).trans he)
      (ih fun j hj => hes j (List.mem_cons_of_mem _ hj))

omit [ZendInlineHash κ] in
theorem Chain.entry (hc : Chain es p l) (hj : j ∈ l) : ∃ e, es[j]? = some e :=
  (hc.mem_iff.mpr hj).exists_entry

omit [ZendInlineHash κ] in
/-- The rest of a chain after one of its entries -/
theorem Chain.tail (hc : Chain es p (pre ++ i :: post)) (he : es[i]? = some e) :
    Chain es e.next post := by
  induction pre generalizing p with
  | nil =>
    cases hc with
    | cons he' hc =>
      obtain rfl := Option.some.inj (he.symm.trans he')
      exact hc
  | cons q pre ih =>
    cases hc with
    | cons _ hc => exact ih hc

omit [ZendInlineHash κ] in
/-- The entry before another one leads past it. -/
theorem Chain.skip {q : ℕ} (hc : Chain es p (pre ++ q :: i :: post)) (he : es[i]? = some e)
    (hn : (pre ++ q :: i :: post).Nodup) :
    Chain (es.modify q fun e' => { e' with next := e.next }) p (pre ++ q :: post) := by
  have hes : ∀ j, q ≠ j → (es.modify q fun e' => { e' with next := e.next })[j]? = es[j]? :=
    fun j hj => by simp [hj]
  induction pre generalizing p with
  | nil =>
    rw [List.nil_append, List.nodup_cons] at hn
    cases hc with
    | @cons _ e' _ he' hc =>
      have hq := getElem?_modify_some (fun e' => { e' with next := e.next }) he' q
      rw [if_pos rfl] at hq
      have htail := Chain.tail (show Chain es e'.next ([] ++ i :: post) from hc) he
      refine .cons hq (htail.congr fun j hj => hes j ?_)
      rintro rfl
      exact hn.1 (List.mem_cons_of_mem _ hj)
  | cons r pre ih =>
    rw [List.cons_append, List.nodup_cons] at hn
    cases hc with
    | cons he' hc =>
      refine .cons ((hes r ?_).trans he') (ih hc hn.2)
      rintro rfl
      exact hn.1 (by simp)

theorem WellFormed.chain_le (hw : WellFormed h) (hc : Chain h.hashEntries (some i) l) :
    ∀ j ∈ l, j ≤ i := by
  obtain ⟨m, hm⟩ : ∃ m, m = i := ⟨i, rfl⟩
  induction m using Nat.strong_induction_on generalizing i l with
  | _ m ih =>
    intro j hj
    cases hc with
    | @cons _ e _ he hc =>
      rcases List.mem_cons.mp hj with rfl | hj
      · exact le_rfl
      · cases hnext : e.next with
        | none =>
          rw [hnext] at hc
          cases hc
          simp at hj
        | some q =>
          have hlt := hw.next_lt he hnext
          exact (ih q (by omega) (hnext ▸ hc) rfl j hj).trans hlt.le

/-- Along a chain the indices go down. -/
theorem WellFormed.chain_sorted (hw : WellFormed h) (hc : Chain h.hashEntries p l) :
    l.Pairwise (· > ·) := by
  induction hc with
  | nil => exact .nil
  | @cons i e l he hc ih =>
    refine List.pairwise_cons.mpr ⟨fun j hj => ?_, ih⟩
    cases hnext : e.next with
    | none =>
      rw [hnext] at hc
      cases hc
      simp at hj
    | some q => exact (hw.chain_le (hnext ▸ hc) j hj).trans_lt (hw.next_lt he hnext)

theorem WellFormed.chain_nodup (hw : WellFormed h) (hc : Chain h.hashEntries p l) : l.Nodup :=
  (hw.chain_sorted hc).imp fun h => Nat.ne_of_gt h

theorem WellFormed.exists_chain (hw : WellFormed h) (hp : ∀ i, p = some i → i < h.numEntries) :
    ∃ l, Chain h.hashEntries p l := by
  cases p with
  | none => exact ⟨[], .nil⟩
  | some i =>
    induction i using Nat.strong_induction_on with
    | _ i ih =>
      have hlt := hp i rfl
      have he : h.hashEntries[i]? = some h.hashEntries[i] := List.getElem?_eq_getElem hlt
      cases hnext : h.hashEntries[i].next with
      | none => exact ⟨[i], .cons he (hnext ▸ .nil)⟩
      | some j =>
        have hj := hw.next_lt he hnext
        obtain ⟨l, hl⟩ := ih j hj fun _ hi' => Option.some.inj hi' ▸ hj.trans hlt
        exact ⟨i :: l, .cons he (hnext ▸ hl)⟩

end Chains

section Unlink

variable {last last' : Option ℕ}

theorem unlinkWalk_map_snd [DecidableEq κ] (es : List (ZendAccelHashEntry κ δ)) (k : κ) (n : ℕ)
    (last p : Option ℕ) :
    (unlinkWalk es k n last p).map Prod.snd = walk es k n p := by
  induction n generalizing last p with
  | zero => rfl
  | succ n ih =>
    cases p with
    | none => rfl
    | some i =>
      cases he : es[i]? with
      | none => simp [unlinkWalk, walk, he]
      | some e =>
        simp only [unlinkWalk, walk, he]
        split_ifs
        · rfl
        · exact ih (some i) e.next

/-- The walk stops in the chain, and `last_entry` is the entry before. -/
theorem unlinkWalk_spec [DecidableEq κ] (hc : Chain es p l)
    (hu : unlinkWalk es k n last p = some (last', i)) :
    ∃ pre post, l = pre ++ i :: post ∧ last' = pre.getLast?.or last := by
  induction n generalizing p l last with
  | zero => simp [unlinkWalk] at hu
  | succ n ih =>
    cases hc with
    | nil => simp [unlinkWalk] at hu
    | @cons q e l he hc =>
      simp only [unlinkWalk, he] at hu
      split_ifs at hu with hk
      · obtain ⟨rfl, rfl⟩ : last = last' ∧ q = i := by simpa using hu
        exact ⟨[], l, rfl, rfl⟩
      · obtain ⟨pre, post, rfl, hlast⟩ := ih hc hu
        refine ⟨q :: pre, post, rfl, ?_⟩
        rw [hlast]
        cases pre <;> simp [List.getLast?_cons]

/-- `FAILURE` is returned for a key that is absent, and nothing is changed. -/
theorem zendAccelHashUnlink_of_lookup_none [DecidableEq κ] (hl : h.lookup k = none) :
    h.zendAccelHashUnlink k = (h, false) := by
  have hmap := unlinkWalk_map_snd h.hashEntries k (h.numEntries + 1) none
    (h.hashTable (h.index k))
  rw [show walk _ _ _ _ = none from hl, Option.map_eq_none_iff] at hmap
  simp [zendAccelHashUnlink, hmap]

theorem WellFormed.exists_unlinkEntry [DecidableEq κ] (hw : WellFormed h)
    (hl : h.lookup k = some i) :
    ∃ pre post e, Chain h.hashEntries (h.hashTable (h.index k)) (pre ++ i :: post) ∧
      h.hashEntries[i]? = some e ∧
      h.zendAccelHashUnlink k = (h.unlinkEntry (h.index k) pre.getLast? e, true) := by
  obtain ⟨l, hc⟩ := hw.exists_chain (p := h.hashTable (h.index k)) fun _ hi => hw.head_lt hi
  have hmap := unlinkWalk_map_snd h.hashEntries k (h.numEntries + 1) none
    (h.hashTable (h.index k))
  rw [show walk _ _ _ _ = some i from hl] at hmap
  obtain ⟨⟨last, i'⟩, hu, rfl⟩ := Option.map_eq_some_iff.mp hmap
  obtain ⟨pre, post, rfl, hlast⟩ := unlinkWalk_spec hc hu
  obtain ⟨e, he⟩ := hc.entry (j := i') (by simp)
  refine ⟨pre, post, e, hc, he, ?_⟩
  rw [Option.or_none] at hlast
  simp [zendAccelHashUnlink, hu, he, hlast]

section Entry

variable (hw : WellFormed h) (hc : Chain h.hashEntries (h.hashTable b) (pre ++ i :: post))
  (he : h.hashEntries[i]? = some e)

include hw hc he

/-- The chain of the bucket loses the entry. -/
theorem WellFormed.chain_unlinkEntry : Chain (h.unlinkEntry b pre.getLast? e).hashEntries
    ((h.unlinkEntry b pre.getLast? e).hashTable b) (pre ++ post) := by
  rcases List.eq_nil_or_concat pre with rfl | ⟨pre', q, rfl⟩
  · simpa [unlinkEntry] using hc.tail he
  · have hn := hw.chain_nodup hc
    rw [List.concat_eq_append, List.append_assoc] at hc hn
    simpa [unlinkEntry] using hc.skip he hn

omit he in
/-- The chains of the other buckets do not go through the entry or the one before it. -/
theorem WellFormed.chain_unlinkEntry_ne {b' : ℕ} (hb : b' ≠ b)
    (hc' : Chain h.hashEntries (h.hashTable b') l) :
    Chain (h.unlinkEntry b pre.getLast? e).hashEntries
      ((h.unlinkEntry b pre.getLast? e).hashTable b') l := by
  have hout : ∀ j ∈ l, j ∉ pre ++ i :: post := by
    intro j hj hmem
    obtain ⟨e', he'⟩ := hc'.entry hj
    exact hb ((hw.bucket_eq (hc'.mem_iff.mpr hj) he').symm.trans
      (hw.bucket_eq (hc.mem_iff.mpr hmem) he'))
  rcases List.eq_nil_or_concat pre with rfl | ⟨pre', q, rfl⟩
  · simpa [unlinkEntry, hb] using hc'
  · simp only [unlinkEntry, List.concat_eq_append, List.getLast?_append, List.getLast?_singleton,
      Option.some_or]
    refine hc'.congr fun j hj => ?_
    have hqj : q ≠ j := by
      rintro rfl
      exact hout q hj (by simp)
    simp [hqj]

theorem WellFormed.chainFrom_unlinkEntry [DecidableEq κ] {b' : ℕ} :
    ChainFrom (h.unlinkEntry b pre.getLast? e).hashEntries
      ((h.unlinkEntry b pre.getLast? e).hashTable b') j ↔
    ChainFrom h.hashEntries (h.hashTable b') j ∧ j ≠ i := by
  by_cases hb : b' = b
  · subst hb
    rw [(hw.chain_unlinkEntry hc he).mem_iff, hc.mem_iff]
    have hn := hw.chain_nodup hc
    rw [List.nodup_append, List.nodup_cons] at hn
    constructor
    · intro hj
      refine ⟨by rcases List.mem_append.mp hj with hj | hj <;> simp [hj], ?_⟩
      rintro rfl
      rcases List.mem_append.mp hj with hj | hj
      · exact hn.2.2 j hj j (by simp) rfl
      · exact hn.2.1.1 hj
    · rintro ⟨hj, hne⟩
      simpa [hne] using hj
  · obtain ⟨l, hc'⟩ := hw.exists_chain (p := h.hashTable b') fun _ hi => hw.head_lt hi
    rw [(hw.chain_unlinkEntry_ne hc hb hc').mem_iff, hc'.mem_iff]
    refine (and_iff_left_of_imp ?_).symm
    rintro hj rfl
    exact hb ((hw.bucket_eq (hc'.mem_iff.mpr hj) he).symm.trans
      (hw.bucket_eq (hc.mem_iff.mpr (by simp)) he))

theorem WellFormed.linked_unlinkEntry [DecidableEq κ] :
    (h.unlinkEntry b pre.getLast? e).Linked j ↔ h.Linked j ∧ j ≠ i := by
  simp only [Linked, hw.chainFrom_unlinkEntry hc he, exists_and_right]

end Entry

omit [ZendInlineHash κ] in
/-- Only the link of an entry changes, and it leads further down. -/
theorem getElem?_unlinkEntry (hj : (h.unlinkEntry b last e).hashEntries[j]? = some e') :
    ∃ e₀, h.hashEntries[j]? = some e₀ ∧ e'.hashValue = e₀.hashValue ∧ e'.key = e₀.key ∧
      e'.data = e₀.data ∧ e'.indirect = e₀.indirect ∧
      (e'.next = e₀.next ∨ (last = some j ∧ e'.next = e.next)) := by
  cases last with
  | none => exact ⟨e', hj, rfl, rfl, rfl, rfl, .inl rfl⟩
  | some q =>
    obtain ⟨e₀, he₀, rfl⟩ := getElem?_modify_cases hj
    refine ⟨e₀, he₀, ?_⟩
    split_ifs with hq
    · exact ⟨rfl, rfl, rfl, rfl, .inr ⟨by rw [hq], rfl⟩⟩
    · exact ⟨rfl, rfl, rfl, rfl, .inl rfl⟩

omit [ZendInlineHash κ] in
@[simp] theorem numEntries_unlinkEntry : (h.unlinkEntry b last e).numEntries = h.numEntries := by
  cases last <;> simp [unlinkEntry, numEntries]

theorem WellFormed.unlinkEntry [DecidableEq κ] (hw : WellFormed h)
    (hc : Chain h.hashEntries (h.hashTable b) (pre ++ i :: post))
    (he : h.hashEntries[i]? = some e) : WellFormed (h.unlinkEntry b pre.getLast? e) where
  length_le := numEntries_unlinkEntry.trans_le hw.length_le
  head_lt {b' j} hj := by
    rw [numEntries_unlinkEntry]
    cases hlast : pre.getLast? with
    | some q =>
      rw [hlast] at hj
      exact hw.head_lt hj
    | none =>
      rw [hlast] at hj
      by_cases hb : b' = b
      · subst hb
        have hnext : e.next = some j := by simpa [ZendAccelHash.unlinkEntry] using hj
        exact (hw.next_lt he hnext).trans (getElem?_lt he)
      · exact hw.head_lt (b := b') (by simpa [ZendAccelHash.unlinkEntry, hb] using hj)
  next_lt hj hnext := by
    obtain ⟨e₀, he₀, -, -, -, -, hn | ⟨hlast, hn⟩⟩ := getElem?_unlinkEntry hj
    · exact hw.next_lt he₀ (hn ▸ hnext)
    · have hlt := hw.next_lt he (hn ▸ hnext)
      have hs := hw.chain_sorted hc
      obtain ⟨pre', rfl⟩ := List.getLast?_eq_some_iff.mp hlast
      exact hlt.trans ((List.pairwise_append.mp hs).2.2 _ (by simp) i (by simp))
  hashValue_eq hj := by
    obtain ⟨e₀, he₀, hh, hk, -⟩ := getElem?_unlinkEntry hj
    rw [hh, hk]
    exact hw.hashValue_eq he₀
  bucket_eq hcf hj := by
    obtain ⟨e₀, he₀, -, hk, -⟩ := getElem?_unlinkEntry hj
    rw [hk]
    exact hw.bucket_eq ((hw.chainFrom_unlinkEntry hc he).mp hcf).1 he₀
  key_inj hi hj hei hej hk := by
    obtain ⟨e₀, he₀, -, hk₀, -⟩ := getElem?_unlinkEntry hei
    obtain ⟨e₁, he₁, -, hk₁, -⟩ := getElem?_unlinkEntry hej
    exact hw.key_inj ((hw.linked_unlinkEntry hc he).mp hi).1
      ((hw.linked_unlinkEntry hc he).mp hj).1 he₀ he₁ (hk₀ ▸ hk₁ ▸ hk)

end Unlink

end ZendOpcache.ZendAccelHash
