import ZendOpcache.Hash.Owner

/-! # The table as a map of two levels

Keys lead to cells and cells hold data. A direct update writes the cell of the
key, so it is seen through every alias, and an indirect update leads its key to
another cell. The table represents that map as long as no indirect update turns
the cell of another key, or its own target, into an alias.
-/

namespace ZendOpcache

/-- Several keys may share a cell. -/
structure CellMap (κ ι δ : Type*) where
  cell : κ → Option ι
  content : ι → Option δ

namespace CellMap

variable {κ ι δ : Type*} [DecidableEq κ] [DecidableEq ι] {m : CellMap κ ι δ} {k k' : κ} {c n : ι}
variable {d : δ}

def find (m : CellMap κ ι δ) (k : κ) : Option δ := (m.cell k).bind m.content

/-- Write the cell of the key; a key without one gets the cell `n`. -/
def put (m : CellMap κ ι δ) (k : κ) (n : ι) (d : δ) : CellMap κ ι δ :=
  match m.cell k with
  | some j => { m with content := Function.update m.content j (some d) }
  | none => ⟨Function.update m.cell k (some n), Function.update m.content n (some d)⟩

def link (m : CellMap κ ι δ) (k : κ) (c : ι) : CellMap κ ι δ :=
  { m with cell := Function.update m.cell k (some c) }

omit [DecidableEq ι] in
@[simp] theorem link_cell_self : (m.link k c).cell k = some c := Function.update_self ..

omit [DecidableEq ι] in
theorem link_cell_ne (hk : k' ≠ k) : (m.link k c).cell k' = m.cell k' := Function.update_of_ne hk ..

/-- A write leads no other key to another cell. -/
theorem put_cell_ne (hk : k' ≠ k) : (m.put k n d).cell k' = m.cell k' := by
  unfold put
  cases m.cell k with
  | some j => rfl
  | none => exact Function.update_of_ne hk ..

/-- A write is seen by the key and by all keys that share its cell. -/
theorem find_put (hn : ∀ k, m.cell k ≠ some n) (k' : κ) : (m.put k n d).find k' =
    if k' = k ∨ ((m.cell k).isSome ∧ m.cell k' = m.cell k) then some d else m.find k' := by
  unfold find put
  cases hk : m.cell k with
  | some j =>
    by_cases hk' : m.cell k' = some j
    · simp [hk']
    · have hne : k' ≠ k := by
        rintro rfl
        exact hk' hk
      simp only [Option.isSome_some, hk', and_false, or_false, if_neg hne]
      refine Option.bind_congr fun j' hj' => Function.update_of_ne ?_ ..
      rintro rfl
      exact hk' hj'
  | none =>
    by_cases hk' : k' = k
    · simp [hk']
    · simp only [Function.update_of_ne hk', hk', Option.isSome_none, Bool.false_eq_true,
        false_and, or_false, if_false]
      refine Option.bind_congr fun j' hj' => Function.update_of_ne ?_ ..
      rintro rfl
      exact hn k' hj'

omit [DecidableEq ι] in
theorem find_link (k' : κ) :
    (m.link k c).find k' = if k' = k then m.content c else m.find k' := by
  unfold find link
  split_ifs with hk
  · simp [hk]
  · simp [hk]

end CellMap

namespace ZendAccelHash

variable {κ δ : Type*} [DecidableEq κ] [ZendInlineHash κ]
variable {h h' : ZendAccelHash κ δ} {k k' : κ} {i j b c : ℕ} {e e' : ZendAccelHashEntry κ δ}
variable {d : δ} {r : Option ℕ} {m : CellMap κ ℕ (VoidPtr δ)}

/-- A well-formed table in which every linked alias leads to a linked direct entry -/
structure TwoLevel (h : ZendAccelHash κ δ) : Prop extends WellFormed h where
  target : ∀ {i : ℕ} {e : ZendAccelHashEntry κ δ}, h.Linked i → h.hashEntries[i]? = some e →
    e.indirect = true → ∃ j e', e.data = .entry j ∧ h.Linked j ∧ h.hashEntries[j]? = some e' ∧
      e'.indirect = false

omit [DecidableEq κ] in
theorem OneLevel.twoLevel (ho : OneLevel h) (hw : WellFormed h)
    (hl : ∀ i < h.numEntries, h.Linked i) : TwoLevel h where
  toWellFormed := hw
  target _ he ha := by
    obtain ⟨j, e', hj, he', hd⟩ := ho.target he ha
    exact ⟨j, e', hj, hl j (getElem?_lt he'), he', hd⟩

/-- The map of a table: the cells are the entries. -/
def cells (h : ZendAccelHash κ δ) : CellMap κ ℕ (VoidPtr δ) where
  cell := h.zendAccelHashFindEntry
  content i := (h.hashEntries[i]?).map (·.data)

theorem find_cells (h : ZendAccelHash κ δ) (k : κ) : h.zendAccelHashFind k = h.cells.find k :=
  find_eq_findEntry h k

/-- The table agrees with the map on all cells that a key leads to. -/
structure Represents (h : ZendAccelHash κ δ) (m : CellMap κ ℕ (VoidPtr δ)) : Prop where
  cell_eq : ∀ k, h.zendAccelHashFindEntry k = m.cell k
  content_eq : ∀ {k j}, m.cell k = some j → (h.hashEntries[j]?).map (·.data) = m.content j

theorem Represents.find_eq (hr : Represents h m) (k : κ) : h.zendAccelHashFind k = m.find k := by
  rw [find_cells, CellMap.find, CellMap.find]
  change (h.zendAccelHashFindEntry k).bind _ = _
  rw [hr.cell_eq]
  exact Option.bind_congr fun j hj => hr.content_eq hj

section Entries

theorem TwoLevel.findEntry_cases (ht : TwoLevel h) (hl : h.lookup k = some i) :
    ∃ j e, h.zendAccelHashFindEntry k = some j ∧ h.Linked j ∧ h.hashEntries[j]? = some e ∧
      e.indirect = false ∧
      ∀ d, h.overwrite i (.data d) =
        { h with hashEntries := h.hashEntries.modify j fun e => { e with data := .data d } } := by
  obtain ⟨hli, e, he, -⟩ := lookup_sound hl
  cases hi : e.indirect with
  | false =>
    exact ⟨i, e, findEntry_of_direct hl he hi, hli, he, hi, fun _ => overwrite_direct_data he hi⟩
  | true =>
    obtain ⟨j, e', hj, hlj, he', hd⟩ := ht.target hli he hi
    exact ⟨j, e', findEntry_of_alias hl he hi hj, hlj, he', hd,
      fun _ => overwrite_alias_data he hi hj⟩

theorem TwoLevel.find_eq_none (ht : TwoLevel h) :
    h.zendAccelHashFind k = none ↔ h.lookup k = none := by
  rw [find_cells]
  constructor
  · intro hf
    cases hl : h.lookup k with
    | none => rfl
    | some i =>
      obtain ⟨j, e, hj, -, he, -⟩ := ht.findEntry_cases hl
      simp [CellMap.find, cells, hj, he] at hf
  · intro hl
    simp [CellMap.find, cells, findEntry_none hl]

theorem TwoLevel.findEntry_lt (ht : TwoLevel h) (hf : h.zendAccelHashFindEntry k = some j) :
    j < h.numEntries := by
  cases hl : h.lookup k with
  | none => simp [findEntry_none hl] at hf
  | some i =>
    obtain ⟨j', e, hj', -, he, -⟩ := ht.findEntry_cases hl
    obtain rfl := Option.some.inj (hj'.symm.trans hf)
    exact getElem?_lt he

omit [DecidableEq κ] in
/-- The chain of a linked entry ends. -/
theorem TwoLevel.followIndirect_ends (ht : TwoLevel h) (hb : h.Linked b) :
    ∃ c, followIndirect h.hashEntries (h.numEntries + 1) b = some c := by
  obtain ⟨e, he⟩ := hb.exists_entry
  obtain ⟨n, hn⟩ : ∃ n, h.numEntries = n + 1 :=
    ⟨h.numEntries - 1, by have := getElem?_lt he; omega⟩
  cases hi : e.indirect with
  | false => exact ⟨b, followIndirect_direct he hi⟩
  | true =>
    obtain ⟨j, e', hj, -, he', hd⟩ := ht.target hb he hi
    refine ⟨j, ?_⟩
    rw [followIndirect_alias he hi hj, hn]
    exact followIndirect_direct he' hd

end Entries

section Put

theorem TwoLevel.represents_overwrite (ht : TwoLevel h) (hl : h.lookup k = some i) (n : ℕ) :
    Represents (h.overwrite i (.data d)) (h.cells.put k n (.data d)) := by
  obtain ⟨j, e, hj, -, he, hd, heq⟩ := ht.findEntry_cases hl
  have hput : h.cells.put k n (.data d) =
      ⟨h.cells.cell, Function.update h.cells.content j (some (.data d))⟩ := by
    simp [CellMap.put, cells, hj]
  rw [hput]
  constructor
  · intro k'
    apply findEntry_congr (sameTable_overwrite h i _)
    intro i' e₀ e₁ _ he₀ he₁
    rw [heq] at he₁
    obtain ⟨e₂, he₂, rfl⟩ := getElem?_modify_cases he₁
    obtain rfl := Option.some.inj (he₀.symm.trans he₂)
    split_ifs with hji
    · subst hji
      obtain rfl := Option.some.inj (he.symm.trans he₀)
      exact ⟨rfl, fun ha => by simp [hd] at ha⟩
    · exact ⟨rfl, fun _ => rfl⟩
  · intro k' j' _
    dsimp only
    rw [heq]
    by_cases hjj : j' = j
    · subst hjj
      rw [getElem?_modify_some _ he, if_pos rfl, Function.update_self]
      rfl
    · rw [Function.update_of_ne hjj, List.getElem?_modify_ne _ _ (Ne.symm hjj)]
      rfl

/-- A new entry changes the cell of its own key only. -/
theorem TwoLevel.findEntry_append (ht : TwoLevel h) (hl : h.lookup k = none)
    (hf : h.numEntries ≠ h.maxNumEntries) {v : VoidPtr δ} (hk : k' ≠ k) :
    (h.append k v).zendAccelHashFindEntry k' = h.zendAccelHashFindEntry k' := by
  have hl' := ht.lookup_append (v := v) hl hf k'
  rw [if_neg hk] at hl'
  cases hlk : h.lookup k' with
  | none => rw [findEntry_none hlk, findEntry_none (hl'.trans hlk)]
  | some i =>
    obtain ⟨hli, e, he, -⟩ := lookup_sound hlk
    have he' := (getElem?_append_lt (k := k) (v := v) (getElem?_lt he)).trans he
    cases hi : e.indirect with
    | false => rw [findEntry_of_direct hlk he hi, findEntry_of_direct (hl'.trans hlk) he' hi]
    | true =>
      obtain ⟨j, -, hj, -⟩ := ht.target hli he hi
      rw [findEntry_of_alias hlk he hi hj, findEntry_of_alias (hl'.trans hlk) he' hi hj]

theorem TwoLevel.represents_append_data (ht : TwoLevel h) (hl : h.lookup k = none)
    (hf : h.numEntries ≠ h.maxNumEntries) :
    Represents (h.append k (.data d)) (h.cells.put k h.numEntries (.data d)) := by
  have hput : h.cells.put k h.numEntries (.data d) =
      ⟨Function.update h.cells.cell k (some h.numEntries),
        Function.update h.cells.content h.numEntries (some (.data d))⟩ := by
    simp [CellMap.put, cells, findEntry_none hl]
  obtain ⟨e, he, -, hdata, -, -, hi⟩ := getElem?_append_self (h := h) (k := k) (v := .data d)
  have hself : (h.append k (.data d)).lookup k = some h.numEntries := by
    simp [ht.lookup_append hl hf]
  rw [hput]
  constructor
  · intro k'
    dsimp only
    by_cases hk : k' = k
    · subst hk
      rw [findEntry_of_direct hself he hi, Function.update_self]
    · rw [Function.update_of_ne hk]
      exact ht.findEntry_append hl hf hk
  · intro k' j hj
    dsimp only at hj ⊢
    by_cases hjn : j = h.numEntries
    · subst hjn
      simp [he, hdata]
    · rw [Function.update_of_ne hjn]
      have hlt : j < h.numEntries := by
        by_cases hk : k' = k
        · exact absurd (by simpa [hk, eq_comm] using hj) hjn
        · exact ht.findEntry_lt ((Function.update_of_ne hk ..).symm.trans hj)
      rw [getElem?_append_lt hlt]
      rfl

/-- A direct update writes the cell of its key. -/
theorem TwoLevel.represents_put (ht : TwoLevel h) (hu : h.updateResolved k (.data d) = (h', r))
    (hr : r ≠ none) : Represents h' (h.cells.put k h.numEntries (.data d)) := by
  rcases updateResolved_cases hu with ⟨i, hl, rfl, -⟩ | ⟨-, -, -, rfl⟩ | ⟨hl, hf, rfl, -⟩
  · exact ht.represents_overwrite hl _
  · exact absurd rfl hr
  · exact ht.represents_append_data hl hf

end Put

section Link

/-- No other key leads to the entry of the key. -/
def NoTarget (h : ZendAccelHash κ δ) (k : κ) : Prop :=
  ∀ k' ≠ k, ∀ i, h.lookup k = some i → h.zendAccelHashFindEntry k' ≠ some i

theorem TwoLevel.represents_overwrite_entry (hl : h.lookup k = some i) (hn : NoTarget h k)
    (hci : c ≠ i) : Represents (h.overwrite i (.entry c)) (h.cells.link k c) := by
  obtain ⟨-, e, he, hke⟩ := lookup_sound hl
  have hs := sameTable_overwrite h i (.entry c)
  obtain ⟨f, hf, hfa, hfd⟩ := exists_overwrite_entry he c
  constructor
  · intro k'
    by_cases hk : k' = k
    · subst hk
      have he₁ := getElem?_modify_some f he i
      rw [if_pos rfl, ← hf] at he₁
      rw [findEntry_of_alias ((hs.lookup_eq k').trans hl) he₁ hfa hfd]
      simp
    · rw [CellMap.link_cell_ne hk]
      apply findEntry_congr hs
      intro i' e₀ e₁ hl' he₀ he₁
      rw [hf] at he₁
      obtain ⟨e₂, he₂, rfl⟩ := getElem?_modify_cases he₁
      obtain rfl := Option.some.inj (he₀.symm.trans he₂)
      have hii : i ≠ i' := by
        rintro rfl
        obtain ⟨-, e₃, he₃, hk₃⟩ := lookup_sound hl'
        obtain rfl := Option.some.inj (he.symm.trans he₃)
        exact hk (hk₃.symm.trans hke)
      rw [if_neg hii]
      exact ⟨rfl, fun _ => rfl⟩
  · intro k' j hj
    have hji : i ≠ j := by
      rintro rfl
      by_cases hk : k' = k
      · exact hci (by simpa [hk] using hj)
      · rw [CellMap.link_cell_ne hk] at hj
        exact hn k' hk i hl hj
    rw [hf, List.getElem?_modify_ne _ _ hji]
    rfl

theorem TwoLevel.represents_append_entry (ht : TwoLevel h) (hl : h.lookup k = none)
    (hf : h.numEntries ≠ h.maxNumEntries) (hc : c < h.numEntries) :
    Represents (h.append k (.entry c)) (h.cells.link k c) := by
  obtain ⟨e, he, -, hdata, -, -, hi⟩ := getElem?_append_self (h := h) (k := k) (v := .entry c)
  have hself : (h.append k (.entry c)).lookup k = some h.numEntries := by
    simp [ht.lookup_append hl hf]
  constructor
  · intro k'
    by_cases hk : k' = k
    · subst hk
      rw [findEntry_of_alias hself he hi hdata]
      simp
    · rw [CellMap.link_cell_ne hk]
      exact ht.findEntry_append hl hf hk
  · intro k' j hj
    have hlt : j < h.numEntries := by
      by_cases hk : k' = k
      · obtain rfl : c = j := by simpa [hk] using hj
        exact hc
      · exact ht.findEntry_lt ((CellMap.link_cell_ne hk).symm.trans hj)
    rw [getElem?_append_lt hlt]
    rfl

/-- An indirect update leads its key to another cell. -/
theorem TwoLevel.represents_link (ht : TwoLevel h) (hc : c < h.numEntries) (hn : NoTarget h k)
    (hself : h.lookup k ≠ some c) (hu : h.updateResolved k (.entry c) = (h', r)) (hr : r ≠ none) :
    Represents h' (h.cells.link k c) := by
  rcases updateResolved_cases hu with ⟨i, hl, rfl, -⟩ | ⟨-, -, -, rfl⟩ | ⟨hl, hf, rfl, -⟩
  · apply represents_overwrite_entry hl hn
    rintro rfl
    exact hself hl
  · exact absurd rfl hr
  · exact ht.represents_append_entry hl hf hc

end Link

theorem updateResolved_eq_none {v : VoidPtr δ} (hu : h.updateResolved k v = (h', r)) :
    (r = none ↔ h.lookup k = none ∧ h.numEntries = h.maxNumEntries) ∧ (r = none → h' = h) := by
  rcases updateResolved_cases hu with ⟨i, hl, -, rfl⟩ | ⟨hl, hf, rfl, rfl⟩ | ⟨-, hf, -, rfl⟩
  · simp [hl]
  · simp [hl, hf]
  · simp [hf]

/-- What each update does to all lookups. The chain of the new target ends; an indirect update must
not turn the entry that another key leads to, or that very target, into an alias. -/
theorem TwoLevel.update_results (ht : TwoLevel h) (k : κ) :
    (∀ d, ∃ h' r, h.zendAccelHashUpdate k (.data d) = some (h', r) ∧
      (r = none ↔ h.zendAccelHashFind k = none ∧ h.numEntries = h.maxNumEntries) ∧
      (r = none → h' = h) ∧
      (r ≠ none → ∀ k', h'.zendAccelHashFind k' =
        if k' = k ∨ ((h.zendAccelHashFindEntry k).isSome ∧
          h.zendAccelHashFindEntry k' = h.zendAccelHashFindEntry k) then some (.data d)
        else h.zendAccelHashFind k') ∧
      ∀ k' ≠ k, h'.zendAccelHashFindEntry k' = h.zendAccelHashFindEntry k') ∧
    (∀ b, h.Linked b → ∃ c h' r,
      followIndirect h.hashEntries (h.numEntries + 1) b = some c ∧
      h.zendAccelHashUpdate k (.entry b) = some (h', r) ∧
      (r = none ↔ h.zendAccelHashFind k = none ∧ h.numEntries = h.maxNumEntries) ∧
      (r = none → h' = h) ∧
      (r ≠ none → NoTarget h k → h.lookup k ≠ some c →
        h'.zendAccelHashFindEntry k = some c ∧
        h'.zendAccelHashFind k = (h.hashEntries[c]?).map (·.data) ∧
        ∀ k' ≠ k, h'.zendAccelHashFind k' = h.zendAccelHashFind k' ∧
          h'.zendAccelHashFindEntry k' = h.zendAccelHashFindEntry k')) := by
  constructor
  · intro d
    rcases hu : h.updateResolved k (.data d) with ⟨h', r⟩
    obtain ⟨hnull, hsame⟩ := updateResolved_eq_none hu
    refine ⟨h', r, by simp [zendAccelHashUpdate, hu], by rw [ht.find_eq_none, hnull], hsame,
      fun hr k' => ?_, fun k' hk => ?_⟩
    · rw [(ht.represents_put hu hr).find_eq, CellMap.find_put, ← find_cells]
      · rfl
      · intro k₀ hk₀
        exact lt_irrefl _ (ht.findEntry_lt hk₀)
    · by_cases hr : r = none
      · rw [hsame hr]
      · rw [(ht.represents_put hu hr).cell_eq, CellMap.put_cell_ne hk]
        rfl
  · intro b hb
    obtain ⟨c, hc⟩ := ht.followIndirect_ends hb
    obtain ⟨e, he, -⟩ := followIndirect_sound hc
    rcases hu : h.updateResolved k (.entry c) with ⟨h', r⟩
    obtain ⟨hnull, hsame⟩ := updateResolved_eq_none hu
    refine ⟨c, h', r, hc, by simp [zendAccelHashUpdate, hc, hu], by rw [ht.find_eq_none, hnull],
      hsame, fun hr hn hself => ?_⟩
    have hrep := ht.represents_link (getElem?_lt he) hn hself hu hr
    refine ⟨?_, ?_, fun k' hk => ?_⟩
    · rw [hrep.cell_eq, CellMap.link_cell_self]
    · rw [hrep.find_eq, CellMap.find_link, if_pos rfl]
      rfl
    · constructor
      · rw [hrep.find_eq, CellMap.find_link, if_neg hk, ← find_cells]
      · rw [hrep.cell_eq, CellMap.link_cell_ne hk]
        rfl

section Example

local instance : ZendInlineHash ℕ := ⟨id⟩

/-- Key 1 is an alias of key 2, and key 3 stands alone. -/
def aliasTable : ZendAccelHash ℕ ℕ :=
  ((((zendAccelHashInit 5).updateResolved 2 (.data 20)).1.updateResolved 1
    (.entry 0)).1.updateResolved 3 (.data 30)).1

theorem twoLevel_aliasTable : TwoLevel aliasTable := by
  let h₁ : ZendAccelHash ℕ ℕ := ((zendAccelHashInit 5).updateResolved 2 (.data 20)).1
  let h₂ : ZendAccelHash ℕ ℕ := (h₁.updateResolved 1 (.entry 0)).1
  have hu₁ : (zendAccelHashInit 5).updateResolved 2 (.data 20) = (h₁, some 0) := rfl
  have hu₂ : h₁.updateResolved 1 (.entry 0) = (h₂, some 1) := rfl
  have hu₃ : h₂.updateResolved 3 (.data 30) = (aliasTable, some 2) := rfl
  have hw₀ : WellFormed (zendAccelHashInit 5 : ZendAccelHash ℕ ℕ) := wellFormed_init 5
  have hw₁ := hw₀.updateResolved hu₁
  have hw₂ := hw₁.updateResolved hu₂
  have ho₁ := (oneLevel_init 5).update_data hu₁
  have ho₂ := (ho₁.update_entry_iff (b := 0) rfl hu₂).mpr (safeLink_of_lookup_none rfl)
  have hl₁ : ∀ {i}, i < h₁.numEntries → h₁.Linked i :=
    hw₀.linked_updateResolved (fun hi => absurd hi (Nat.not_lt_zero _)) hu₁
  have hl₂ : ∀ {i}, i < h₂.numEntries → h₂.Linked i := hw₁.linked_updateResolved hl₁ hu₂
  exact (ho₂.update_data hu₃).twoLevel (hw₂.updateResolved hu₃) fun i hi =>
    hw₂.linked_updateResolved hl₂ hu₃ hi

theorem update_results_aliasTable : ∃ h' r,
    aliasTable.zendAccelHashUpdate 1 (.data 21) = some (h', r) ∧
    h'.zendAccelHashFind 1 = some (.data 21) ∧ h'.zendAccelHashFind 2 = some (.data 21) ∧
    h'.zendAccelHashFind 3 = some (.data 30) := by
  obtain ⟨h', r, hu, hnull, -, hfind, -⟩ := (twoLevel_aliasTable.update_results 1).1 21
  have hr : r ≠ none := fun hr => absurd (hnull.mp hr).1 (by decide)
  refine ⟨h', r, hu, ?_, ?_, ?_⟩
  · rw [hfind hr, if_pos (by decide)]
  · rw [hfind hr, if_pos (by decide)]
  · rw [hfind hr, if_neg (by decide)]
    rfl

/-- A direct update of the target of an alias changes the alias too, and an indirect update of a
key onto its own entry makes the lookup return an entry. -/
theorem update_results_fails : TwoLevel aliasTable ∧
    (∃ h' r, aliasTable.zendAccelHashUpdate 2 (.data 21) = some (h', r) ∧ NoAlias aliasTable 2 ∧
      aliasTable.zendAccelHashFind 1 = some (.data 20) ∧
      h'.zendAccelHashFind 1 = some (.data 21)) ∧
    ∃ h' r, aliasTable.zendAccelHashUpdate 3 (.entry 2) = some (h', r) ∧ NoTarget aliasTable 3 ∧
      aliasTable.Linked 2 ∧ aliasTable.zendAccelHashFind 3 = some (.data 30) ∧
      h'.zendAccelHashFind 3 = some (.entry 2) := by
  refine ⟨twoLevel_aliasTable, ⟨_, _, rfl, ?_, rfl, rfl⟩, _, _, rfl, ?_, ⟨3, .here rfl⟩, rfl, rfl⟩
  · intro i e hl he
    obtain rfl : 0 = i := Option.some.inj hl
    obtain rfl := Option.some.inj he
    rfl
  · intro k hk i hl hf
    obtain rfl : 2 = i := Option.some.inj hl
    obtain ⟨j, hj, -⟩ := Option.bind_eq_some_iff.mp hf
    obtain ⟨hlj, e, he, rfl⟩ := lookup_sound hj
    have hlt : j < 3 := getElem?_lt he
    rcases j with _ | _ | _ | j
    · obtain rfl := Option.some.inj he
      exact absurd hf (by decide)
    · obtain rfl := Option.some.inj he
      exact absurd hf (by decide)
    · obtain rfl := Option.some.inj he
      exact hk rfl
    · omega

end Example

end ZendAccelHash

end ZendOpcache
