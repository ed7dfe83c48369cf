import Mathlib.Data.Int.Notation
import ZendOpcache.Cache.Session

/-! # The count of wasted memory

A script is counted as wasted when it is marked corrupted, once, and the hash lets
go of a script only after that: an update of a full path replaces a corrupted script.
A link of a requested key, though, may turn the entry of a script that is still in
use into an alias, and nobody counts that script.
-/

namespace ZendOpcache

open ZendAccelHash

/-- The memory of the scripts that are marked corrupted -/
def wastedMemory (scripts : List ZendPersistentScript) : ℕ :=
  (scripts.map fun p => if p.corrupted then p.memoryConsumption.toNat else 0).sum

section Sum

variable {scripts : List ZendPersistentScript} {p : ZendPersistentScript} {w : Int32} {n x : ℕ}

@[simp] theorem wastedMemory_nil : wastedMemory [] = 0 := rfl

theorem wastedMemory_append (hp : p.corrupted = false) :
    wastedMemory (scripts ++ [p]) = wastedMemory scripts := by
  simp [wastedMemory, hp]

theorem wastedMemory_modify (hx : scripts[x]? = some p) (hp : p.corrupted = false) :
    wastedMemory (scripts.modify x fun p => { p with corrupted := true, timestamp := 0 }) =
      wastedMemory scripts + p.memoryConsumption.toNat := by
  induction scripts generalizing x with
  | nil => simp at hx
  | cons q scripts ih =>
    cases x with
    | zero =>
      obtain rfl : q = p := by simpa using hx
      simp [wastedMemory, hp, Nat.add_comm]
    | succ x =>
      have hrest := ih (by simpa using hx)
      simp only [wastedMemory, List.modify_succ_cons, List.map_cons, List.sum_cons] at hrest ⊢
      omega

/-- The counter is an `int`, so it is the sum as long as the sum fits there. -/
theorem toInt_eq_iff (h : w.toUInt32.toNat = n % 2 ^ 32) : w.toInt = n ↔ n < 2 ^ 31 := by
  have hw : w.toInt = if 2 * w.toUInt32.toNat < 2 ^ 32 then (w.toUInt32.toNat : ℤ)
      else w.toUInt32.toNat - (2 ^ 32 : ℕ) := BitVec.toInt_eq_toNat_cond _
  rw [hw, h]
  split_ifs <;> omega

theorem toNat_add_memoryConsumption (h : w.toUInt32.toNat = n % 2 ^ 32) (m : UInt32) :
    ((w.toUInt32 + m).toInt32).toUInt32.toNat = (n + m.toNat) % 2 ^ 32 := by
  rw [UInt32.toUInt32_toInt32, UInt32.toNat_add, h]
  omega

end Sum

section Accounting

variable [ZendInlineHash Path]

/-- The table can be read: an alias holds an entry and a direct entry a script. -/
structure Readable (h : ZendAccelHash Path ℕ) : Prop extends WellFormed h where
  linked : ∀ {i}, i < h.numEntries → h.Linked i
  target : ∀ {i : ℕ} {e : ZendAccelHashEntry Path ℕ}, h.hashEntries[i]? = some e →
    e.indirect = true → ∃ j, j < h.numEntries ∧ e.data = .entry j
  value : ∀ {i : ℕ} {e : ZendAccelHashEntry Path ℕ}, h.hashEntries[i]? = some e →
    e.indirect = false → ∃ x, e.data = .data x

/-- A direct entry holds the script. -/
def Holds (h : ZendAccelHash Path ℕ) (x : ℕ) : Prop :=
  ∃ i e, h.Linked i ∧ h.hashEntries[i]? = some e ∧ e.indirect = false ∧ e.data = .data x

section Table

variable {h h' : ZendAccelHash Path ℕ} {k : Path} {i j b c x y : ℕ} {r : Option ℕ}
  {e e' : ZendAccelHashEntry Path ℕ}

theorem readable_init (n : ℕ) : Readable (zendAccelHashInit n) where
  toWellFormed := wellFormed_init n
  linked hi := by simp [zendAccelHashInit, numEntries] at hi
  target h := by simp [zendAccelHashInit] at h
  value h := by simp [zendAccelHashInit] at h

/-- A direct store under a key that is found writes the entry that `find_entry` returns. -/
theorem overwrite_data_of_findEntry (hl : h.lookup k = some i)
    (hf : h.zendAccelHashFindEntry k = some j) (x : ℕ) : h.overwrite i (.data x) =
      { h with hashEntries := h.hashEntries.modify j fun e => { e with data := .data x } } := by
  obtain ⟨e, he⟩ := (lookup_sound hl).1.exists_entry
  cases hi : e.indirect with
  | false =>
    obtain rfl : i = j := Option.some.inj ((findEntry_of_direct hl he hi).symm.trans hf)
    exact overwrite_direct_data he hi
  | true =>
    cases hd : e.data with
    | data d => simp [zendAccelHashFindEntry, hl, he, hi, hd] at hf
    | entry j' =>
      obtain rfl : j' = j := Option.some.inj ((findEntry_of_alias hl he hi hd).symm.trans hf)
      exact overwrite_alias_data he hi hd

theorem Readable.findEntry_isSome (hr : Readable h) (hl : h.lookup k = some i) :
    ∃ j e, h.zendAccelHashFindEntry k = some j ∧ h.hashEntries[j]? = some e := by
  obtain ⟨e, he⟩ := (lookup_sound hl).1.exists_entry
  cases hi : e.indirect with
  | false => exact ⟨i, e, findEntry_of_direct hl he hi, he⟩
  | true =>
    obtain ⟨j, hj, hd⟩ := hr.target he hi
    exact ⟨j, _, findEntry_of_alias hl he hi hd, List.getElem?_eq_getElem hj⟩

theorem Readable.lookup_eq_none (hr : Readable h) (hf : h.zendAccelHashFind k = none) :
    h.lookup k = none := by
  cases hl : h.lookup k with
  | none => rfl
  | some i =>
    obtain ⟨j, e, hj, he⟩ := hr.findEntry_isSome hl
    have hfe := find_eq_findEntry h k
    simp [hf, hj, he] at hfe

/-- A direct update puts its script into the table, and only the script that `find_entry` leads to
may go. -/
theorem Readable.put (hr : Readable h)
    (hd : ∀ j, h.zendAccelHashFindEntry k = some j →
      ∃ e, h.hashEntries[j]? = some e ∧ e.indirect = false)
    (hu : h.updateResolved k (.data x) = (h', r)) (hfull : h.numEntries ≠ h.maxNumEntries) :
    Readable h' ∧ Holds h' x ∧
      (∀ y, Holds h y → Holds h' y ∨ ∃ j e, h.zendAccelHashFindEntry k = some j ∧
        h.hashEntries[j]? = some e ∧ e.data = .data y) ∧
      ∀ i e, h'.hashEntries[i]? = some e → h.zendAccelHashFindEntry k ≠ some i →
        h.hashEntries[i]? = some e ∨ (i = h.numEntries ∧ h.lookup k = none) := by
  have hw := hr.toWellFormed.updateResolved hu
  have hl' : ∀ {i}, i < h'.numEntries → h'.Linked i :=
    hr.toWellFormed.linked_updateResolved hr.linked hu
  rcases updateResolved_cases hu with ⟨i, hl, rfl, -⟩ | ⟨-, hf, -, -⟩ | ⟨hl, -, rfl, -⟩
  · obtain ⟨j, e, hj, he⟩ := hr.findEntry_isSome hl
    obtain ⟨e₀, he₀, hdir⟩ := hd j hj
    obtain rfl := Option.some.inj (he.symm.trans he₀)
    have hes : (h.overwrite i (.data x)).hashEntries =
        h.hashEntries.modify j fun e => { e with data := .data x } := by
      rw [overwrite_data_of_findEntry hl hj]
    have hnum := (sameTable_overwrite h i (.data x)).numEntries_eq
    have hself := getElem?_modify_some (fun e => { e with data := .data x }) he j
    rw [if_pos rfl, ← hes] at hself
    have hother : ∀ {i' : ℕ} {e' : ZendAccelHashEntry Path ℕ}, h.hashEntries[i']? = some e' →
        j ≠ i' → (h.overwrite i (.data x)).hashEntries[i']? = some e' := by
      intro i' e' he' hne
      rw [hes, getElem?_modify_some _ he', if_neg hne]
    refine ⟨⟨hw, hl', ?_, ?_⟩, ⟨j, _, hl' (getElem?_lt hself), hself, hdir, rfl⟩, ?_, ?_⟩
    · intro i' e' he' ha
      rw [hes] at he'
      obtain ⟨e₁, he₁, rfl⟩ := getElem?_modify_cases he'
      split_ifs at ha ⊢ with hji
      · subst hji
        obtain rfl := Option.some.inj (he.symm.trans he₁)
        simp [hdir] at ha
      · rw [hnum]
        exact hr.target he₁ ha
    · intro i' e' he' ha
      rw [hes] at he'
      obtain ⟨e₁, he₁, rfl⟩ := getElem?_modify_cases he'
      split_ifs at ha ⊢
      · exact ⟨x, rfl⟩
      · exact hr.value he₁ ha
    · rintro y ⟨i', e', -, he', hdir', hy⟩
      by_cases hji : j = i'
      · subst hji
        exact .inr ⟨j, e', hj, he', hy⟩
      · have h₁ := hother he' hji
        exact .inl ⟨i', e', hl' (getElem?_lt h₁), h₁, hdir', hy⟩
    · intro i' e' he' hne
      rw [hes] at he'
      obtain ⟨e₁, he₁, rfl⟩ := getElem?_modify_cases he'
      rw [if_neg]
      · exact .inl he₁
      · rintro rfl
        exact hne hj
  · exact absurd hf hfull
  · obtain ⟨e, he, -, hdata, -, -, hi⟩ := getElem?_append_self (h := h) (k := k) (v := .data x)
    have hcase : ∀ {i : ℕ} {e' : ZendAccelHashEntry Path ℕ},
        (h.append k (.data x)).hashEntries[i]? = some e' →
        h.hashEntries[i]? = some e' ∨ (i = h.numEntries ∧ e' = e) := by
      intro i e' he'
      refine (getElem?_append_cases he').imp_right fun hnew => ⟨hnew.1, ?_⟩
      rw [hnew.1] at he'
      exact Option.some.inj (he'.symm.trans he)
    refine ⟨⟨hw, hl', ?_, ?_⟩, ⟨_, e, hl' (getElem?_lt he), he, hi, hdata⟩, ?_, ?_⟩
    · intro i' e' he' ha
      rcases hcase he' with he' | ⟨-, rfl⟩
      · obtain ⟨j, hj, hd⟩ := hr.target he' ha
        exact ⟨j, by rw [numEntries_append]; omega, hd⟩
      · simp [hi] at ha
    · intro i' e' he' ha
      rcases hcase he' with he' | ⟨-, rfl⟩
      · exact hr.value he' ha
      · exact ⟨x, hdata⟩
    · rintro y ⟨i', e', -, he', hdir', hy⟩
      have h₁ := (getElem?_append_lt (k := k) (v := .data x) (getElem?_lt he')).trans he'
      exact .inl ⟨i', e', hl' (getElem?_lt h₁), h₁, hdir', hy⟩
    · intro i' e' he' _
      exact (hcase he').imp_right fun hnew => ⟨hnew.1, hl⟩

/-- An indirect update only lets go of the script that its key held itself. -/
theorem Readable.relink (hr : Readable h) (hc : c < h.numEntries)
    (hu : h.updateResolved k (.entry c) = (h', r)) :
    Readable h' ∧ ∀ y, Holds h y → Holds h' y ∨ ∃ i e, h.lookup k = some i ∧
      h.hashEntries[i]? = some e ∧ e.indirect = false ∧ e.data = .data y := by
  have hw := hr.toWellFormed.updateResolved hu
  have hl' : ∀ {i}, i < h'.numEntries → h'.Linked i :=
    hr.toWellFormed.linked_updateResolved hr.linked hu
  have hle := numEntries_updateResolved_le hu
  rcases updateResolved_cases hu with ⟨i, hl, rfl, -⟩ | ⟨-, -, rfl, -⟩ | ⟨hl, -, rfl, -⟩
  · obtain ⟨e, he⟩ := (lookup_sound hl).1.exists_entry
    obtain ⟨f, hf, hfa, hfd⟩ := exists_overwrite_entry he c
    have hcase : ∀ {i' : ℕ} {e' : ZendAccelHashEntry Path ℕ},
        (h.overwrite i (.entry c)).hashEntries[i']? = some e' →
        (e'.indirect = true ∧ e'.data = .entry c) ∨ h.hashEntries[i']? = some e' := by
      intro i' e' he'
      rw [hf] at he'
      obtain ⟨e₁, he₁, rfl⟩ := getElem?_modify_cases he'
      split_ifs with hii
      · subst hii
        obtain rfl := Option.some.inj (he.symm.trans he₁)
        exact .inl ⟨hfa, hfd⟩
      · exact .inr he₁
    refine ⟨⟨hw, hl', ?_, ?_⟩, ?_⟩
    · intro i' e' he' ha
      rcases hcase he' with ⟨-, hd⟩ | he'
      · exact ⟨c, hc.trans_le hle, hd⟩
      · obtain ⟨j, hj, hd⟩ := hr.target he' ha
        exact ⟨j, hj.trans_le hle, hd⟩
    · intro i' e' he' ha
      rcases hcase he' with ⟨ha', -⟩ | he'
      · simp [ha] at ha'
      · exact hr.value he' ha
    · rintro y ⟨i', e', -, he', hdir, hy⟩
      by_cases hii : i = i'
      · subst hii
        exact .inr ⟨i, e', hl, he', hdir, hy⟩
      · have h₁ : (h.overwrite i (.entry c)).hashEntries[i']? = some e' := by
          rw [hf, getElem?_modify_some _ he', if_neg hii]
        exact .inl ⟨i', e', hl' (getElem?_lt h₁), h₁, hdir, hy⟩
  · exact ⟨hr, fun y hy => .inl hy⟩
  · obtain ⟨e, he, -, hdata, -, -, hi⟩ := getElem?_append_self (h := h) (k := k) (v := .entry c)
    have hcase : ∀ {i : ℕ} {e' : ZendAccelHashEntry Path ℕ},
        (h.append k (.entry c)).hashEntries[i]? = some e' →
        h.hashEntries[i]? = some e' ∨ e' = e := by
      intro i e' he'
      refine (getElem?_append_cases he').imp_right fun hnew => ?_
      rw [hnew.1] at he'
      exact Option.some.inj (he'.symm.trans he)
    refine ⟨⟨hw, hl', ?_, ?_⟩, ?_⟩
    · intro i' e' he' ha
      rcases hcase he' with he' | rfl
      · obtain ⟨j, hj, hd⟩ := hr.target he' ha
        exact ⟨j, hj.trans_le hle, hd⟩
      · exact ⟨c, hc.trans_le hle, hdata⟩
    · intro i' e' he' ha
      rcases hcase he' with he' | rfl
      · exact hr.value he' ha
      · simp [hi] at ha
    · rintro y ⟨i', e', -, he', hdir, hy⟩
      have h₁ := (getElem?_append_lt (k := k) (v := .entry c) (getElem?_lt he')).trans he'
      exact .inl ⟨i', e', hl' (getElem?_lt h₁), h₁, hdir, hy⟩

end Table

/-- The counter agrees with the scripts, and the table still has every script that is not
counted. -/
structure Accounted (s : ScriptCache) : Prop where
  table : Readable s.hash
  live : ∀ {x p}, s.scripts[x]? = some p → p.corrupted = false → Holds s.hash x
  counted : s.wastedSharedMemory.toUInt32.toNat = wastedMemory s.scripts % 2 ^ 32

namespace ScriptCache

variable {s t : ScriptCache} {r : CacheRequest} {out : List Report} {key : Path} {b x : ℕ}
  {p : ZendPersistentScript}

/-- The requested key has no direct entry, or that of a counted script which is not the one being
stored into. -/
def KeyFree (s : ScriptCache) (r : CacheRequest) : Prop :=
  ∀ i e, s.hash.lookup r.key = some i → s.hash.hashEntries[i]? = some e → e.indirect = false →
    s.hash.zendAccelHashFindEntry r.script.fullPath ≠ some i ∧
      ∃ p, s.bucketScript i = some p ∧ p.corrupted = true

omit [ZendInlineHash Path] in
theorem bucketScript_eq_some (h : s.bucketScript b = some p) :
    ∃ e x, s.hash.hashEntries[b]? = some e ∧ e.data = .data x ∧ s.scripts[x]? = some p := by
  obtain ⟨e, he, h⟩ := Option.bind_eq_some_iff.mp h
  cases hd : e.data with
  | data x => exact ⟨e, x, he, hd, by simpa [hd] using h⟩
  | entry j => simp [hd] at h

theorem wasted_zendAccelAddKey {keyAllocated : Bool}
    (h : s.zendAccelAddKey key b keyAllocated = some (t, out)) :
    t.wastedSharedMemory = s.wastedSharedMemory ∧ t.scripts = s.scripts := by
  unfold zendAccelAddKey at h
  split_ifs at h
  · obtain ⟨rfl, -⟩ := Prod.mk.inj (Option.some.inj h)
    exact ⟨rfl, rfl⟩
  · obtain ⟨⟨h', r⟩, -, h⟩ := Option.map_eq_some_iff.mp h
    obtain ⟨rfl, -⟩ := Prod.mk.inj h
    exact ⟨rfl, rfl⟩
  · obtain ⟨rfl, -⟩ := Prod.mk.inj (Option.some.inj h)
    exact ⟨rfl, rfl⟩
  · obtain ⟨rfl, -⟩ := Prod.mk.inj (Option.some.inj h)
    exact ⟨rfl, rfl⟩

/-- A call only stores over a script that is marked corrupted. -/
theorem Stores.existing_corrupted (h : s.Stores r) {j : ℕ}
    (hj : s.hash.zendAccelHashFindEntry r.script.fullPath = some j) :
    ∃ p, s.bucketScript j = some p ∧ p.corrupted = true := by
  have hnone := h.2.2.1
  rw [findUncorrupted, hj, Option.filter_eq_none_iff] at hnone
  have hall := hnone j rfl
  cases hp : s.bucketScript j with
  | none => simp [hp] at hall
  | some p => exact ⟨p, rfl, by simpa [hp] using hall⟩

end ScriptCache

namespace Accounted

variable {s t : ScriptCache} {r : CacheRequest} {out : List Report} {key : Path} {b x : ℕ}

theorem init (n : ℕ) : Accounted (.init n) where
  table := readable_init n
  live hx := by simp [ScriptCache.init] at hx
  counted := rfl

theorem markCorrupted (ha : Accounted s) (x : ℕ) : Accounted (s.markCorrupted x).1 := by
  cases hx : s.scripts[x]? with
  | none => simpa [ScriptCache.markCorrupted, hx] using ha
  | some p =>
    cases hc : p.corrupted with
    | true => simpa [ScriptCache.markCorrupted, hx, hc] using ha
    | false =>
      constructor
      · rw [ScriptCache.markCorrupted_hash]
        exact ha.table
      · intro y q hy hq
        rw [ScriptCache.markCorrupted_hash]
        simp only [ScriptCache.markCorrupted, hx, hc, Bool.false_eq_true, if_false,
          List.getElem?_modify] at hy
        obtain ⟨q₀, hq₀, rfl⟩ := Option.map_eq_some_iff.mp hy
        split_ifs at hq
        exact ha.live hq₀ hq
      · simp only [ScriptCache.markCorrupted, hx, hc, Bool.false_eq_true, if_false]
        rw [wastedMemory_modify hx hc]
        exact toNat_add_memoryConsumption ha.counted _

/-- A key is added only if it is absent, so no script goes. -/
theorem zendAccelAddKey (ha : Accounted s) {keyAllocated : Bool}
    (h : s.zendAccelAddKey key b keyAllocated = some (t, out)) : Accounted t := by
  obtain ⟨hwasted, hscripts⟩ := ScriptCache.wasted_zendAccelAddKey h
  unfold ScriptCache.zendAccelAddKey at h
  split_ifs at h with hf
  · obtain ⟨rfl, -⟩ := Prod.mk.inj (Option.some.inj h)
    exact ⟨ha.table, ha.live, ha.counted⟩
  · obtain ⟨⟨h', r⟩, hu, h⟩ := Option.map_eq_some_iff.mp h
    obtain ⟨rfl, -⟩ := Prod.mk.inj h
    obtain ⟨c, hc, hu⟩ := Option.map_eq_some_iff.mp hu
    obtain ⟨e, he, -⟩ := followIndirect_sound hc
    obtain ⟨htable, hheld⟩ := ha.table.relink (getElem?_lt he) hu
    refine ⟨htable, fun hx hp => (hheld _ (ha.live hx hp)).resolve_right ?_, ha.counted⟩
    rintro ⟨i, -, hl, -⟩
    rw [ha.table.lookup_eq_none (by simpa using hf)] at hl
    simp at hl
  · obtain ⟨rfl, -⟩ := Prod.mk.inj (Option.some.inj h)
    exact ha
  · obtain ⟨rfl, -⟩ := Prod.mk.inj (Option.some.inj h)
    exact ha

theorem existing_direct (ha : Accounted s) (hst : s.Stores r) {j : ℕ}
    (hj : s.hash.zendAccelHashFindEntry r.script.fullPath = some j) :
    ∃ e, s.hash.hashEntries[j]? = some e ∧ e.indirect = false := by
  obtain ⟨p, hp, -⟩ := hst.existing_corrupted hj
  obtain ⟨e, x, he, hd, -⟩ := ScriptCache.bucketScript_eq_some hp
  refine ⟨e, he, Bool.eq_false_iff.mpr fun hi => ?_⟩
  obtain ⟨j', -, hd'⟩ := ha.table.target he hi
  simp [hd] at hd'

section Store

variable {h₁ h₂ : ZendAccelHash Path ℕ} {r₁ r₂ : Option ℕ} {p : ZendPersistentScript} {c : ℕ}

/-- Storing a new script: the one that it replaces is counted. -/
theorem store (ha : Accounted s) (hst : s.Stores r) (hp : p.corrupted = false)
    (hu : s.hash.updateResolved r.script.fullPath (.data s.scripts.length) = (h₁, r₁)) :
    Accounted { s with hash := h₁, scripts := s.scripts ++ [p] } := by
  have hfull : s.hash.numEntries ≠ s.hash.maxNumEntries := by
    simpa [zendAccelHashIsFull] using hst.2.1
  obtain ⟨htable, hself, hheld, -⟩ := ha.table.put (fun _ => ha.existing_direct hst) hu hfull
  refine ⟨htable, fun {x q} hx hq => ?_, ?_⟩
  · rcases Nat.lt_or_ge x s.scripts.length with hlt | hge
    · rw [List.getElem?_append_left hlt] at hx
      apply (hheld x (ha.live hx hq)).resolve_right
      rintro ⟨j, e, hj, he, hd⟩
      obtain ⟨q', hq', hc⟩ := hst.existing_corrupted hj
      obtain ⟨e', y, he', hd', hy⟩ := ScriptCache.bucketScript_eq_some hq'
      obtain rfl := Option.some.inj (he.symm.trans he')
      obtain rfl := VoidPtr.data.inj (hd.symm.trans hd')
      obtain rfl := Option.some.inj (hx.symm.trans hy)
      simp [hq] at hc
    · have hlen := (List.getElem?_eq_some_iff.mp hx).1
      rw [List.length_append, List.length_singleton] at hlen
      obtain rfl : x = s.scripts.length := by omega
      exact hself
  · change _ = wastedMemory (s.scripts ++ [p]) % 2 ^ 32
    rw [wastedMemory_append hp]
    exact ha.counted

/-- After the store, a direct entry of the requested key is an old one, of a counted script. -/
theorem keyFree_store (ha : Accounted s) (hst : s.Stores r) (hkey : s.KeyFree r)
    (hne : r.key ≠ r.script.fullPath)
    (hu : s.hash.updateResolved r.script.fullPath (.data s.scripts.length) = (h₁, r₁)) {i : ℕ}
    {e : ZendAccelHashEntry Path ℕ} (hl : h₁.lookup r.key = some i)
    (he : h₁.hashEntries[i]? = some e) (hd : e.indirect = false) :
    ∃ p, s.bucketScript i = some p ∧ p.corrupted = true ∧ s.hash.hashEntries[i]? = some e := by
  have hfull : s.hash.numEntries ≠ s.hash.maxNumEntries := by
    simpa [zendAccelHashIsFull] using hst.2.1
  obtain ⟨-, -, -, hold⟩ := ha.table.put (fun _ => ha.existing_direct hst) hu hfull
  have hl₀ := ha.table.toWellFormed.lookup_of_updateResolved hu hne hl
  obtain ⟨e₀, he₀⟩ := (lookup_sound hl₀).1.exists_entry
  have hother : s.hash.zendAccelHashFindEntry r.script.fullPath ≠ some i := by
    intro hj
    obtain ⟨e₁, he₁, hd₁⟩ := ha.existing_direct hst hj
    exact (hkey i e₁ hl₀ he₁ hd₁).1 hj
  rcases hold i e he hother with he' | ⟨rfl, -⟩
  · obtain ⟨-, p, hp, hc⟩ := hkey i e hl₀ he' hd
    exact ⟨p, hp, hc, he'⟩
  · exact absurd (getElem?_lt he₀) (lt_irrefl _)

/-- Linking the requested key lets go of no script that is still in use. -/
theorem link (h₁' : Accounted { s with hash := h₁, scripts := s.scripts ++ [p] })
    (hfree : ∀ i e, h₁.lookup key = some i → h₁.hashEntries[i]? = some e → e.indirect = false →
      ∃ q, s.bucketScript i = some q ∧ q.corrupted = true ∧ s.hash.hashEntries[i]? = some e)
    (hc : c < h₁.numEntries) (hu : h₁.updateResolved key (.entry c) = (h₂, r₂)) :
    Accounted { s with hash := h₂, scripts := s.scripts ++ [p] } := by
  obtain ⟨htable, hheld⟩ := h₁'.table.relink hc hu
  refine ⟨htable, fun {x q} hx hq => ?_, h₁'.counted⟩
  apply (hheld x (h₁'.live hx hq)).resolve_right
  rintro ⟨i, e, hl, he, hd, hx'⟩
  obtain ⟨q', hq', hcor, he'⟩ := hfree i e hl he hd
  obtain ⟨e', y, he'', hd', hy⟩ := ScriptCache.bucketScript_eq_some hq'
  obtain rfl := Option.some.inj (he'.symm.trans he'')
  obtain rfl := VoidPtr.data.inj (hx'.symm.trans hd')
  rw [List.getElem?_append_left (List.getElem?_eq_some_iff.mp hy).1] at hx
  obtain rfl := Option.some.inj (hx.symm.trans hy)
  simp [hq] at hcor

end Store

theorem storeScript (ha : Accounted s) (hst : s.Stores r) (hnew : r.script.corrupted = false)
    (hkey : r.linksKey = true → s.KeyFree r) (h : s.storeScript r = some (t, out)) :
    Accounted t := by
  unfold ScriptCache.storeScript at h
  rcases hu : s.hash.updateResolved r.script.fullPath (.data s.scripts.length) with ⟨h₁, r₁⟩
  simp only [zendAccelHashUpdate, hu] at h
  have h₁' := ha.store hst
    (p := { r.script with memoryConsumption := blockSize r.memoryUsed.toUInt64 }) hnew hu
  cases r₁ with
  | none =>
    obtain ⟨rfl, -⟩ := Prod.mk.inj (Option.some.inj h)
    exact h₁'
  | some b =>
    split_ifs at h with hlink
    · have hne : r.key ≠ r.script.fullPath := by
        simp only [CacheRequest.linksKey, Bool.and_eq_true, bne_iff_ne, ne_eq] at hlink
        exact fun h => hlink.2 h.symm
      cases hc : followIndirect h₁.hashEntries (h₁.numEntries + 1) b with
      | none => simp [hc] at h
      | some c =>
        rcases hu₂ : h₁.updateResolved r.key (.entry c) with ⟨h₂, r₂⟩
        simp only [hc, Option.map_some, hu₂] at h
        obtain ⟨e, he, -⟩ := followIndirect_sound hc
        have ht := h₁'.link
          (fun _ _ hl he hd => ha.keyFree_store hst (hkey hlink) hne hu hl he hd)
          (getElem?_lt he) hu₂
        cases r₂ with
        | some _ =>
          obtain ⟨rfl, -⟩ := Prod.mk.inj (Option.some.inj h)
          exact ht
        | none =>
          obtain ⟨rfl, -⟩ := Prod.mk.inj (Option.some.inj h)
          exact ⟨ht.table, ht.live, ht.counted⟩
    · obtain ⟨rfl, -⟩ := Prod.mk.inj (Option.some.inj h)
      exact h₁'

theorem cacheScriptInSharedMemory (ha : Accounted s) (hnew : r.script.corrupted = false)
    (hkey : s.Stores r → r.linksKey = true → s.KeyFree r)
    (h : s.cacheScriptInSharedMemory r = some (t, out)) : Accounted t := by
  rcases ScriptCache.cacheScriptInSharedMemory_cases h with
    ⟨hh, hs, hw, -⟩ | ⟨hst, h⟩ | ⟨b, -, h⟩
  · constructor
    · rw [hh]
      exact ha.table
    · rw [hh, hs]
      exact ha.live
    · rw [hw, hs]
      exact ha.counted
  · exact ha.storeScript hst hnew (hkey hst) h
  · exact ha.zendAccelAddKey h

end Accounted

namespace CacheSession

variable {π : Type*} [DecidableEq π] {s t : CacheSession π}

/-- A compiled script is not corrupted, and a link does not turn the entry of a script that is
still in use into an alias. -/
def Counts (s : CacheSession π) : CacheCall π → Prop
  | .cache r => r.script.corrupted = false ∧
    (s.cache.Stores r → r.linksKey = true → s.cache.KeyFree r)
  | _ => True

theorem accounted_step (ha : Accounted s.cache) {a : CacheCall π} (hg : s.Counts a)
    (h : Step s a t) : Accounted t.cache := by
  cases a with
  | cache r =>
    obtain ⟨⟨c, out⟩, hc, rfl⟩ := Option.map_eq_some_iff.mp h
    exact ha.cacheScriptInSharedMemory hg.1 hg.2 hc
  | find p path =>
    simp only [Step, call] at h
    split at h
    · obtain rfl := Option.some.inj h
      exact ha
    · obtain ⟨_, -, rfl⟩ := Option.map_eq_some_iff.mp h
      exact ha
  | addKey p key keyAllocated =>
    simp only [Step, call] at h
    split at h
    · simp at h
    · obtain ⟨⟨c, out⟩, hc, rfl⟩ := Option.map_eq_some_iff.mp h
      exact ha.zendAccelAddKey hc
  | corrupt x =>
    obtain rfl := Option.some.inj h
    exact ha.markCorrupted x

/-- In every run in which no link takes the entry of a script in use, the counter is the memory of
all scripts that are marked corrupted, as long as that fits an `int`, and a script that the table
no longer holds is one of them. -/
theorem wasted_of_run {n : ℕ} {w : List (CacheCall π)}
    (h : GuardedRun Step Counts (init n) w s) :
    (s.cache.wastedSharedMemory.toInt = wastedMemory s.cache.scripts ↔
      wastedMemory s.cache.scripts < 2 ^ 31) ∧
    ∀ x p, s.cache.scripts[x]? = some p → ¬ Holds s.cache.hash x → p.corrupted = true := by
  have ha : Accounted s.cache := by
    induction h with
    | nil => exact Accounted.init n
    | snoc _ hg hs ih => exact accounted_step ih hg hs
  refine ⟨toInt_eq_iff ha.counted, fun x p hx hno => ?_⟩
  by_contra hc
  exact hno (ha.live hx (by simpa using hc))

end CacheSession

end Accounting

namespace CacheSession

section

local instance : ZendInlineHash Path := timesThirtyThree

/-- A script is cached, corrupted and cached anew. -/
theorem wasted_of_run_recached : ∃ s : CacheSession Unit,
    GuardedRun Step Counts (init 5) [.cache (request pathA pathA 1), .corrupt 0,
      .cache (request pathA pathA 2)] s ∧
    s.cache.wastedSharedMemory.toInt = wastedMemory s.cache.scripts ∧
    wastedMemory s.cache.scripts = 1024 := by
  let s₁ : CacheSession Unit := ((init 5).call (.cache (request pathA pathA 1))).get (by decide)
  let s₂ : CacheSession Unit := (s₁.call (.corrupt 0)).get (by decide)
  let s₃ : CacheSession Unit := (s₂.call (.cache (request pathA pathA 2))).get (by decide)
  have h₁ : Step (init 5) (.cache (request pathA pathA 1)) s₁ := (Option.some_get _).symm
  have h₂ : Step s₁ (.corrupt 0) s₂ := (Option.some_get _).symm
  have h₃ : Step s₂ (.cache (request pathA pathA 2)) s₃ := (Option.some_get _).symm
  have hg : ∀ (s : CacheSession Unit) (n : ℕ), s.Counts (.cache (request pathA pathA n)) :=
    fun _ _ => ⟨rfl, fun _ hlink => absurd hlink (by simp [CacheRequest.linksKey, request])⟩
  have hg₂ : s₁.Counts (.corrupt 0) := trivial
  have hr := ((GuardedRun.single (hg _ 1) h₁).snoc hg₂ h₂).snoc (hg _ 2) h₃
  exact ⟨s₃, hr, (wasted_of_run hr).1.mpr (by decide), by decide⟩

/-- A request for `/A` finds nothing and opens a link to `/B`; meanwhile `/A` becomes a file of its
own and is cached. The script of `/B` is stored and `/A` is linked to it. -/
def droppedCalls : List (CacheCall Unit) :=
  [.cache (request pathA pathA 1), .cache (request pathB pathA 1)]

/-- The table lets go of a script that is neither corrupted nor counted. -/
theorem wasted_fails : ∃ s : CacheSession Unit, Run Step (init 5) droppedCalls s ∧
    (∃ p, s.cache.scripts[0]? = some p ∧ p.corrupted = false) ∧ ¬ Holds s.cache.hash 0 ∧
    s.cache.wastedSharedMemory = 0 := by
  let s₁ : CacheSession Unit := (droppedCalls.foldlM call (init 5)).get (by decide)
  have hr : Run Step (init 5) droppedCalls s₁ := GuardedRun.of_foldlM (Option.some_get _).symm
  refine ⟨s₁, hr, ⟨_, rfl, rfl⟩, ?_, rfl⟩
  rintro ⟨i, e, -, he, hd, hx⟩
  have hlt : i < 2 := getElem?_lt he
  rcases i with _ | _ | i
  · obtain rfl := Option.some.inj he
    simp at hd
  · obtain rfl := Option.some.inj he
    simp at hx
  · omega

end

end CacheSession

end ZendOpcache
