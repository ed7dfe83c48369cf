import Mathlib.Data.List.Perm.Subperm
import Mathlib.Tactic.Common
import ZendOpcache.Hash.WellFormed
import ZendOpcache.Transition.Run

/-! # Indirect entries

Readers follow one level of indirection. The table keeps that level as long as
no indirect store turns a direct entry into an alias while other aliases, or the
new target itself, still lead to it. Such a store is possible, and then lookups
return entry pointers and the chain of an entry may never end.
-/

namespace ZendOpcache

namespace ZendAccelHash

variable {κ δ : Type*}
variable {h : ZendAccelHash κ δ} {k : κ} {i j b c : ℕ} {e : ZendAccelHashEntry κ δ}

/-- Every alias leads to a direct entry, and every direct entry holds a value. -/
structure OneLevel (h : ZendAccelHash κ δ) : Prop where
  target : ∀ {i : ℕ} {e : ZendAccelHashEntry κ δ}, h.hashEntries[i]? = some e →
    e.indirect = true → ∃ j e', e.data = .entry j ∧ h.hashEntries[j]? = some e' ∧
      e'.indirect = false
  value : ∀ {i : ℕ} {e : ZendAccelHashEntry κ δ}, h.hashEntries[i]? = some e →
    e.indirect = false → ∃ d, e.data = .data d

/-- An indirect store of `k` onto the entry `b` turns no direct entry into an alias to which
another alias leads or at which the chain of `b` ends. -/
def SafeLink [ZendInlineHash κ] [DecidableEq κ] (h : ZendAccelHash κ δ) (k : κ) (b : ℕ) : Prop :=
  ∀ (i : ℕ) (e : ZendAccelHashEntry κ δ), h.lookup k = some i → h.hashEntries[i]? = some e →
    e.indirect = false → followIndirect h.hashEntries (h.numEntries + 1) b ≠ some i ∧
      ∀ (j : ℕ) (e' : ZendAccelHashEntry κ δ), h.hashEntries[j]? = some e' →
        e'.indirect = true → e'.data ≠ .entry i

theorem safeLink_of_lookup_none [ZendInlineHash κ] [DecidableEq κ] (hl : h.lookup k = none) :
    SafeLink h k b :=
  fun _ _ hi => by simp [hl] at hi

theorem getElem?_modify_cases {es : List (ZendAccelHashEntry κ δ)}
    {f : ZendAccelHashEntry κ δ → ZendAccelHashEntry κ δ} (h : (es.modify i f)[j]? = some e) :
    ∃ e₀, es[j]? = some e₀ ∧ e = if i = j then f e₀ else e₀ := by
  rw [List.getElem?_modify] at h
  cases he : es[j]? with
  | none => simp [he] at h
  | some e₀ => exact ⟨e₀, rfl, by simpa [he] using h.symm⟩

theorem getElem?_modify_some {es : List (ZendAccelHashEntry κ δ)}
    (f : ZendAccelHashEntry κ δ → ZendAccelHashEntry κ δ) (he : es[j]? = some e) (i : ℕ) :
    (es.modify i f)[j]? = some (if i = j then f e else e) := by
  simp [List.getElem?_modify, he]

section Overwrite

variable {d : δ}

theorem overwrite_none {v : VoidPtr δ} (he : h.hashEntries[i]? = none) : h.overwrite i v = h := by
  simp [overwrite, he]

theorem overwrite_direct_data (he : h.hashEntries[i]? = some e) (hd : e.indirect = false) :
    h.overwrite i (.data d) =
      { h with hashEntries := h.hashEntries.modify i fun e => { e with data := .data d } } := by
  simp [overwrite, he, hd]

theorem overwrite_alias_data (he : h.hashEntries[i]? = some e) (ha : e.indirect = true)
    (hj : e.data = .entry j) : h.overwrite i (.data d) =
      { h with hashEntries := h.hashEntries.modify j fun e => { e with data := .data d } } := by
  simp [overwrite, he, ha, hj]

theorem overwrite_direct_entry (he : h.hashEntries[i]? = some e) (hd : e.indirect = false) :
    h.overwrite i (.entry c) =
      { h with
        hashEntries := h.hashEntries.modify i fun e =>
          { e with data := .entry c, indirect := true }
        numDirectEntries := h.numDirectEntries - 1 } := by
  simp [overwrite, he, hd]

theorem overwrite_alias_entry (he : h.hashEntries[i]? = some e) (ha : e.indirect = true) :
    h.overwrite i (.entry c) =
      { h with hashEntries := h.hashEntries.modify i fun e => { e with data := .entry c } } := by
  simp [overwrite, he, ha]

/-- An entry that is pointed at another one is an alias of it. -/
theorem exists_overwrite_entry (he : h.hashEntries[i]? = some e) (c : ℕ) :
    ∃ f : ZendAccelHashEntry κ δ → ZendAccelHashEntry κ δ,
      (h.overwrite i (.entry c)).hashEntries = h.hashEntries.modify i f ∧
        (f e).indirect = true ∧ (f e).data = .entry c := by
  cases hi : e.indirect with
  | false => exact ⟨_, by rw [overwrite_direct_entry he hi], rfl, rfl⟩
  | true => exact ⟨_, by rw [overwrite_alias_entry he hi], hi, rfl⟩

end Overwrite

section Follow

variable {es : List (ZendAccelHashEntry κ δ)} {n : ℕ}

theorem followIndirect_direct (he : es[i]? = some e) (hd : e.indirect = false) :
    followIndirect es (n + 1) i = some i := by
  simp [followIndirect, he, hd]

theorem followIndirect_alias (he : es[i]? = some e) (ha : e.indirect = true)
    (hj : e.data = .entry j) : followIndirect es (n + 1) i = followIndirect es n j := by
  simp [followIndirect, he, ha, hj]

/-- A followed chain ends at a direct entry. -/
theorem followIndirect_sound (hf : followIndirect es n b = some c) :
    ∃ e : ZendAccelHashEntry κ δ, es[c]? = some e ∧ e.indirect = false := by
  induction n generalizing b with
  | zero => simp [followIndirect] at hf
  | succ n ih =>
    cases he : es[b]? with
    | none => simp [followIndirect, he] at hf
    | some e =>
      cases hi : e.indirect with
      | false =>
        rw [followIndirect_direct he hi, Option.some.injEq] at hf
        exact ⟨e, hf ▸ he, hi⟩
      | true =>
        cases hd : e.data with
        | data d => simp [followIndirect, he, hi, hd] at hf
        | entry j => exact ih (followIndirect_alias he hi hd ▸ hf)

/-- The entries a finished walk goes through. -/
inductive FollowPath (es : List (ZendAccelHashEntry κ δ)) : ℕ → List ℕ → ℕ → Prop where
  | stop {i : ℕ} {e : ZendAccelHashEntry κ δ} : es[i]? = some e → e.indirect = false →
      FollowPath es i [i] i
  | step {i j c : ℕ} {l : List ℕ} {e : ZendAccelHashEntry κ δ} : es[i]? = some e →
      e.indirect = true → e.data = .entry j → FollowPath es j l c → FollowPath es i (i :: l) c

theorem FollowPath.lt_length {l : List ℕ} (h : FollowPath es b l c) :
    ∀ i ∈ l, i < es.length := by
  induction h with
  | stop he _ => simpa using (List.getElem?_eq_some_iff.mp he).1
  | step he _ _ _ ih => simpa using ⟨(List.getElem?_eq_some_iff.mp he).1, ih⟩

theorem FollowPath.suffix {l : List ℕ} (h : FollowPath es b l c) (hi : i ∈ l) :
    ∃ l', l' <:+ l ∧ FollowPath es i l' c := by
  induction h with
  | stop he hd =>
    obtain rfl := List.mem_singleton.mp hi
    exact ⟨_, List.suffix_refl _, .stop he hd⟩
  | step he ha hj hp ih =>
    rcases List.mem_cons.mp hi with rfl | hi
    · exact ⟨_, List.suffix_refl _, .step he ha hj hp⟩
    · obtain ⟨l', hl, hp'⟩ := ih hi
      exact ⟨l', hl.trans (List.suffix_cons _ _), hp'⟩

/-- A finished walk has a path that repeats no entry: cut it at the last visit of each. -/
theorem exists_nodup_followPath (hf : followIndirect es n b = some c) :
    ∃ l, FollowPath es b l c ∧ l.Nodup := by
  induction n generalizing b with
  | zero => simp [followIndirect] at hf
  | succ n ih =>
    cases he : es[b]? with
    | none => simp [followIndirect, he] at hf
    | some e =>
      cases hi : e.indirect with
      | false =>
        rw [followIndirect_direct he hi, Option.some.injEq] at hf
        subst hf
        exact ⟨[b], .stop he hi, by simp⟩
      | true =>
        cases hd : e.data with
        | data d => simp [followIndirect, he, hi, hd] at hf
        | entry j =>
          obtain ⟨l, hl, hn⟩ := ih (followIndirect_alias he hi hd ▸ hf)
          by_cases hb : b ∈ l
          · obtain ⟨l', hs, hl'⟩ := hl.suffix hb
            exact ⟨l', hl', hn.sublist hs.sublist⟩
          · exact ⟨b :: l, .step he hi hd hl, List.nodup_cons.mpr ⟨hb, hn⟩⟩

theorem FollowPath.followIndirect {l : List ℕ} (h : FollowPath es b l c) (hn : l.length ≤ n) :
    followIndirect es n b = some c := by
  induction h generalizing n with
  | stop he hd =>
    obtain ⟨m, rfl⟩ : ∃ m, n = m + 1 := ⟨n - 1, by simp at hn; omega⟩
    exact followIndirect_direct he hd
  | step he ha hj _ ih =>
    obtain ⟨m, rfl⟩ : ∃ m, n = m + 1 := ⟨n - 1, by simp at hn; omega⟩
    rw [followIndirect_alias he ha hj]
    exact ih (by simpa using hn)

/-- The fuel of the update is enough: a walk it does not finish never ends. -/
theorem followIndirect_never (hf : followIndirect h.hashEntries (h.numEntries + 1) b = none)
    (n : ℕ) : followIndirect h.hashEntries n b = none := by
  cases hc : followIndirect h.hashEntries n b with
  | none => rfl
  | some c =>
    obtain ⟨l, hl, hnd⟩ := exists_nodup_followPath hc
    have hlen : l.length ≤ h.numEntries := by
      have hs := (List.subperm_of_subset hnd fun i hi =>
        List.mem_range.mpr (hl.lt_length i hi)).length_le
      simpa [numEntries] using hs
    rw [hl.followIndirect (by omega)] at hf
    simp at hf

end Follow

theorem oneLevel_init (n : ℕ) : OneLevel (zendAccelHashInit n : ZendAccelHash κ δ) where
  target h := by simp [zendAccelHashInit] at h
  value h := by simp [zendAccelHashInit] at h

/-- With one level of indirection the chain of every entry ends. -/
theorem OneLevel.followIndirect_ends (ho : OneLevel h) (hb : b < h.numEntries) :
    ∃ c, followIndirect h.hashEntries (h.numEntries + 1) b = some c := by
  obtain ⟨n, hn⟩ : ∃ n, h.numEntries = n + 1 := ⟨h.numEntries - 1, by omega⟩
  obtain ⟨e, he⟩ : ∃ e, h.hashEntries[b]? = some e := ⟨_, List.getElem?_eq_getElem hb⟩
  cases hi : e.indirect with
  | false => exact ⟨b, followIndirect_direct he hi⟩
  | true =>
    obtain ⟨j, e', hj, he', hd⟩ := ho.target he hi
    refine ⟨j, ?_⟩
    rw [followIndirect_alias he hi hj, hn]
    exact followIndirect_direct he' hd

/-- Readers get a value of the caller, never an entry pointer. -/
theorem OneLevel.find_data [ZendInlineHash κ] [DecidableEq κ] (ho : OneLevel h) {x : VoidPtr δ}
    (hf : h.zendAccelHashFind k = some x) : ∃ d, x = .data d := by
  obtain ⟨i, -, hf⟩ := Option.bind_eq_some_iff.mp hf
  obtain ⟨e, he, hf⟩ := Option.bind_eq_some_iff.mp hf
  cases hi : e.indirect with
  | false =>
    obtain ⟨d, hd⟩ := ho.value he hi
    exact ⟨d, by simpa [hi, hd] using hf.symm⟩
  | true =>
    obtain ⟨j, e', hj, he', hd⟩ := ho.target he hi
    obtain ⟨d, hd⟩ := ho.value he' hd
    exact ⟨d, by simpa [hi, hj, deref, he', hd] using hf.symm⟩

theorem OneLevel.findEntry_direct [ZendInlineHash κ] [DecidableEq κ] (ho : OneLevel h)
    (hf : h.zendAccelHashFindEntry k = some j) :
    ∃ e, h.hashEntries[j]? = some e ∧ e.indirect = false := by
  obtain ⟨i, -, hf⟩ := Option.bind_eq_some_iff.mp hf
  obtain ⟨e, he, hf⟩ := Option.bind_eq_some_iff.mp hf
  cases hi : e.indirect with
  | false =>
    obtain rfl : i = j := by simpa [hi] using hf
    exact ⟨e, he, hi⟩
  | true =>
    obtain ⟨j', e', hj, he', hd⟩ := ho.target he hi
    obtain rfl : j' = j := by simpa [hi, hj] using hf
    exact ⟨e', he', hd⟩

section Store

variable {v : VoidPtr δ} {d : δ}

/-- Storing a value into a direct entry keeps every flag and every alias. -/
theorem OneLevel.modify_data (ho : OneLevel h) (he : h.hashEntries[i]? = some e)
    (hd : e.indirect = false) (d : δ) :
    OneLevel
      { h with hashEntries := h.hashEntries.modify i fun e => { e with data := .data d } } where
  target {j e'} he' ha := by
    obtain ⟨e₀, he₀, rfl⟩ := getElem?_modify_cases he'
    have hij : i ≠ j := by
      rintro rfl
      obtain rfl := Option.some.inj (he.symm.trans he₀)
      simp [hd] at ha
    rw [if_neg hij] at ha ⊢
    obtain ⟨l, e₁, hl, he₁, hd₁⟩ := ho.target he₀ ha
    refine ⟨l, _, hl, getElem?_modify_some _ he₁ i, ?_⟩
    split_ifs <;> exact hd₁
  value {j e'} he' ha := by
    obtain ⟨e₀, he₀, rfl⟩ := getElem?_modify_cases he'
    split_ifs at ha ⊢
    · exact ⟨d, rfl⟩
    · exact ho.value he₀ ha

theorem OneLevel.overwrite_data (ho : OneLevel h) (i : ℕ) (d : δ) :
    OneLevel (h.overwrite i (.data d)) := by
  cases he : h.hashEntries[i]? with
  | none => rwa [overwrite_none he]
  | some e =>
    cases hi : e.indirect with
    | false =>
      rw [overwrite_direct_data he hi]
      exact ho.modify_data he hi d
    | true =>
      obtain ⟨j, e', hj, he', hd⟩ := ho.target he hi
      rw [overwrite_alias_data he hi hj]
      exact ho.modify_data he' hd d

/-- Pointing the entry `i` at a direct entry keeps one level exactly when `i` was an alias, or no
alias leads to it and the target is another entry. -/
theorem OneLevel.overwrite_entry_iff (ho : OneLevel h) (he : h.hashEntries[i]? = some e)
    {e' : ZendAccelHashEntry κ δ} (hc : h.hashEntries[c]? = some e')
    (hd : e'.indirect = false) :
    OneLevel (h.overwrite i (.entry c)) ↔ (e.indirect = false → c ≠ i ∧
      ∀ (j : ℕ) (e' : ZendAccelHashEntry κ δ), h.hashEntries[j]? = some e' →
        e'.indirect = true → e'.data ≠ .entry i) := by
  cases hi : e.indirect with
  | true =>
    simp only [Bool.true_eq_false, false_imp_iff, iff_true]
    have hes : (h.overwrite i (.entry c)).hashEntries =
        h.hashEntries.modify i fun e => { e with data := .entry c } := by
      rw [overwrite_alias_entry he hi]
    have hflag : ∀ {j : ℕ} {e₀ : ZendAccelHashEntry κ δ}, h.hashEntries[j]? = some e₀ →
        (if i = j then { e₀ with data := .entry c } else e₀).indirect = e₀.indirect := by
      intro j e₀ _
      split_ifs <;> rfl
    constructor
    · intro j e₁ he₁ ha
      rw [hes] at he₁ ⊢
      obtain ⟨e₀, he₀, rfl⟩ := getElem?_modify_cases he₁
      rw [hflag he₀] at ha
      by_cases hij : i = j
      · exact ⟨c, _, by rw [if_pos hij], getElem?_modify_some _ hc i, (hflag hc).trans hd⟩
      · obtain ⟨l, e₂, hl, he₂, hd₂⟩ := ho.target he₀ ha
        exact ⟨l, _, by rw [if_neg hij, hl], getElem?_modify_some _ he₂ i,
          (hflag he₂).trans hd₂⟩
    · intro j e₁ he₁ ha
      rw [hes] at he₁
      obtain ⟨e₀, he₀, rfl⟩ := getElem?_modify_cases he₁
      have hij : i ≠ j := by
        rintro rfl
        obtain rfl := Option.some.inj (he.symm.trans he₀)
        simp [hi] at ha
      rw [if_neg hij] at ha ⊢
      exact ho.value he₀ ha
  | false =>
    simp only [true_imp_iff]
    have hes : (h.overwrite i (.entry c)).hashEntries =
        h.hashEntries.modify i fun e => { e with data := .entry c, indirect := true } := by
      rw [overwrite_direct_entry he hi]
    constructor
    · -- the overwritten entry is now an alias, so nothing may lead to it
      intro ho'
      have hi' := getElem?_modify_some
        (fun e => { e with data := .entry c, indirect := true }) he i
      rw [if_pos rfl, ← hes] at hi'
      have hno : ∀ {j : ℕ} {e₁ : ZendAccelHashEntry κ δ},
          (h.overwrite i (.entry c)).hashEntries[j]? = some e₁ → e₁.indirect = true →
          e₁.data ≠ .entry i := by
        intro j e₁ he₁ ha hj
        obtain ⟨l, e₂, hl, he₂, hd₂⟩ := ho'.target he₁ ha
        obtain rfl : i = l := VoidPtr.entry.inj (hj.symm.trans hl)
        obtain rfl := Option.some.inj (he₂.symm.trans hi')
        simp at hd₂
      refine ⟨fun hci => hno hi' rfl (by rw [hci]), fun j e₁ he₁ ha hj => ?_⟩
      have hij : i ≠ j := by
        rintro rfl
        obtain rfl := Option.some.inj (he.symm.trans he₁)
        simp [hi] at ha
      have he₂ := getElem?_modify_some
        (fun e => { e with data := .entry c, indirect := true }) he₁ i
      rw [if_neg hij, ← hes] at he₂
      exact hno he₂ ha hj
    · rintro ⟨hci, hno⟩
      have hother : ∀ {j : ℕ} {e₀ : ZendAccelHashEntry κ δ}, h.hashEntries[j]? = some e₀ →
          i ≠ j → (h.overwrite i (.entry c)).hashEntries[j]? = some e₀ := by
        intro j e₀ he₀ hij
        have := getElem?_modify_some
          (fun e => { e with data := .entry c, indirect := true }) he₀ i
        rwa [if_neg hij, ← hes] at this
      constructor
      · intro j e₁ he₁ ha
        rw [hes] at he₁
        obtain ⟨e₀, he₀, rfl⟩ := getElem?_modify_cases he₁
        split_ifs at ha ⊢ with hij
        · exact ⟨c, e', rfl, hother hc fun hic => hci hic.symm, hd⟩
        · obtain ⟨l, e₂, hl, he₂, hd₂⟩ := ho.target he₀ ha
          exact ⟨l, e₂, hl, hother he₂ fun hil => hno j e₀ he₀ ha (hil ▸ hl), hd₂⟩
      · intro j e₁ he₁ ha
        rw [hes] at he₁
        obtain ⟨e₀, he₀, rfl⟩ := getElem?_modify_cases he₁
        split_ifs at ha ⊢ with hij
        exact ho.value he₀ ha

theorem OneLevel.append [ZendInlineHash κ] (ho : OneLevel h)
    (hv : ∀ c, v = .entry c → ∃ e, h.hashEntries[c]? = some e ∧ e.indirect = false) :
    OneLevel (h.append k v) where
  target {i e} he ha := by
    rcases getElem?_append_cases he with he' | ⟨rfl, _, hdata, _⟩
    · obtain ⟨j, e', hj, he', hd⟩ := ho.target he' ha
      exact ⟨j, e', hj, (getElem?_append_lt (getElem?_lt he')).trans he', hd⟩
    · obtain ⟨e₀, he₀, _, _, _, _, hind⟩ := getElem?_append_self (h := h) (k := k) (v := v)
      obtain rfl := Option.some.inj (he.symm.trans he₀)
      cases v with
      | data d => simp [hind] at ha
      | entry c =>
        obtain ⟨e', he', hd⟩ := hv c rfl
        exact ⟨c, e', hdata, (getElem?_append_lt (getElem?_lt he')).trans he', hd⟩
  value {i e} he ha := by
    rcases getElem?_append_cases he with he' | ⟨rfl, _, hdata, _⟩
    · exact ho.value he' ha
    · obtain ⟨e₀, he₀, _, _, _, _, hind⟩ := getElem?_append_self (h := h) (k := k) (v := v)
      obtain rfl := Option.some.inj (he.symm.trans he₀)
      cases v with
      | data d => exact ⟨d, hdata⟩
      | entry c => simp [hind] at ha

end Store

section Update

variable {h' : ZendAccelHash κ δ} {r : Option ℕ} {v : VoidPtr δ}

/-- What the resolved update does: overwrite the entry of the key, report a full table, or add an
entry. -/
theorem updateResolved_cases [ZendInlineHash κ] [DecidableEq κ]
    (hu : h.updateResolved k v = (h', r)) :
    (∃ i, h.lookup k = some i ∧ h' = h.overwrite i v ∧ r = some i) ∨
    (h.lookup k = none ∧ h.numEntries = h.maxNumEntries ∧ h' = h ∧ r = none) ∨
    (h.lookup k = none ∧ h.numEntries ≠ h.maxNumEntries ∧ h' = h.append k v ∧
      r = some h.numEntries) := by
  unfold updateResolved at hu
  cases hl : h.lookup k with
  | some i =>
    simp only [hl, Prod.mk.injEq] at hu
    exact .inl ⟨i, rfl, hu.1.symm, hu.2.symm⟩
  | none =>
    simp only [hl] at hu
    split_ifs at hu with hf <;> simp only [Prod.mk.injEq] at hu
    · exact .inr (.inl ⟨rfl, hf, hu.1.symm, hu.2.symm⟩)
    · exact .inr (.inr ⟨rfl, hf, hu.1.symm, hu.2.symm⟩)

theorem WellFormed.updateResolved [ZendInlineHash κ] [DecidableEq κ] (hw : WellFormed h)
    (hu : h.updateResolved k v = (h', r)) :
    WellFormed h' := by
  rcases updateResolved_cases hu with ⟨i, _, rfl, _⟩ | ⟨_, _, rfl, _⟩ | ⟨hl, hf, rfl, _⟩
  · exact hw.sameTable (sameTable_overwrite h i v)
  · exact hw
  · exact hw.append hl hf

/-- No update unlinks an entry, and a new entry is linked. -/
theorem WellFormed.linked_updateResolved [ZendInlineHash κ] [DecidableEq κ] (hw : WellFormed h)
    (hl : ∀ {i}, i < h.numEntries → h.Linked i) (hu : h.updateResolved k v = (h', r)) {i : ℕ}
    (hi : i < h'.numEntries) : h'.Linked i := by
  rcases updateResolved_cases hu with ⟨j, _, rfl, _⟩ | ⟨_, _, rfl, _⟩ | ⟨_, _, rfl, _⟩
  · have hs := sameTable_overwrite h j v
    exact hs.linked_iff.mpr (hl (hs.numEntries_eq ▸ hi))
  · exact hl hi
  · rcases Nat.lt_or_ge i h.numEntries with hi' | hi'
    · exact hw.linked_append (hl hi')
    · rw [numEntries_append] at hi
      obtain rfl : i = h.numEntries := by omega
      exact linked_append_self

theorem numEntries_updateResolved_le [ZendInlineHash κ] [DecidableEq κ]
    (hu : h.updateResolved k v = (h', r)) :
    h.numEntries ≤ h'.numEntries := by
  rcases updateResolved_cases hu with ⟨i, _, rfl, _⟩ | ⟨_, _, rfl, _⟩ | ⟨_, _, rfl, _⟩
  · exact Nat.le_of_eq (sameTable_overwrite h i v).numEntries_eq.symm
  · exact Nat.le_refl _
  · simp

/-- The entry an update returns is an entry of the new table. -/
theorem updateResolved_returned_lt [ZendInlineHash κ] [DecidableEq κ]
    (hu : h.updateResolved k v = (h', r)) (hr : r = some i) :
    i < h'.numEntries := by
  have hle := numEntries_updateResolved_le hu
  rcases updateResolved_cases hu with ⟨j, hl, _, rfl⟩ | ⟨_, _, _, rfl⟩ | ⟨_, _, rfl, rfl⟩
  · obtain rfl := Option.some.inj hr
    obtain ⟨e, he⟩ := (lookup_sound hl).1.exists_entry
    exact Nat.lt_of_lt_of_le (getElem?_lt he) hle
  · simp at hr
  · obtain rfl := Option.some.inj hr
    simp

theorem OneLevel.update_data [ZendInlineHash κ] [DecidableEq κ] (ho : OneLevel h) {d : δ}
    (hu : h.updateResolved k (.data d) = (h', r)) : OneLevel h' := by
  rcases updateResolved_cases hu with ⟨i, _, rfl, _⟩ | ⟨_, _, rfl, _⟩ | ⟨_, _, rfl, _⟩
  · exact ho.overwrite_data i d
  · exact ho
  · exact ho.append (by simp)

/-- An indirect store keeps one level of indirection exactly when it is safe. -/
theorem OneLevel.update_entry_iff [ZendInlineHash κ] [DecidableEq κ] (ho : OneLevel h)
    (hb : followIndirect h.hashEntries (h.numEntries + 1) b = some c)
    (hu : h.updateResolved k (.entry c) = (h', r)) : OneLevel h' ↔ SafeLink h k b := by
  obtain ⟨e', he', hd⟩ := followIndirect_sound hb
  unfold SafeLink
  rw [hb]
  rcases updateResolved_cases hu with ⟨i, hl, rfl, _⟩ | ⟨hl, _, rfl, _⟩ | ⟨hl, _, rfl, _⟩
  · obtain ⟨e, he⟩ := (lookup_sound hl).1.exists_entry
    rw [ho.overwrite_entry_iff he he' hd, hl]
    constructor
    · rintro hs i' e₀ hi' he₀ hd₀
      obtain rfl := Option.some.inj hi'
      obtain rfl := Option.some.inj (he.symm.trans he₀)
      exact ⟨fun hc => (hs hd₀).1 (Option.some.inj hc), (hs hd₀).2⟩
    · intro hs hd₀
      obtain ⟨hc, hno⟩ := hs i e rfl he hd₀
      exact ⟨fun hci => hc (by rw [hci]), hno⟩
  · simpa [hl] using ho
  · refine ⟨fun _ => by simp [hl], fun _ => ho.append ?_⟩
    intro c' hc'
    obtain rfl := VoidPtr.entry.inj hc'
    exact ⟨e', he', hd⟩

end Update

end ZendAccelHash

end ZendOpcache
