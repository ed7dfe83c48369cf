import ZendOpcache.Cache.Session
import ZendOpcache.Hash.Counted

/-! # The status of the cache

`accelerator_get_scripts` goes through the chains of the table and puts a report for each direct
entry into an array under the key of the entry. In every safe run the array has one report for each
cached script, under its own full path, and every key finds one of these scripts.
-/

namespace ZendOpcache

open ZendAccelHash

/-- `zend_hash_update` of a table whose elements are listed in their order -/
def zendHashUpdate {κ β : Type*} [DecidableEq κ] (l : List (κ × β)) (k : κ) (x : β) :
    List (κ × β) :=
  if k ∈ l.map Prod.fst then l.map fun p => if p.1 = k then (k, x) else p else l ++ [(k, x)]

theorem zendHashUpdate_of_notMem {κ β : Type*} [DecidableEq κ] {l : List (κ × β)} {k : κ} {x : β}
    (h : k ∉ l.map Prod.fst) : zendHashUpdate l k x = l ++ [(k, x)] := if_neg h

namespace ZendAccelHash

variable {κ δ β : Type*}

/-- The loop over one chain. Without an end it has no result. -/
def chainList (es : List (ZendAccelHashEntry κ δ)) : ℕ → Option ℕ → Option (List ℕ)
  | 0, _ => none
  | _ + 1, none => some []
  | n + 1, some i =>
    match es[i]? with
    | none => none
    | some e => (chainList es n e.next).map (i :: ·)

/-- The loop over some slots -/
def slotsList (h : ZendAccelHash κ δ) : List ℕ → Option (List ℕ)
  | [] => some []
  | b :: bs => do
    let l ← chainList h.hashEntries (h.numEntries + 1) (h.hashTable b)
    let l' ← slotsList h bs
    return l ++ l'

theorem chainList_eq {es : List (ZendAccelHashEntry κ δ)} {p : Option ℕ} {l : List ℕ} {n : ℕ}
    (hc : Chain es p l) (hn : l.length < n) : chainList es n p = some l := by
  induction hc generalizing n with
  | nil =>
    cases n with
    | zero => cases hn
    | succ n => rfl
  | cons he _ ih =>
    cases n with
    | zero => cases hn
    | succ n =>
      rw [chainList, he]
      simp [ih (Nat.lt_of_succ_lt_succ hn)]

variable [DecidableEq κ] [ZendInlineHash κ] {h : ZendAccelHash κ δ}

omit [DecidableEq κ] in
/-- A chain ends before the loop has taken as many turns as there are entries. -/
theorem WellFormed.chainList (hw : WellFormed h) (b : ℕ) :
    ∃ l, Chain h.hashEntries (h.hashTable b) l ∧
      ZendAccelHash.chainList h.hashEntries (h.numEntries + 1) (h.hashTable b) = some l := by
  obtain ⟨l, hl⟩ := hw.exists_chain (p := h.hashTable b) fun _ hi => hw.head_lt hi
  have hlt : ∀ i ∈ l, i < h.numEntries := by
    intro i hi
    obtain ⟨e, he⟩ := hl.entry hi
    exact getElem?_lt he
  have hlen : l.length ≤ h.numEntries := by
    have hsub : l ⊆ List.range h.numEntries := fun i hi => List.mem_range.mpr (hlt i hi)
    simpa using ((hw.chain_nodup hl).subperm hsub).length_le
  exact ⟨l, hl, chainList_eq hl (Nat.lt_succ_of_le hlen)⟩

omit [DecidableEq κ] in
/-- The loops come to the entries of some slots once each. -/
theorem WellFormed.slotsList (hw : WellFormed h) {bs : List ℕ} (hbs : bs.Nodup) :
    ∃ l, slotsList h bs = some l ∧ l.Nodup ∧
      ∀ i, i ∈ l ↔ ∃ b ∈ bs, ChainFrom h.hashEntries (h.hashTable b) i := by
  induction bs with
  | nil => exact ⟨[], rfl, .nil, by simp⟩
  | cons b bs ih =>
    obtain ⟨hb, hbs⟩ := List.nodup_cons.mp hbs
    obtain ⟨l, hl, hrun⟩ := hw.chainList b
    obtain ⟨l', hrun', hnodup, hmem⟩ := ih hbs
    refine ⟨l ++ l', by simp [ZendAccelHash.slotsList, hrun, hrun'], ?_, fun i => ?_⟩
    · refine List.nodup_append.mpr ⟨hw.chain_nodup hl, hnodup, ?_⟩
      rintro i hi _ hi' rfl
      obtain ⟨b', hb', hfrom⟩ := (hmem i).mp hi'
      have hfrom' := hl.mem_iff.mpr hi
      obtain ⟨e, he⟩ := hl.entry hi
      have heq := (hw.bucket_eq hfrom he).symm.trans (hw.bucket_eq hfrom' he)
      exact hb (heq ▸ hb')
    · simp [← hl.mem_iff, hmem]

omit [DecidableEq κ] in
/-- The loops over all slots come to each linked entry once. -/
theorem WellFormed.linkedList (hw : WellFormed h) :
    ∃ l, ZendAccelHash.slotsList h (List.range h.maxNumEntries) = some l ∧ l.Nodup ∧
      ∀ i, i ∈ l ↔ h.Linked i := by
  obtain ⟨l, hrun, hnodup, hmem⟩ := hw.slotsList (List.nodup_range (n := h.maxNumEntries))
  refine ⟨l, hrun, hnodup, fun i => (hmem i).trans ⟨?_, ?_⟩⟩
  · rintro ⟨b, -, hb⟩
    exact ⟨b, hb⟩
  · rintro ⟨b, hb⟩
    obtain ⟨e, he⟩ := hb.exists_entry
    have hpos : 0 < h.maxNumEntries := by
      have := getElem?_lt he
      have := hw.length_le
      omega
    refine ⟨b, List.mem_range.mpr ?_, hb⟩
    rw [← hw.bucket_eq hb he]
    exact Nat.mod_lt _ hpos

end ZendAccelHash

/-- The members of the scripts that a use changes, and the text of a local time -/
structure DynamicMembers where
  hits : ℕ → UInt64
  lastUsed : ℕ → ℤ
  asctime : ℤ → List UInt8

/-- What is tested before the loops, and the result of `accelerator_shm_read_lock` -/
structure StatusFlags where
  enabled : Bool
  accelStartupOk : Bool
  acceleratorEnabled : Bool
  readLock : ZendResult
  validateTimestamps : Bool

def StatusFlags.reports (f : StatusFlags) : Bool :=
  f.enabled && f.accelStartupOk && f.acceleratorEnabled && f.readLock == .success

/-- An element of the array. `timestamp` is there if timestamps are validated. -/
structure ScriptReport where
  fullPath : Path
  hits : Int64
  memoryConsumption : UInt32
  lastUsed : List UInt8
  lastUsedTimestamp : ℤ
  timestamp : Option ℕ
  deriving DecidableEq, Repr

/-- The report of the script with an index -/
def scriptReport (m : DynamicMembers) (validateTimestamps : Bool) (x : ℕ)
    (p : ZendPersistentScript) : ScriptReport where
  fullPath := p.fullPath
  hits := (m.hits x).toInt64
  memoryConsumption := p.memoryConsumption
  lastUsed :=
    let str := m.asctime (m.lastUsed x)
    if str.getLast? = some 10 then str.dropLast else str
  lastUsedTimestamp := m.lastUsed x
  timestamp := if validateTimestamps then some p.timestamp else none

section Reports

variable [ZendInlineHash Path]

namespace ScriptCache

variable (s : ScriptCache) (m : DynamicMembers) (validateTimestamps : Bool)

/-- What is reported for an entry. It must not be a direct one that has no script. -/
def bucketReport (e : ZendAccelHashEntry Path ℕ) : Option ScriptReport :=
  match e.data with
  | .data x => (s.scripts[x]?).map (scriptReport m validateTimestamps x)
  | .entry _ => none

/-- One entry -/
def addReport (acc : List (Path × ScriptReport)) (i : ℕ) : Option (List (Path × ScriptReport)) :=
  match s.hash.hashEntries[i]? with
  | none => none
  | some e =>
    if e.indirect then some acc
    else (s.bucketReport m validateTimestamps e).map (zendHashUpdate acc e.key)

/-- `accelerator_get_scripts`, which may return 0 -/
def acceleratorGetScripts (f : StatusFlags) : Option (Option (List (Path × ScriptReport))) :=
  if f.reports then do
    let l ← slotsList s.hash (List.range s.hash.maxNumEntries)
    (l.foldlM (s.addReport m f.validateTimestamps) []).map some
  else some none

/-- The element for an entry -/
def entryReport (i : ℕ) : Option (Path × ScriptReport) :=
  match s.hash.hashEntries[i]? with
  | none => none
  | some e =>
    if e.indirect then none else (s.bucketReport m validateTimestamps e).map fun r => (e.key, r)

variable {s m validateTimestamps} {reg : Path → Option Path}

/-- Where every entry has a script, the reports are those of the entries in their order. -/
theorem foldlM_addReport (hr : Registered s.hash s.scripts reg) (l : List ℕ)
    (hl : ∀ i ∈ l, i < s.hash.numEntries) (acc : List (Path × ScriptReport))
    (hkeys : ((acc ++ l.filterMap (s.entryReport m validateTimestamps)).map Prod.fst).Nodup) :
    l.foldlM (s.addReport m validateTimestamps) acc =
      some (acc ++ l.filterMap (s.entryReport m validateTimestamps)) := by
  induction l generalizing acc with
  | nil => simp
  | cons i l ih =>
    have hlt : i < s.hash.hashEntries.length := hl i (by simp)
    have he : s.hash.hashEntries[i]? = some s.hash.hashEntries[i] := List.getElem?_eq_getElem hlt
    have hrest : ∀ j ∈ l, j < s.hash.numEntries := fun j hj => hl j (by simp [hj])
    rw [List.foldlM_cons]
    cases hd : s.hash.hashEntries[i].indirect with
    | true =>
      have hstep : s.addReport m validateTimestamps acc i = some acc := by simp [addReport, he, hd]
      have hnone : s.entryReport m validateTimestamps i = none := by simp [entryReport, he, hd]
      rw [List.filterMap_cons_none hnone] at hkeys ⊢
      rw [hstep]
      exact ih hrest acc hkeys
    | false =>
      obtain ⟨x, p, hx, hp, -⟩ := hr.script he hd
      have hreport : s.bucketReport m validateTimestamps s.hash.hashEntries[i] =
          some (scriptReport m validateTimestamps x p) := by simp [bucketReport, hx, hp]
      have hsome : s.entryReport m validateTimestamps i =
          some (s.hash.hashEntries[i].key, scriptReport m validateTimestamps x p) := by
        simp [entryReport, he, hd, hreport]
      rw [List.filterMap_cons_some hsome] at hkeys ⊢
      have hnew : s.hash.hashEntries[i].key ∉ acc.map Prod.fst := by
        rw [List.map_append, List.nodup_append] at hkeys
        exact fun hmem => hkeys.2.2 _ hmem _ (by simp) rfl
      have hstep : s.addReport m validateTimestamps acc i =
          some (acc ++ [(s.hash.hashEntries[i].key, scriptReport m validateTimestamps x p)]) := by
        simp [addReport, he, hd, hreport, zendHashUpdate_of_notMem hnew]
      rw [hstep]
      have := ih hrest (acc ++ [(s.hash.hashEntries[i].key, scriptReport m validateTimestamps x p)])
        (by simpa using hkeys)
      simpa using this

omit [ZendInlineHash Path] in
theorem entryReport_eq_some {i : ℕ} {k : Path} {r : ScriptReport} :
    s.entryReport m validateTimestamps i = some (k, r) ↔ ∃ e x p,
      s.hash.hashEntries[i]? = some e ∧ e.indirect = false ∧ e.data = .data x ∧
      s.scripts[x]? = some p ∧ e.key = k ∧ r = scriptReport m validateTimestamps x p := by
  unfold entryReport bucketReport
  constructor
  · intro h
    split at h
    · cases h
    · rename_i e he
      split_ifs at h with hd
      obtain ⟨r', hr', heq⟩ := Option.map_eq_some_iff.mp h
      obtain ⟨rfl, rfl⟩ := Prod.mk.inj heq
      split at hr'
      · rename_i x hx
        obtain ⟨p, hp, rfl⟩ := Option.map_eq_some_iff.mp hr'
        exact ⟨e, x, p, he, by simpa using hd, hx, hp, rfl, rfl⟩
      · cases hr'
  · rintro ⟨e, x, p, he, hd, hx, hp, rfl, rfl⟩
    simp [he, hd, hx, hp]

/-- The entry at which the lookup of a key ends has a report under the full path of its script. -/
theorem entryReport_of_find (hr : Registered s.hash s.scripts reg) {k : Path} {v : VoidPtr ℕ}
    (hf : s.hash.zendAccelHashFind k = some v) :
    ∃ i x p, i < s.hash.numEntries ∧ v = .data x ∧ s.scripts[x]? = some p ∧
      s.entryReport m validateTimestamps i =
        some (p.fullPath, scriptReport m validateTimestamps x p) := by
  rw [find_eq_findEntry] at hf
  obtain ⟨i, hi, hv⟩ := Option.bind_eq_some_iff.mp hf
  obtain ⟨e, he, hd⟩ := hr.oneLevel.findEntry_direct hi
  obtain ⟨x, p, hx, hp, hk⟩ := hr.script he hd
  have hv' : v = .data x := by simpa [he, hx, eq_comm] using hv
  exact ⟨i, x, p, getElem?_lt he, hv', hp,
    entryReport_eq_some.mpr ⟨e, x, p, he, hd, hx, hp, hk.symm, rfl⟩⟩

/-- The number of entries that have a report is that of the direct entries. -/
theorem length_reports (hr : Registered s.hash s.scripts reg) {l : List ℕ} (hl : l.Nodup)
    (hmem : ∀ i, i ∈ l ↔ s.hash.Linked i) :
    (l.filterMap (s.entryReport m validateTimestamps)).length = s.hash.directEntries.ncard := by
  have hset : s.hash.directEntries =
      (l.filter fun i => (s.entryReport m validateTimestamps i).isSome).toFinset := by
    ext i
    simp only [directEntries, Set.mem_ofPred_eq, List.coe_toFinset, List.mem_filter, hmem,
      Option.isSome_iff_exists]
    refine and_congr_right fun _ => ⟨?_, ?_⟩
    · rintro ⟨e, he, hd⟩
      obtain ⟨x, p, hx, hp, -⟩ := hr.script he hd
      exact ⟨_, entryReport_eq_some.mpr ⟨e, x, p, he, hd, hx, hp, rfl, rfl⟩⟩
    · rintro ⟨⟨k, r⟩, hkr⟩
      obtain ⟨e, x, p, he, hd, -⟩ := entryReport_eq_some.mp hkr
      exact ⟨e, he, hd⟩
  rw [hset, Set.ncard_coe_finset, List.toFinset_card_of_nodup (hl.filter _),
    List.length_filterMap_eq_countP, List.countP_eq_length_filter]

/-! ### The count of the direct entries -/

theorem counted_addKey {t : ScriptCache} {key : Path} {b : ℕ} {keyAllocated : Bool}
    {out : List Report} (hc : Counted s.hash)
    (h : s.zendAccelAddKey key b keyAllocated = some (t, out)) : Counted t.hash := by
  unfold zendAccelAddKey at h
  split_ifs at h
  · obtain ⟨rfl, -⟩ := Prod.mk.inj (Option.some.inj h)
    exact hc
  · obtain ⟨⟨h', r⟩, hu, hres⟩ := Option.map_eq_some_iff.mp h
    obtain ⟨rfl, -⟩ := Prod.mk.inj hres
    exact hc.update hu
  · obtain ⟨rfl, -⟩ := Prod.mk.inj (Option.some.inj h)
    exact hc
  · obtain ⟨rfl, -⟩ := Prod.mk.inj (Option.some.inj h)
    exact hc

theorem counted_storeScript {t : ScriptCache} {r : CacheRequest} {out : List Report}
    (hc : Counted s.hash) (h : s.storeScript r = some (t, out)) : Counted t.hash := by
  unfold storeScript at h
  simp only at h
  split at h
  · cases h
  · rename_i h₁ hu
    obtain ⟨rfl, -⟩ := Prod.mk.inj (Option.some.inj h)
    exact hc.update hu
  · rename_i h₁ b hu
    have hc₁ := hc.update hu
    split_ifs at h
    · split at h
      · cases h
      · rename_i h₂ _ hu₂
        obtain ⟨rfl, -⟩ := Prod.mk.inj (Option.some.inj h)
        exact hc₁.update hu₂
      · rename_i h₂ hu₂
        obtain ⟨rfl, -⟩ := Prod.mk.inj (Option.some.inj h)
        exact hc₁.update hu₂
    · obtain ⟨rfl, -⟩ := Prod.mk.inj (Option.some.inj h)
      exact hc₁

end ScriptCache

namespace CacheSession

variable {π : Type*} [DecidableEq π] {s t : CacheSession π}

/-- Whatever is called, safe or not, the direct entries are counted. -/
theorem counted_step (hc : Counted s.cache.hash) {a : CacheCall π} (h : Step s a t) :
    Counted t.cache.hash := by
  cases a with
  | cache r =>
    obtain ⟨⟨c, out⟩, hcall, rfl⟩ := Option.map_eq_some_iff.mp h
    rcases ScriptCache.cacheScriptInSharedMemory_cases hcall with
      ⟨hh, -⟩ | ⟨-, hstore⟩ | ⟨b, -, hadd⟩
    · change Counted c.hash
      rwa [hh]
    · exact ScriptCache.counted_storeScript hc hstore
    · exact ScriptCache.counted_addKey hc hadd
  | find p path =>
    simp only [Step, call] at h
    split at h
    · obtain rfl := Option.some.inj h
      exact hc
    · obtain ⟨script, -, rfl⟩ := Option.map_eq_some_iff.mp h
      exact hc
  | addKey p key keyAllocated =>
    simp only [Step, call] at h
    split at h
    · cases h
    · obtain ⟨⟨c, out⟩, hadd, rfl⟩ := Option.map_eq_some_iff.mp h
      exact ScriptCache.counted_addKey hc hadd
  | corrupt x =>
    obtain rfl := Option.some.inj h
    change Counted (s.cache.markCorrupted x).1.hash
    rwa [ScriptCache.markCorrupted_hash]

theorem counted_of_safe_run {n : ℕ} {w : List (CacheCall π)}
    (h : GuardedRun Step Safe (init n) w s) : Counted s.cache.hash := by
  induction h with
  | nil => exact counted_init n
  | snoc _ _ hs ih => exact counted_step ih hs

/-- The reports of `opcache_get_status` after any safe run: one for each cached script, under its
own full path, as many as the status counts. Every key finds a script that is reported. -/
theorem getScripts_of_safe_run {n : ℕ} {w : List (CacheCall π)}
    (h : GuardedRun Step Safe (init n) w s) (m : DynamicMembers) (f : StatusFlags) :
    ∃ l, s.cache.acceleratorGetScripts m f = some (if f.reports then some l else none) ∧
      (l.map Prod.fst).Nodup ∧ l.length = s.cache.hash.numDirectEntries ∧
      (∀ k r, (k, r) ∈ l ↔ ∃ x p, s.cache.hash.zendAccelHashFind k = some (.data x) ∧
        s.cache.scripts[x]? = some p ∧ p.fullPath = k ∧
        r = scriptReport m f.validateTimestamps x p) ∧
      ∀ k v, s.cache.hash.zendAccelHashFind k = some v → ∃ x p, v = .data x ∧
        s.cache.scripts[x]? = some p ∧
        (p.fullPath, scriptReport m f.validateTimestamps x p) ∈ l := by
  have hr := (inv_of_safe_run h).table
  have hc := counted_of_safe_run h
  obtain ⟨l, hrun, hnodup, hmem⟩ := hr.wellFormed.linkedList
  have hlt : ∀ i ∈ l, i < s.cache.hash.numEntries := by
    intro i hi
    obtain ⟨e, he⟩ := ((hmem i).mp hi).exists_entry
    exact getElem?_lt he
  have hkeys : ((l.filterMap (s.cache.entryReport m f.validateTimestamps)).map Prod.fst).Nodup := by
    rw [List.map_filterMap]
    refine hnodup.filterMap fun i j k hi hj => ?_
    obtain ⟨⟨_, r⟩, hri, rfl⟩ := Option.map_eq_some_iff.mp hi
    obtain ⟨⟨_, r'⟩, hrj, hk⟩ := Option.map_eq_some_iff.mp hj
    obtain ⟨e, -, -, he, -, -, -, hki, -⟩ := ScriptCache.entryReport_eq_some.mp hri
    obtain ⟨e', -, -, he', -, -, -, hkj, -⟩ := ScriptCache.entryReport_eq_some.mp hrj
    exact hr.wellFormed.key_inj (hr.linked (getElem?_lt he)) (hr.linked (getElem?_lt he')) he he'
      (hki.trans (hk.symm.trans hkj.symm))
  have hreports := ScriptCache.foldlM_addReport hr l hlt [] (by simpa using hkeys)
  refine ⟨l.filterMap (s.cache.entryReport m f.validateTimestamps), ?_, hkeys, ?_, fun k r => ?_,
    fun k v hf => ?_⟩
  · unfold ScriptCache.acceleratorGetScripts
    split_ifs
    · rw [hrun]
      simpa using hreports
    · rfl
  · rw [ScriptCache.length_reports hr hnodup hmem, hc.numDirectEntries_eq]
  · rw [List.mem_filterMap]
    constructor
    · rintro ⟨i, -, hi⟩
      obtain ⟨e, x, p, he, hd, hx, hp, rfl, rfl⟩ := ScriptCache.entryReport_eq_some.mp hi
      obtain ⟨x', p', hx', hp', hk⟩ := hr.script he hd
      obtain rfl : x' = x := VoidPtr.data.inj (hx'.symm.trans hx)
      obtain rfl := Option.some.inj (hp'.symm.trans hp)
      have hlook := hr.wellFormed.lookup_key (hr.linked (getElem?_lt he)) he
      refine ⟨x', p', ?_, hp', hk, rfl⟩
      rw [find_eq_findEntry, findEntry_of_direct hlook he hd]
      simp [he, hx]
    · rintro ⟨x, p, hf, hp, rfl, rfl⟩
      obtain ⟨i, x', p', hi, hx, hp', hrep⟩ := ScriptCache.entryReport_of_find hr hf
      obtain rfl := VoidPtr.data.inj hx
      obtain rfl := Option.some.inj (hp.symm.trans hp')
      exact ⟨i, (hmem i).mpr (hr.linked hi), hrep⟩
  · obtain ⟨i, x, p, hi, hx, hp, hrep⟩ := ScriptCache.entryReport_of_find hr hf
    exact ⟨x, p, hx, hp, List.mem_filterMap.mpr ⟨i, (hmem i).mpr (hr.linked hi), hrep⟩⟩

end CacheSession

end Reports

section

local instance statusHash : ZendInlineHash Path := timesThirtyThree

namespace CacheSession

/-- A script with a key, used three times -/
theorem getScripts_of_safe_run_link : ∃ s : CacheSession Unit, ∃ l,
    s.cache.acceleratorGetScripts ⟨fun _ => 3, fun _ => 60, fun _ => [48, 49, 10]⟩
        ⟨true, true, true, .success, true⟩ = some (some l) ∧
      (l.map Prod.fst).Nodup ∧
      l.length = s.cache.hash.numDirectEntries ∧ s.cache.hash.numDirectEntries = 1 ∧
      s.cache.hash.numEntries = 2 := by
  let s₁ : CacheSession Unit := ((init 5).call (.cache (request pathB pathA 1))).get rfl
  have h₁ : Step (init 5) (.cache (request pathB pathA 1)) s₁ := (Option.some_get _).symm
  have hg : (init 5 : CacheSession Unit).Safe (.cache (request pathB pathA 1)) :=
    ⟨fun _ => ⟨.of_lookup_none rfl, fun _ => .of_lookup_none rfl⟩,
      fun _ _ => .of_lookup_none rfl⟩
  obtain ⟨l, hl, hkeys, hlen, -⟩ := getScripts_of_safe_run (GuardedRun.single hg h₁)
    ⟨fun _ => 3, fun _ => 60, fun _ => [48, 49, 10]⟩ ⟨true, true, true, .success, true⟩
  exact ⟨s₁, l, hl, hkeys, hlen, rfl, rfl⟩

end CacheSession

end

end ZendOpcache
