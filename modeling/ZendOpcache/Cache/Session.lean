import ZendOpcache.Cache.Registration

/-! # Runs of the script cache

Requests cache scripts, look scripts up by full path and add keys for what they
found, and mark scripts corrupted, in any order and in any number of processes.
A run is safe when no call stores, finds or links a full path that is an alias, and
no stored script's key replaces an entry other aliases lead to.
-/

namespace ZendOpcache

open ZendAccelHash

/-- The log after a call for the given full path. -/
def report (path : Path) (out : List Report) (log : List (Path × Report)) :
    List (Path × Report) :=
  (out.map (path, ·)).reverse ++ log

/-- The cache, the uncorrupted bucket each process last found with the path it was looked up by,
and all reports. -/
structure CacheSession (π : Type*) where
  cache : ScriptCache
  bucket : π → Option (Path × ℕ)
  log : List (Path × Report)

inductive CacheCall (π : Type*) where
  | cache (r : CacheRequest)
  | find (p : π) (path : Path)
  | addKey (p : π) (key : Path) (keyAllocated : Bool)
  | corrupt (x : ℕ)

section Runs

variable {π : Type*} [DecidableEq π] [ZendInlineHash Path]

namespace ScriptCache

/-- The bucket of an uncorrupted script found under a full path. -/
def findUncorrupted (s : ScriptCache) (path : Path) : Option ℕ :=
  (s.hash.zendAccelHashFindEntry path).filter fun b =>
    (s.bucketScript b).all fun p => !p.corrupted

/-- The call stores its script: nobody stored an uncorrupted one, and there is room. -/
def Stores (s : ScriptCache) (r : CacheRequest) : Prop :=
  r.persistable = true ∧ s.hash.zendAccelHashIsFull = false ∧
    s.findUncorrupted r.script.fullPath = none ∧ r.allocated = true

/-- The call adds its key to the script that is already stored. -/
def AddsKey (s : ScriptCache) (key : Path) (keyAllocated : Bool) : Prop :=
  (s.hash.zendAccelHashFind key).isNone = true ∧ s.hash.zendAccelHashIsFull = false ∧
    keyAllocated = true

variable {s t : ScriptCache} {r : CacheRequest} {out : List Report}

/-- What a call does: nothing to the table, store the script, or add the key to the entry of the
stored one. -/
theorem cacheScriptInSharedMemory_cases (h : s.cacheScriptInSharedMemory r = some (t, out)) :
    (t.hash = s.hash ∧ t.scripts = s.scripts ∧ t.wastedSharedMemory = s.wastedSharedMemory ∧
      ∀ x ∈ out, x.key = none) ∨
    (s.Stores r ∧ s.storeScript r = some (t, out)) ∨
    ∃ b, s.findUncorrupted r.script.fullPath = some b ∧
      s.zendAccelAddKey r.key b r.keyAllocated = some (t, out) := by
  have quiet : ∀ {u : ScriptCache} {l : List Report}, some (u, l) = some (t, out) →
      u.hash = s.hash → u.scripts = s.scripts →
      u.wastedSharedMemory = s.wastedSharedMemory → (∀ x ∈ l, x.key = none) →
      t.hash = s.hash ∧ t.scripts = s.scripts ∧
        t.wastedSharedMemory = s.wastedSharedMemory ∧ ∀ x ∈ out, x.key = none := by
    intro u l heq hh hs hw hl
    obtain ⟨rfl, rfl⟩ := Prod.mk.inj (Option.some.inj heq)
    exact ⟨hh, hs, hw, hl⟩
  unfold cacheScriptInSharedMemory at h
  by_cases hp : r.persistable = true
  · cases hfull : s.hash.zendAccelHashIsFull with
    | true =>
      simp only [hp, hfull, Bool.not_true, Bool.false_eq_true, if_false, if_true] at h
      exact .inl (quiet h rfl rfl rfl (by simp [Report.key]))
    | false =>
      simp only [hp, hfull, Bool.not_true, Bool.false_eq_true, if_false] at h
      have store : s.findUncorrupted r.script.fullPath = none →
          (if r.allocated then s.storeScript r else some (s, [.scheduleRestart .oom])) =
            some (t, out) →
          (t.hash = s.hash ∧ t.scripts = s.scripts ∧
            t.wastedSharedMemory = s.wastedSharedMemory ∧ ∀ x ∈ out, x.key = none) ∨
            s.Stores r ∧ s.storeScript r = some (t, out) := by
        intro hnone h
        split_ifs at h with ha
        · exact .inr ⟨⟨hp, hfull, hnone, ha⟩, h⟩
        · exact .inl (quiet h rfl rfl rfl (by simp [Report.key]))
      cases hfe : s.hash.zendAccelHashFindEntry r.script.fullPath with
      | none =>
        rw [hfe] at h
        rw [← or_assoc]
        exact .inl (store (by simp [findUncorrupted, hfe]) h)
      | some b =>
        simp only [hfe] at h
        cases hbs : s.bucketScript b with
        | none => simp [hbs] at h
        | some existing =>
          simp only [hbs] at h
          cases hc : existing.corrupted with
          | true =>
            rw [hc, if_pos rfl] at h
            rw [← or_assoc]
            exact .inl (store (by simp [findUncorrupted, hfe, hbs, hc]) h)
          | false =>
            rw [hc, if_neg Bool.false_ne_true] at h
            split_ifs at h
            · exact .inr (.inr ⟨b, by simp [findUncorrupted, hfe, hbs, hc], h⟩)
            · exact .inl (quiet h rfl rfl rfl (by simp))
  · rw [if_pos (by simpa using hp)] at h
    exact .inl (quiet h rfl rfl rfl (by simp))

omit [ZendInlineHash Path] in
theorem markCorrupted_quiet {x : ℕ} : ∀ y ∈ (s.markCorrupted x).2, y.key = none := by
  unfold markCorrupted
  split
  · simp
  · split_ifs <;> simp [Report.key]

omit [ZendInlineHash Path] in
@[simp] theorem markCorrupted_hash (x : ℕ) : (s.markCorrupted x).1.hash = s.hash := by
  unfold markCorrupted
  split
  · rfl
  · split_ifs <;> rfl

theorem registered_markCorrupted {reg : Path → Option Path}
    (hr : Registered s.hash s.scripts reg) (x : ℕ) :
    Registered (s.markCorrupted x).1.hash (s.markCorrupted x).1.scripts reg := by
  cases hx : s.scripts[x]? with
  | none => simpa [markCorrupted, hx] using hr
  | some p =>
    cases hc : p.corrupted with
    | true => simpa [markCorrupted, hx, hc] using hr
    | false =>
      simpa [markCorrupted, hx, hc] using
        hr.modify x (f := fun p => { p with corrupted := true, timestamp := 0 }) fun _ => rfl

end ScriptCache

namespace CacheSession

def init (hashSize : ℕ) : CacheSession π := ⟨.init hashSize, fun _ => none, []⟩

def call (s : CacheSession π) : CacheCall π → Option (CacheSession π)
  | .cache r =>
    (s.cache.cacheScriptInSharedMemory r).map fun (c, out) =>
      { s with cache := c, log := report r.script.fullPath out s.log }
  | .find p path =>
    match s.cache.hash.zendAccelHashFindEntry path with
    | none => some { s with bucket := Function.update s.bucket p none }
    | some b =>
      (s.cache.bucketScript b).map fun script =>
        { s with
          bucket := Function.update s.bucket p (if script.corrupted then none else (path, b)) }
  | .addKey p key keyAllocated =>
    match s.bucket p with
    | none => none
    | some (path, b) =>
      (s.cache.zendAccelAddKey key b keyAllocated).map fun (c, out) =>
        ⟨c, Function.update s.bucket p none, report path out s.log⟩
  | .corrupt x =>
    some { s with
      cache := (s.cache.markCorrupted x).1, log := report [] (s.cache.markCorrupted x).2 s.log }

def Step (s : CacheSession π) (a : CacheCall π) (t : CacheSession π) : Prop := s.call a = some t

/-- No full path that is stored, found or linked to is an alias, and a stored script's key does
not replace an entry that aliases lead to. -/
def Safe (s : CacheSession π) : CacheCall π → Prop
  | .cache r =>
    (s.cache.Stores r → NoAlias s.cache.hash r.script.fullPath ∧
      (r.linksKey = true → NoAliasTo s.cache.hash r.key)) ∧
    (s.cache.findUncorrupted r.script.fullPath ≠ none → s.cache.AddsKey r.key r.keyAllocated →
      NoAlias s.cache.hash r.script.fullPath)
  | .find _ path => s.cache.findUncorrupted path ≠ none → NoAlias s.cache.hash path
  | .addKey p key keyAllocated => ∀ path b, s.bucket p = some (path, b) →
    s.cache.AddsKey key keyAllocated → NoAlias s.cache.hash path
  | .corrupt _ => True

structure Inv (s : CacheSession π) : Prop where
  table : Registered s.cache.hash s.cache.scripts (registered s.log)
  bucket : ∀ {p path b}, s.bucket p = some (path, b) → s.cache.hash.lookup path = some b

end CacheSession

section Report

variable {out : List Report} {path : Path} {log : List (Path × Report)}

omit [ZendInlineHash Path] in
/-- Reports that name no key register nothing. -/
theorem registered_report_quiet (h : ∀ x ∈ out, x.key = none) :
    registered (report path out log) = registered log := by
  funext k
  unfold registered report
  rw [List.find?_append, List.find?_eq_none.mpr, Option.none_or]
  intro x hx
  obtain ⟨y, hy, rfl⟩ := List.mem_map.mp (List.mem_reverse.mp hx)
  simp [h y hy]

end Report

namespace Registered

variable {s t : ScriptCache} {log : List (Path × Report)} {out : List Report} {key path : Path}
  {keyAllocated : Bool} {b : ℕ} {r : CacheRequest}

/-- Adding a key to the direct entry of a path. -/
theorem zendAccelAddKey (hr : Registered s.hash s.scripts (registered log))
    (hb : s.AddsKey key keyAllocated → ∃ e, s.hash.lookup path = some b ∧
      s.hash.hashEntries[b]? = some e ∧ e.indirect = false ∧ e.key = path)
    (h : s.zendAccelAddKey key b keyAllocated = some (t, out)) :
    Registered t.hash t.scripts (registered (report path out log)) ∧
      ∀ {k i}, s.hash.lookup k = some i → t.hash.lookup k = some i := by
  unfold ScriptCache.zendAccelAddKey at h
  split_ifs at h with hf hfull hka
  · obtain ⟨rfl, rfl⟩ := Prod.mk.inj (Option.some.inj h)
    rw [registered_report_quiet (by simp [Report.key])]
    exact ⟨hr, id⟩
  · obtain ⟨⟨h', r⟩, hu, hres⟩ := Option.map_eq_some_iff.mp h
    obtain ⟨rfl, rfl⟩ := Prod.mk.inj hres
    have hkey : s.hash.lookup key = none := hr.oneLevel.find_none (by simpa using hf)
    obtain ⟨e, hb, he, hd, hk⟩ := hb ⟨hf, by simpa using hfull, hka⟩
    have hne : key ≠ path := by
      rintro rfl
      simp [hkey] at hb
    refine ⟨hr.link he hd hk (.of_lookup_none hkey) hne hu fun k' => ?_, ?_⟩
    · cases r <;> simp [report, Report.key, eq_comm]
    · intro k i hl
      obtain ⟨c, -, hu⟩ := Option.map_eq_some_iff.mp hu
      exact hr.wellFormed.lookup_updateResolved hu hl
  · obtain ⟨rfl, rfl⟩ := Prod.mk.inj (Option.some.inj h)
    rw [registered_report_quiet (by simp [Report.key])]
    exact ⟨hr, id⟩
  · obtain ⟨rfl, rfl⟩ := Prod.mk.inj (Option.some.inj h)
    rw [registered_report_quiet (by simp)]
    exact ⟨hr, id⟩

/-- Storing a script under a path that is no alias, and linking its key. -/
theorem storeScript (hr : Registered s.hash s.scripts (registered log))
    (hn : NoAlias s.hash r.script.fullPath)
    (hl : r.linksKey = true → NoAliasTo s.hash r.key) (h : s.storeScript r = some (t, out)) :
    Registered t.hash t.scripts (registered (report r.script.fullPath out log)) ∧
      ∀ {k i}, s.hash.lookup k = some i → t.hash.lookup k = some i := by
  unfold ScriptCache.storeScript at h
  rcases hu : s.hash.updateResolved r.script.fullPath (.data s.scripts.length) with ⟨h₁, r₁⟩
  have hkeep : ∀ {k i}, s.hash.lookup k = some i → h₁.lookup k = some i :=
    fun hl => hr.wellFormed.lookup_updateResolved hu hl
  simp only [zendAccelHashUpdate, hu] at h
  cases r₁ with
  | none =>
    obtain ⟨rfl, rfl⟩ := Prod.mk.inj (Option.some.inj h)
    exact ⟨hr.store hn rfl hu fun k => by simp [report], hkeep⟩
  | some b =>
    have hr₁ : Registered h₁ _ (registered (report r.script.fullPath
        [.cachedScript r.script.fullPath] log)) :=
      hr.store
        (p := { r.script with memoryConsumption := blockSize r.memoryUsed.toUInt64 })
        hn rfl hu fun k => by simp [report, Report.key, eq_comm]
    split_ifs at h with hlink
    · obtain ⟨e, he, hd, hk⟩ := hn.returned hu rfl
      have hne : r.key ≠ r.script.fullPath := by
        simp only [CacheRequest.linksKey, Bool.and_eq_true, bne_iff_ne, ne_eq] at hlink
        exact fun h => hlink.2 h.symm
      have hto := (hl hlink).update_data hr.wellFormed hn hne hu
      obtain ⟨c, hc⟩ : ∃ c, followIndirect h₁.hashEntries (h₁.numEntries + 1) b = some c :=
        ⟨b, followIndirect_direct he hd⟩
      rcases hu₂ : h₁.updateResolved r.key (.entry c) with ⟨h₂, r₂⟩
      have hu₂' : h₁.zendAccelHashUpdate r.key (.entry b) = some (h₂, r₂) := by
        simp [zendAccelHashUpdate, hc, hu₂]
      simp only [hc, Option.map_some, hu₂] at h
      have hkeep₂ : ∀ {k i}, s.hash.lookup k = some i → h₂.lookup k = some i :=
        fun hl => hr₁.wellFormed.lookup_updateResolved hu₂ (hkeep hl)
      cases r₂ with
      | some _ =>
        obtain ⟨rfl, rfl⟩ := Prod.mk.inj (Option.some.inj h)
        exact ⟨hr₁.link he hd hk hto hne hu₂' fun k => by
          simp [report, Report.key, eq_comm], hkeep₂⟩
      | none =>
        obtain ⟨rfl, rfl⟩ := Prod.mk.inj (Option.some.inj h)
        exact ⟨hr₁.link he hd hk hto hne hu₂' fun k => by simp [report, Report.key], hkeep₂⟩
    · obtain ⟨rfl, rfl⟩ := Prod.mk.inj (Option.some.inj h)
      exact ⟨hr₁, hkeep⟩

theorem cacheScriptInSharedMemory (hr : Registered s.hash s.scripts (registered log))
    (hstore : s.Stores r → NoAlias s.hash r.script.fullPath ∧
      (r.linksKey = true → NoAliasTo s.hash r.key))
    (hadd : s.findUncorrupted r.script.fullPath ≠ none → s.AddsKey r.key r.keyAllocated →
      NoAlias s.hash r.script.fullPath)
    (h : s.cacheScriptInSharedMemory r = some (t, out)) :
    Registered t.hash t.scripts (registered (report r.script.fullPath out log)) ∧
      ∀ {k i}, s.hash.lookup k = some i → t.hash.lookup k = some i := by
  rcases ScriptCache.cacheScriptInSharedMemory_cases h with
    ⟨hh, hs, -, hq⟩ | ⟨hst, h⟩ | ⟨b, hf, h⟩
  · rw [registered_report_quiet hq, hh, hs]
    exact ⟨hr, id⟩
  · obtain ⟨hn, hl⟩ := hstore hst
    exact hr.storeScript hn hl h
  · have hfe := (Option.filter_eq_some_iff.mp hf).1
    exact hr.zendAccelAddKey (fun ha => (hadd (by simp [hf]) ha).lookup_of_findEntry hfe) h

end Registered

namespace CacheSession

variable {s t : CacheSession π}

omit [DecidableEq π] in
theorem inv_init (n : ℕ) : Inv (init n : CacheSession π) where
  table := Registered.init n
  bucket h := by simp [init] at h

omit [DecidableEq π] in
/-- A call that keeps the found keys and the buckets keeps the invariant. -/
theorem Inv.of_registered (hs : Inv s)
    (hr : Registered t.cache.hash t.cache.scripts (registered t.log))
    (hk : ∀ {k i}, s.cache.hash.lookup k = some i → t.cache.hash.lookup k = some i)
    (hb : ∀ p x, t.bucket p = some x → s.bucket p = some x) : Inv t :=
  ⟨hr, fun h => hk (hs.bucket (hb _ _ h))⟩

omit [ZendInlineHash Path] in
theorem update_none {b : π → Option (Path × ℕ)} {p q : π} {x : Path × ℕ}
    (h : Function.update b p none q = some x) : b q = some x := by
  rw [Function.update_apply] at h
  split_ifs at h
  exact h

theorem Inv.cache (hs : Inv s) {r : CacheRequest} (hg : s.Safe (.cache r))
    (h : s.call (.cache r) = some t) : Inv t := by
  obtain ⟨⟨c, out⟩, hc, rfl⟩ := Option.map_eq_some_iff.mp h
  obtain ⟨hr, hk⟩ := hs.table.cacheScriptInSharedMemory hg.1 hg.2 hc
  exact hs.of_registered hr hk fun _ _ hb => hb

theorem Inv.find (hs : Inv s) {p : π} {path : Path} (hg : s.Safe (.find p path))
    (h : s.call (.find p path) = some t) : Inv t := by
  simp only [call] at h
  cases hf : s.cache.hash.zendAccelHashFindEntry path with
  | none =>
    simp only [hf, Option.some.injEq] at h
    subst h
    exact hs.of_registered hs.table id fun _ _ hb => update_none hb
  | some b =>
    simp only [hf] at h
    obtain ⟨script, hb, rfl⟩ := Option.map_eq_some_iff.mp h
    refine ⟨hs.table, fun {q path' b'} hq => ?_⟩
    simp only [Function.update_apply] at hq
    split_ifs at hq with hqp hc
    · obtain ⟨rfl, rfl⟩ := Prod.mk.inj (Option.some.inj hq)
      have hn : NoAlias s.cache.hash path :=
        hg (by simp [ScriptCache.findUncorrupted, hf, hb, hc])
      obtain ⟨_, hl, -⟩ := hn.lookup_of_findEntry hf
      exact hl
    · exact hs.bucket hq

theorem Inv.addKey (hs : Inv s) {p : π} {key : Path} {keyAllocated : Bool}
    (hg : s.Safe (.addKey p key keyAllocated))
    (h : s.call (.addKey p key keyAllocated) = some t) : Inv t := by
  simp only [call] at h
  cases hb : s.bucket p with
  | none => simp [hb] at h
  | some x =>
    obtain ⟨path, b⟩ := x
    simp only [hb] at h
    obtain ⟨⟨c, out⟩, hc, rfl⟩ := Option.map_eq_some_iff.mp h
    obtain ⟨hr, hk⟩ := hs.table.zendAccelAddKey
      (fun ha => (hg path b hb ha).entry_of_lookup (hs.bucket hb)) hc
    exact hs.of_registered hr hk fun _ _ hb => update_none hb

theorem Inv.corrupt (hs : Inv s) {x : ℕ} (h : s.call (.corrupt x) = some t) : Inv t := by
  simp only [call, Option.some.injEq] at h
  subst h
  refine hs.of_registered ?_ ?_ fun _ _ hb => hb
  · rw [registered_report_quiet ScriptCache.markCorrupted_quiet]
    exact ScriptCache.registered_markCorrupted hs.table x
  · simp

theorem Inv.step (hs : Inv s) {a : CacheCall π} (hg : s.Safe a) (h : Step s a t) : Inv t := by
  cases a with
  | cache r => exact hs.cache hg h
  | find p path => exact hs.find hg h
  | addKey p key keyAllocated => exact hs.addKey hg h
  | corrupt x => exact hs.corrupt h

theorem inv_of_safe_run {n : ℕ} {w : List (CacheCall π)}
    (h : GuardedRun Step Safe (init n) w s) : Inv s :=
  h.invariant (inv_init n) fun hs hg hstep => hs.step hg hstep

/-- In every safe run every direct entry holds a script of its own path, a path that is no alias
finds no other file, and a registered key finds the script of the path it was last registered
for. -/
theorem scripts_of_safe_run {n : ℕ} {w : List (CacheCall π)}
    (h : GuardedRun Step Safe (init n) w s) :
    (∀ i e, s.cache.hash.Linked i → s.cache.hash.hashEntries[i]? = some e → e.indirect = false →
      ∃ x p, e.data = .data x ∧ s.cache.scripts[x]? = some p ∧ e.key = p.fullPath) ∧
    (∀ path x, NoAlias s.cache.hash path → s.cache.hash.zendAccelHashFind path = some x →
      ∃ y p, x = .data y ∧ s.cache.scripts[y]? = some p ∧ p.fullPath = path) ∧
    (∀ key path, registered s.log key = some path →
      ∃ x p, s.cache.hash.zendAccelHashFind key = some (.data x) ∧
        s.cache.hash.zendAccelHashFind path = some (.data x) ∧
        s.cache.scripts[x]? = some p ∧ p.fullPath = path) := by
  have hs := inv_of_safe_run h
  refine ⟨fun i e _ he hd => ?_, fun path x hn hx => hs.table.find_noAlias hn hx,
    fun key path hk => hs.table.find hk⟩
  obtain ⟨x, p, hx, hp, hk⟩ := hs.table.script he hd
  exact ⟨x, p, hx, hp, hk.symm⟩

end CacheSession

end Runs

/-- The times 33 hash of the engine over a key and its terminating zero. -/
@[reducible] def timesThirtyThree : ZendInlineHash Path :=
  ⟨fun key => (key ++ [0]).foldl (fun (h : ℕ) (c : UInt8) => (h * 33 + c.toNat) % 2 ^ 64) 5381⟩

namespace CacheSession

/-- A request that finds room for everything, with revalidation off. -/
def request (path key : Path) (timestamp : ℕ) : CacheRequest where
  script := ⟨path, timestamp, false, 0⟩
  key := key
  directives := ⟨false, true⟩
  persistable := true
  memoryUsed := 1024
  allocated := true
  keyAllocated := true

/-- The paths `/A` and `/B`. -/
def pathA : Path := [47, 65]
def pathB : Path := [47, 66]

section

local instance : ZendInlineHash Path := timesThirtyThree

theorem scripts_of_safe_run_link : ∃ s : CacheSession Unit,
    registered s.log pathA = some pathB ∧
    ∃ x p, s.cache.hash.zendAccelHashFind pathA = some (.data x) ∧
      s.cache.hash.zendAccelHashFind pathB = some (.data x) ∧
      s.cache.scripts[x]? = some p ∧ p.fullPath = pathB := by
  let s₁ : CacheSession Unit := ((init 5).call (.cache (request pathB pathA 1))).get rfl
  have h₁ : Step (init 5) (.cache (request pathB pathA 1)) s₁ := (Option.some_get _).symm
  have hg : (init 5 : CacheSession Unit).Safe (.cache (request pathB pathA 1)) :=
    ⟨fun _ => ⟨.of_lookup_none rfl, fun _ => .of_lookup_none rfl⟩,
      fun _ _ => .of_lookup_none rfl⟩
  exact ⟨s₁, rfl, (scripts_of_safe_run (GuardedRun.single hg h₁)).2.2 pathA pathB rfl⟩

/-- `/A` is a link to `/B` and its key is added; the script becomes stale; then `/A` is a file of
its own. -/
def roleChangeCalls : List (CacheCall Unit) :=
  [.cache (request pathB pathA 1), .corrupt 0, .cache (request pathA pathA 2)]

/-- The script of `/A` is stored through the alias, into the direct entry of `/B`, which then
finds it. -/
theorem direct_entry_of_other_path : ∃ s : CacheSession Unit,
    Run Step (init 5) roleChangeCalls s ∧
    (∃ e p, s.cache.hash.Linked 0 ∧ s.cache.hash.hashEntries[0]? = some e ∧
      e.indirect = false ∧ e.key = pathB ∧ e.data = .data 1 ∧
      s.cache.scripts[1]? = some p ∧ p.fullPath = pathA ∧ p.corrupted = false) ∧
    s.cache.hash.zendAccelHashFind pathB = some (.data 1) := by
  refine ⟨_, GuardedRun.of_foldlM rfl, ⟨_, _, ?_, rfl, rfl, rfl, rfl, rfl, rfl, rfl⟩, rfl⟩
  exact ⟨zendInlineHashFunc pathB % 5, .here rfl⟩

end

end CacheSession

end ZendOpcache
