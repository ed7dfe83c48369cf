import ZendOpcache.Cache.Revalidate
import ZendOpcache.Cache.Wasted

/-! # Served scripts are fresh

A stamp in a script is 0 or comes from a request that stored the script or compared it with its
file. So whenever a script is served with validation on, one of these requests is at most the period
of revalidation older than the serving one, or is that one.
-/

namespace ZendOpcache

section Log

/-- The script was stored with this path and timestamp. -/
def StoredAs (log : List CacheEvent) (x : ℕ) (fullPath : Path) (timestamp : ℕ) : Prop :=
  ∃ r, .cached r x fullPath timestamp ∈ log

/-- The path that was compared is the path of the script, or there was none. -/
def PathAgrees (path : Option Path) (fullPath : Path) : Prop := path = none ∨ path = some fullPath

/-- The request compared the script with its file. The path of the request agreed, and the file
with this path or the one of the script had the timestamp that the script had then: the stored one,
or 0 once the script was marked corrupted. -/
def Validated (log : List CacheEvent) (r : AccelRequest) (x : ℕ) (fullPath : Path)
    (timestamp : ℕ) : Prop :=
  ∃ path file t, .validated r x path file t ∈ log ∧ PathAgrees path fullPath ∧
    (file.openedPath = path ∨ file = ⟨fullPath, some fullPath, true⟩) ∧
    (t = timestamp ∨ t = 0 ∧ .corrupted x ∈ log)

/-- The request stored the script, or compared it with its file. -/
def Vouches (log : List CacheEvent) (r : AccelRequest) (x : ℕ) : Prop :=
  ∃ fullPath timestamp, StoredAs log x fullPath timestamp ∧ timestamp ≠ 0 ∧
    (.cached r x fullPath timestamp ∈ log ∨ Validated log r x fullPath timestamp)

/-- The request itself, or one that is recent enough for it -/
def RecentFor (freq : ℤ) (r r₀ : AccelRequest) : Prop := r₀ = r ∨ freq ≠ 0 ∧ r.time - freq ≤ r₀.time

/-- Some request that is recent enough vouches for the script. -/
def Fresh (freq : ℤ) (log : List CacheEvent) (r : AccelRequest) (x : ℕ) : Prop :=
  ∃ r₀, Vouches log r₀ x ∧ RecentFor freq r r₀

variable {log log' : List CacheEvent} {r : AccelRequest} {x : ℕ} {fullPath : Path}
  {timestamp : ℕ} {freq : ℤ}

theorem StoredAs.mono (h : StoredAs log x fullPath timestamp) (hl : log ⊆ log') :
    StoredAs log' x fullPath timestamp := by
  obtain ⟨r, hr⟩ := h
  exact ⟨r, hl hr⟩

theorem Validated.mono (h : Validated log r x fullPath timestamp) (hl : log ⊆ log') :
    Validated log' r x fullPath timestamp := by
  obtain ⟨path, file, t, hv, hpath, hfile, ht⟩ := h
  exact ⟨path, file, t, hl hv, hpath, hfile, ht.imp_right fun h => ⟨h.1, hl h.2⟩⟩

theorem Vouches.mono (h : Vouches log r x) (hl : log ⊆ log') : Vouches log' r x := by
  obtain ⟨fullPath, timestamp, hstored, hne, hr⟩ := h
  exact ⟨fullPath, timestamp, hstored.mono hl, hne, hr.imp (fun h => hl h) fun h => h.mono hl⟩

theorem Fresh.mono (h : Fresh freq log r x) (hl : log ⊆ log') : Fresh freq log' r x := by
  obtain ⟨r₀, hv, hrecent⟩ := h
  exact ⟨r₀, hv.mono hl, hrecent⟩

theorem Vouches.fresh (h : Vouches log r x) : Fresh freq log r x := ⟨r, h, .inl rfl⟩

end Log

/-- What the scripts and the log have to do with each other in every run. -/
structure SharedScripts.Sound (freq : ℤ) (g : SharedScripts) : Prop where
  script : ∀ {x p}, g.cache.scripts[x]? = some p → ∃ timestamp,
    StoredAs g.log x p.fullPath timestamp ∧
      (p.timestamp = timestamp ∨ p.timestamp = 0 ∧ .corrupted x ∈ g.log)
  stored_lt : ∀ {x fullPath timestamp}, StoredAs g.log x fullPath timestamp →
    x < g.cache.scripts.length
  stored_unique : ∀ {x fullPath timestamp fullPath' timestamp'},
    StoredAs g.log x fullPath timestamp → StoredAs g.log x fullPath' timestamp' →
      fullPath = fullPath' ∧ timestamp = timestamp'
  revalidate : ∀ x, 0 < g.revalidate x → ∃ r, Vouches g.log r x ∧ r.time + freq = g.revalidate x
  served : ∀ {later earlier r x}, g.log = later ++ .served r x true :: earlier →
    Fresh freq earlier r x

/-- What a process has learnt where it stands. -/
def CompileState.Knows (freq : ℤ) (log : List CacheEvent) (l : CompileState) : Prop :=
  match l.pc with
  | .checkTimestamp x path => ∃ fullPath timestamp, StoredAs log x fullPath timestamp ∧
      PathAgrees path fullPath
  | .compareFile x path | .compareFullPath x path => ∃ fullPath timestamp,
      StoredAs log x fullPath timestamp ∧ timestamp ≠ 0 ∧ PathAgrees path fullPath
  | .recordRevalidate x => Vouches log l.request x
  | .loadScript x => l.directives.validateTimestamps = true → Fresh freq log l.request x
  | .cacheScript timestamp => l.directives.validateTimestamps = true → timestamp ≠ 0
  | _ => True

namespace SharedScripts

variable {freq : ℤ} {g g' : SharedScripts} {e : CacheEvent} {r : AccelRequest} {x : ℕ}

theorem sound_init (freq : ℤ) (n : ℕ) : (init n).Sound freq where
  script h := by simp [init, ScriptCache.init] at h
  stored_lt h := by simp [init, StoredAs] at h
  stored_unique h := by simp [init, StoredAs] at h
  revalidate x h := by simp [init] at h
  served h := by simp [init] at h

/-- The event that a served script is split off at is an older one, or the newest. -/
theorem served_cons {log later earlier : List CacheEvent}
    (h : e :: log = later ++ .served r x true :: earlier) :
    (e = .served r x true ∧ log = earlier) ∨
      ∃ later', log = later' ++ .served r x true :: earlier := by
  cases later with
  | nil =>
    obtain ⟨he, hlog⟩ := List.cons.inj h
    exact .inl ⟨he, hlog⟩
  | cons e' later => exact .inr ⟨later, (List.cons.inj h).2⟩

theorem storedAs_cons (hc : ∀ r x fullPath timestamp, e ≠ .cached r x fullPath timestamp)
    {log : List CacheEvent} {fullPath : Path} {timestamp : ℕ} :
    StoredAs (e :: log) x fullPath timestamp ↔ StoredAs log x fullPath timestamp := by
  refine exists_congr fun r => ⟨fun h => ?_, List.mem_cons_of_mem e⟩
  rcases List.mem_cons.mp h with heq | h
  · exact absurd heq.symm (hc r x fullPath timestamp)
  · exact h

/-- An event is logged that stores no script. A script that is served is fresh. -/
theorem Sound.record (h : g.Sound freq)
    (hc : ∀ r x fullPath timestamp, e ≠ .cached r x fullPath timestamp)
    (hs : ∀ r x, e = .served r x true → Fresh freq g.log r x) : (g.record e).Sound freq where
  script hx := by
    obtain ⟨timestamp, hstored, ht⟩ := h.script hx
    refine ⟨timestamp, hstored.mono (List.subset_cons_self e _), ?_⟩
    exact ht.imp_right fun h => ⟨h.1, List.mem_cons_of_mem e h.2⟩
  stored_lt hx := h.stored_lt ((storedAs_cons hc).mp hx)
  stored_unique hx hx' := h.stored_unique ((storedAs_cons hc).mp hx) ((storedAs_cons hc).mp hx')
  revalidate x hx := by
    obtain ⟨r, hv, hr⟩ := h.revalidate x hx
    exact ⟨r, hv.mono (List.subset_cons_self e _), hr⟩
  served hx := by
    rcases served_cons hx with ⟨rfl, rfl⟩ | ⟨later, hlog⟩
    · exact hs _ _ rfl
    · exact h.served hlog

/-- A request that vouches for a script leaves its stamp. -/
theorem Sound.setRevalidate (h : g.Sound freq) (hv : Vouches g.log r x) :
    (g.setRevalidate x (r.time + freq)).Sound freq where
  script := h.script
  stored_lt := h.stored_lt
  stored_unique := h.stored_unique
  revalidate y hy := by
    change 0 < Function.update g.revalidate x (r.time + freq) y at hy
    change ∃ r', Vouches g.log r' y ∧
      r'.time + freq = Function.update g.revalidate x (r.time + freq) y
    by_cases hyx : y = x
    · subst hyx
      exact ⟨r, hv, by rw [Function.update_self]⟩
    · rw [Function.update_of_ne hyx] at hy ⊢
      exact h.revalidate y hy
  served := h.served

/-- The cache changes, but not its scripts. -/
theorem Sound.of_scripts (h : g.Sound freq) {c : ScriptCache}
    (hc : c.scripts = g.cache.scripts) : ({ g with cache := c } : SharedScripts).Sound freq where
  script hx := h.script (hc ▸ hx)
  stored_lt hx := by
    change _ < c.scripts.length
    rw [hc]
    exact h.stored_lt hx
  stored_unique := h.stored_unique
  revalidate := h.revalidate
  served := h.served

theorem scripts_markCorrupted (c : ScriptCache) (x : ℕ) :
    (c.markCorrupted x).1.scripts = c.scripts ∨ (c.markCorrupted x).1.scripts =
      c.scripts.modify x fun p => { p with corrupted := true, timestamp := 0 } := by
  unfold ScriptCache.markCorrupted
  split
  · exact .inl rfl
  · split_ifs
    · exact .inl rfl
    all_goals exact .inr rfl

/-- A script that is marked has no timestamp any more. -/
theorem getElem?_markCorrupted {c : ScriptCache} {y : ℕ} {p : ZendPersistentScript}
    (h : (c.markCorrupted x).1.scripts[y]? = some p) :
    c.scripts[y]? = some p ∨
      y = x ∧ p.timestamp = 0 ∧ ∃ q, c.scripts[y]? = some q ∧ p.fullPath = q.fullPath := by
  rcases scripts_markCorrupted c x with heq | heq
  · exact .inl (heq ▸ h)
  · rw [heq, List.getElem?_modify] at h
    obtain ⟨q, hq, rfl⟩ := Option.map_eq_some_iff.mp h
    by_cases hyx : x = y
    · rw [if_pos hyx]
      exact .inr ⟨hyx.symm, rfl, q, hq, rfl⟩
    · rw [if_neg hyx]
      exact .inl hq

theorem length_markCorrupted (c : ScriptCache) (x : ℕ) :
    (c.markCorrupted x).1.scripts.length = c.scripts.length := by
  rcases scripts_markCorrupted c x with heq | heq
  · rw [heq]
  · rw [heq, List.length_modify]

theorem Sound.markCorrupted (h : g.Sound freq) (x : ℕ) : (g.markCorrupted x).Sound freq := by
  have hr : (g.record (.corrupted x)).Sound freq := h.record (by simp) (by simp)
  refine ⟨fun {y p} hy => ?_, fun hy => ?_, hr.stored_unique, hr.revalidate, hr.served⟩
  · rcases getElem?_markCorrupted hy with hy | ⟨rfl, hp, q, hq, hpath⟩
    · exact hr.script hy
    · obtain ⟨timestamp, hstored, -⟩ := hr.script hq
      rw [hpath]
      exact ⟨timestamp, hstored, .inr ⟨hp, List.mem_cons_self⟩⟩
  · change _ < (g.cache.markCorrupted x).1.scripts.length
    rw [length_markCorrupted]
    exact hr.stored_lt hy

/-- Only the newest event is about a script that is stored at the end. -/
theorem Sound.storedAs_cached (h : g.Sound freq) {y timestamp t : ℕ} {fullPath P : Path}
    (hy : StoredAs (.cached r g.cache.scripts.length fullPath timestamp :: g.log) y P t) :
    (y = g.cache.scripts.length ∧ P = fullPath ∧ t = timestamp) ∨
      (y < g.cache.scripts.length ∧ StoredAs g.log y P t) := by
  obtain ⟨r', hr⟩ := hy
  rcases List.mem_cons.mp hr with heq | hr
  · obtain ⟨-, hy, hP, ht⟩ := CacheEvent.cached.inj heq
    exact .inl ⟨hy, hP, ht⟩
  · exact .inr ⟨h.stored_lt ⟨r', hr⟩, r', hr⟩

/-- A script is stored at the end, and has a stamp only with the timestamp of its file. -/
theorem Sound.store (h : g.Sound freq) {c : ScriptCache} {p : ZendPersistentScript} {time : ℤ}
    (hc : c.scripts = g.cache.scripts ++ [p])
    (htime : 0 < time → p.timestamp ≠ 0 ∧ r.time + freq = time) :
    (({ g with cache := c } : SharedScripts).setRevalidate g.cache.scripts.length time |>.record
      (.cached r g.cache.scripts.length p.fullPath p.timestamp)).Sound freq := by
  have hsub : g.log ⊆ .cached r g.cache.scripts.length p.fullPath p.timestamp :: g.log :=
    List.subset_cons_self _ _
  refine ⟨fun {y q} hy => ?_, fun {y P t} hy => ?_, fun {y P t P' t'} hy hy' => ?_,
    fun y hy => ?_, fun {later earlier r' y} hlog => ?_⟩
  · change c.scripts[y]? = some q at hy
    rw [hc] at hy
    rcases Nat.lt_or_ge y g.cache.scripts.length with hlt | hge
    · rw [List.getElem?_append_left hlt] at hy
      obtain ⟨t, hstored, ht⟩ := h.script hy
      exact ⟨t, hstored.mono hsub, ht.imp_right fun h => ⟨h.1, hsub h.2⟩⟩
    · rw [List.getElem?_append_right hge, List.getElem?_singleton] at hy
      split_ifs at hy with hyx
      obtain rfl := Option.some.inj hy
      obtain rfl : y = g.cache.scripts.length := by omega
      exact ⟨p.timestamp, ⟨r, List.mem_cons_self⟩, .inl rfl⟩
  · change y < c.scripts.length
    rw [hc, List.length_append, List.length_singleton]
    rcases h.storedAs_cached hy with ⟨rfl, -, -⟩ | ⟨hlt, -⟩
    · exact Nat.lt_succ_self _
    · exact Nat.lt_succ_of_lt hlt
  · rcases h.storedAs_cached hy with ⟨rfl, rfl, rfl⟩ | ⟨hlt, hold⟩
    · rcases h.storedAs_cached hy' with ⟨-, rfl, rfl⟩ | ⟨hlt', -⟩
      · exact ⟨rfl, rfl⟩
      · exact absurd hlt' (Nat.lt_irrefl _)
    · rcases h.storedAs_cached hy' with ⟨rfl, -, -⟩ | ⟨-, hold'⟩
      · exact absurd hlt (Nat.lt_irrefl _)
      · exact h.stored_unique hold hold'
  · change 0 < Function.update g.revalidate g.cache.scripts.length time y at hy
    change ∃ r', Vouches (_ :: g.log) r' y ∧
      r'.time + freq = Function.update g.revalidate g.cache.scripts.length time y
    by_cases hyx : y = g.cache.scripts.length
    · rw [hyx, Function.update_self] at hy ⊢
      obtain ⟨hne, htime⟩ := htime hy
      exact ⟨r, ⟨p.fullPath, p.timestamp, ⟨r, List.mem_cons_self⟩, hne,
        .inl List.mem_cons_self⟩, htime⟩
    · rw [Function.update_of_ne hyx] at hy ⊢
      obtain ⟨r', hv, hr⟩ := h.revalidate y hy
      exact ⟨r', hv.mono hsub, hr⟩
  · rcases served_cons hlog with ⟨heq, -⟩ | ⟨later', hlog⟩
    · cases heq
    · exact h.served hlog

end SharedScripts

section Stores

variable {s t : ScriptCache} {r : CacheRequest} {out : List Report}

/-- A call that stores puts its script behind the others. -/
theorem ScriptCache.scripts_storeScript [ZendInlineHash Path]
    (h : s.storeScript r = some (t, out)) :
    ∃ m, t.scripts = s.scripts ++ [{ r.script with memoryConsumption := m }] := by
  refine ⟨blockSize r.memoryUsed.toUInt64, ?_⟩
  unfold storeScript at h
  dsimp only at h
  split at h
  · simp at h
  · obtain ⟨rfl, -⟩ := Prod.mk.inj (Option.some.inj h)
    rfl
  · split_ifs at h
    · split at h
      · simp at h
      · obtain ⟨rfl, -⟩ := Prod.mk.inj (Option.some.inj h)
        rfl
      · obtain ⟨rfl, -⟩ := Prod.mk.inj (Option.some.inj h)
        rfl
    · obtain ⟨rfl, -⟩ := Prod.mk.inj (Option.some.inj h)
      rfl

theorem ScriptCache.scripts_cacheScriptInSharedMemory [ZendInlineHash Path]
    (h : s.cacheScriptInSharedMemory r = some (t, out)) :
    t.scripts = s.scripts ∨
      ∃ m, t.scripts = s.scripts ++ [{ r.script with memoryConsumption := m }] := by
  rcases cacheScriptInSharedMemory_cases h with ⟨-, hs, -, -⟩ | ⟨-, h⟩ | ⟨b, -, h⟩
  · exact .inl hs
  · exact .inr (scripts_storeScript h)
  · exact .inl (wasted_zendAccelAddKey h).2

end Stores

namespace CompileState

variable {freq : ℤ} {g g' : SharedScripts} {l l' : CompileState}
  {o : Surroundings} {x timestamp : ℕ}

theorem sound_cacheScript [ZendInlineHash Path] (h : g.Sound freq)
    (hl : l.directives.validateTimestamps = true → timestamp ≠ 0)
    (hg : cacheScript freq o l g timestamp = some g') : g'.Sound freq ∧ g.log ⊆ g'.log := by
  obtain ⟨⟨c, out⟩, hc, hg⟩ := Option.map_eq_some_iff.mp hg
  dsimp only at hg
  rcases ScriptCache.scripts_cacheScriptInSharedMemory hc with hs | ⟨m, hs⟩
  · rw [if_pos (by rw [hs])] at hg
    obtain rfl := hg
    exact ⟨h.of_scripts hs, List.Subset.refl _⟩
  · rw [if_neg (by simp [hs])] at hg
    obtain rfl := hg
    refine ⟨h.store (p := { (l.cacheRequest o timestamp).script with memoryConsumption := m }) hs
      fun htime => ?_, List.subset_cons_self _ _⟩
    -- without validation the stamp stays 0
    split_ifs at htime ⊢ with hval
    · exact ⟨hl hval, rfl⟩
    · exact absurd htime (lt_irrefl 0)

theorem Knows.mono {log log' : List CacheEvent} (h : l.Knows freq log) (hl : log ⊆ log') :
    l.Knows freq log' := by
  unfold Knows at h ⊢
  split at h
  · obtain ⟨fullPath, t, hstored, hpath⟩ := h
    exact ⟨fullPath, t, hstored.mono hl, hpath⟩
  · obtain ⟨fullPath, t, hstored, hne, hpath⟩ := h
    exact ⟨fullPath, t, hstored.mono hl, hne, hpath⟩
  · obtain ⟨fullPath, t, hstored, hne, hpath⟩ := h
    exact ⟨fullPath, t, hstored.mono hl, hne, hpath⟩
  · exact h.mono hl
  · exact fun hval => (h hval).mono hl
  · exact h
  · trivial

section Places

variable {log : List CacheEvent} (l)

theorem knows_idle : (l.goto .idle).Knows freq log := trivial

theorem knows_failed (x : ℕ) : (l.failed x).Knows freq log := by
  unfold failed
  split_ifs <;> trivial

theorem knows_miss {pc : CompilePc} (h : (l.goto pc).Knows freq log) :
    (l.miss pc).Knows freq log := by
  unfold miss
  split_ifs
  · exact h
  · exact l.knows_idle

/-- A script is loaded without validation, or while it is fresh. -/
theorem knows_valid
    (h : l.directives.validateTimestamps = true → Fresh freq log l.request x) :
    (l.valid x).Knows freq log := by
  unfold valid
  split_ifs
  · exact h
  · exact l.knows_idle

end Places

/-- What a step keeps: the scripts go with the log, the log only grows, and the process learns
what it needs to know. -/
structure Keeps (freq : ℤ) (g : SharedScripts) (l l' : CompileState) (g' : SharedScripts) :
    Prop where
  sound : g'.Sound freq
  log : g.log ⊆ g'.log
  knows : l'.Knows freq g'.log
  request : l'.request = l.request

/-- A step that leaves the shared scripts as they are -/
theorem Keeps.of_knows (h : g.Sound freq) (hl : l'.Knows freq g.log)
    (hr : l'.request = l.request) : Keeps freq g l l' g := ⟨h, List.Subset.refl _, hl, hr⟩

@[simp] theorem request_goto (pc : CompilePc) : (l.goto pc).request = l.request := rfl
@[simp] theorem request_failed (x : ℕ) : (l.failed x).request = l.request := rfl
@[simp] theorem request_valid (x : ℕ) : (l.valid x).request = l.request := rfl
@[simp] theorem request_miss (pc : CompilePc) : (l.miss pc).request = l.request := rfl

/-- The stamp is read: it is recent only if a request left it. -/
theorem keeps_readRevalidate [ZendInlineHash Path] (h : g.Sound freq) (htime : 0 < l.request.time)
    (hpc : l.pc = .readRevalidate x) (hstep : l.next freq o g = some (l', g')) :
    Keeps freq g l l' g' := by
  simp only [next, hpc, Option.some.injEq, Prod.mk.injEq] at hstep
  obtain ⟨rfl, rfl⟩ := hstep
  split_ifs with hrecent
  · refine .of_knows h (l.knows_valid fun _ => ?_) rfl
    obtain ⟨hfreq, hle⟩ := hrecent
    obtain ⟨r, hv, hr⟩ := h.revalidate x (lt_of_lt_of_le htime hle)
    exact ⟨r, hv, .inr ⟨hfreq, by omega⟩⟩
  · exact .of_knows h trivial rfl

/-- The path that is compared is the one of the script, or there is none. -/
theorem keeps_checkPath [ZendInlineHash Path] (h : g.Sound freq) (hpc : l.pc = .checkPath x)
    (hstep : l.next freq o g = some (l', g')) : Keeps freq g l l' g' := by
  simp only [next, hpc] at hstep
  obtain ⟨script, hx, hstep⟩ := Option.map_eq_some_iff.mp hstep
  obtain ⟨timestamp, hstored, -⟩ := h.script hx
  split at hstep
  · split_ifs at hstep with hpath
    · obtain ⟨rfl, rfl⟩ := Prod.mk.inj hstep
      exact .of_knows h (l.knows_failed x) rfl
    · obtain ⟨rfl, rfl⟩ := Prod.mk.inj hstep
      have hagrees : PathAgrees (some _) script.fullPath :=
        .inr (congrArg some (not_not.mp hpath).symm)
      exact .of_knows h ⟨script.fullPath, timestamp, hstored, hagrees⟩ rfl
  · obtain ⟨rfl, rfl⟩ := Prod.mk.inj hstep
    exact .of_knows h ⟨script.fullPath, timestamp, hstored, .inl rfl⟩ rfl

/-- A script that is compared further was stored with a timestamp. -/
theorem keeps_checkTimestamp [ZendInlineHash Path] {path : Option Path} (h : g.Sound freq)
    (hl : l.Knows freq g.log) (hpc : l.pc = .checkTimestamp x path)
    (hstep : l.next freq o g = some (l', g')) :
    Keeps freq g l l' g' := by
  simp only [Knows, hpc] at hl
  obtain ⟨fullPath, timestamp, hstored, hpath⟩ := hl
  simp only [next, hpc] at hstep
  obtain ⟨script, hx, hstep⟩ := Option.map_eq_some_iff.mp hstep
  obtain ⟨rfl, rfl⟩ := Prod.mk.inj hstep
  split_ifs with hzero
  · exact .of_knows h (l.knows_failed x) rfl
  · refine .of_knows h ⟨fullPath, timestamp, hstored, ?_, hpath⟩ rfl
    obtain ⟨t, hstored', ht | ⟨ht, -⟩⟩ := h.script hx
    · obtain ⟨-, rfl⟩ := h.stored_unique hstored hstored'
      exact ht ▸ hzero
    · exact absurd ht hzero

/-- A file that has the timestamp of the script makes the request vouch for it. -/
theorem keeps_validated {path : Option Path} {script : ZendPersistentScript} {file : ZendFileHandle}
    (h : g.Sound freq) (hx : g.cache.scripts[x]? = some script)
    (hl : ∃ fullPath timestamp, StoredAs g.log x fullPath timestamp ∧ timestamp ≠ 0 ∧
      PathAgrees path fullPath)
    (hfile : file.openedPath = path ∨ file = psHandle script) :
    Keeps freq g l (l.goto (.recordRevalidate x))
      (g.record (.validated l.request x path file script.timestamp)) := by
  obtain ⟨fullPath, timestamp, hstored, hne, hpath⟩ := hl
  obtain ⟨t, hstored', ht⟩ := h.script hx
  obtain ⟨rfl, rfl⟩ := h.stored_unique hstored hstored'
  have hsub : g.log ⊆ .validated l.request x path file script.timestamp :: g.log :=
    List.subset_cons_self _ _
  refine ⟨h.record (by simp) (by simp), hsub, ?_, rfl⟩
  exact ⟨script.fullPath, timestamp, hstored.mono hsub, hne,
    .inr ⟨path, file, script.timestamp, List.mem_cons_self, hpath, hfile,
      ht.imp_right fun h => ⟨h.1, hsub h.2⟩⟩⟩

theorem keeps_next [ZendInlineHash Path] (h : g.Sound freq) (hl : l.Knows freq g.log)
    (htime : 0 < l.request.time) (hstep : l.next freq o g = some (l', g')) :
    Keeps freq g l l' g' := by
  cases hpc : l.pc with
  | idle => simp [next, hpc] at hstep
  | find keys =>
    cases keys with
    | nil =>
      simp only [next, hpc, Option.some.injEq, Prod.mk.injEq] at hstep
      obtain ⟨rfl, rfl⟩ := hstep
      exact .of_knows h (l.knows_miss trivial) rfl
    | cons key keys =>
      simp only [next, hpc] at hstep
      split at hstep
      all_goals
        obtain ⟨rfl, rfl⟩ := Prod.mk.inj (Option.some.inj hstep)
        exact .of_knows h trivial rfl
  | openFile =>
    simp only [next, hpc] at hstep
    split at hstep
    · obtain ⟨rfl, rfl⟩ := Prod.mk.inj (Option.some.inj hstep)
      exact .of_knows h l.knows_idle rfl
    · split at hstep
      · split_ifs at hstep
        all_goals
          obtain ⟨rfl, rfl⟩ := Prod.mk.inj (Option.some.inj hstep)
          exact .of_knows h trivial rfl
      · obtain ⟨rfl, rfl⟩ := Prod.mk.inj (Option.some.inj hstep)
        exact .of_knows h trivial rfl
  | addKey bucket x =>
    simp only [next, hpc] at hstep
    obtain ⟨⟨c, out⟩, hc, hstep⟩ := Option.map_eq_some_iff.mp hstep
    obtain ⟨rfl, rfl⟩ := Prod.mk.inj hstep
    have hscripts := (ScriptCache.wasted_zendAccelAddKey hc).2
    exact ⟨h.of_scripts hscripts, List.Subset.refl _, trivial, rfl⟩
  | isCorrupted x =>
    simp only [next, hpc] at hstep
    obtain ⟨script, -, hstep⟩ := Option.map_eq_some_iff.mp hstep
    obtain ⟨rfl, rfl⟩ := Prod.mk.inj hstep
    split_ifs with hcorrupted hval
    · exact .of_knows h (l.knows_miss trivial) rfl
    · exact .of_knows h trivial rfl
    · exact .of_knows h (l.knows_valid fun hval' => absurd hval' hval) rfl
  | readRevalidate x => exact keeps_readRevalidate h htime hpc hstep
  | checkPath x => exact keeps_checkPath h hpc hstep
  | checkTimestamp x path => exact keeps_checkTimestamp h hl hpc hstep
  | compareFile x path =>
    simp only [Knows, hpc] at hl
    simp only [next, hpc] at hstep
    obtain ⟨script, hx, hstep⟩ := Option.map_eq_some_iff.mp hstep
    split_ifs at hstep
    all_goals obtain ⟨rfl, rfl⟩ := Prod.mk.inj hstep
    · exact keeps_validated h hx hl (.inl rfl)
    · exact .of_knows h hl rfl
  | compareFullPath x path =>
    simp only [Knows, hpc] at hl
    simp only [next, hpc] at hstep
    obtain ⟨script, hx, hstep⟩ := Option.map_eq_some_iff.mp hstep
    split_ifs at hstep
    all_goals obtain ⟨rfl, rfl⟩ := Prod.mk.inj hstep
    · exact keeps_validated h hx hl (.inr rfl)
    · exact .of_knows h (l.knows_failed x) rfl
  | recordRevalidate x =>
    simp only [Knows, hpc] at hl
    simp only [next, hpc, Option.some.injEq, Prod.mk.injEq] at hstep
    obtain ⟨rfl, rfl⟩ := hstep
    exact ⟨h.setRevalidate hl, List.Subset.refl _, l.knows_valid fun _ => hl.fresh, rfl⟩
  | markCorrupted x =>
    simp only [next, hpc, Option.some.injEq, Prod.mk.injEq] at hstep
    obtain ⟨rfl, rfl⟩ := hstep
    exact ⟨h.markCorrupted x, List.subset_cons_self _ _, trivial, rfl⟩
  | loadScript x =>
    simp only [Knows, hpc] at hl
    simp only [next, hpc, Option.some.injEq, Prod.mk.injEq] at hstep
    obtain ⟨rfl, rfl⟩ := hstep
    refine ⟨h.record (by simp) fun r y heq => ?_, List.subset_cons_self _ _, trivial, rfl⟩
    obtain ⟨rfl, rfl, hval⟩ := CacheEvent.served.inj heq
    exact hl hval
  | getTimestamp =>
    simp only [next, hpc] at hstep
    split at hstep
    · obtain ⟨rfl, rfl⟩ := Prod.mk.inj (Option.some.inj hstep)
      exact .of_knows h l.knows_idle rfl
    · split_ifs at hstep with hval hzero
      all_goals obtain ⟨rfl, rfl⟩ := Prod.mk.inj (Option.some.inj hstep)
      · exact .of_knows h trivial rfl
      · exact .of_knows h (fun _ => hzero) rfl
      · exact .of_knows h (fun hval' => absurd hval' hval) rfl
  | cacheScript timestamp =>
    simp only [Knows, hpc] at hl
    simp only [next, hpc] at hstep
    obtain ⟨g₁, hg, hstep⟩ := Option.map_eq_some_iff.mp hstep
    obtain ⟨rfl, rfl⟩ := Prod.mk.inj hstep
    obtain ⟨hsound, hlog⟩ := sound_cacheScript h hl hg
    exact ⟨hsound, hlog, l.knows_idle, rfl⟩

theorem keeps_act [ZendInlineHash Path] {others : (CompileState → Bool) → Bool} {a : CompileAction}
    (h : g.Sound freq) (hl : l.Knows freq g.log) (htime : 0 < l.request.time)
    (hstep : l.act freq others g a = some (l', g')) :
    g'.Sound freq ∧ g.log ⊆ g'.log ∧ l'.Knows freq g'.log ∧ 0 < l'.request.time := by
  cases a with
  | next o =>
    have hk := keeps_next h hl htime hstep
    exact ⟨hk.sound, hk.log, hk.knows, hk.request ▸ htime⟩
  | accelActivate time =>
    simp only [act] at hstep
    split_ifs at hstep with hidle
    obtain ⟨rfl, rfl⟩ := Prod.mk.inj (Option.some.inj hstep)
    refine ⟨⟨h.script, h.stored_lt, h.stored_unique, h.revalidate, h.served⟩,
      List.Subset.refl _, ?_, hidle.2⟩
    simp only [Knows, hidle.1]
  | persistentCompileFile | persistentCompileCached | filenameIsInCache =>
    simp only [act] at hstep
    split_ifs at hstep
    obtain ⟨rfl, rfl⟩ := Prod.mk.inj (Option.some.inj hstep)
    exact ⟨h, List.Subset.refl _, trivial, htime⟩
  | zendAccelInvalidate x =>
    simp only [act] at hstep
    split_ifs at hstep
    obtain ⟨rfl, rfl⟩ := Prod.mk.inj (Option.some.inj hstep)
    have hsub : g.log ⊆ (g.markCorrupted x).log := List.subset_cons_self _ _
    exact ⟨h.markCorrupted x, hsub, hl.mono hsub, htime⟩
  | restart =>
    simp only [act] at hstep
    split_ifs at hstep
    obtain ⟨rfl, rfl⟩ := Prod.mk.inj (Option.some.inj hstep)
    exact ⟨h.of_scripts rfl, List.Subset.refl _, hl, htime⟩
  | wrongChecksum =>
    simp only [act] at hstep
    split at hstep
    · obtain ⟨rfl, rfl⟩ := Prod.mk.inj (Option.some.inj hstep)
      exact ⟨h, List.Subset.refl _, trivial, htime⟩
    · simp at hstep
  | compileFile =>
    simp only [act] at hstep
    split_ifs at hstep
    obtain ⟨rfl, rfl⟩ := Prod.mk.inj (Option.some.inj hstep)
    exact ⟨h, List.Subset.refl _, l.knows_idle, htime⟩

end CompileState

namespace Revalidation

variable {π : Type*} [Fintype π] [DecidableEq π] {freq : ℤ}
  {s t : Revalidation π} {n : ℕ}

/-- What every run keeps. -/
structure Inv (freq : ℤ) (s : Revalidation π) : Prop where
  sound : s.shared.Sound freq
  knows : ∀ p, (s.proc p).Knows freq s.shared.log ∧ 0 < (s.proc p).request.time

omit [Fintype π] [DecidableEq π] in
theorem inv_init : Inv freq (init n : Revalidation π) where
  sound := SharedScripts.sound_init freq n
  knows _ := ⟨trivial, Int.one_pos⟩

theorem Inv.step [ZendInlineHash Path] {a : π × CompileAction} (h : Inv freq s)
    (hs : Step freq s a t) : Inv freq t := by
  obtain ⟨p, a⟩ := a
  obtain ⟨hact, ho⟩ := Procs.step_cases hs
  obtain ⟨hsound, hlog, hknows⟩ := CompileState.keeps_act h.sound (h.knows p).1 (h.knows p).2 hact
  refine ⟨hsound, fun q => ?_⟩
  by_cases hq : q = p
  · rw [hq]
    exact hknows
  · rw [ho q hq]
    exact ⟨(h.knows q).1.mono hlog, (h.knows q).2⟩

theorem inv_of_run [ZendInlineHash Path] {w : List (π × CompileAction)}
    (h : Run (Step freq) (init n) w s) : Inv freq s :=
  h.invariant inv_init fun hs _ hstep => hs.step hstep

/-- In every run a script that is served with validation was stored with a timestamp, and some
request that is recent enough for the serving one stored it, or compared it with its file. -/
theorem served_of_run [ZendInlineHash Path] {w : List (π × CompileAction)}
    (h : Run (Step freq) (init n) w s)
    {later earlier : List CacheEvent} {r : AccelRequest} {x : ℕ}
    (hlog : s.shared.log = later ++ .served r x true :: earlier) :
    (∀ fullPath timestamp, StoredAs s.shared.log x fullPath timestamp → timestamp ≠ 0) ∧
    ∃ fullPath timestamp, StoredAs earlier x fullPath timestamp ∧
      ∃ r₀, RecentFor freq r r₀ ∧ (.cached r₀ x fullPath timestamp ∈ earlier ∨
        Validated earlier r₀ x fullPath timestamp) := by
  have hi := inv_of_run h
  obtain ⟨r₀, ⟨fullPath, timestamp, hstored, hne, hv⟩, hrecent⟩ := hi.sound.served hlog
  refine ⟨fun P t ht => ?_, fullPath, timestamp, hstored, r₀, hrecent, hv⟩
  have hsub : earlier ⊆ s.shared.log := by
    rw [hlog]
    exact fun e he => List.mem_append_right later (List.mem_cons_of_mem _ he)
  obtain ⟨-, rfl⟩ := hi.sound.stored_unique (hstored.mono hsub) ht
  exact hne

end Revalidation

namespace Revalidation

section

local instance : ZendInlineHash Path := timesThirtyThree

open CacheSession

/-- `/A` is a file and `/B` a link to it. -/
def linked : Surroundings where
  resolvePath _ := some pathA
  streamOpen handle := some ⟨handle.filename, some pathA, false⟩
  timestamp _ := 5
  persistable := true
  memoryUsed := 1024
  allocated := true
  keyAllocated := true

/-- The link `/B` is gone. -/
def unlinked : Surroundings where
  resolvePath path := if path = pathA then some pathA else none
  streamOpen handle := if handle.filename = pathA then some ⟨pathA, some pathA, false⟩ else none
  timestamp handle := if handle.openedPath.getD handle.filename = pathA then 5 else 0
  persistable := true
  memoryUsed := 1024
  allocated := true
  keyAllocated := true

/-- A request for `/B`, with steps that see the given surroundings. -/
def compileLink (time : ℤ) (o : Surroundings) (steps : ℕ) : List (Unit × CompileAction) :=
  ((), .accelActivate time) ::
    ((), .persistentCompileFile ⟨false, true⟩ ⟨pathB, none, true⟩ pathB) ::
      List.replicate steps ((), .next o)

/-- The log after a script was stored, and served within the period of revalidation -/
theorem served_of_run_stamped : ∃ s : Revalidation Unit,
    Run (Step 2) (init 5) (compileLink 10 linked 5 ++ compileLink 11 linked 4) s ∧
    s.shared.log = [.served ⟨1, 11⟩ 0 true, .cached ⟨0, 10⟩ 0 pathA 5] ∧
    ∃ r₀, RecentFor 2 ⟨1, 11⟩ r₀ := by
  let w := compileLink 10 linked 5 ++ compileLink 11 linked 4
  let s : Revalidation Unit := (w.foldlM (Procs.step (CompileState.act 2)) (init 5)).get rfl
  have hr : Run (Step 2) (init 5) w s := GuardedRun.of_foldlM (Option.some_get _).symm
  have hlog : s.shared.log = [] ++ .served ⟨1, 11⟩ 0 true :: [.cached ⟨0, 10⟩ 0 pathA 5] := rfl
  obtain ⟨-, fullPath, timestamp, -, r₀, hrecent, -⟩ := served_of_run hr hlog
  exact ⟨s, hr, hlog, r₀, hrecent⟩

/-- With a period of 0, a script is served under the name of a link that is gone: the serving
request, which did not store it, has compared no path with the one of the script. -/
theorem served_unresolved : ∃ s : Revalidation Unit,
    Run (Step 0) (init 5) (compileLink 10 linked 5 ++ compileLink 11 unlinked 9) s ∧
    ∃ r earlier, s.shared.log = .served r 0 true :: earlier ∧
      (∀ fullPath timestamp, .cached r 0 fullPath timestamp ∉ earlier) ∧
      ∀ path file timestamp, .validated r 0 (some path) file timestamp ∉ earlier := by
  let w := compileLink 10 linked 5 ++ compileLink 11 unlinked 9
  let s : Revalidation Unit := (w.foldlM (Procs.step (CompileState.act 0)) (init 5)).get rfl
  have hr : Run (Step 0) (init 5) w s := GuardedRun.of_foldlM (Option.some_get _).symm
  have hlog : s.shared.log = [.served ⟨1, 11⟩ 0 true,
    .validated ⟨1, 11⟩ 0 none ⟨pathA, some pathA, true⟩ 5, .cached ⟨0, 10⟩ 0 pathA 5] := rfl
  refine ⟨s, hr, ⟨1, 11⟩, _, hlog, fun fullPath timestamp => by simp, fun path file timestamp => ?_⟩
  simp

end

end Revalidation

end ZendOpcache
