import ZendOpcache.Cache.IncludeKeys

/-! # Runs with include paths

A restart brings the allocator back to the state after startup and cannot reach the pointers of the
other processes. They stay valid in every run in which a path that is registered before
a restart was registered at startup, and no process stands on another path when the cache restarts.
-/

namespace ZendOpcache

namespace ZendAccelHash

variable {κ δ : Type*} [DecidableEq κ] [ZendInlineHash κ]

omit [DecidableEq κ] in
/-- A table with one entry, in its bucket. -/
theorem wellFormed_single {h : ZendAccelHash κ δ} {e : ZendAccelHashEntry κ δ}
    (hentries : h.hashEntries = [e]) (hnext : e.next = none) (hmax : 1 ≤ h.maxNumEntries)
    (hhash : e.hashValue = zendInlineHashFunc e.key)
    (htable : ∀ b, h.hashTable b = if h.index e.key = b then some 0 else none) :
    h.WellFormed ∧ h.Linked 0 := by
  have hget : h.hashEntries[0]? = some e := by simp [hentries]
  have hone : ∀ {i : ℕ} {e' : ZendAccelHashEntry κ δ}, h.hashEntries[i]? = some e' → i = 0 ∧
      e' = e := by
    intro i e' he'
    rw [hentries] at he'
    cases i with
    | zero => exact ⟨rfl, by simpa using he'.symm⟩
    | succ i => simp at he'
  have hchain : ∀ {b i : ℕ}, ChainFrom h.hashEntries (h.hashTable b) i → h.index e.key = b := by
    intro b i hc
    by_contra hne
    rw [htable, if_neg hne] at hc
    cases hc
  refine ⟨⟨by simpa [numEntries, hentries], ?_, ?_, ?_, ?_, ?_⟩, h.index e.key, ?_⟩
  · intro b i hb
    rw [htable] at hb
    split_ifs at hb
    obtain rfl := Option.some.inj hb
    simp [numEntries, hentries]
  · intro i e' j he' hj
    obtain ⟨-, rfl⟩ := hone he'
    simp [hnext] at hj
  · intro i e' he'
    obtain ⟨-, rfl⟩ := hone he'
    exact hhash
  · intro b i e' hc he'
    obtain ⟨-, rfl⟩ := hone he'
    exact hchain hc
  · intro i j e₁ e₂ hi hj he₁ he₂ _
    obtain ⟨rfl, -⟩ := hone he₁
    obtain ⟨rfl, -⟩ := hone he₂
    rfl
  · rw [htable, if_pos rfl]
    exact .here hget

end ZendAccelHash

namespace ZendSmmSharedGlobals

variable {s t : ZendSmmSharedGlobals}

/-- What is restored depends on the sizes of the segments only. -/
theorem sharedSegments_restore (s : ZendSmmSharedGlobals) (m : ZendSharedMemoryState) :
    (s.zendSharedAllocRestoreState m).sharedSegments =
      s.sizes.zipWith (fun size p => ⟨size, ofPosition p⟩) m.positions := by
  simp [zendSharedAllocRestoreState, sizes, List.zipWith_map_left]

theorem below_restore_congr (h : t.sizes = s.sizes) {m : ZendSharedMemoryState} {p : SharedPtr}
    {n : ℕ} (hb : (s.zendSharedAllocRestoreState m).Below p n) :
    (t.zendSharedAllocRestoreState m).Below p n := by
  obtain ⟨seg, hseg, hle⟩ := hb
  refine ⟨seg, ?_, hle⟩
  rw [← hseg, sharedSegments_restore, sharedSegments_restore, h]

end ZendSmmSharedGlobals

namespace IncludePaths

variable {π : Type*} [ZendInlineHash (List Char)]

/-- The condition on a call: blocks of less than 4 GiB; and at a restart, no path is registered
unless one was registered at startup, and every process that has a letter has the path of startup in
force. -/
def InPlace (s₀ s : IncludePaths π) : IncludeCall π → Prop
  | .alloc size _ => size.toNat < 2 ^ 32 - 8
  | .register p => (s.globals p).includePath.length + 2 < 2 ^ 32 - 8
  | .restart => (s.table.hashEntries = [] ∨ s₀.table.hashEntries ≠ []) ∧
    ∀ p, (s.globals p).includePathKey ≠ none →
      (s.globals p).includePath = (s₀.globals p).includePath
  | _ => True

/-- The first entry, whose block is below what a restart brings back. -/
structure Kept (s : IncludePaths π) (e : PathEntry) (path : List Char) : Prop where
  entry : s.table.hashEntries[0]? = some e
  holds : s.Holds 0 e path
  below : ∀ m, s.pool.saved = some m →
    (s.pool.globals.zendSharedAllocRestoreState m).Below e.key.1 (path.length + 2)

/-- What every run keeps. -/
structure Inv (s s₀ : IncludePaths π) (path : List Char) : Prop where
  sound : s.Sound
  served : ∀ p, s.Served (s.globals p)
  kept : ∀ e, s₀.table.hashEntries[0]? = some e → s.Kept e path

/-- The pointers to letters are good: the letter of a process is the one that the table has for its
path, in a block below the position of its segment that no other block overlaps, and different
paths have different letters. So are the pointers of the table itself. -/
structure LettersInPlace (s : IncludePaths π) : Prop where
  allocated : ∀ (i : ℕ) (e : PathEntry), s.table.hashEntries[i]? = some e → ∃ path, s.Holds i e path
  registered : ∀ p q, (s.globals p).includePathKey = some q →
    s.find (s.globals p).includePath = some q ∧ ∃ (i : ℕ) (e : PathEntry),
      s.table.hashEntries[i]? = some e ∧ s.Holds i e (s.globals p).includePath ∧ e.data = .data q
  distinct : ∀ p p' q q', (s.globals p).includePathKey = some q →
    (s.globals p').includePathKey = some q' →
    (s.globals p).includePath ≠ (s.globals p').includePath → s.memory.get q ≠ s.memory.get q'

variable {s s' s₀ : IncludePaths π} {i : ℕ} {e : PathEntry} {path path' : List Char} {q : SharedPtr}
  {p : π} {size : UInt64} {r : Option SharedPtr}

theorem Inv.lettersInPlace (h : s.Inv s₀ path) : s.LettersInPlace := by
  have hreg : ∀ p q, (s.globals p).includePathKey = some q → ∃ (i : ℕ) (e : PathEntry),
      s.table.hashEntries[i]? = some e ∧ s.Holds i e (s.globals p).includePath ∧ e.data = .data q :=
    fun p q hq => h.sound.find_eq_some_iff.mp (h.served p q hq)
  refine ⟨h.sound.entries, fun p q hq => ⟨h.served p q hq, hreg p q hq⟩, ?_⟩
  intro p p' q q' hq hq' hne heq
  obtain ⟨i, e, he, hh, hd⟩ := hreg p q hq
  obtain ⟨j, e', he', hh', hd'⟩ := hreg p' q' hq'
  rw [hh.letter hd, hh'.letter hd'] at heq
  obtain rfl := pathLetter_inj (h.sound.index_lt he) (h.sound.index_lt he') heq
  obtain rfl : e = e' := Option.some.inj (he.symm.trans he')
  exact hne (hh.path_unique hh')

omit [ZendInlineHash (List Char)] in
theorem Kept.grows (h : s.Kept e path) (hg : s.Grows s') : s'.Kept e path := by
  refine ⟨hg.entries 0 e h.entry, hg.holds h.holds, fun m hm => ?_⟩
  exact ZendSmmSharedGlobals.below_restore_congr hg.sizes (h.below m (hg.saved ▸ hm))

/-- A step that only adds to the table keeps all of it. -/
theorem Inv.grows (h : s.Inv s₀ path) (hg : s.Grows s') (hs' : s'.Sound)
    (hserved : ∀ p, s'.Served (s'.globals p)) : s'.Inv s₀ path :=
  ⟨hs', hserved, fun e he => (h.kept e he).grows hg⟩

theorem Served.grows {g : IncludeGlobals} (h : s.Served g) (hs : s.Sound) (hs' : s'.Sound)
    (hg : s.Grows s') : s'.Served g := fun q hq => hg.find hs hs' (h q hq)

/-- A process that changes what it knows. -/
theorem Inv.setGlobals [DecidableEq π] (h : s.Inv s₀ path) {g : IncludeGlobals} (hg : s.Served g) :
    (s.setGlobals p g).Inv s₀ path := by
  refine h.grows (grows_setGlobals s g) (h.sound.setGlobals g) fun p' => ?_
  change s.Served (Function.update s.globals p g p')
  by_cases hp : p' = p
  · rw [hp, Function.update_self]
    exact hg
  · rw [Function.update_of_ne hp]
    exact h.served p'

theorem Inv.onModify [DecidableEq π] (h : s.Inv s₀ path) (newValue : List Char)
    (success usable : Bool) :
    (s.onModify p newValue success usable).Inv s₀ path := by
  unfold IncludePaths.onModify
  dsimp only
  split_ifs
  · exact h.setGlobals fun q hq => by simp at hq
  · exact h.setGlobals fun q hq => by simp at hq
  · exact h.setGlobals fun q hq => hq
  · exact h.setGlobals fun q hq => by simp at hq

theorem Inv.register [DecidableEq π] (h : s.Inv s₀ path)
    (hlen : (s.globals p).includePath.length + 2 < 2 ^ 32 - 8) : (s.register p).Inv s₀ path := by
  obtain ⟨hsound, hgrows, -, key, hglobals, hkey⟩ := h.sound.register hlen
  refine h.grows hgrows hsound fun p' => ?_
  rw [hglobals]
  by_cases hp : p' = p
  · rw [hp, Function.update_self]
    exact fun q hq => hkey q hq
  · rw [Function.update_of_ne hp]
    exact (h.served p').grows h.sound hsound hgrows

theorem Inv.alloc (h : s.Inv s₀ path) (hsize : size.toNat < 2 ^ 32 - 8)
    (ha : s.alloc size = (s', r)) (content : List Char) :
    Inv (match r with
      | none => s'
      | some q => { s' with memory := s'.memory.write q content }) s₀ path := by
  have hpool := h.sound.alloc_pool_inv hsize ha
  obtain ⟨hsaved, hsizes⟩ := alloc_grows ha
  have hglobals : s'.globals = s.globals := by
    obtain rfl := congrArg Prod.fst ha
    rfl
  cases r with
  | none =>
    have hkeeps := Keeps.allocFailed ha
    have hs' := hkeeps.sound h.sound hpool
    have hgrows := hkeeps.grows hsaved hsizes
    exact h.grows hgrows hs' fun p => hglobals ▸ (h.served p).grows h.sound hs' hgrows
  | some q =>
    have hkeeps := Keeps.alloc h.sound.pool ha content
    have hs' := hkeeps.sound h.sound hpool
    have hgrows := hkeeps.grows hsaved hsizes
    exact h.grows hgrows hs' fun p =>
      (congrFun hglobals p).symm ▸ (h.served p).grows h.sound hs' hgrows

section Restart

variable {pool : SharedPool}

theorem keepFirst_of_nil (h : s.table.hashEntries = []) : s.keepFirst = s := by
  simp [keepFirst, ZendAccelHash.numEntries, h]

/-- After a restart the table has its first entry, in its bucket. -/
theorem Sound.keepFirst (hs : s.Sound) (he : s.table.hashEntries[0]? = some e)
    (hh : s.Holds 0 e path)
    (hpool : pool.Inv) (hblocks : pool.blocks = [])
    (hbelow : pool.globals.Below e.key.1 (path.length + 2)) :
    let t : IncludePaths π := { s.keepFirst with pool := pool }
    t.Sound ∧ t.table.hashEntries[0]? = some e ∧ t.Holds 0 e path ∧ t.globals = s.globals := by
  intro t
  obtain ⟨es, hes⟩ : ∃ es, s.table.hashEntries = e :: es := by
    cases hes : s.table.hashEntries with
    | nil => simp [hes] at he
    | cons e' es =>
      obtain rfl : e' = e := by simpa [hes] using he
      exact ⟨es, rfl⟩
  have hmem : t.memory = s.memory ∧ t.globals = s.globals ∧
      t.table.maxNumEntries = s.table.maxNumEntries := by
    simp only [t, IncludePaths.keepFirst]
    split_ifs <;> exact ⟨rfl, rfl, rfl⟩
  have hentries : t.table.hashEntries = [e] := by
    simp only [t, IncludePaths.keepFirst]
    split_ifs with hone
    · simp [hes]
    · have : es.length = 0 := by
        simp only [ZendAccelHash.numEntries, hes, List.length_cons] at hone
        omega
      rw [hes, List.length_eq_zero_iff.mp this]
  have hholds : t.Holds 0 e path :=
    ⟨hh.length, hh.data, hh.direct, hmem.1 ▸ hh.bytes, hbelow, by simp [t, hblocks]⟩
  have hwf : t.keys.WellFormed ∧ t.keys.Linked 0 := by
    by_cases hone : 1 < s.table.numEntries
    · have hget := (getElem?_keys (s := s) 0).trans (congrArg _ he)
      have hnext : e.next = none := by
        cases hn : e.next with
        | none => rfl
        | some j => exact absurd (hs.table.next_lt hget hn) (Nat.not_lt_zero j)
      refine ZendAccelHash.wellFormed_single
        (e := ⟨e.hashValue, s.memory.read e.key.1 e.key.2, e.next,
        e.data, e.indirect⟩) (by simp [keys, hentries, hmem.1]) hnext ?_
          (hs.table.hashValue_eq hget)
        fun b => ?_
      · change 1 ≤ t.table.maxNumEntries
        rw [hmem.2.2, hs.size]
        decide
      · simp [t, keys, IncludePaths.keepFirst, if_pos hone, hes, ZendAccelHash.index]
    · have hsame : t.keys = s.keys := by
        simp only [t, keys, IncludePaths.keepFirst, if_neg hone]
      rw [hsame]
      exact ⟨hs.table, hs.linked 0 (by simp [ZendAccelHash.numEntries, hes])⟩
  refine ⟨⟨hpool, hwf.1, fun i hi => ?_, hmem.2.2.trans hs.size, fun i e' he' => ?_⟩,
    by simp [hentries], hholds, hmem.2.1⟩
  · obtain rfl : i = 0 := by simpa [ZendAccelHash.numEntries, hentries] using hi
    exact hwf.2
  · cases i with
    | zero =>
      obtain rfl : e = e' := by simpa [hentries] using he'
      exact ⟨path, hholds⟩
    | succ i => simp [hentries] at he'

/-- A restart at which every process with a letter has the path of startup in force. -/
theorem Inv.restart (h : s.Inv s₀ path) (hpath : ∀ p, (s₀.globals p).includePath = path)
    (hg : s₀.InPlace s .restart) (hr : s.restart = some s') : s'.Inv s₀ path := by
  obtain ⟨hfirst, hforce⟩ := hg
  obtain ⟨pool, hpool, rfl⟩ := Option.map_eq_some_iff.mp hr
  have hinv : pool.Inv := h.sound.pool.step (a := .restoreState) trivial hpool
  obtain ⟨m, hm, rfl⟩ := Option.map_eq_some_iff.mp hpool
  cases he₀ : s.table.hashEntries[0]? with
  | none =>
    -- nothing is registered
    have hnil : s.table.hashEntries = [] := by simpa using he₀
    have hkeys : keys { s.keepFirst with pool := { s.pool with
        globals := s.pool.globals.zendSharedAllocRestoreState m, blocks := [] } } = s.keys := by
      rw [keepFirst_of_nil hnil]
      rfl
    have hnone : ∀ {i : ℕ} {e : PathEntry}, s.table.hashEntries[i]? ≠ some e := by simp [hnil]
    refine ⟨⟨hinv, hkeys ▸ h.sound.table, fun i hi => ?_, ?_, fun i e he => ?_⟩, fun p q hq => ?_,
      fun e he => ?_⟩
    · rw [keepFirst_of_nil hnil] at hi
      exact hkeys ▸ h.sound.linked i hi
    · rw [keepFirst_of_nil hnil]
      exact h.sound.size
    · rw [keepFirst_of_nil hnil] at he
      exact absurd he hnone
    · rw [keepFirst_of_nil hnil] at hq
      obtain ⟨i, e, he, -⟩ := h.sound.find_eq_some_iff.mp (h.served p q hq)
      exact absurd he hnone
    · exact absurd (h.kept e he).entry hnone
  | some e =>
    obtain ⟨e', he'⟩ : ∃ e', s₀.table.hashEntries[0]? = some e' := by
      have hne := hfirst.resolve_left fun hnil => by simp [hnil] at he₀
      exact ⟨_, List.getElem?_eq_getElem (List.length_pos_of_ne_nil hne)⟩
    have hk := h.kept e' he'
    obtain rfl : e = e' := Option.some.inj (he₀.symm.trans hk.entry)
    obtain ⟨hsound, hentry, hholds, hglobals⟩ :=
      h.sound.keepFirst he₀ hk.holds hinv rfl (hk.below m hm)
    refine ⟨hsound, fun p q hq => ?_, fun e' he'' => ?_⟩
    · have hq' : (s.globals p).includePathKey = some q := by rw [← hglobals]; exact hq
      have hforce' := (hforce p (by simp [hq'])).trans (hpath p)
      have hfind := h.served p q hq'
      rw [hforce'] at hfind
      obtain ⟨i, e₁, he₁, hh₁, hd₁⟩ := h.sound.find_eq_some_iff.mp hfind
      obtain rfl := h.sound.index_unique he₁ he₀ hh₁ hk.holds
      obtain rfl : e = e₁ := Option.some.inj (he₀.symm.trans he₁)
      have hin : (s.keepFirst.globals p).includePath = path :=
        (congrArg IncludeGlobals.includePath (congrFun hglobals p)).trans hforce'
      change IncludePaths.find _ (s.keepFirst.globals p).includePath = some q
      rw [hin]
      exact hsound.find_eq_some_iff.mpr ⟨0, e, hentry, hholds, hd₁⟩
    · obtain rfl : e = e' := Option.some.inj (he'.symm.trans he'')
      refine ⟨hentry, hholds, fun m' hm' => ?_⟩
      obtain rfl : m' = m := Option.some.inj (hm'.symm.trans hm)
      obtain ⟨g, -, hsizes, rfl, -⟩ := h.sound.pool.saved m' hm
      refine ZendSmmSharedGlobals.below_restore_congr ?_ (hk.below _ hm)
      rw [ZendSmmSharedGlobals.sizes, ZendSmmSharedGlobals.sharedSegments_restoreState hsizes.symm,
        ← hsizes]
      simp [ZendSmmSharedGlobals.sizes]

end Restart

/-- A step keeps the invariant. -/
theorem Inv.step [DecidableEq π] (h : s.Inv s₀ path)
    (hpath : ∀ p, (s₀.globals p).includePath = path) {a : IncludeCall π}
    (hg : s₀.InPlace s a) (hs : s.step a = some s') : s'.Inv s₀ path := by
  cases a with
  | activate p =>
    obtain rfl := Option.some.inj hs
    exact h.setGlobals fun q hq => h.served p q hq
  | onModify p newValue success usable =>
    simp only [IncludePaths.step] at hs
    split_ifs at hs
    exact Option.some.inj hs ▸ h.onModify newValue success usable
  | makeKey p usable =>
    simp only [IncludePaths.step] at hs
    split_ifs at hs
    exact Option.some.inj hs ▸ h.setGlobals fun q hq => h.served p q hq
  | register p =>
    simp only [IncludePaths.step] at hs
    split_ifs at hs
    exact Option.some.inj hs ▸ h.register hg
  | alloc size content =>
    obtain ⟨⟨t, r⟩, ha⟩ : ∃ x, s.alloc size = x := ⟨_, rfl⟩
    have hinv := h.alloc hg ha content
    simp only [IncludePaths.step, ha] at hs
    cases r with
    | none => exact Option.some.inj hs ▸ hinv
    | some q =>
      simp only at hs
      split_ifs at hs
      exact Option.some.inj hs ▸ hinv
  | restart => exact h.restart hpath hg hs

section Startup

variable [Inhabited π] {pool : SharedPool} (memory : SharedMemory)

omit [Inhabited π] in
/-- Before anything is registered. -/
theorem sound_empty (hpool : pool.Inv) (g : π → IncludeGlobals) :
    Sound ⟨pool, memory, .zendAccelHashInit 32, g⟩ :=
  ⟨hpool, ZendAccelHash.wellFormed_init 32,
    fun i hi => by simp [ZendAccelHash.numEntries, ZendAccelHash.zendAccelHashInit] at hi,
    rfl, fun i e he => by simp [ZendAccelHash.zendAccelHashInit] at he⟩

theorem registered_spec [DecidableEq π] (hpool : pool.Inv) (hlen : path.length + 2 < 2 ^ 32 - 8) :
    let s : IncludePaths π := registered pool memory path
    s.Sound ∧ (∀ e, s.table.hashEntries[0]? = some e → s.Holds 0 e path) ∧
      (s.globals default).includePath = path ∧ s.Served (s.globals default) := by
  have hempty := sound_empty (π := π) memory hpool fun _ => ⟨path, none, false, false⟩
  simp only [registered]
  split_ifs with hpath
  · exact ⟨hempty, fun e he => by simp [ZendAccelHash.zendAccelHashInit] at he, rfl,
      fun q hq => by simp at hq⟩
  · obtain ⟨hsound, -, hadds, key, hglobals, hkey⟩ := hempty.register (p := default) hlen
    refine ⟨hsound, fun e he => ?_, by rw [hglobals]; simp, ?_⟩
    · rcases hadds with htable | ⟨e', hentries, hh⟩
      · rw [htable] at he
        simp [ZendAccelHash.zendAccelHashInit] at he
      · obtain rfl : e' = e := by
          rw [hentries] at he
          simpa [ZendAccelHash.zendAccelHashInit] using he
        exact hh
    · rw [hglobals, Function.update_self]
      exact fun q hq => hkey q hq

/-- The state after startup. -/
theorem inv_startup [DecidableEq π] (hpool : pool.Inv) (hlen : path.length + 2 < 2 ^ 32 - 8)
    (hpos : ∀ seg ∈ (startup (π := π) pool memory path).pool.globals.sharedSegments,
      seg.pos.toNat < 2 ^ 31) :
    (startup (π := π) pool memory path).Inv (startup pool memory path) path ∧
      ∀ p, ((startup (π := π) pool memory path).globals p).includePath = path := by
  obtain ⟨hs, hfirst, hin, hserved⟩ := registered_spec (π := π) memory hpool hlen
  unfold startup at hpos ⊢
  dsimp only at hpos ⊢
  generalize (registered pool memory path : IncludePaths π) = s at *
  set t : IncludePaths π := { s with pool := _, globals := _ } with ht
  have hkeeps : s.Keeps t :=
    ⟨rfl, fun h => ⟨h.length, h.data, h.direct, h.bytes, h.below, h.alone⟩⟩
  have ht' : t.Sound := hkeeps.sound hs (hs.pool.step (a := .saveState) hpos rfl)
  have hfind : ∀ path q, s.find path = some q → t.find path = some q := fun path q hq => by
    obtain ⟨i, e, he, hh, hd⟩ := hs.find_eq_some_iff.mp hq
    exact ht'.find_eq_some_iff.mpr ⟨i, e, he, hkeeps.holds hh, hd⟩
  refine ⟨⟨ht', fun p q hq => hfind _ _ (hserved q hq), fun e he => ?_⟩, fun p => hin⟩
  have hh := hkeeps.holds (hfirst e he)
  refine ⟨he, hh, fun m hm => ?_⟩
  obtain rfl := Option.some.inj hm
  have hback : t.pool.globals.zendSharedAllocRestoreState s.pool.globals.zendSharedAllocSaveState =
      { t.pool.globals with memoryExhausted := false } :=
    ZendSmmSharedGlobals.restoreState_eq rfl fun seg hseg => (ofPosition_eq_iff seg.pos).mpr
      (.inl (hpos seg hseg))
  rw [hback]
  exact hh.below

end Startup

section Runs

variable [Inhabited π]

/-- In every state that a run reaches in which all calls meet the condition, the pointers to letters
are good. -/
theorem lettersInPlace_of_guarded_run [DecidableEq π] {requested : UInt64}
    {segs : List ZendSharedSegment} {exhausted : Bool} {w : List SharedPoolCall}
    {pool : SharedPool} {memory : SharedMemory} {v : List (IncludeCall π)}
    (hpos : 1 ≤ requested.toNat)
    (hmax : requested.toNat ≤ memoryConsumptionMax) (hsegs : CreatesSegments requested segs)
    (halloc : GuardedRun (fun p a q => p.step a = some q) SharedPool.InRange
      (SharedPool.startup requested segs exhausted) w pool)
    (hlen : path.length + 2 < 2 ^ 32 - 8)
    (hsaved : ∀ seg ∈ (startup (π := π) pool memory path).pool.globals.sharedSegments,
      seg.pos.toNat < 2 ^ 31)
    (hrun : GuardedRun (fun s a t => s.step a = some t) (startup pool memory path).InPlace
      (startup pool memory path) v s) : s.LettersInPlace := by
  have hpool : pool.Inv :=
    halloc.invariant (SharedPool.inv_startup hsegs hpos hmax) fun h ha hq => h.step ha hq
  obtain ⟨hinv, hpath⟩ := inv_startup (π := π) memory hpool hlen hsaved
  let kept : IncludePaths π → Prop := fun t => t.Inv (startup pool memory path) path
  have hall : kept s := hrun.invariant hinv fun h hg hs => Inv.step h hpath hg hs
  exact Inv.lettersInPlace hall

end Runs

end IncludePaths

namespace IncludePaths

section Examples

local instance lengthHash : ZendInlineHash (List Char) := ⟨List.length⟩

/-- Two processes, and 8 MB of shared memory. -/
def twoProcesses : IncludePaths Bool :=
  startup (SharedPool.startup (2 ^ 23) [⟨2 ^ 23, 0⟩] true) (fun _ _ => nul) ['.']

instance (s₀ s : IncludePaths Bool) (a : IncludeCall Bool) : Decidable (s₀.InPlace s a) :=
  match a with
  | .alloc size _ => inferInstanceAs (Decidable (size.toNat < 2 ^ 32 - 8))
  | .register p =>
    inferInstanceAs (Decidable ((s.globals p).includePath.length + 2 < 2 ^ 32 - 8))
  | .restart => inferInstanceAs (Decidable ((s.table.hashEntries = [] ∨ s₀.table.hashEntries ≠ []) ∧
      ∀ p, (s.globals p).includePathKey ≠ none →
        (s.globals p).includePath = (s₀.globals p).includePath))
  | .activate _ => isTrue trivial
  | .onModify .. => isTrue trivial
  | .makeKey .. => isTrue trivial

/-- A path is registered, the cache restarts while both processes stand on the path of startup, and
another path gets its letter. -/
theorem lettersInPlace_of_guarded_run_restart : ∃ s : IncludePaths Bool,
    s.includePart false = ['A'] ∧ s.includePart true = ['B'] ∧ s.LettersInPlace := by
  have hsegs : CreatesSegments (2 ^ 23) [⟨2 ^ 23, 0⟩] := .inl ⟨true, rfl⟩
  have hfacts : ([IncludeCall.onModify false ['a'] true true, .register false,
      .onModify false ['.'] true true, .restart, .alloc 100 ['x'], .onModify true ['b'] true true,
      .register true].foldlM
        (fun s a => if twoProcesses.InPlace s a then IncludePaths.step s a else none)
        twoProcesses).map (fun s => (s.includePart false, s.includePart true)) =
      some (['A'], ['B']) := by
    decide +kernel
  obtain ⟨s, hs, hparts⟩ := Option.map_eq_some_iff.mp hfacts
  obtain ⟨hfalse, htrue⟩ := Prod.mk.inj hparts
  exact ⟨s, hfalse, htrue, lettersInPlace_of_guarded_run (by decide) (by decide) hsegs .nil
    (by decide) (by decide +kernel) (.of_foldlM_guard hs)⟩

/-- The cache restarts while one process stands on its own path, and another process registers a
path: both have the same letter. -/
theorem letters_collide : ∃ s : IncludePaths Bool,
    Run (fun s a t => IncludePaths.step s a = some t) twoProcesses
      [.onModify false ['a'] true true, .register false, .restart, .onModify true ['b'] true true,
        .register true] s ∧
      (s.globals false).includePath ≠ (s.globals true).includePath ∧
      s.includePart false = ['B'] ∧ s.includePart true = ['B'] ∧ ¬ s.LettersInPlace := by
  have hfacts : ([IncludeCall.onModify false ['a'] true true, .register false, .restart,
      .onModify true ['b'] true true, .register true].foldlM IncludePaths.step twoProcesses).map
        (fun s => (s.globals false, s.globals true, s.includePart false, s.includePart true)) =
      some (⟨['a'], some ⟨0, 10⟩, false, false⟩, ⟨['b'], some ⟨0, 10⟩, false, false⟩, ['B'],
        ['B']) := by
    decide +kernel
  obtain ⟨s, hs, hparts⟩ := Option.map_eq_some_iff.mp hfacts
  simp only [Prod.mk.injEq] at hparts
  obtain ⟨hfalse, htrue, hpart, hpart'⟩ := hparts
  have hne : (s.globals false).includePath ≠ (s.globals true).includePath := by
    simp [hfalse, htrue]
  refine ⟨s, .of_foldlM hs, hne, hpart, hpart', fun h => ?_⟩
  exact h.distinct false true _ _ (congrArg IncludeGlobals.includePathKey hfalse)
    (congrArg IncludeGlobals.includePathKey htrue) hne rfl

end Examples

end IncludePaths

end ZendOpcache
