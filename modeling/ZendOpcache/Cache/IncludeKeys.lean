import ZendOpcache.Cache.IncludePath

/-! # The letters stay allocated

Every entry of the table has a block below the position of its segment that no other
block overlaps, so the letters of different paths differ and every process finds its own. A
restart keeps this when the first path was registered before the state of the allocator was saved
and no process stands on a later one.
-/

namespace ZendOpcache

/-- The entry of a path in the table. -/
abbrev PathEntry := ZendAccelHashEntry (SharedPtr × ℕ) SharedPtr

/-- The `n` bytes from a pointer on lie below the position of their segment. -/
def ZendSmmSharedGlobals.Below (g : ZendSmmSharedGlobals) (p : SharedPtr) (n : ℕ) : Prop :=
  ∃ seg, g.sharedSegments[p.segment]? = some seg ∧ p.offset.toNat + n ≤ seg.pos.toNat

namespace IncludePaths

variable {π : Type*}

/-- The block of entry number `i` holds the path and its letter, and nothing else lies there. -/
structure Holds (s : IncludePaths π) (i : ℕ) (e : PathEntry) (path : List Char) : Prop where
  length : e.key.2 = path.length + 1
  data : e.data = .data (e.key.1.add (path.length + 1))
  direct : e.indirect = false
  bytes : s.memory.read e.key.1 (path.length + 2) = path ++ [nul, pathLetter i]
  below : s.pool.globals.Below e.key.1 (path.length + 2)
  alone : ∀ x ∈ s.pool.blocks, x.1 = e.key.1 ∨ x.1.segment ≠ e.key.1.segment ∨
    x.1.offset.toNat + x.2.toNat ≤ e.key.1.offset.toNat ∨
    e.key.1.offset.toNat + (path.length + 2) ≤ x.1.offset.toNat

/-- The blocks of the table are as they were. -/
structure Keeps (s s' : IncludePaths π) : Prop where
  table : s'.table = s.table
  holds : ∀ {i e path}, s.Holds i e path → s'.Holds i e path

variable {s s' s₀ : IncludePaths π} {i : ℕ} {e : PathEntry} {path path' : List Char} {q : SharedPtr}
  {p : π} {size : UInt64} {r : Option SharedPtr}

namespace Holds

/-- The key as it stands in memory. -/
theorem text (h : s.Holds i e path) : s.memory.read e.key.1 e.key.2 = path ++ [nul] := by
  rw [h.length, ← SharedMemory.read_take (n := path.length + 2) (by omega), h.bytes,
    show path ++ [nul, pathLetter i] = (path ++ [nul]) ++ [pathLetter i] by simp]
  exact List.take_left' (by simp)

theorem path_unique (h : s.Holds i e path) (h' : s.Holds i e path') : path = path' :=
  List.append_cancel_right (h.text.symm.trans h'.text)

theorem lt_of_below (h : s.Holds i e path) : e.key.1.offset.toNat + (path.length + 2) < 2 ^ 64 := by
  obtain ⟨seg, -, hle⟩ := h.below
  have := seg.pos.toNat_lt
  omega

/-- What a process reads behind the pointer to the letter. -/
theorem letter (h : s.Holds i e path) (hq : e.data = .data q) : s.memory.get q = pathLetter i := by
  have hlt := h.lt_of_below
  obtain rfl : e.key.1.add (path.length + 1) = q := by
    have := h.data.symm.trans hq
    simpa using this
  have hget := SharedMemory.get_add (m := s.memory) (p := e.key.1) (n := path.length + 2)
    (k := path.length + 1) (by omega) (by omega)
  rw [h.bytes] at hget
  simpa using hget

end Holds

theorem Keeps.refl (s : IncludePaths π) : s.Keeps s := ⟨rfl, id⟩

theorem Keeps.setGlobals [DecidableEq π] (h : s.Keeps s') (g : IncludeGlobals) :
    s.Keeps (s'.setGlobals p g) :=
  ⟨h.table, fun hh => let hh := h.holds hh; ⟨hh.length, hh.data, hh.direct, hh.bytes, hh.below,
    hh.alone⟩⟩

/-- An allocation, and what its owner writes into the block. -/
theorem Keeps.alloc (hpool : s.pool.Inv) (ha : s.alloc size = (s', some q)) (content : List Char) :
    s.Keeps { s' with memory := s'.memory.write q content } := by
  obtain ⟨⟨t, r⟩, hr⟩ : ∃ x, s.pool.globals.zendSharedAlloc size = x := ⟨_, rfl⟩
  simp only [IncludePaths.alloc, hr, Prod.mk.injEq] at ha
  obtain ⟨rfl, rfl⟩ := ha
  obtain ⟨⟨seg, seg', hseg, -, hoff, -⟩, hmono⟩ := hpool.sound.zendSharedAlloc_spec hr
  refine ⟨rfl, fun {i e path} h => ?_⟩
  obtain ⟨seg₁, hseg₁, hle⟩ := h.below
  -- the new block starts at the old position
  have hapart : q.segment ≠ e.key.1.segment ∨
      e.key.1.offset.toNat + (path.length + 2) ≤ q.offset.toNat := by
    by_cases hs : q.segment = e.key.1.segment
    · obtain rfl : seg₁ = seg := Option.some.inj (hseg₁.symm.trans (hs ▸ hseg))
      exact .inr (hoff ▸ hle)
    · exact .inl hs
  refine ⟨h.length, h.data, h.direct, ?_, ?_, fun x hx => ?_⟩
  · rw [← h.bytes]
    exact SharedMemory.read_write_of_disjoint (by tauto)
  · obtain ⟨seg₂, hseg₂, hle₂⟩ := hmono _ _ hseg₁
    exact ⟨seg₂, hseg₂, hle.trans hle₂⟩
  · rcases List.mem_append.mp hx with hx | hx
    · obtain rfl : x = (q, (blockSize size).toUInt64) := by simpa using hx
      tauto
    · exact h.alone x hx

theorem Keeps.allocFailed (ha : s.alloc size = (s', none)) : s.Keeps s' := by
  obtain ⟨⟨t, r⟩, hr⟩ : ∃ x, s.pool.globals.zendSharedAlloc size = x := ⟨_, rfl⟩
  simp only [IncludePaths.alloc, hr, Prod.mk.injEq] at ha
  obtain ⟨rfl, rfl⟩ := ha
  have hsegs := ZendSmmSharedGlobals.sharedSegments_of_none hr
  refine ⟨rfl, fun h => ⟨h.length, h.data, h.direct, h.bytes, ?_, h.alone⟩⟩
  obtain ⟨seg, hseg, hle⟩ := h.below
  exact ⟨seg, by rw [← hseg]; exact congrArg (·[_]?) hsegs, hle⟩

variable [ZendInlineHash (List Char)]

/-- The table and its blocks agree. -/
structure Sound (s : IncludePaths π) : Prop where
  pool : s.pool.Inv
  table : s.keys.WellFormed
  linked : ∀ i < s.table.numEntries, s.keys.Linked i
  size : s.table.maxNumEntries = 53
  entries : ∀ (i : ℕ) (e : PathEntry), s.table.hashEntries[i]? = some e → ∃ path, s.Holds i e path

omit [ZendInlineHash (List Char)] in
theorem getElem?_keys (i : ℕ) : s.keys.hashEntries[i]? = (s.table.hashEntries[i]?).map fun e =>
    ⟨e.hashValue, s.memory.read e.key.1 e.key.2, e.next, e.data, e.indirect⟩ := by
  simp [keys]

theorem Keeps.keys_eq (h : s.Keeps s') (hs : s.Sound) : s'.keys = s.keys := by
  unfold keys
  rw [h.table]
  congr 1
  refine List.map_congr_left fun e he => ?_
  obtain ⟨i, hi⟩ := List.mem_iff_getElem?.mp he
  obtain ⟨path, hh⟩ := hs.entries i e hi
  rw [(h.holds hh).text, hh.text]

theorem Keeps.sound (h : s.Keeps s') (hs : s.Sound) (hpool : s'.pool.Inv) : s'.Sound where
  pool := hpool
  table := h.keys_eq hs ▸ hs.table
  linked i hi := h.keys_eq hs ▸ hs.linked i (h.table ▸ hi)
  size := h.table ▸ hs.size
  entries i e he := by
    obtain ⟨path, hh⟩ := hs.entries i e (h.table ▸ he)
    exact ⟨path, h.holds hh⟩

namespace Sound

/-- The lookup finds exactly the entry whose block holds the path. -/
theorem lookup_eq_some_iff (hs : s.Sound) : s.keys.lookup (path ++ [nul]) = some i ↔
    ∃ e, s.table.hashEntries[i]? = some e ∧ s.Holds i e path := by
  rw [hs.table.lookup_eq_some_iff]
  constructor
  · rintro ⟨-, e', he', hkey⟩
    rw [getElem?_keys] at he'
    obtain ⟨e, he, rfl⟩ := Option.map_eq_some_iff.mp he'
    obtain ⟨path', hh⟩ := hs.entries i e he
    obtain rfl : path' = path := List.append_cancel_right (hh.text.symm.trans hkey)
    exact ⟨e, he, hh⟩
  · rintro ⟨e, he, hh⟩
    have he' := (getElem?_keys (s := s) i).trans (congrArg _ he)
    exact ⟨hs.linked i (List.getElem?_eq_some_iff.mp he).1, _, he', hh.text⟩

theorem find_eq_some_iff (hs : s.Sound) : s.find path = some q ↔
    ∃ (i : ℕ) (e : PathEntry), s.table.hashEntries[i]? = some e ∧ s.Holds i e path ∧
      e.data = .data q := by
  unfold find ZendAccelHash.zendAccelHashFind
  constructor
  · intro h
    cases hl : s.keys.lookup (path ++ [nul]) with
    | none => simp [hl] at h
    | some i =>
      obtain ⟨e, he, hh⟩ := hs.lookup_eq_some_iff.mp hl
      have he' := (getElem?_keys (s := s) i).trans (congrArg _ he)
      simp only [hl, he', Option.map_some, Option.bind_some, hh.direct, hh.data] at h
      exact ⟨i, e, he, hh, by simpa [hh.data] using h⟩
  · rintro ⟨i, e, he, hh, hq⟩
    have hl := hs.lookup_eq_some_iff.mpr ⟨e, he, hh⟩
    have he' := (getElem?_keys (s := s) i).trans (congrArg _ he)
    simp [hl, he', hh.direct, hq]

theorem lookup_eq_none (hs : s.Sound) (h : s.find path = none) :
    s.keys.lookup (path ++ [nul]) = none := by
  cases hl : s.keys.lookup (path ++ [nul]) with
  | none => rfl
  | some i =>
    obtain ⟨e, he, hh⟩ := hs.lookup_eq_some_iff.mp hl
    have := hs.find_eq_some_iff.mpr ⟨i, e, he, hh, hh.data⟩
    simp [h] at this

/-- Two entries do not hold one path. -/
theorem index_unique (hs : s.Sound) {j : ℕ} {e' : PathEntry}
    (he : s.table.hashEntries[i]? = some e) (he' : s.table.hashEntries[j]? = some e')
    (h : s.Holds i e path) (h' : s.Holds j e' path) : i = j := by
  have hi := hs.lookup_eq_some_iff.mpr ⟨e, he, h⟩
  have hj := hs.lookup_eq_some_iff.mpr ⟨e', he', h'⟩
  exact Option.some.inj (hi.symm.trans hj)

theorem index_lt (hs : s.Sound) (he : s.table.hashEntries[i]? = some e) : i < 53 := by
  have hlt := (List.getElem?_eq_some_iff.mp he).1
  have hle : s.table.hashEntries.length ≤ s.table.maxNumEntries := by
    simpa [ZendAccelHash.numEntries, keys] using hs.table.length_le
  rw [hs.size] at hle
  omega

end Sound

/-- The table has grown, and the blocks of the entries it had are as they were. -/
structure Grows (s s' : IncludePaths π) : Prop where
  entries : ∀ (i : ℕ) (e : PathEntry), s.table.hashEntries[i]? = some e →
    s'.table.hashEntries[i]? = some e
  holds : ∀ {i e path}, s.Holds i e path → s'.Holds i e path
  saved : s'.pool.saved = s.pool.saved
  sizes : s'.pool.globals.sizes = s.pool.globals.sizes

omit [ZendInlineHash (List Char)] in
theorem Keeps.grows (h : s.Keeps s') (hsaved : s'.pool.saved = s.pool.saved)
    (hsizes : s'.pool.globals.sizes = s.pool.globals.sizes) : s.Grows s' :=
  ⟨fun _ _ he => h.table ▸ he, h.holds, hsaved, hsizes⟩

/-- The entries are the same, or there is one more for the path. -/
def Adds (s s' : IncludePaths π) (path : List Char) : Prop :=
  s'.table = s.table ∨ ∃ e, s'.table.hashEntries = s.table.hashEntries ++ [e] ∧
    s'.Holds s.table.numEntries e path

theorem Grows.find (h : s.Grows s') (hs : s.Sound) (hs' : s'.Sound) (hf : s.find path = some q) :
    s'.find path = some q := by
  obtain ⟨i, e, he, hh, hq⟩ := hs.find_eq_some_iff.mp hf
  exact hs'.find_eq_some_iff.mpr ⟨i, e, h.entries i e he, h.holds hh, hq⟩

/-- A process that has a letter has the one of its path. -/
def Served (s : IncludePaths π) (g : IncludeGlobals) : Prop :=
  ∀ q, g.includePathKey = some q → s.find g.includePath = some q

omit [ZendInlineHash (List Char)] in
theorem alloc_pool : s.pool.step (.alloc size) = some (s.alloc size).1.pool := rfl

omit [ZendInlineHash (List Char)] in
theorem alloc_grows (ha : s.alloc size = (s', r)) :
    s'.pool.saved = s.pool.saved ∧ s'.pool.globals.sizes = s.pool.globals.sizes := by
  obtain rfl := congrArg Prod.fst ha
  exact ⟨rfl, ZendSmmSharedGlobals.sizes_zendSharedAlloc _ _⟩

omit [ZendInlineHash (List Char)] in
/-- `Holds` does not look at the table. -/
theorem Holds.of_table (h : s.Holds i e path) (t : ZendAccelHash (SharedPtr × ℕ) SharedPtr) :
    Holds { s with table := t } i e path :=
  ⟨h.length, h.data, h.direct, h.bytes, h.below, h.alone⟩

/-- The entry that an update adds for a path that is not there. -/
def newEntry (s : IncludePaths π) (key : SharedPtr) (path : List Char) (letter : SharedPtr) :
    PathEntry :=
  ⟨zendInlineHashFunc (path ++ [nul]), (key, (path ++ [nul]).length),
    s.table.hashTable (s.keys.index (path ++ [nul])), .data letter, false⟩

theorem update_of_lookup_eq_none {letter : SharedPtr} (hl : s.keys.lookup (path ++ [nul]) = none)
    (hfull : s.table.zendAccelHashIsFull = false) : s.update q path letter = { s with
      table := {
        hashTable := Function.update s.table.hashTable (s.keys.index (path ++ [nul]))
          (some s.table.numEntries)
        hashEntries := s.table.hashEntries ++ [s.newEntry q path letter]
        maxNumEntries := s.table.maxNumEntries
        numDirectEntries := s.table.numDirectEntries + 1 } } := by
  simp [update, hl, hfull, newEntry]

/-- A table whose new block is in place gets the entry for it. -/
theorem Sound.append (hs : s.Sound) (hl : s.keys.lookup (path ++ [nul]) = none)
    (hfull : s.table.zendAccelHashIsFull = false)
    (hh : s.Holds s.table.numEntries (s.newEntry q path (q.add (path.length + 1))) path) :
    (s.update q path (q.add (path.length + 1))).Sound ∧
      s.Grows (s.update q path (q.add (path.length + 1))) ∧
      s.Adds (s.update q path (q.add (path.length + 1))) path ∧
      (s.update q path (q.add (path.length + 1))).find path = some (q.add (path.length + 1)) := by
  rw [update_of_lookup_eq_none hl hfull]
  set e := s.newEntry q path (q.add (path.length + 1)) with he
  set u : IncludePaths π := { s with table := _ } with hu
  have hkeys : u.keys = s.keys.append (path ++ [nul]) (.data (q.add (path.length + 1))) := by
    have hread : s.memory.read q (path.length + 1) = path ++ [nul] := by
      have := hh.text
      rwa [hh.length] at this
    simp [keys, ZendAccelHash.append, hu, ZendAccelHash.numEntries, he, newEntry, hread,
      ZendAccelHash.index]
  have hmax : s.keys.numEntries ≠ s.keys.maxNumEntries := by
    simpa [ZendAccelHash.zendAccelHashIsFull, keys, ZendAccelHash.numEntries] using hfull
  have hnum : s.keys.numEntries = s.table.numEntries := by simp [ZendAccelHash.numEntries, keys]
  have hget : u.table.hashEntries[s.table.numEntries]? = some e := by
    simp [hu, ZendAccelHash.numEntries]
  have hold : ∀ (i : ℕ) (e' : PathEntry), s.table.hashEntries[i]? = some e' →
      u.table.hashEntries[i]? = some e' := fun i e' he' => by
    rw [← he']
    exact List.getElem?_append_left (List.getElem?_eq_some_iff.mp he').1
  have hsound : u.Sound := by
    refine ⟨hs.pool, hkeys ▸ hs.table.append hl hmax, fun i hi => ?_, hs.size, fun i e' he' => ?_⟩
    · rw [hkeys]
      have hi : i < s.table.numEntries + 1 := by
        simpa [hu, ZendAccelHash.numEntries] using hi
      rcases Nat.lt_succ_iff_lt_or_eq.mp hi with hi | rfl
      · exact hs.table.linked_append (hs.linked i hi)
      · exact hnum ▸ ZendAccelHash.linked_append_self
    · rcases Nat.lt_or_ge i s.table.numEntries with hi | hi
      · have he₀ : s.table.hashEntries[i]? = some e' := by
          rw [← he']
          exact (List.getElem?_append_left hi).symm
        obtain ⟨path', hh'⟩ := hs.entries i e' he₀
        exact ⟨path', hh'.of_table _⟩
      · have hlt := (List.getElem?_eq_some_iff.mp he').1
        obtain rfl : i = s.table.numEntries := by
          simp [hu] at hlt
          simp only [ZendAccelHash.numEntries] at hi ⊢
          omega
        obtain rfl : e = e' := Option.some.inj (hget.symm.trans he')
        exact ⟨path, hh.of_table _⟩
  exact ⟨hsound, ⟨hold, fun h => h.of_table _, rfl, rfl⟩, .inr ⟨e, rfl, hh.of_table _⟩,
    hsound.find_eq_some_iff.mpr ⟨_, e, hget, hh.of_table _, rfl⟩⟩

/-- The block of a path that has just been allocated and written. -/
theorem holds_of_alloc (hpool : s.pool.Inv)
    (ha : s.alloc (UInt64.ofNat (path.length + 2)) = (s', some q))
    (hlen : path.length + 2 < 2 ^ 32 - 8) (n : ℕ) :
    let t := { s' with memory := s'.memory.write q (path ++ [nul, pathLetter n]) }
    t.Holds n (t.newEntry q path (q.add (path.length + 1))) path := by
  intro t
  obtain ⟨⟨g, r⟩, hr⟩ : ∃ x, s.pool.globals.zendSharedAlloc (UInt64.ofNat (path.length + 2)) = x :=
    ⟨_, rfl⟩
  simp only [IncludePaths.alloc, hr, Prod.mk.injEq] at ha
  obtain ⟨rfl, rfl⟩ := ha
  obtain ⟨⟨seg, seg', hseg, hseg', hoff, hpos⟩, -⟩ := hpool.sound.zendSharedAlloc_spec hr
  have hof : (UInt64.ofNat (path.length + 2)).toNat = path.length + 2 :=
    UInt64.toNat_ofNat_of_lt' (Nat.lt_of_lt_of_le hlen (by decide))
  have hsize := (le_blockSize_iff (UInt64.ofNat (path.length + 2))).mpr (by omega)
  refine ⟨by simp [newEntry], rfl, rfl, ?_, ⟨seg', hseg', ?_⟩, fun x hx => ?_⟩
  · change (s.memory.write q (path ++ [nul, pathLetter n])).read q (path.length + 2) = _
    rw [show path.length + 2 = (path ++ [nul, pathLetter n]).length by simp]
    exact SharedMemory.read_write_self
  · change q.offset.toNat + _ ≤ _
    rw [hoff, hpos]
    omega
  · rcases List.mem_append.mp hx with hx | hx
    · obtain rfl : x = (q, (blockSize (UInt64.ofNat (path.length + 2))).toUInt64) := by
        simpa using hx
      exact .inl rfl
    · obtain ⟨seg₁, hseg₁, hle⟩ := hpool.below x hx
      by_cases hsame : x.1.segment = q.segment
      · obtain rfl : seg₁ = seg := Option.some.inj (hseg₁.symm.trans (hsame ▸ hseg))
        exact .inr (.inr (.inl (by rw [← hoff] at hle; exact hle)))
      · exact .inr (.inl hsame)

theorem update_globals {letter : SharedPtr} : (s.update q path letter).globals = s.globals := by
  unfold update
  dsimp only
  split
  · rfl
  · split_ifs <;> rfl

theorem Sound.setGlobals [DecidableEq π] (hs : s.Sound) (g : IncludeGlobals) :
    (s.setGlobals p g).Sound :=
  ((Keeps.refl s).setGlobals g).sound hs hs.pool

omit [ZendInlineHash (List Char)] in
theorem grows_setGlobals [DecidableEq π] (s : IncludePaths π) (g : IncludeGlobals) :
    s.Grows (s.setGlobals p g) :=
  ((Keeps.refl s).setGlobals g).grows rfl rfl

omit [ZendInlineHash (List Char)] in
theorem Grows.trans {s'' : IncludePaths π} (h : s.Grows s') (h' : s'.Grows s'') : s.Grows s'' :=
  ⟨fun i e he => h'.entries i e (h.entries i e he), fun hh => h'.holds (h.holds hh),
    h'.saved.trans h.saved, h'.sizes.trans h.sizes⟩

theorem Sound.alloc_pool_inv (hs : s.Sound) (hsize : size.toNat < 2 ^ 32 - 8)
    (ha : s.alloc size = (s', r)) : s'.pool.Inv := by
  obtain rfl := congrArg Prod.fst ha
  exact hs.pool.step (a := .alloc size) hsize alloc_pool

/-- The step that holds the lock keeps the table, and serves the process. -/
theorem Sound.register [DecidableEq π] (hs : s.Sound)
    (hlen : (s.globals p).includePath.length + 2 < 2 ^ 32 - 8) :
    (s.register p).Sound ∧ s.Grows (s.register p) ∧
      s.Adds (s.register p) (s.globals p).includePath ∧
        ∃ key, (s.register p).globals = Function.update s.globals p
        { s.globals p with includePathKey := key, registering := false } ∧
        ∀ q, key = some q → (s.register p).find (s.globals p).includePath = some q := by
  unfold IncludePaths.register
  dsimp only
  generalize hpath : (s.globals p).includePath = path at hlen ⊢
  have hsize : (UInt64.ofNat (path.length + 2)).toNat < 2 ^ 32 - 8 := by
    rw [UInt64.toNat_ofNat_of_lt' (Nat.lt_of_lt_of_le hlen (by decide))]
    exact hlen
  cases hf : s.find path with
  | some q => exact ⟨hs.setGlobals _, grows_setGlobals s _, .inl rfl, some q, by rw [← hpath]; rfl,
    fun q' hq => hq ▸ hf⟩
  | none =>
    cases hfull : s.table.zendAccelHashIsFull with
    | true => exact ⟨hs.setGlobals _, grows_setGlobals s _, .inl rfl,
      none, by rw [← hpath]; rfl, by simp⟩
    | false =>
      obtain ⟨⟨s', r⟩, ha⟩ : ∃ x, s.alloc (UInt64.ofNat (path.length + 2)) = x := ⟨_, rfl⟩
      have hpool := hs.alloc_pool_inv hsize ha
      obtain ⟨hsaved, hsizes⟩ := alloc_grows ha
      have hglobals : s'.globals = s.globals := by
        obtain rfl := congrArg Prod.fst ha
        rfl
      cases r with
      | none =>
        have hkeeps := Keeps.allocFailed ha
        have hs' := hkeeps.sound hs hpool
        simp only [Bool.false_eq_true, if_false, ha]
        exact ⟨hs'.setGlobals _, (hkeeps.grows hsaved hsizes).trans (grows_setGlobals s' _),
          .inl hkeeps.table, none,
          by rw [← hpath, ← hglobals]; rfl, by simp⟩
      | some q =>
        have hkeeps := Keeps.alloc hs.pool ha (path ++ [nul, pathLetter s'.table.numEntries])
        have ht := hkeeps.sound hs hpool
        have hl := hs.lookup_eq_none hf
        rw [← hkeeps.keys_eq hs] at hl
        have hfull' : s'.table.zendAccelHashIsFull = false := by
          rw [← hkeeps.table] at hfull; exact hfull
        obtain ⟨hu, hgrows, hadds, hfind⟩ := ht.append hl hfull' (holds_of_alloc hs.pool ha hlen _)
        simp only [Bool.false_eq_true, if_false, ha]
        refine ⟨hu.setGlobals _, ((hkeeps.grows hsaved hsizes).trans hgrows).trans
          (grows_setGlobals _ _), ?_, _, ?_, fun q' hq => hq ▸ hfind⟩
        · rcases hadds with hsame | ⟨e, hentries, hh⟩
          · exact .inl (hsame.trans hkeeps.table)
          · have htable : s'.table = s.table := hkeeps.table
            refine .inr ⟨e, hentries.trans (congrArg (·.hashEntries ++ [e]) htable), ?_⟩
            rw [← htable]
            exact ((Keeps.refl _).setGlobals _).holds hh
        · change Function.update (update _ q path _).globals p _ = _
          rw [update_globals, hglobals]

end IncludePaths

end ZendOpcache
