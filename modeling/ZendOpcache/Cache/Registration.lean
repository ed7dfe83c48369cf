import ZendOpcache.Cache.Script
import ZendOpcache.Transition.Run

/-! # Registration of keys

A path that was an alias of another file may later be cached as a file of its own.
The update then writes through the alias, and the entry of the other file gets the
script. As long as no call does this, and no link replaces an entry other aliases
lead to, every key finds the script of the path it was last registered for.
-/

namespace ZendOpcache

open ZendAccelHash

/-- The key a report registers. -/
def Report.key : Report → Option Path
  | .cachedScript path => some path
  | .addedKey key => some key
  | _ => none

/-- The full path for which a key was last registered. Reports stand newest first, each with the
full path of the call that made it. -/
def registered (log : List (Path × Report)) (k : Path) : Option Path :=
  (log.find? fun x => x.2.key = some k).map (·.1)

@[simp] theorem registered_nil (k : Path) : registered [] k = none := rfl

@[simp] theorem registered_cons (path : Path) (x : Report) (log : List (Path × Report))
    (k : Path) :
    registered ((path, x) :: log) k = if x.key = some k then some path else registered log k := by
  unfold registered
  rw [List.find?_cons]
  by_cases h : x.key = some k <;> simp [h]

variable [ZendInlineHash Path]

/-- The table agrees with the registered paths, and every direct entry holds a script of its own
path. -/
structure Registered (h : ZendAccelHash Path ℕ) (scripts : List ZendPersistentScript)
    (reg : Path → Option Path) : Prop where
  wellFormed : WellFormed h
  oneLevel : OneLevel h
  linked : ∀ {i}, i < h.numEntries → h.Linked i
  owner_eq : ∀ k, h.owner k = reg k
  script : ∀ {i : ℕ} {e : ZendAccelHashEntry Path ℕ}, h.hashEntries[i]? = some e →
    e.indirect = false → ∃ x p, e.data = .data x ∧ scripts[x]? = some p ∧ p.fullPath = e.key

namespace Registered

variable {h h' : ZendAccelHash Path ℕ} {scripts : List ZendPersistentScript}
  {reg reg' : Path → Option Path} {k path : Path} {b c : ℕ} {r : Option ℕ}

theorem init (n : ℕ) : Registered (zendAccelHashInit n) [] fun _ => none where
  wellFormed := wellFormed_init n
  oneLevel := oneLevel_init n
  linked hi := by simp [zendAccelHashInit, numEntries] at hi
  owner_eq k := by simp [owner, zendAccelHashFindEntry, lookup, walk, zendAccelHashInit]
  script h := by simp [zendAccelHashInit] at h

/-- A script is stored under a full path that is no alias. -/
theorem store (hr : Registered h scripts reg) (hn : NoAlias h path)
    {p : ZendPersistentScript} (hp : p.fullPath = path)
    (hu : h.updateResolved path (.data scripts.length) = (h', r))
    (hreg : ∀ k, reg' k = if k = path ∧ r.isSome then some path else reg k) :
    Registered h' (scripts ++ [p]) reg' where
  wellFormed := hr.wellFormed.updateResolved hu
  oneLevel := hr.oneLevel.update_data hu
  linked := hr.wellFormed.linked_updateResolved hr.linked hu
  owner_eq k := by
    rw [hr.oneLevel.owner_update_data hr.wellFormed hn hu, hreg, hr.owner_eq]
  script he hd := by
    rcases hn.update_data_cases hu he with ⟨hk, hx⟩ | he
    · exact ⟨_, p, hx, by simp, hp.trans hk.symm⟩
    · obtain ⟨x, q, hx, hs, hk⟩ := hr.script he hd
      exact ⟨x, q, hx, by rw [List.getElem?_append_left (List.getElem?_eq_some_iff.mp hs).1, hs],
        hk⟩

/-- A key is linked to a direct entry. -/
theorem link (hr : Registered h scripts reg) {e : ZendAccelHashEntry Path ℕ}
    (hb : h.hashEntries[b]? = some e) (hd : e.indirect = false) (hk : e.key = path)
    (hn : NoAliasTo h k) (hne : k ≠ path)
    (hu : h.zendAccelHashUpdate k (.entry b) = some (h', r))
    (hreg : ∀ k', reg' k' = if k' = k ∧ r.isSome then some path else reg k') :
    Registered h' scripts reg' := by
  obtain ⟨n, hlen⟩ : ∃ n, h.numEntries = n + 1 :=
    ⟨h.numEntries - 1, by have := getElem?_lt hb; omega⟩
  have hf : followIndirect h.hashEntries (h.numEntries + 1) b = some b :=
    followIndirect_direct hb hd
  have hu' : h.updateResolved k (.entry b) = (h', r) := by
    simpa [zendAccelHashUpdate, hf] using hu
  have hsafe : SafeLink h k b := by
    intro i e' hl he' hd'
    refine ⟨fun hi => ?_, hn i e' hl he' hd'⟩
    obtain rfl : b = i := Option.some.inj (hf.symm.trans hi)
    obtain ⟨-, e₀, he₀, hk₀⟩ := lookup_sound hl
    obtain rfl := Option.some.inj (hb.symm.trans he₀)
    exact hne (hk₀.symm.trans hk)
  constructor
  · exact hr.wellFormed.updateResolved hu'
  · exact (hr.oneLevel.update_entry_iff hf hu').mpr hsafe
  · exact hr.wellFormed.linked_updateResolved hr.linked hu'
  · intro k'
    rw [hr.oneLevel.owner_update_entry hr.wellFormed hb hu', hreg, hr.owner_eq, hk]
  · intro i e' he' hd'
    exact hr.script (update_entry_direct hu' he' hd') hd'

/-- Corrupting a script keeps its full path. -/
theorem modify (hr : Registered h scripts reg) (x : ℕ)
    {f : ZendPersistentScript → ZendPersistentScript} (hf : ∀ p, (f p).fullPath = p.fullPath) :
    Registered h (scripts.modify x f) reg where
  wellFormed := hr.wellFormed
  oneLevel := hr.oneLevel
  linked := hr.linked
  owner_eq := hr.owner_eq
  script he hd := by
    obtain ⟨y, p, hy, hs, hk⟩ := hr.script he hd
    refine ⟨y, if x = y then f p else p, hy, ?_, ?_⟩
    · simp [List.getElem?_modify, hs]
    · split_ifs
      · rw [hf, hk]
      · exact hk

/-- The entry behind a registered key. -/
theorem exists_entry (hr : Registered h scripts reg) (hk : reg k = some path) :
    ∃ j e, h.zendAccelHashFindEntry k = some j ∧ h.hashEntries[j]? = some e ∧
      e.indirect = false ∧ e.key = path := by
  rw [← hr.owner_eq, owner] at hk
  obtain ⟨j, hj, hk⟩ := Option.bind_eq_some_iff.mp hk
  obtain ⟨e, he, hd⟩ := hr.oneLevel.findEntry_direct hj
  rw [he] at hk
  exact ⟨j, e, hj, he, hd, by simpa using hk⟩

/-- A registered key and the path it is registered for find one script, of that path. -/
theorem find (hr : Registered h scripts reg) (hk : reg k = some path) :
    ∃ x p, h.zendAccelHashFind k = some (.data x) ∧ h.zendAccelHashFind path = some (.data x) ∧
      scripts[x]? = some p ∧ p.fullPath = path := by
  obtain ⟨j, e, hj, he, hd, rfl⟩ := hr.exists_entry hk
  obtain ⟨x, p, hx, hs, hp⟩ := hr.script he hd
  have hl := hr.wellFormed.lookup_key (hr.linked (getElem?_lt he)) he
  refine ⟨x, p, ?_, ?_, hs, hp⟩
  · rw [find_eq_findEntry, hj, Option.bind_some, he, Option.map_some, hx]
  · rw [find_eq_findEntry, findEntry_of_direct hl he hd, Option.bind_some, he, Option.map_some,
      hx]

/-- A path that is no alias finds only scripts of its own. -/
theorem find_noAlias (hr : Registered h scripts reg) (hn : NoAlias h path) {x : VoidPtr ℕ}
    (hf : h.zendAccelHashFind path = some x) :
    ∃ y p, x = .data y ∧ scripts[y]? = some p ∧ p.fullPath = path := by
  cases hl : h.lookup path with
  | none => simp [zendAccelHashFind, hl] at hf
  | some i =>
    obtain ⟨-, e, he, rfl⟩ := lookup_sound hl
    have hd := hn i e hl he
    obtain ⟨y, p, hy, hs, hp⟩ := hr.script he hd
    rw [find_eq_findEntry, findEntry_of_direct hl he hd, Option.bind_some, he,
      Option.map_some, hy] at hf
    exact ⟨y, p, (Option.some.inj hf).symm, hs, hp⟩

end Registered

end ZendOpcache
