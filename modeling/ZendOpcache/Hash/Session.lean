import ZendOpcache.Hash.Indirection

/-! # Runs of stores

The cache stores a script under its full path, or looks that path up, and then
links the requested key to the entry it got. Between the two other processes may
act. If every link is safe, the table keeps one level of indirection in every
state of the run, and every chain-following loop ends.
-/

namespace ZendOpcache

open ZendAccelHash

variable {π κ δ : Type*}

/-- The table, and for every process the full path it last stored or found, with the entry that
call returned. -/
structure Session (π κ δ : Type*) where
  hash : ZendAccelHash κ δ
  bucket : π → Option (κ × ℕ)

inductive Call (π κ δ : Type*) where
  | store (p : π) (path : κ) (script : δ)
  | find (p : π) (path : κ)
  | link (p : π) (key : κ)
  deriving DecidableEq, Repr

namespace Session

def init (n : ℕ) : Session π κ δ := ⟨zendAccelHashInit n, fun _ => none⟩

variable [DecidableEq π] [DecidableEq κ] [ZendInlineHash κ]

/-- One call. A link is issued only for a key other than the full path, and it returns nothing
when the chain of its target never ends. -/
def call (s : Session π κ δ) : Call π κ δ → Option (Session π κ δ)
  | .store p path script =>
    (s.hash.zendAccelHashUpdate path (.data script)).map fun (h, r) =>
      ⟨h, Function.update s.bucket p (r.map (path, ·))⟩
  | .find p path =>
    some { s with
      bucket := Function.update s.bucket p ((s.hash.zendAccelHashFindEntry path).map (path, ·)) }
  | .link p key =>
    match s.bucket p with
    | none => none
    | some (path, b) =>
      if key = path then none
      else (s.hash.zendAccelHashUpdate key (.entry b)).map fun (h, _) => { s with hash := h }

def Step (s : Session π κ δ) (a : Call π κ δ) (t : Session π κ δ) : Prop := s.call a = some t

/-- A link is safe for the entry its process holds. -/
def Safe (s : Session π κ δ) : Call π κ δ → Prop
  | .link p key => ∀ path b, s.bucket p = some (path, b) → SafeLink s.hash key b
  | _ => True

structure Inv (s : Session π κ δ) : Prop where
  wellFormed : s.hash.WellFormed
  oneLevel : s.hash.OneLevel
  bucket_lt : ∀ {p path b}, s.bucket p = some (path, b) → b < s.hash.numEntries

omit [DecidableEq π] [DecidableEq κ] in
theorem inv_init (n : ℕ) : Inv (init n : Session π κ δ) where
  wellFormed := wellFormed_init n
  oneLevel := oneLevel_init n
  bucket_lt h := by simp [init] at h

variable {s t : Session π κ δ}

omit [DecidableEq κ] [ZendInlineHash κ] in
theorem bucket_update_lt {p q : π} {path path' : κ} {r : Option ℕ} {b n : ℕ}
    (hr : ∀ i, r = some i → i < n)
    (hs : ∀ {q path b}, s.bucket q = some (path, b) → b < n)
    (h : Function.update s.bucket p (r.map (path, ·)) q = some (path', b)) : b < n := by
  by_cases hq : q = p
  · subst hq
    simp only [Function.update_self, Option.map_eq_some_iff, Prod.mk.injEq] at h
    obtain ⟨i, hi, -, rfl⟩ := h
    exact hr i hi
  · exact hs (by simpa [hq] using h)

theorem Inv.store (hs : Inv s) {p : π} {path : κ} {script : δ}
    (h : s.call (.store p path script) = some t) : Inv t := by
  rcases hu : s.hash.updateResolved path (.data script) with ⟨h', r⟩
  simp only [call, zendAccelHashUpdate, hu, Option.map_some, Option.some.injEq] at h
  subst h
  have hle := numEntries_updateResolved_le hu
  exact ⟨hs.wellFormed.updateResolved hu, hs.oneLevel.update_data hu,
    bucket_update_lt (fun i hi => updateResolved_returned_lt hu hi)
      fun hb => Nat.lt_of_lt_of_le (hs.bucket_lt hb) hle⟩

theorem Inv.find (hs : Inv s) {p : π} {path : κ}
    (h : s.call (.find p path) = some t) : Inv t := by
  simp only [call, Option.some.injEq] at h
  subst h
  refine ⟨hs.wellFormed, hs.oneLevel, bucket_update_lt (fun i hi => ?_) hs.bucket_lt⟩
  obtain ⟨e, he, -⟩ := hs.oneLevel.findEntry_direct hi
  exact getElem?_lt he

theorem Inv.link (hs : Inv s) {p : π} {key : κ} (hsafe : s.Safe (.link p key))
    (h : s.call (.link p key) = some t) : Inv t := by
  simp only [call] at h
  cases hb : s.bucket p with
  | none => simp [hb] at h
  | some x =>
    obtain ⟨path, b⟩ := x
    simp only [hb] at h
    split_ifs at h
    obtain ⟨⟨h', r⟩, hu, rfl⟩ := Option.map_eq_some_iff.mp h
    obtain ⟨c, hc, hu⟩ := Option.map_eq_some_iff.mp hu
    have hle := numEntries_updateResolved_le hu
    exact ⟨hs.wellFormed.updateResolved hu,
      (hs.oneLevel.update_entry_iff hc hu).mpr (hsafe path b hb),
      fun hb' => Nat.lt_of_lt_of_le (hs.bucket_lt hb') hle⟩

theorem Inv.step (hs : Inv s) {a : Call π κ δ} (hsafe : s.Safe a) (h : Step s a t) : Inv t := by
  cases a with
  | store p path script => exact hs.store h
  | find p path => exact hs.find h
  | link p key => exact hs.link hsafe h

theorem inv_of_guardedRun {n : ℕ} {w : List (Call π κ δ)}
    (h : GuardedRun Step Safe (init n) w s) : Inv s :=
  h.invariant (inv_init n) fun hs hsafe hstep => hs.step hsafe hstep

/-- In every run of safe links every linked alias leads to a linked direct entry, readers get
scripts and direct entries, and the loop at the top of an update ends. -/
theorem oneLevel_of_safe_run {n : ℕ} {w : List (Call π κ δ)}
    (h : GuardedRun Step Safe (init n) w s) :
    (∀ i e, s.hash.Linked i → s.hash.hashEntries[i]? = some e → e.indirect = true →
      ∃ j e', e.data = .entry j ∧ s.hash.hashEntries[j]? = some e' ∧ e'.indirect = false) ∧
    (∀ k x, s.hash.zendAccelHashFind k = some x → ∃ d, x = .data d) ∧
    (∀ k j, s.hash.zendAccelHashFindEntry k = some j →
      ∃ e, s.hash.hashEntries[j]? = some e ∧ e.indirect = false) ∧
    (∀ k b, b < s.hash.numEntries → ∃ r, s.hash.zendAccelHashUpdate k (.entry b) = some r) := by
  have hs := inv_of_guardedRun h
  refine ⟨fun i e _ he ha => hs.oneLevel.target he ha, fun k x hx => hs.oneLevel.find_data hx,
    fun k j hj => hs.oneLevel.findEntry_direct hj, fun k b hb => ?_⟩
  obtain ⟨c, hc⟩ := hs.oneLevel.followIndirect_ends hb
  exact ⟨s.hash.updateResolved k (.entry c), by simp [zendAccelHashUpdate, hc]⟩

instance : ZendInlineHash ℕ := ⟨id⟩

theorem oneLevel_of_safe_run_link : ∃ s : Session Unit ℕ ℕ,
    s.hash.zendAccelHashFind 1 = some (.data 20) ∧
    ∀ k x, s.hash.zendAccelHashFind k = some x → ∃ d, x = .data d := by
  let s₁ : Session Unit ℕ ℕ := ((init 5).call (.store () 2 20)).get rfl
  let s₂ : Session Unit ℕ ℕ := (s₁.call (.link () 1)).get rfl
  have h₁ : Step (init 5) (.store () 2 20) s₁ := (Option.some_get _).symm
  have h₂ : Step s₁ (.link () 1) s₂ := (Option.some_get _).symm
  have hg : s₁.Safe (.link () 1) := fun _ _ _ => safeLink_of_lookup_none rfl
  exact ⟨s₂, rfl, (oneLevel_of_safe_run ((GuardedRun.single trivial h₁).snoc hg h₂)).2.1⟩

/-- File 1 is cached, then replaced by a link to file 2, then restored while 2 becomes a link to
it: the last store writes through the alias of 1, and the last link points entry 2 at itself. -/
def loopCalls : List (Call Unit ℕ ℕ) :=
  [.store () 1 10, .store () 2 20, .link () 1, .store () 1 11, .link () 2]

/-- A run of the cache's own calls after which an alias leads to an alias, readers get an entry
pointer, and the loop at the top of the next update of entry 1 never ends. -/
theorem oneLevel_fails : ∃ s : Session Unit ℕ ℕ, Run Step (init 5) loopCalls s ∧
    (∃ e e', s.hash.Linked 0 ∧ s.hash.hashEntries[0]? = some e ∧ e.indirect = true ∧
      e.data = .entry 1 ∧ s.hash.hashEntries[1]? = some e' ∧ e'.indirect = true) ∧
    s.hash.zendAccelHashFind 2 = some (.entry 1) ∧
    ∀ n, followIndirect s.hash.hashEntries n 1 = none := by
  refine ⟨_, GuardedRun.of_foldlM rfl, ⟨_, _, ?_, rfl, rfl, rfl, rfl, rfl⟩, rfl, fun n => ?_⟩
  · exact ⟨1, .here rfl⟩
  · induction n with
    | zero => rfl
    | succ n ih => exact (followIndirect_alias rfl rfl rfl).trans ih

end Session

end ZendOpcache
