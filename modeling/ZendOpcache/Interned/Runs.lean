import Mathlib.Data.Nat.Log
import ZendOpcache.Interned.Restore
import ZendOpcache.Transition.Run

/-! # Runs of the buffer

Strings are interned, the state is saved and restored, in any order. At any time the buffer holds
the strings that were interned and not taken back, and what was saved are the first of them.
-/

namespace ZendOpcache

namespace Interned

open Neighbours

inductive Op where
  | intern (a : ℕ) (key : List UInt8)
  | save
  | restore
  deriving DecidableEq, Repr

/-- The parts of the state that never change. -/
structure SameBuffer (s t : InternedStrings) : Prop where
  start : t.start = s.start
  tableSize : t.nTableSize = s.nTableSize
  finish : t.finish = s.finish

theorem SameBuffer.trans {s t u : InternedStrings} (h : SameBuffer s t) (h' : SameBuffer t u) :
    SameBuffer s u :=
  ⟨h'.start.trans h.start, h'.tableSize.trans h.tableSize, h'.finish.trans h.finish⟩

variable [ZendInlineHash (List UInt8)]

namespace InternedStrings

/-- A string of the process is interned, or the state is saved or restored. -/
def step (s : InternedStrings) : Op → Option InternedStrings
  | .intern a key => (s.accelNewInternedString (.process a key)).map (·.1)
  | .save => some s.accelInternedStringsSaveState
  | .restore => s.accelInternedStringsRestoreState

def Step (s : InternedStrings) (op : Op) (t : InternedStrings) : Prop := s.step op = some t

end InternedStrings

open InternedStrings

variable {s t u : InternedStrings} {keys : List (List UInt8)} {key : List UInt8} {op : Op}
  {w v : List Op} {start megabytes : ℕ}

/-- The strings in the buffer, and those that a restart would leave. -/
structure Holds (s : InternedStrings) (keys : List (List UInt8))
    (kept : Option (List (List UInt8))) : Prop where
  represents : Represents s keys
  saved : s.saved = kept.map (rootsOf s.start s.nTableSize)
  isPrefix : ∀ k, kept = some k → k <+: keys

theorem holds_init [ZendHashInit] (start megabytes : ℕ) :
    Holds (.init start megabytes) [] none where
  represents := represents_init start megabytes
  saved := rfl
  isPrefix _ h := by cases h

/-- What a step does to the strings in the buffer, and to the number of them. -/
inductive Effect (s : InternedStrings) (keys : List (List UInt8))
    (kept : Option (List (List UInt8))) (t : InternedStrings) : Op → Prop where
  | same (a : ℕ) (key : List UInt8) : t = s → Effect s keys kept t (.intern a key)
  | added (a : ℕ) (key : List UInt8) : Holds t (keys ++ [key]) kept →
      t.nNumOfElements = s.nNumOfElements + 1 → Effect s keys kept t (.intern a key)
  | saved : Holds t keys (some keys) → t = s.accelInternedStringsSaveState →
      Effect s keys kept t .save
  | restored (k : List (List UInt8)) : kept = some k → Holds t k kept →
      t.nNumOfElements = s.nNumOfElements → Effect s keys kept t .restore

variable {kept kept' : Option (List (List UInt8))} {keys' : List (List UInt8)}

theorem Holds.step (h : Holds s keys kept) (hs : Step s op t) :
    SameBuffer s t ∧ Effect s keys kept t op := by
  unfold Step InternedStrings.step at hs
  cases op with
  | intern a key =>
    obtain ⟨⟨t', r⟩, hcall, rfl⟩ := Option.map_eq_some_iff.mp hs
    by_cases hmem : key ∈ keys
    · obtain ⟨j, hj⟩ := List.mem_iff_getElem?.mp hmem
      rw [h.represents.accelNewInternedString_of_mem hj] at hcall
      obtain ⟨rfl, rfl⟩ := Prod.mk.inj (Option.some.inj hcall)
      exact ⟨⟨rfl, rfl, rfl⟩, .same a key rfl⟩
    · rcases Nat.lt_or_ge (s.top + bucketSize key) s.finish with hfit | hfull
      · rw [h.represents.accelNewInternedString_of_fits hmem hfit] at hcall
        obtain ⟨rfl, rfl⟩ := Prod.mk.inj (Option.some.inj hcall)
        refine ⟨⟨rfl, rfl, rfl⟩, .added a key ⟨h.represents.createBucket hmem hfit.le, h.saved,
          ?_⟩ rfl⟩
        exact fun k hk => (h.isPrefix k hk).trans (List.prefix_append keys [key])
      · rw [h.represents.accelNewInternedString_of_full hmem hfull] at hcall
        obtain ⟨rfl, rfl⟩ := Prod.mk.inj (Option.some.inj hcall)
        exact ⟨⟨rfl, rfl, rfl⟩, .same a key rfl⟩
  | save =>
    obtain rfl := Option.some.inj hs
    refine ⟨⟨rfl, rfl, rfl⟩, .saved ⟨?_, ?_, ?_⟩ rfl⟩
    · obtain ⟨h₁, h₂, h₃, h₄, h₅, h₆⟩ := h.represents
      exact ⟨h₁, h₂, h₃, h₄, h₅, h₆⟩
    · exact congrArg some h.represents.roots
    · rintro k hk
      obtain rfl := Option.some.inj hk
      exact List.prefix_refl keys
  | restore =>
    cases hkept : kept with
    | none =>
      rw [InternedStrings.accelInternedStringsRestoreState, h.saved, hkept] at hs
      cases hs
    | some k =>
      obtain ⟨more, rfl⟩ := h.isPrefix k hkept
      obtain ⟨t', ht', hrep, hstart, hsize, hfinish, hsaved, hcount⟩ :=
        h.represents.restore (h.saved.trans (by rw [hkept]; rfl))
      obtain rfl : t' = t := Option.some.inj (ht'.symm.trans hs)
      refine ⟨⟨hstart, hsize, hfinish⟩, .restored k rfl ⟨hrep, ?_, ?_⟩ hcount⟩
      · rw [hsaved, h.saved, hkept, hstart, hsize]
      · rintro k' hk'
        obtain rfl := Option.some.inj hk'
        exact List.prefix_refl k

theorem Effect.holds (h : Holds s keys kept) (he : Effect s keys kept t op) :
    ∃ keys' kept', Holds t keys' kept' := by
  cases he with
  | same a key heq => exact ⟨keys, kept, heq ▸ h⟩
  | added a key ht => exact ⟨_, _, ht⟩
  | saved ht => exact ⟨_, _, ht⟩
  | restored k _ ht => exact ⟨_, _, ht⟩

/-- Every state that a run reaches. -/
theorem holds_of_run [ZendHashInit] (h : Run Step (.init start megabytes) w s) :
    ∃ keys kept, Holds s keys kept := by
  induction h with
  | nil => exact ⟨[], none, holds_init start megabytes⟩
  | snoc _ _ hs ih =>
    obtain ⟨keys, kept, h⟩ := ih
    exact (h.step hs).2.holds h

namespace Represents

variable {p : ℕ}

/-- Every bucket below the top is that of a string. -/
theorem exists_of_buffer (h : Represents s keys) {b : Bucket} (hp : p < s.top)
    (hb : s.buffer p = some b) :
    ∃ i key, keys[i]? = some key ∧ p = addr s.start keys i ∧
      b = bucketAt s.start s.nTableSize keys i key := by
  by_contra hne
  have hgap := h.gap hp fun i hi heq => hne ⟨i, keys[i], List.getElem?_eq_getElem hi, heq, by
    have hi' := h.bucket (List.getElem?_eq_getElem hi)
    rw [← heq, hb] at hi'
    exact Option.some.inj hi'⟩
  rw [hb] at hgap
  cases hgap

theorem stringAt_iff (h : Represents s keys) (hp : p < s.top) :
    s.stringAt (p + sizeofBucket) = some key ↔
      ∃ i, keys[i]? = some key ∧ p = addr s.start keys i := by
  constructor
  · intro hk
    unfold InternedStrings.stringAt at hk
    rw [if_pos (Nat.le_add_left _ _), Nat.add_sub_cancel] at hk
    obtain ⟨b, hb, rfl⟩ := Option.map_eq_some_iff.mp hk
    obtain ⟨i, key', hi, heq, rfl⟩ := h.exists_of_buffer hp hb
    exact ⟨i, hi, heq⟩
  · rintro ⟨i, hi, rfl⟩
    exact h.stringAt hi

/-- No two buckets with one content. -/
theorem buffer_inj (h : Represents s keys) {p' : ℕ} {b b' : Bucket} (hp : p < s.top)
    (hp' : p' < s.top) (hb : s.buffer p = some b) (hb' : s.buffer p' = some b')
    (heq : b.arKey = b'.arKey) : p = p' := by
  obtain ⟨i, key, hi, rfl, rfl⟩ := h.exists_of_buffer hp hb
  obtain ⟨j, key', hj, rfl, rfl⟩ := h.exists_of_buffer hp' hb'
  obtain rfl : key = key' := heq
  have hlt := (List.getElem?_eq_some_iff.mp hi).1
  rw [(List.getElem?_inj hlt h.nodup).mp (hi.trans hj.symm)]

/-- A string is found with its bytes in the used part of the buffer. -/
theorem bounds (h : Represents s keys) {i : ℕ} (hi : keys[i]? = some key) :
    s.start ≤ addr s.start keys i ∧
      addr s.start keys i + sizeofBucket + key.length ≤ s.top := by
  have hlt := (List.getElem?_eq_some_iff.mp hi).1
  have hle : addr s.start keys (i + 1) ≤ _ := addr_le_addr hlt le_rfl
  have hsize := sizeofBucket_le_bucketSize key
  rw [addr_succ hi, ← h.top] at hle
  exact ⟨Nat.le_add_right _ _, by omega⟩

/-- What a call gives. -/
theorem accelNewInternedString_result (h : Represents s keys) (a : ℕ) (key : List UInt8) :
    ∃ t r, s.accelNewInternedString (.process a key) = some (t, r) ∧
      ((∃ p, r = .shared (p + sizeofBucket) ∧ t.stringAt (p + sizeofBucket) = some key ∧
          t.start ≤ p ∧ p + sizeofBucket + key.length ≤ t.top) ∨
        (r = .process a key ∧ t = s ∧ s.finish - s.top ≤ bucketSize key)) := by
  by_cases hmem : key ∈ keys
  · obtain ⟨j, hj⟩ := List.mem_iff_getElem?.mp hmem
    obtain ⟨hstart, htop⟩ := h.bounds hj
    exact ⟨s, _, h.accelNewInternedString_of_mem hj,
      .inl ⟨_, rfl, h.stringAt hj, hstart, htop⟩⟩
  · rcases Nat.lt_or_ge (s.top + bucketSize key) s.finish with hfit | hfull
    · have ht := h.createBucket hmem hfit.le
      have hlast : (keys ++ [key])[keys.length]? = some key := by simp
      have hp : addr s.start (keys ++ [key]) keys.length = s.top := by
        rw [addr_append le_rfl, h.top]
      obtain ⟨hstart, htop⟩ := ht.bounds hlast
      have hstring := ht.stringAt hlast
      refine ⟨_, _, h.accelNewInternedString_of_fits hmem hfit, .inl ⟨s.top, rfl, ?_⟩⟩
      rw [← hp]
      exact ⟨hstring, hstart, htop⟩
    · exact ⟨s, _, h.accelNewInternedString_of_full hmem hfull, .inr ⟨rfl, rfl, by omega⟩⟩

/-- Two buffers with the same strings are the same. -/
theorem buffer_eq (h : Represents s keys) (h' : Represents t keys) (hst : SameBuffer s t)
    (hp : p < s.top) : t.buffer p = s.buffer p := by
  by_cases hex : ∃ i < keys.length, p = addr s.start keys i
  · obtain ⟨i, hi, rfl⟩ := hex
    have hkey := List.getElem?_eq_getElem hi
    have hb' := h'.bucket hkey
    rw [hst.start, hst.tableSize] at hb'
    rw [hb', h.bucket hkey]
  · have hne : ∀ i < keys.length, p ≠ addr s.start keys i := fun i hi heq => hex ⟨i, hi, heq⟩
    rw [h.gap hp hne]
    rw [h.top] at hp
    refine h'.gap (by rwa [h'.top, hst.start]) ?_
    rwa [hst.start]

theorem find_eq (h : Represents s keys) (h' : Represents t keys) (hst : SameBuffer s t)
    (key : List UInt8) : t.find key = s.find key := by
  by_cases hmem : key ∈ keys
  · obtain ⟨j, hj⟩ := List.mem_iff_getElem?.mp hmem
    rw [h.find_of_mem hj, h'.find_of_mem hj, hst.start]
  · rw [h.find_of_not_mem hmem, h'.find_of_not_mem hmem]

end Represents

/-! ### Strings stay -/

variable {p : ℕ}

/-- One step keeps a string that stays below the top. -/
theorem Holds.stringAt_step (h : Holds s keys kept) (hs : Step s op t) (hp : p < s.top)
    (hp' : p < t.top) (hk : s.stringAt (p + sizeofBucket) = some key) :
    t.stringAt (p + sizeofBucket) = some key := by
  obtain ⟨hst, he⟩ := h.step hs
  obtain ⟨i, hi, rfl⟩ := (h.represents.stringAt_iff hp).mp hk
  cases he with
  | same a key' heq =>
    rw [heq]
    exact hk
  | added a key' ht =>
    have hlt := (List.getElem?_eq_some_iff.mp hi).1
    refine (ht.represents.stringAt_iff hp').mpr ⟨i, ?_, ?_⟩
    · rw [List.getElem?_append_left hlt, hi]
    · rw [hst.start, addr_append hlt.le]
  | saved _ heq =>
    rw [heq]
    exact hk
  | restored k hkept ht =>
    obtain ⟨more, rfl⟩ := h.isPrefix k hkept
    have hlt : i < k.length := by
      by_contra hge
      rw [ht.represents.top, hst.start, ← addr_append le_rfl more] at hp'
      have hle : addr s.start (k ++ more) k.length ≤ _ := addr_le_addr (Nat.not_lt.mp hge)
        (List.getElem?_eq_some_iff.mp hi).1.le
      omega
    refine (ht.represents.stringAt_iff hp').mpr ⟨i, ?_, ?_⟩
    · rwa [List.getElem?_append_left hlt] at hi
    · rw [hst.start, addr_append hlt.le]

/-- The states that follow have their top above an address. -/
def StaysBelow (p : ℕ) (s : InternedStrings) (op : Op) : Prop := ∀ t, Step s op t → p < t.top

theorem Holds.stringAt_run (h : Holds s keys kept) (hp : p < s.top)
    (hk : s.stringAt (p + sizeofBucket) = some key)
    (hr : GuardedRun Step (StaysBelow p) s v t) :
    t.stringAt (p + sizeofBucket) = some key := by
  have hinv : (∃ keys kept, Holds t keys kept) ∧ p < t.top ∧
      t.stringAt (p + sizeofBucket) = some key := by
    induction hr with
    | nil => exact ⟨⟨keys, kept, h⟩, hp, hk⟩
    | snoc _ hg hs ih =>
      obtain ⟨⟨keys, kept, ht⟩, hpt, hkt⟩ := ih
      have hpu := hg _ hs
      exact ⟨(ht.step hs).2.holds ht, hpu, ht.stringAt_step hs hpt hpu hkt⟩
  exact hinv.2.2

/-! ### A restart takes the buffer back -/

/-- No state is saved. -/
def NoSave (_ : InternedStrings) (op : Op) : Prop := op ≠ .save

/-- What was saved is kept until the next save. -/
theorem Holds.kept_run (h : Holds s keys kept) (hr : GuardedRun Step NoSave s v t) :
    SameBuffer s t ∧ ∃ keys', Holds t keys' kept := by
  induction hr with
  | nil => exact ⟨⟨rfl, rfl, rfl⟩, keys, h⟩
  | snoc _ hg hs ih =>
    obtain ⟨hst, keys', ht⟩ := ih
    obtain ⟨htu, he⟩ := ht.step hs
    refine ⟨hst.trans htu, ?_⟩
    cases he with
    | same a key heq => exact ⟨keys', heq ▸ ht⟩
    | added a key hu => exact ⟨_, hu⟩
    | saved => exact absurd rfl hg
    | restored k _ hu => exact ⟨_, hu⟩

/-- After a save, further steps without one, and a restart, the pointers, the buckets with all
their links and the answers of the search are those at the save. -/
theorem Holds.restore_run (h : Holds s keys kept) (hsave : Step s .save t)
    (hr : GuardedRun Step NoSave t v u) :
    ∃ r, Step u .restore r ∧ r.roots = s.roots ∧ (∀ p < s.top, r.buffer p = s.buffer p) ∧
      ∀ key, r.find key = s.find key := by
  obtain ⟨hst, he⟩ := h.step hsave
  cases he with
  | saved ht =>
    obtain ⟨htu, keys', hu⟩ := ht.kept_run hr
    obtain ⟨more, rfl⟩ := hu.isPrefix keys rfl
    obtain ⟨r, hrestore, hrep, hstart, hsize, hfinish, -⟩ := hu.represents.restore hu.saved
    have hsr : SameBuffer s r := (hst.trans htu).trans ⟨hstart, hsize, hfinish⟩
    refine ⟨r, hrestore, ?_, ?_, ?_⟩
    · rw [hrep.roots, h.represents.roots, hsr.start, hsr.tableSize]
    · exact fun p hp => h.represents.buffer_eq hrep hsr hp
    · exact h.represents.find_eq hrep hsr

/-- In every state that a run reaches, a string stands in the buffer only once, a call finds or adds
its string and fails only where the bucket would not leave a byte free, and the top is in the
buffer. From there on a string stays where it is while it is below the top, and a restart brings
back what was there at the save. -/
theorem internedStrings_run [ZendHashInit] (h : Run Step (.init start megabytes) w s) :
    (∀ p p' b b', p < s.top → p' < s.top → s.buffer p = some b → s.buffer p' = some b' →
      b.arKey = b'.arKey → p = p') ∧
    (∀ a key, ∃ t r, s.accelNewInternedString (.process a key) = some (t, r) ∧
      ((∃ p, r = .shared (p + sizeofBucket) ∧ t.stringAt (p + sizeofBucket) = some key ∧
          t.start ≤ p ∧ p + sizeofBucket + key.length ≤ t.top) ∨
        (r = .process a key ∧ t = s ∧ s.finish - s.top ≤ bucketSize key))) ∧
    s.top ≤ s.finish ∧
    (∀ p key v t, p < s.top → s.stringAt (p + sizeofBucket) = some key →
      GuardedRun Step (StaysBelow p) s v t → t.stringAt (p + sizeofBucket) = some key) ∧
    (∀ t v u, Step s .save t → GuardedRun Step NoSave t v u →
      ∃ r, Step u .restore r ∧ r.roots = s.roots ∧ (∀ p < s.top, r.buffer p = s.buffer p) ∧
        ∀ key, r.find key = s.find key) := by
  obtain ⟨keys, kept, hs⟩ := holds_of_run h
  refine ⟨?_, ?_, hs.represents.top_le, ?_, ?_⟩
  · exact fun p p' b b' => hs.represents.buffer_inj
  · exact hs.represents.accelNewInternedString_result
  · exact fun p key v t hp hk hr => hs.stringAt_run hp hk hr
  · exact fun t v u hsave hr => hs.restore_run hsave hr

end Interned

namespace Interned

open InternedStrings

section

/-- The times 33 hash of the engine. -/
@[reducible] def djbx33a : ZendInlineHash (List UInt8) :=
  ⟨fun key => key.foldl (fun (h : ℕ) (c : UInt8) => (h * 33 + c.toNat) % 2 ^ 64) 5381⟩

/-- A power of two that is not below 8 -/
@[reducible] def powerOfTwo : ZendHashInit where
  zendHashSize nSize := 2 ^ max 3 (Nat.clog 2 nSize)
  zendHashSize_pos _ := Nat.two_pow_pos _

local instance : ZendInlineHash (List UInt8) := djbx33a
local instance : ZendHashInit := powerOfTwo

/-- `a`, saved, `b`, and a restart: what is found is what was found at the save. -/
theorem internedStrings_run_restart :
    ∃ s t u r, Step (.init 0 1) (.intern 8 [97, 0]) s ∧ Step s .save t ∧
      Step t (.intern 16 [98, 0]) u ∧ Step u .restore r ∧ r.roots = s.roots ∧
      r.find [98, 0] = s.find [98, 0] := by
  obtain ⟨s, _, hs, -⟩ := (holds_init 0 1).represents.accelNewInternedString_result 8 [97, 0]
  have hstep : Step (.init 0 1) (.intern 8 [97, 0]) s := by
    rw [Step, InternedStrings.step, hs]
    rfl
  have hrun : Run Step (.init 0 1) [.intern 8 [97, 0]] s := .single trivial hstep
  obtain ⟨t, htrep⟩ : ∃ t, Step s .save t := ⟨_, rfl⟩
  obtain ⟨keys, kept, ht⟩ := holds_of_run (hrun.snoc trivial htrep)
  obtain ⟨u, _, hu, -⟩ := ht.represents.accelNewInternedString_result 16 [98, 0]
  have hstep' : Step t (.intern 16 [98, 0]) u := by
    rw [Step, InternedStrings.step, hu]
    rfl
  obtain ⟨r, hr, hroots, -, hfind⟩ := (internedStrings_run hrun).2.2.2.2 t _ u htrep
    (.single (by simp [NoSave]) hstep')
  exact ⟨s, t, u, r, hstep, htrep, hstep', hr, hroots, hfind [98, 0]⟩

/-- A bucket that would take just the free bytes of a buffer of one megabyte is not made. -/
theorem accelNewInternedString_exactFit :
    let s := InternedStrings.init 0 1
    let key : List UInt8 := List.replicate 1048504 0
    zendMmAlignedSize (sizeofBucket + key.length) = s.finish - s.top ∧
      s.accelNewInternedString (.process 8 key) = some (s, .process 8 key) := by
  intro s key
  have hsize : bucketSize key = 1048576 := by
    rw [bucketSize, List.length_replicate]
    decide
  refine ⟨hsize, ?_⟩
  refine (holds_init 0 1).represents.accelNewInternedString_of_full (by simp) ?_
  rw [hsize]
  exact le_rfl

end

end Interned

end ZendOpcache
