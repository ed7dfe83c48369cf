import ZendOpcache.Interned.Insert

/-! # Saving and restoring the buffer

The restart resets the pointers into the buffer and a few links of the buckets that were at the end
of a chain or of the list when the state was saved. No other link of an older bucket was changed in
between.
-/

namespace ZendOpcache

namespace Interned

open Neighbours

variable {s t : InternedStrings} {keys more : List (List UInt8)} {key : List UInt8} {i j n : ℕ}
  {saved : SavedState}

/-- The loop over the table up to an index. -/
theorem foldl_restoreHead (saved : SavedState) (s : InternedStrings) (n : ℕ) :
    (List.range n).foldl (InternedStrings.restoreHead saved) s =
      { s with
        arBuckets := fun c => if c < n then saved.arBuckets c else s.arBuckets c
        buffer := fun a => if ∃ c < n, saved.arBuckets c = some a
          then (s.buffer a).map fun b => { b with pLast := none } else s.buffer a } := by
  induction n with
  | zero => simp
  | succ n ih =>
    rw [List.range_succ, List.foldl_append, ih, List.foldl_cons, List.foldl_nil]
    unfold InternedStrings.restoreHead
    congr 1
    · funext c
      simp only [Function.update_apply]
      by_cases hc : c = n
      · simp [hc]
      · simp only [hc, if_false, Nat.lt_succ_iff_lt_or_eq, or_false]
    · funext a
      dsimp only [onBucket]
      by_cases ha : saved.arBuckets n = some a
      · have hex : ∃ c < n + 1, saved.arBuckets c = some a := ⟨n, Nat.lt_succ_self n, ha⟩
        rw [if_pos ha, if_pos hex]
        split_ifs
        · rw [Option.map_map]
          rfl
        · rfl
      · rw [if_neg ha]
        have hiff : (∃ c < n + 1, saved.arBuckets c = some a) ↔
            ∃ c < n, saved.arBuckets c = some a := by
          constructor
          · rintro ⟨c, hc, h⟩
            rcases Nat.lt_succ_iff_lt_or_eq.mp hc with hlt | rfl
            · exact ⟨c, hlt, h⟩
            · exact absurd h ha
          · rintro ⟨c, hc, h⟩
            exact ⟨c, Nat.lt_succ_of_lt hc, h⟩
        simp only [hiff]

/-- The buffer after a restart. -/
def restoredBuffer (saved : SavedState) (s : InternedStrings) : ℕ → Option Bucket :=
  onBucket (onBucket (fun a => if ∃ c < s.nTableSize, saved.arBuckets c = some a
      then (s.buffer a).map fun b => { b with pLast := none } else s.buffer a) saved.pListHead
    fun b => { b with pListLast := none }) saved.pListTail
    fun b => { b with pListNext := none }

theorem accelInternedStringsRestoreState_eq (h : s.saved = some saved) :
    s.accelInternedStringsRestoreState = some { s with
      arBuckets := fun c => if c < s.nTableSize then saved.arBuckets c else s.arBuckets c
      pListHead := saved.pListHead
      pListTail := saved.pListTail
      buffer := restoredBuffer saved s
      top := saved.top } := by
  unfold InternedStrings.accelInternedStringsRestoreState
  refine (congrArg (Option.map _) h).trans ?_
  rw [Option.map_some, foldl_restoreHead]
  rfl

theorem restoredBuffer_none {a : ℕ} (h : s.buffer a = none) : restoredBuffer saved s a = none := by
  refine onBucket_eq_none (onBucket_eq_none ?_)
  split_ifs <;> simp [h]

theorem restoredBuffer_some {a : ℕ} {b : Bucket} (h : s.buffer a = some b) :
    restoredBuffer saved s a = some
      { b with
        pLast := if ∃ c < s.nTableSize, saved.arBuckets c = some a then none else b.pLast
        pListLast := if saved.pListHead = some a then none else b.pListLast
        pListNext := if saved.pListTail = some a then none else b.pListNext } := by
  have hloop : (if ∃ c < s.nTableSize, saved.arBuckets c = some a
      then (s.buffer a).map fun b => { b with pLast := none } else s.buffer a) =
      some { b with pLast :=
        if ∃ c < s.nTableSize, saved.arBuckets c = some a then none else b.pLast } := by
    rw [h]
    split_ifs <;> rfl
  refine (onBucket_eq_some (onBucket_eq_some hloop)).trans (congrArg some ?_)
  split_ifs <;> rfl

variable [ZendInlineHash (List UInt8)]

/-- No chain has an index outside the table. -/
theorem lastBelow_inChain_of_le {size c : ℕ} (hsize : 0 < size) (hc : size ≤ c) :
    lastBelow (inChain size keys c) n = none := by
  rw [lastBelow_eq_none]
  intro k _
  by_contra hin
  obtain ⟨key, -, rfl⟩ := inChain_iff.mp (Bool.not_eq_false _ ▸ hin)
  exact absurd (chainOf_lt key hsize) (by omega)

/-- A bucket with fewer strings behind it: the links of the last one in its chain, and of the last
one in the list, are reset. -/
theorem bucketAt_prefix {start size : ℕ} (more : List (List UInt8)) (hi : keys[i]? = some key) :
    bucketAt start size keys i key =
      { bucketAt start size (keys ++ more) i key with
        pLast := if lastBelow (inChain size keys (chainOf size key)) keys.length = some i then none
          else (bucketAt start size (keys ++ more) i key).pLast
        pListNext := if lastBelow inList keys.length = some i then none
          else (bucketAt start size (keys ++ more) i key).pListNext } := by
  have hlt : i < keys.length := (List.getElem?_eq_some_iff.mp hi).1
  have hin : ∀ k < keys.length, inChain size (keys ++ more) (chainOf size key) k =
      inChain size keys (chainOf size key) k := fun k hk => inChain_append hk _ _
  have hnext := map_firstAbove_prefix start more hlt hin (inChain_self hi)
  have hsame : ∀ k < keys.length, inList k = inList k := fun _ _ => rfl
  have hlist := map_firstAbove_prefix start more hlt hsame rfl
  simp only [bucketAt, Bucket.mk.injEq, true_and, hnext, hlist]
  refine ⟨?_, ?_⟩
  · exact map_lastBelow_congr (fun k hk => (hin k (by omega)).symm)
      fun k hk => (addr_append (by omega) _).symm
  · exact map_lastBelow_congr (fun _ _ => rfl) fun k hk => (addr_append (by omega) _).symm

/-- A bucket that is kept gets the links back that it had. -/
theorem Represents.restoredBuffer_kept (h : Represents s (keys ++ more))
    (hi : keys[i]? = some key) :
    restoredBuffer (rootsOf s.start s.nTableSize keys) s (addr s.start keys i) =
      some (bucketAt s.start s.nTableSize keys i key) := by
  have hlt : i < keys.length := (List.getElem?_eq_some_iff.mp hi).1
  have hold : s.buffer (addr s.start keys i) =
      some (bucketAt s.start s.nTableSize (keys ++ more) i key) := by
    rw [← addr_append hlt.le more]
    exact h.bucket (by rw [List.getElem?_append_left hlt, hi])
  have hchain : (∃ c < s.nTableSize, (rootsOf s.start s.nTableSize keys).arBuckets c =
      some (addr s.start keys i)) ↔
      lastBelow (inChain s.nTableSize keys (chainOf s.nTableSize key)) keys.length = some i := by
    constructor
    · rintro ⟨c, -, hc⟩
      have hl := (lastBelow_map_addr le_rfl hlt).mp hc
      obtain ⟨key', hi', rfl⟩ := inChain_iff.mp (lastBelow_eq_some.mp hl).2.1
      rwa [Option.some.inj (hi.symm.trans hi')]
    · intro hl
      exact ⟨_, chainOf_lt key h.tableSize, (lastBelow_map_addr le_rfl hlt).mpr hl⟩
  have hlist : (rootsOf s.start s.nTableSize keys).pListTail = some (addr s.start keys i) ↔
      lastBelow inList keys.length = some i := lastBelow_map_addr le_rfl hlt
  have hfirst : (rootsOf s.start s.nTableSize keys).pListHead = some (addr s.start keys i) →
      (bucketAt s.start s.nTableSize (keys ++ more) i key).pListLast = none := by
    intro hhead
    obtain ⟨-, -, heq⟩ := Option.map_eq_some_iff.mp hhead
    obtain rfl : 0 = i := addr_inj (by omega) hlt.le (by rwa [addr_zero])
    rfl
  rw [restoredBuffer_some hold, bucketAt_prefix more hi]
  simp only [hchain, hlist]
  congr 2
  split_ifs with hhead
  · exact (hfirst hhead).symm
  · rfl

/-- A restart brings the strings back that were there when the state was saved. -/
theorem Represents.restore (h : Represents s (keys ++ more))
    (hsaved : s.saved = some (rootsOf s.start s.nTableSize keys)) :
    ∃ t, s.accelInternedStringsRestoreState = some t ∧ Represents t keys ∧ t.start = s.start ∧
      t.nTableSize = s.nTableSize ∧ t.finish = s.finish ∧ t.saved = s.saved ∧
      t.nNumOfElements = s.nNumOfElements := by
  refine ⟨_, accelInternedStringsRestoreState_eq hsaved, ?_, rfl, rfl, rfl, rfl, rfl⟩
  have htop : (rootsOf s.start s.nTableSize keys).top ≤ s.top := by
    rw [h.top]
    exact (addr_append le_rfl more).symm.trans_le (addr_le_addr (by simp) le_rfl)
  constructor
  · exact h.tableSize
  · refine congrArg (SavedState.mk · _ _ _) (funext fun c => ?_)
    dsimp only
    split_ifs with hc
    · rfl
    · have hle := Nat.not_lt.mp hc
      change s.arBuckets c =
        (lastBelow (inChain s.nTableSize keys c) keys.length).map (addr s.start keys)
      rw [h.heads, lastBelow_inChain_of_le h.tableSize hle, lastBelow_inChain_of_le h.tableSize hle]
      rfl
  · exact htop.trans h.top_le
  · exact h.restoredBuffer_kept
  · intro a ha hne
    refine restoredBuffer_none (h.gap (Nat.lt_of_lt_of_le ha htop) fun i hi heq => ?_)
    rcases Nat.lt_or_ge i keys.length with hlt | hge
    · exact hne i hlt (heq.trans (addr_append hlt.le more))
    · have hle : addr s.start (keys ++ more) keys.length ≤ _ := addr_le_addr hge hi.le
      rw [addr_append le_rfl, ← heq] at hle
      exact absurd ha (Nat.not_lt.mpr hle)
  · exact (List.nodup_append.mp h.nodup).1

end Interned

end ZendOpcache
