import ZendOpcache.Interned.Layout

/-! # Interning a string

The search finds the bucket of every string that is there and ends without one for any other
string. A new bucket is linked in front of its chain and at the end of the list.
-/

namespace ZendOpcache

namespace Interned

open Neighbours

variable [ZendInlineHash (List UInt8)] {s : InternedStrings} {keys : List (List UInt8)}
  {key : List UInt8} {a i j n : ℕ}

namespace Represents

theorem heads (h : Represents s keys) (c : ℕ) :
    s.arBuckets c =
      (lastBelow (inChain s.nTableSize keys c) keys.length).map (addr s.start keys) :=
  congrFun (congrArg SavedState.arBuckets h.roots) c

theorem listHead (h : Represents s keys) : s.pListHead = (keys.head?).map fun _ => s.start :=
  congrArg SavedState.pListHead h.roots

theorem listTail (h : Represents s keys) :
    s.pListTail = (lastBelow inList keys.length).map (addr s.start keys) :=
  congrArg SavedState.pListTail h.roots

theorem top (h : Represents s keys) : s.top = addr s.start keys keys.length :=
  congrArg SavedState.top h.roots

theorem addr_lt_top (h : Represents s keys) (hi : i < keys.length) :
    addr s.start keys i < s.top := by
  rw [h.top]
  exact addr_lt_addr hi le_rfl

/-- The walk of a chain from the first bucket below an index. -/
theorem findBucket_chain (h : Represents s keys) (fuel : ℕ) (hi : i ≤ keys.length)
    (hfuel : i < fuel) :
    (∀ j < i, keys[j]? = some key →
      InternedStrings.findBucket s.buffer (zendInlineHashFunc key) key fuel
        ((lastBelow (inChain s.nTableSize keys (chainOf s.nTableSize key)) i).map
          (addr s.start keys)) = some (some (addr s.start keys j))) ∧
    ((∀ j < i, keys[j]? ≠ some key) →
      InternedStrings.findBucket s.buffer (zendInlineHashFunc key) key fuel
        ((lastBelow (inChain s.nTableSize keys (chainOf s.nTableSize key)) i).map
          (addr s.start keys)) = some none) := by
  induction fuel generalizing i with
  | zero => omega
  | succ fuel ih =>
    cases hl : lastBelow (inChain s.nTableSize keys (chainOf s.nTableSize key)) i with
    | none =>
      refine ⟨fun j hj hkey => ?_, fun _ => rfl⟩
      have hin := lastBelow_eq_none.mp hl j hj
      rw [inChain_self hkey] at hin
      cases hin
    | some k =>
      obtain ⟨hk, hin, hbetween⟩ := lastBelow_eq_some.mp hl
      obtain ⟨key', hkey', hchain⟩ := inChain_iff.mp hin
      rw [Option.map_some, InternedStrings.findBucket, h.bucket hkey']
      by_cases heq : key' = key
      · subst heq
        simp only [bucketAt, and_self, if_true]
        constructor
        · intro j hj hkey
          have hk' : k < keys.length := by omega
          rw [(List.getElem?_inj hk' h.nodup).mp (hkey'.trans hkey.symm)]
        · exact fun hne => absurd hkey' (hne k hk)
      · simp only [bucketAt, heq, and_false, if_false, hchain]
        have hbelow : ∀ j < i, keys[j]? = some key → j < k := by
          intro j hj hkey
          rcases Nat.lt_trichotomy j k with hlt | rfl | hgt
          · exact hlt
          · exact absurd (Option.some.inj (hkey'.symm.trans hkey)) heq
          · have hin := hbetween j hgt hj
            rw [inChain_self hkey] at hin
            cases hin
        obtain ⟨ih₁, ih₂⟩ := ih (i := k) (by omega) (by omega)
        constructor
        · exact fun j hj hkey => ih₁ j (hbelow j hj hkey) hkey
        · exact fun hne => ih₂ fun j hj => hne j (by omega)

/-- No more strings than bytes. -/
theorem length_lt (h : Represents s keys) : keys.length < s.finish + 1 := by
  have h₁ := addr_length_ge s.start keys
  have h₂ := h.top_le
  rw [h.top] at h₂
  unfold sizeofBucket at h₁
  omega

theorem find_of_mem (h : Represents s keys) (hj : keys[j]? = some key) :
    s.find key = some (some (addr s.start keys j)) := by
  have hlt := (List.getElem?_eq_some_iff.mp hj).1
  unfold InternedStrings.find
  simp only [h.heads]
  exact (h.findBucket_chain _ le_rfl h.length_lt).1 j hlt hj

theorem find_of_not_mem (h : Represents s keys) (hkey : key ∉ keys) : s.find key = some none := by
  unfold InternedStrings.find
  simp only [h.heads]
  exact (h.findBucket_chain _ le_rfl h.length_lt).2 fun j _ hj =>
    hkey (List.mem_of_getElem? hj)

end Represents

/-! ### A new bucket -/

/-- One more string moves the links of the bucket that was last in its chain, and of the one that
was last in the list. -/
theorem bucketAt_append {start size : ℕ} {key' : List UInt8} (hi : keys[i]? = some key') :
    bucketAt start size (keys ++ [key]) i key' =
      { bucketAt start size keys i key' with
        pLast := if chainOf size key = chainOf size key' ∧
            lastBelow (inChain size keys (chainOf size key')) keys.length = some i
          then some (addr start keys keys.length)
          else (bucketAt start size keys i key').pLast
        pListNext := if lastBelow inList keys.length = some i
          then some (addr start keys keys.length)
          else (bucketAt start size keys i key').pListNext } := by
  have hlt : i < keys.length := (List.getElem?_eq_some_iff.mp hi).1
  have hin : ∀ k < keys.length, inChain size (keys ++ [key]) (chainOf size key') k =
      inChain size keys (chainOf size key') k := fun k hk => inChain_append hk _ _
  have hnew : inChain size (keys ++ [key]) (chainOf size key') keys.length = true ↔
      chainOf size key = chainOf size key' := by
    simp [inChain]
  have hnext := map_firstAbove_append start key hlt hin (inChain_self hi)
  have hsame : ∀ k < keys.length, inList k = inList k := fun _ _ => rfl
  have hlist := map_firstAbove_append start key hlt hsame rfl
  simp only [hnew] at hnext
  simp only [bucketAt, List.length_append, List.length_singleton, hnext, hlist, Bucket.mk.injEq,
    true_and, inList]
  refine ⟨?_, ?_⟩
  · exact map_lastBelow_congr (fun k hk => hin k (by omega)) fun k hk => addr_append (by omega) _
  · exact map_lastBelow_congr (fun _ _ => rfl) fun k hk => addr_append (by omega) _

/-- The pointers into the buffer, with the new bucket. -/
theorem rootsOf_append {start size : ℕ} :
    rootsOf start size (keys ++ [key]) =
      { arBuckets := Function.update (rootsOf start size keys).arBuckets (chainOf size key)
          (some (addr start keys keys.length))
        pListHead := some ((rootsOf start size keys).pListHead.getD (addr start keys keys.length))
        pListTail := some (addr start keys keys.length)
        top := addr start keys keys.length + bucketSize key } := by
  have hlast : (keys ++ [key])[keys.length]? = some key := by simp
  have haddr : addr start (keys ++ [key]) keys.length = addr start keys keys.length :=
    addr_append le_rfl [key]
  unfold rootsOf
  rw [List.length_append, List.length_singleton, addr_succ hlast, haddr]
  congr 1
  · funext c
    rw [lastBelow, Function.update_apply]
    have hnew : inChain size (keys ++ [key]) c keys.length = true ↔ chainOf size key = c := by
      simp [inChain]
    by_cases hc : c = chainOf size key
    · rw [if_pos (hnew.mpr hc.symm), if_pos hc, Option.map_some, haddr]
    · rw [if_neg (fun h => hc (hnew.mp h).symm), if_neg hc]
      exact map_lastBelow_congr (fun k hk => inChain_append hk _ _) fun k hk => addr_append hk.le _
  · cases keys <;> simp
  · rw [lastBelow, inList, if_pos rfl, Option.map_some, haddr]

/-- The buckets that were there get the links to the new one. -/
theorem Represents.bucket_create_old (h : Represents s keys) {key' : List UInt8}
    (hi : keys[i]? = some key') :
    (s.createBucket (zendInlineHashFunc key) key).buffer (addr s.start (keys ++ [key]) i) =
      some (bucketAt s.start s.nTableSize (keys ++ [key]) i key') := by
  have hlt : i < keys.length := (List.getElem?_eq_some_iff.mp hi).1
  have hstored : storeBucket s.buffer s.top (bucketSize key) ⟨zendInlineHashFunc key, key,
      s.arBuckets (chainOf s.nTableSize key), none, none, s.pListTail⟩ (addr s.start keys i) = _ :=
    (storeBucket_of_lt (h.addr_lt_top hlt)).trans (h.bucket hi)
  have hchain : s.arBuckets (chainOf s.nTableSize key) = some (addr s.start keys i) ↔
      chainOf s.nTableSize key = chainOf s.nTableSize key' ∧
        lastBelow (inChain s.nTableSize keys (chainOf s.nTableSize key')) keys.length = some i := by
    rw [h.heads, lastBelow_map_addr le_rfl hlt]
    constructor
    · intro hl
      obtain ⟨key'', hi', hc⟩ := inChain_iff.mp (lastBelow_eq_some.mp hl).2.1
      obtain rfl : key' = key'' := Option.some.inj (hi.symm.trans hi')
      exact ⟨hc.symm, hc ▸ hl⟩
    · rintro ⟨hc, hl⟩
      rwa [hc]
  have hlist : s.pListTail = some (addr s.start keys i) ↔
      lastBelow inList keys.length = some i := by
    rw [h.listTail, lastBelow_map_addr le_rfl hlt]
  rw [addr_append hlt.le, bucketAt_append hi, ← h.top]
  simp only [← hchain, ← hlist]
  refine (onBucket_eq_some (onBucket_eq_some hstored)).trans (congrArg some ?_)
  rw [nIndex_eq]
  split_ifs <;> rfl

theorem Represents.bucket_create_new (h : Represents s keys) :
    (s.createBucket (zendInlineHashFunc key) key).buffer
        (addr s.start (keys ++ [key]) keys.length) =
      some (bucketAt s.start s.nTableSize (keys ++ [key]) keys.length key) := by
  have hold : ∀ p : ℕ → Bool, (lastBelow p keys.length).map (addr s.start keys) ≠ some s.top := by
    intro p hp
    obtain ⟨j, hj, heq⟩ := Option.map_eq_some_iff.mp hp
    exact absurd heq (h.addr_lt_top (lastBelow_eq_some.mp hj).1).ne
  have hchain := hold (inChain s.nTableSize keys (chainOf s.nTableSize key))
  have hlist := hold inList
  rw [← h.heads] at hchain
  rw [← h.listTail] at hlist
  rw [addr_append le_rfl, ← h.top]
  refine (onBucket_eq_some (onBucket_eq_some storeBucket_self)).trans (congrArg some ?_)
  have hlast : (keys ++ [key])[keys.length]? = some key := by simp
  rw [nIndex_eq, if_neg hlist, if_neg hchain]
  simp only [bucketAt, Bucket.mk.injEq, true_and]
  have hbound : (keys ++ [key]).length = keys.length + 1 := by simp
  have hnone : ∀ p : ℕ → Bool, firstAbove p keys.length (keys ++ [key]).length = none := by
    intro p
    rw [firstAbove_eq_none, hbound]
    omega
  rw [hnone, hnone, h.heads, h.listTail]
  refine ⟨?_, rfl, rfl, ?_⟩
  · exact map_lastBelow_congr (fun k hk => (inChain_append hk _ _).symm)
      fun k hk => (addr_append hk.le _).symm
  · exact map_lastBelow_congr (fun _ _ => rfl) fun k hk => (addr_append hk.le _).symm

theorem Represents.createBucket (h : Represents s keys) (hkey : key ∉ keys)
    (hfit : s.top + bucketSize key ≤ s.finish) :
    Represents (s.createBucket (zendInlineHashFunc key) key) (keys ++ [key]) where
  tableSize := h.tableSize
  roots := by
    calc (s.createBucket (zendInlineHashFunc key) key).roots
        = ⟨Function.update s.roots.arBuckets (chainOf s.nTableSize key) (some s.top),
            some (s.roots.pListHead.getD s.top), some s.top, s.top + bucketSize key⟩ := rfl
      _ = rootsOf s.start s.nTableSize (keys ++ [key]) := by
        rw [h.roots, h.top, rootsOf_append]
  top_le := hfit
  bucket := by
    intro i key' hi
    rcases Nat.lt_or_ge i keys.length with hlt | hge
    · rw [List.getElem?_append_left hlt] at hi
      exact h.bucket_create_old hi
    · obtain rfl : i = keys.length := by
        have := (List.getElem?_eq_some_iff.mp hi).1
        rw [List.length_append, List.length_singleton] at this
        omega
      obtain rfl : key = key' := by simpa using hi
      exact h.bucket_create_new
  gap := by
    intro a ha hne
    have hnext : a < s.top + bucketSize key := ha
    have htop : a ≠ s.top := by
      have := hne keys.length (by simp)
      rwa [show (s.createBucket _ key).start = s.start from rfl, addr_append le_rfl,
        ← h.top] at this
    refine onBucket_eq_none (onBucket_eq_none ?_)
    rcases Nat.lt_or_ge a s.top with hlt | hge
    · rw [storeBucket_of_lt hlt]
      refine h.gap hlt fun i hi heq => hne i (by simp; omega) ?_
      rwa [show (s.createBucket _ key).start = s.start from rfl, addr_append hi.le]
    · exact storeBucket_inside (by omega) hnext
  nodup := by
    rw [List.nodup_append]
    exact ⟨h.nodup, by simp, fun a ha b hb => by
      obtain rfl := List.mem_singleton.mp hb
      exact fun heq => hkey (heq ▸ ha)⟩

namespace Represents

theorem accelNewInternedString_process (s : InternedStrings) (a : ℕ) (key : List UInt8) :
    s.accelNewInternedString (.process a key) =
      match s.find key with
      | none => none
      | some (some p) => some (s, .shared (p + sizeofBucket))
      | some none =>
        if s.finish ≤ s.top + bucketSize key then some (s, .process a key)
        else some (s.createBucket (zendInlineHashFunc key) key, .shared (s.top + sizeofBucket)) :=
  rfl

/-- A string that is there is found. -/
theorem accelNewInternedString_of_mem (h : Represents s keys) (hj : keys[j]? = some key) :
    s.accelNewInternedString (.process a key) =
      some (s, .shared (addr s.start keys j + sizeofBucket)) := by
  rw [accelNewInternedString_process, h.find_of_mem hj]

/-- A string without room is given back. -/
theorem accelNewInternedString_of_full (h : Represents s keys) (hkey : key ∉ keys)
    (hfull : s.finish ≤ s.top + bucketSize key) :
    s.accelNewInternedString (.process a key) = some (s, .process a key) := by
  rw [accelNewInternedString_process, h.find_of_not_mem hkey]
  exact if_pos hfull

/-- Any other string gets a bucket. -/
theorem accelNewInternedString_of_fits (h : Represents s keys) (hkey : key ∉ keys)
    (hfit : s.top + bucketSize key < s.finish) :
    s.accelNewInternedString (.process a key) =
      some (s.createBucket (zendInlineHashFunc key) key, .shared (s.top + sizeofBucket)) := by
  rw [accelNewInternedString_process, h.find_of_not_mem hkey]
  exact if_neg (Nat.not_le.mpr hfit)

theorem stringAt (h : Represents s keys) (hj : keys[j]? = some key) :
    s.stringAt (addr s.start keys j + sizeofBucket) = some key := by
  unfold InternedStrings.stringAt
  rw [if_pos (Nat.le_add_left _ _), Nat.add_sub_cancel, h.bucket hj]
  rfl

end Represents

end Interned

end ZendOpcache
