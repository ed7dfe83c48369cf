import ZendOpcache.Checksum.ScriptChecksum

/-! # Which changed bytes the checksum of a script notices

The header is never noticed, other than through its fields `mem` and `size`, which say what is
summed up. A changed byte before or after the header is noticed, unless the sums are below
zero at the end of a run more or less often than before, in just the way that
makes up for the change.
-/

namespace ZendOpcache

open AdlerState

section Block

variable (L : ScriptLayout) (m : ℕ → UInt8) (script : ℕ)

/-- A script as it is in shared memory: its header is in its block, whose size is a `uint`. -/
structure IsCached : Prop where
  mem_le : wordAt m (script + L.mem) ≤ script
  le : script + L.sizeof ≤ wordAt m (script + L.mem) + wordAt m (script + L.size)
  size_lt : wordAt m (script + L.size) < 2 ^ 32

/-- The block of the script. -/
def InBlock (i : ℕ) : Prop :=
  wordAt m (script + L.mem) ≤ i ∧ i < wordAt m (script + L.mem) + wordAt m (script + L.size)

/-- The header up to `dynamic_members`. -/
def InHeader (i : ℕ) : Prop := script ≤ i ∧ i < script + L.dynamicMembers

/-- The entries that are not to be counted. -/
def InDynamicMembers (i : ℕ) : Prop := script + L.dynamicMembers ≤ i ∧ i < script + L.sizeof

/-- The fields that say what the block is. -/
def InBlockFields (i : ℕ) : Prop :=
  (script + L.mem ≤ i ∧ i < script + L.mem + 8) ∨ (script + L.size ≤ i ∧ i < script + L.size + 8)

/-- The number of bytes that are summed up from this one on. -/
def summedFrom (i : ℕ) : ℕ :=
  let stop := wordAt m (script + L.mem) + wordAt m (script + L.size)
  if i < script then (script - i) + (stop - (script + L.sizeof)) else stop - i

/-- The borrows make up for the change of one byte. -/
def Compensates (i : ℕ) (v : UInt8) : Prop :=
  let d := signedByte v - signedByte (m i)
  let b := scriptBorrows L m script
  let b' := scriptBorrows L (Function.update m i v) script
  (65521 : ℤ) ∣ d + 225 * (b'.1 - b.1) ∧
    (65521 : ℤ) ∣ summedFrom L m script i * d + 225 * (b'.2 - b.2)

/-- The sums of the block that the changed fields tell of come out the same. -/
def SameTotals (i : ℕ) (v : UInt8) : Prop :=
  let t := scriptTotals L m script
  let t' := scriptTotals L (Function.update m i v) script
  t'.1 ≡ t.1 [ZMOD 65521] ∧ t'.2 ≡ t.2 [ZMOD 65521]

end Block

variable {L : ScriptLayout} {m : ℕ → UInt8} {script i a n : ℕ} {v : UInt8}

theorem bytesAt_update_of_notMem (h : ¬ (a ≤ i ∧ i < a + n)) :
    bytesAt (Function.update m i v) a n = bytesAt m a n := by
  refine List.map_congr_left fun k hk => ?_
  have hk' := List.mem_range.mp hk
  have hne : a + k ≠ i := by omega
  exact Function.update_of_ne hne v m

theorem bytesAt_add (m : ℕ → UInt8) (a k n : ℕ) :
    bytesAt m a (k + n) = bytesAt m a k ++ bytesAt m (a + k) n := by
  simp [bytesAt, List.range_add, Nat.add_assoc]

theorem bytesAt_succ (m : ℕ → UInt8) (a n : ℕ) :
    bytesAt m a (n + 1) = m a :: bytesAt m (a + 1) n := by
  rw [Nat.add_comm, bytesAt_add]
  simp [bytesAt]

theorem bytesAt_split (h : a ≤ i) (h' : i < a + n) :
    bytesAt m a n = bytesAt m a (i - a) ++ m i :: bytesAt m (i + 1) (a + n - (i + 1)) := by
  obtain ⟨k, rfl⟩ := Nat.exists_eq_add_of_le h
  obtain ⟨r, rfl⟩ : ∃ r : ℕ, n = k + (r + 1) := ⟨n - k - 1, by omega⟩
  have hr : a + (k + (r + 1)) - (a + k + 1) = r := by omega
  rw [bytesAt_add, bytesAt_succ, Nat.add_sub_cancel_left, hr]

/-- What a changed byte does to the bytes of a range that it is in. -/
theorem bytesAt_update (h : a ≤ i) (h' : i < a + n) :
    bytesAt (Function.update m i v) a n =
      bytesAt m a (i - a) ++ v :: bytesAt m (i + 1) (a + n - (i + 1)) := by
  have hlow : ¬ (a ≤ i ∧ i < a + (i - a)) := by omega
  have hhigh : ¬ (i + 1 ≤ i ∧ i < i + 1 + (a + n - (i + 1))) := by omega
  rw [bytesAt_split h h', Function.update_self, bytesAt_update_of_notMem hlow,
    bytesAt_update_of_notMem hhigh]

theorem wordAt_update (h : ¬ (a ≤ i ∧ i < a + 8)) :
    wordAt (Function.update m i v) a = wordAt m a := by
  rw [wordAt, bytesAt_update_of_notMem h, wordAt]

theorem mem_update (hf : ¬ InBlockFields L script i) :
    wordAt (Function.update m i v) (script + L.mem) = wordAt m (script + L.mem) :=
  wordAt_update fun h => hf (.inl h)

theorem size_update (hf : ¬ InBlockFields L script i) :
    wordAt (Function.update m i v) (script + L.size) = wordAt m (script + L.size) :=
  wordAt_update fun h => hf (.inr h)

theorem scriptBorrows_of_nonneg (hm : ∀ x ∈ summedBytes L m script, 0 ≤ x) :
    scriptBorrows L m script = (0, 0) := by
  refine RunningSums.borrows_of_nonneg (by decide) (by decide) (by decide) ?_
  rw [← List.map_flatten, List.flatten_append, flatten_chunks, flatten_chunks]
  exact hm

namespace IsCached

variable (h : IsCached L m script)

include h

theorem update (hf : ¬ InBlockFields L script i) : IsCached L (Function.update m i v) script where
  mem_le := by
    rw [mem_update hf]
    exact h.mem_le
  le := by
    rw [mem_update hf, size_update hf]
    exact h.le
  size_lt := by
    rw [size_update hf]
    exact h.size_lt

theorem beforeHeader_eq : beforeHeader L m script =
    bytesAt m (wordAt m (script + L.mem)) (script - wordAt m (script + L.mem)) := by
  have h₁ := h.mem_le
  have h₂ := h.le
  have h₃ := h.size_lt
  have hmod : (script - wordAt m (script + L.mem)) % 2 ^ 32 = script - wordAt m (script + L.mem) :=
    Nat.mod_eq_of_lt (by omega)
  rw [beforeHeader, hmod]

theorem afterHeader_eq : afterHeader L m script =
    bytesAt m (script + L.sizeof)
      (wordAt m (script + L.mem) + wordAt m (script + L.size) - (script + L.sizeof)) := by
  have h₁ := h.mem_le
  have h₂ := h.le
  have h₃ := h.size_lt
  unfold afterHeader
  by_cases hlt : wordAt m (script + L.mem) < script
  · rw [if_pos hlt]
    exact congrArg _ (by omega)
  · have heq : wordAt m (script + L.mem) = script := by omega
    simp only [if_neg hlt]
    rw [heq] at h₂ ⊢
    exact congrArg _ (by omega)

/-- A byte of the header that is in neither of the two fields is not read. -/
theorem checksum_update_header (hi : InHeader L script i) (hf : ¬ InBlockFields L script i) :
    zendAccelScriptChecksum L (Function.update m i v) script =
      zendAccelScriptChecksum L m script := by
  have hu := h.update (v := v) hf
  have h₁ := h.mem_le
  have hdyn := L.dynamicMembers_le
  obtain ⟨hlo, hhi⟩ := hi
  have hbefore : beforeHeader L (Function.update m i v) script = beforeHeader L m script := by
    rw [hu.beforeHeader_eq, h.beforeHeader_eq, mem_update hf]
    exact bytesAt_update_of_notMem (by omega)
  have hafter : afterHeader L (Function.update m i v) script = afterHeader L m script := by
    rw [hu.afterHeader_eq, h.afterHeader_eq, mem_update hf, size_update hf]
    exact bytesAt_update_of_notMem (by omega)
  rw [zendAccelScriptChecksum_eq, zendAccelScriptChecksum_eq, scriptFinal, hbefore, hafter]
  rfl

/-- A byte outside the header is one entry of what is summed up. -/
theorem summedBytes_update (hi : InBlock L m script i) (hout : ¬ InHeader L script i)
    (hdyn : ¬ InDynamicMembers L script i) :
    ∃ xs ys, summedBytes L m script = xs ++ signedByte (m i) :: ys ∧
      summedBytes L (Function.update m i v) script = xs ++ signedByte v :: ys ∧
      ys.length + 1 = summedFrom L m script i := by
  have hmem := L.mem_le
  have hsize := L.size_le
  have hsizeof := L.dynamicMembers_le
  have hf : ¬ InBlockFields L script i := by
    unfold InBlockFields
    unfold InHeader at hout
    omega
  have hu := h.update (v := v) hf
  have h₁ := h.mem_le
  have h₂ := h.le
  obtain ⟨hlo, hhi⟩ := hi
  unfold summedBytes summedFrom
  rw [h.beforeHeader_eq, h.afterHeader_eq, hu.beforeHeader_eq, hu.afterHeader_eq, mem_update hf,
    size_update hf]
  set mem := wordAt m (script + L.mem)
  set stop := mem + wordAt m (script + L.size)
  by_cases hlt : i < script
  · have hafter : ¬ (script + L.sizeof ≤ i ∧
      i < script + L.sizeof + (stop - (script + L.sizeof))) := by
      omega
    have hin : i < mem + (script - mem) := by omega
    rw [bytesAt_update_of_notMem hafter, bytesAt_update hlo hin, bytesAt_split hlo hin]
    refine ⟨(bytesAt m mem (i - mem)).map signedByte,
      (bytesAt m (i + 1) (mem + (script - mem) - (i + 1)) ++
        bytesAt m (script + L.sizeof) (stop - (script + L.sizeof))).map signedByte, ?_, ?_, ?_⟩
    · simp
    · simp
    · simp only [List.length_map, List.length_append, length_bytesAt, if_pos hlt]
      omega
  · have hge : script + L.sizeof ≤ i := by
      unfold InHeader at hout
      unfold InDynamicMembers at hdyn
      omega
    have hbefore : ¬ (mem ≤ i ∧ i < mem + (script - mem)) := by omega
    have hin : i < script + L.sizeof + (stop - (script + L.sizeof)) := by omega
    rw [bytesAt_update_of_notMem hbefore, bytesAt_update hge hin, bytesAt_split hge hin]
    refine ⟨(bytesAt m mem (script - mem) ++
        bytesAt m (script + L.sizeof) (i - (script + L.sizeof))).map signedByte,
      (bytesAt m (i + 1) (script + L.sizeof + (stop - (script + L.sizeof)) - (i + 1))).map
        signedByte, ?_, ?_, ?_⟩
    · simp
    · simp
    · simp only [List.length_map, length_bytesAt, if_neg hlt]
      omega

/-- A byte outside the header is noticed unless the borrows make up for the change. -/
theorem checksum_update_ne_iff_of_notMem (hi : InBlock L m script i) (hout : ¬ InHeader L script i)
    (hdyn : ¬ InDynamicMembers L script i) :
    zendAccelScriptChecksum L (Function.update m i v) script ≠
        zendAccelScriptChecksum L m script ↔
      ¬ Compensates L m script i v := by
  obtain ⟨xs, ys, hxs, hxs', hlen⟩ := h.summedBytes_update (v := v) hi hout hdyn
  obtain ⟨hset₁, hset₂⟩ := RunningSums.set_entry (1, 0) xs (signedByte (m i)) (signedByte v) ys
  have hlen' : (ys.length : ℤ) + 1 = summedFrom L m script i := by exact_mod_cast hlen
  rw [Ne, zendAccelScriptChecksum_eq_iff, not_iff_not]
  unfold scriptTotals Compensates
  simp only [hxs, hxs', hset₁, hset₂, hlen']
  set d := signedByte v - signedByte (m i)
  set k : ℤ := (summedFrom L m script i : ℤ)
  set t := runningSums (1, 0) (xs ++ signedByte (m i) :: ys)
  set b := scriptBorrows L m script
  set b' := scriptBorrows L (Function.update m i v) script
  have hfst : t.1 + 225 * b.1 - (t.1 + d + 225 * b'.1) = -(d + 225 * (b'.1 - b.1)) := by ring
  have hsnd : t.2 + 225 * b.2 - (t.2 + k * d + 225 * b'.2) = -(k * d + 225 * (b'.2 - b.2)) := by
    ring
  rw [Int.modEq_iff_dvd, Int.modEq_iff_dvd, hfst, hsnd, Int.dvd_neg, Int.dvd_neg]

/-- The borrows make up for nothing as long as no summed byte is from 128 on. -/
theorem not_compensates_of_ascii (hi : InBlock L m script i) (hout : ¬ InHeader L script i)
    (hdyn : ¬ InDynamicMembers L script i)
    (hm : ∀ j, InBlock L m script j → j < script ∨ script + L.sizeof ≤ j → m j < 128)
    (hv : v < 128) (hne : v ≠ m i) : ¬ Compensates L m script i v := by
  have hnonneg : ∀ x ∈ summedBytes L m script, 0 ≤ x := by
    have h₁ := h.mem_le
    have h₂ := h.le
    unfold summedBytes
    rw [h.beforeHeader_eq, h.afterHeader_eq]
    intro x hx
    obtain ⟨c, hc, rfl⟩ := List.mem_map.mp hx
    apply signedByte_nonneg
    rcases List.mem_append.mp hc with hc | hc
    · obtain ⟨k, hk, rfl⟩ := List.mem_map.mp hc
      have hk := List.mem_range.mp hk
      exact hm _ ⟨by omega, by omega⟩ (.inl (by omega))
    · obtain ⟨k, hk, rfl⟩ := List.mem_map.mp hc
      have hk := List.mem_range.mp hk
      exact hm _ ⟨by omega, by omega⟩ (.inr (by omega))
  have hnonneg' : ∀ x ∈ summedBytes L (Function.update m i v) script, 0 ≤ x := by
    obtain ⟨xs, ys, hxs, hxs', -⟩ := h.summedBytes_update (v := v) hi hout hdyn
    rw [hxs] at hnonneg
    rw [hxs']
    intro x hx
    rcases List.mem_append.mp hx with hx | hx
    · exact hnonneg x (by simp [hx])
    · rcases List.mem_cons.mp hx with rfl | hx
      · exact signedByte_nonneg hv
      · exact hnonneg x (by simp [hx])
  rintro ⟨hdvd, -⟩
  rw [scriptBorrows_of_nonneg hnonneg, scriptBorrows_of_nonneg hnonneg'] at hdvd
  have hbyte : signedByte v ≠ signedByte (m i) := fun heq => hne (signedByte_injective heq)
  have hb := signedByte_bounds v
  have hb' := signedByte_bounds (m i)
  omega

end IsCached

/-- For every byte of the block, other than those of `dynamic_members`, when a change of it changes
the checksum: never for the header but through the fields `mem` and `size`, and for the other bytes
unless the borrows make up for it. -/
theorem checksum_update_ne_iff (h : IsCached L m script) (hi : InBlock L m script i)
    (hdyn : ¬ InDynamicMembers L script i) (v : UInt8) :
    zendAccelScriptChecksum L (Function.update m i v) script ≠
        zendAccelScriptChecksum L m script ↔
      (InBlockFields L script i ∧ ¬ SameTotals L m script i v) ∨
        (¬ InHeader L script i ∧ ¬ Compensates L m script i v) := by
  have hfield : InBlockFields L script i → InHeader L script i := by
    have hmem := L.mem_le
    have hsize := L.size_le
    unfold InBlockFields InHeader
    omega
  by_cases hout : InHeader L script i
  · by_cases hf : InBlockFields L script i
    · rw [Ne, zendAccelScriptChecksum_eq_iff]
      simp only [hf, hout, SameTotals, true_and, not_true_eq_false, false_and, or_false]
    · simp [hf, hout, h.checksum_update_header hout hf]
  · have hf : ¬ InBlockFields L script i := fun hf => hout (hfield hf)
    rw [h.checksum_update_ne_iff_of_notMem hi hout hdyn]
    simp [hout, hf]

/-- As long as no summed byte is from 128 on, every change outside the header is noticed. -/
theorem checksum_update_ne_of_ascii (h : IsCached L m script) (hi : InBlock L m script i)
    (hout : ¬ InHeader L script i) (hdyn : ¬ InDynamicMembers L script i)
    (hm : ∀ j, InBlock L m script j → j < script ∨ script + L.sizeof ≤ j → m j < 128)
    (hv : v < 128) (hne : v ≠ m i) :
    zendAccelScriptChecksum L (Function.update m i v) script ≠
      zendAccelScriptChecksum L m script := by
  rw [h.checksum_update_ne_iff_of_notMem hi hout hdyn]
  exact h.not_compensates_of_ascii hi hout hdyn hm hv hne

/-- The layout of a build with words of 64 bits. -/
def layoutLp64 : ScriptLayout :=
  ⟨440, 448, 456, 488, by decide, by decide, by decide⟩

/-- A block of 496 bytes at 4096, which starts with the letter `a`; the header is at 4104. -/
def smallBlock (a : ℕ) : UInt8 :=
  if a = 4096 then 0x61
  else if a = 4545 then 0x10
  else if a = 4552 then 0xf0
  else if a = 4553 then 0x01
  else 0

theorem isCached_smallBlock : IsCached layoutLp64 smallBlock 4104 :=
  ⟨by decide, by decide, by decide⟩

/-- Another letter before the header -/
theorem checksum_update_ne_iff_smallBlock :
    zendAccelScriptChecksum layoutLp64 (Function.update smallBlock 4096 0x62) 4104 ≠
      zendAccelScriptChecksum layoutLp64 smallBlock 4104 := by
  have hi : InBlock layoutLp64 smallBlock 4104 4096 := ⟨by decide, by decide⟩
  have hout : ¬ InHeader layoutLp64 4104 4096 := fun h => absurd h.1 (by decide)
  have hdyn : ¬ InDynamicMembers layoutLp64 4104 4096 := fun h => absurd h.1 (by decide)
  apply (checksum_update_ne_iff isCached_smallBlock hi hdyn 0x62).mpr
  right
  refine ⟨hout, isCached_smallBlock.not_compensates_of_ascii hi hout hdyn ?_ (by decide)
    (by decide)⟩
  rintro j - hj
  change j < 4104 ∨ 4104 + 488 ≤ j at hj
  unfold smallBlock
  split_ifs
  · decide
  · decide
  · omega
  · omega
  · decide

/-- A changed byte of `hash_value` -/
theorem checksum_update_unnoticed :
    IsCached layoutLp64 smallBlock 4104 ∧ InBlock layoutLp64 smallBlock 4104 4104 ∧
      ¬ InDynamicMembers layoutLp64 4104 4104 ∧ smallBlock 4104 ≠ 1 ∧
      zendAccelScriptChecksum layoutLp64 (Function.update smallBlock 4104 1) 4104 =
        zendAccelScriptChecksum layoutLp64 smallBlock 4104 :=
  ⟨isCached_smallBlock, ⟨by decide, by decide⟩, fun h => absurd h.1 (by decide), by decide,
    by decide⟩

end ZendOpcache
