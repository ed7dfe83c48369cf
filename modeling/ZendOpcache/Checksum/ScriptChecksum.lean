import ZendOpcache.Checksum.Chaining

/-! # The checksum of a cached script

`zend_accel_script_checksum` over the memory of the process. It sums up the block of a script
before and after the header, whose own checksum is computed and dropped; so a changed byte of
the header goes unnoticed, and any other one is noticed unless the wrap-arounds of the signed
sums make up for it.
-/

namespace ZendOpcache

/-- Where the fields of `zend_persistent_script` are. What follows `dynamic_members` up to the end
belongs to them. -/
structure ScriptLayout where
  mem : ℕ
  size : ℕ
  dynamicMembers : ℕ
  sizeof : ℕ
  mem_le : mem + 8 ≤ size
  size_le : size + 8 ≤ dynamicMembers
  dynamicMembers_le : dynamicMembers ≤ sizeof

/-- Bytes of the memory, from an address on. -/
def bytesAt (m : ℕ → UInt8) (a n : ℕ) : List UInt8 := (List.range n).map fun k => m (a + k)

/-- A word of 64 bits, its lowest byte first. -/
def wordAt (m : ℕ → UInt8) (a : ℕ) : ℕ := (bytesAt m a 8).foldr (fun x n => x.toNat + 256 * n) 0

/-- `zend_adler32` on the memory. -/
def adlerAt (m : ℕ → UInt8) (checksum : UInt32) (buf : ℕ) (len : UInt32) : UInt32 :=
  zendAdler32 checksum (bytesAt m buf len.toNat) len

section Checksum

variable (L : ScriptLayout) (m : ℕ → UInt8) (script : ℕ)

/-- `zend_accel_script_checksum` -/
def zendAccelScriptChecksum : UInt32 :=
  let mem := wordAt m (script + L.mem)
  let size := wordAt m (script + L.size)
  let (checksum, size, mem) :=
    if mem < script then
      (adlerAt m adler32Init mem (script - mem).toUInt32, (size + 2 ^ 64 - (script - mem)) % 2 ^ 64,
        script)
    else (adler32Init, size, mem)
  -- the checksum of the header is not assigned
  let _ := adlerAt m checksum mem L.dynamicMembers.toUInt32
  let mem := mem + L.sizeof
  let size := (size + 2 ^ 64 - L.sizeof) % 2 ^ 64
  if 0 < size then adlerAt m checksum mem size.toUInt32 else checksum

/-- The bytes before the header that are summed up. -/
def beforeHeader : List UInt8 :=
  let mem := wordAt m (script + L.mem)
  bytesAt m mem ((script - mem) % 2 ^ 32)

/-- The bytes after the header that are summed up. -/
def afterHeader : List UInt8 :=
  let mem := wordAt m (script + L.mem)
  let size := wordAt m (script + L.size)
  if mem < script then
    bytesAt m (script + L.sizeof)
      (((size + 2 ^ 64 - (script - mem)) % 2 ^ 64 + 2 ^ 64 - L.sizeof) % 2 ^ 64 % 2 ^ 32)
  else bytesAt m (mem + L.sizeof) ((size + 2 ^ 64 - L.sizeof) % 2 ^ 64 % 2 ^ 32)

/-- The sums at the end of the block. -/
def scriptFinal : AdlerState :=
  (AdlerState.ofChecksum adler32Init).sumChunks
    (AdlerState.chunks (beforeHeader L m script) ++ AdlerState.chunks (afterHeader L m script))

end Checksum

open AdlerState

variable {L : ScriptLayout} {m m' : ℕ → UInt8} {script : ℕ} {c : UInt32} {a n : ℕ} {len : UInt32}

@[simp] theorem length_bytesAt (m : ℕ → UInt8) (a n : ℕ) : (bytesAt m a n).length = n := by
  simp [bytesAt]

theorem isChecksum_init : IsChecksum adler32Init := by decide

theorem adlerAt_eq (h : IsChecksum c) :
    adlerAt m c a len = (final c (bytesAt m a len.toNat)).checksum := by
  have hlen := length_bytesAt m a len.toNat
  have htake : (bytesAt m a len.toNat).take len.toNat = bytesAt m a len.toNat :=
    List.take_of_length_le hlen.le
  rw [adlerAt, zendAdler32_eq h hlen.ge, htake]

theorem sumChunks_append (s : AdlerState) (cs ds : List (List UInt8)) :
    s.sumChunks (cs ++ ds) = (s.sumChunks cs).sumChunks ds :=
  List.foldl_append

theorem sumChunks_chunks_nil {s : AdlerState} (h : s.Reduced) : s.sumChunks (chunks []) = s := by
  rw [chunks_of_lt (by decide)]
  exact h.reduce_eq

theorem checksum_ofChecksum (h : IsChecksum c) : (ofChecksum c).checksum = c := by
  have hs := sums_ofChecksum c
  simp only [sums, Prod.mk.injEq, Nat.cast_inj] at hs
  refine UInt32.toNat_inj.mp ?_
  rw [(reduced_ofChecksum h).toNat_checksum, hs.1, hs.2]
  omega

/-- The part before the header, whether it is empty or not. -/
theorem adlerAt_before (L : ScriptLayout) (m : ℕ → UInt8) (script : ℕ) :
    adlerAt m adler32Init (wordAt m (script + L.mem))
      (script - wordAt m (script + L.mem)).toUInt32 =
      (final adler32Init (beforeHeader L m script)).checksum :=
  adlerAt_eq isChecksum_init

theorem beforeHeader_of_le (h : script ≤ wordAt m (script + L.mem)) :
    beforeHeader L m script = [] := by
  simp [beforeHeader, Nat.sub_eq_zero_of_le h, bytesAt]

/-- The part after the header, whether it is empty or not. -/
theorem adlerAt_after (h : IsChecksum c) :
    (if 0 < n then adlerAt m c a n.toUInt32 else c) =
      ((ofChecksum c).sumChunks (chunks (bytesAt m a (n % 2 ^ 32)))).checksum := by
  split_ifs with hn
  · exact adlerAt_eq h
  · have hzero : n = 0 := by omega
    subst hzero
    exact ((congrArg checksum (sumChunks_chunks_nil (reduced_ofChecksum h))).trans
      (checksum_ofChecksum h)).symm

/-- The script checksum is that of the bytes around the header. -/
theorem zendAccelScriptChecksum_eq (L : ScriptLayout) (m : ℕ → UInt8) (script : ℕ) :
    zendAccelScriptChecksum L m script = (scriptFinal L m script).checksum := by
  have hinit := reduced_ofChecksum isChecksum_init
  unfold zendAccelScriptChecksum scriptFinal
  by_cases h : wordAt m (script + L.mem) < script
  · have hfinal := reduced_final isChecksum_init (beforeHeader L m script)
    simp only [if_pos h, adlerAt_before]
    rw [adlerAt_after hfinal.isChecksum, hfinal.ofChecksum_checksum, sumChunks_append]
    simp only [afterHeader, if_pos h, final]
  · simp only [if_neg h]
    rw [adlerAt_after isChecksum_init, sumChunks_append, beforeHeader_of_le (by omega),
      sumChunks_chunks_nil hinit]
    simp only [afterHeader, if_neg h]

section Sums

variable (L : ScriptLayout) (m : ℕ → UInt8) (script : ℕ)

/-- The bytes around the header, as they are read. -/
def summedBytes : List ℤ := (beforeHeader L m script ++ afterHeader L m script).map signedByte

/-- How often the sums are below zero at the end of a run. -/
def scriptBorrows : ℤ × ℤ :=
  borrows 65521 225 (1, 0)
    ((chunks (beforeHeader L m script) ++ chunks (afterHeader L m script)).map
      (List.map signedByte))

/-- The exact sums of the bytes around the header, with what the borrows add. -/
def scriptTotals : ℤ × ℤ :=
  let t := runningSums (1, 0) (summedBytes L m script)
  let b := scriptBorrows L m script
  (t.1 + 225 * b.1, t.2 + 225 * b.2)

end Sums

theorem scriptFinal_modEq (L : ScriptLayout) (m : ℕ → UInt8) (script : ℕ) :
    (scriptFinal L m script).sums.1 ≡ (scriptTotals L m script).1 [ZMOD 65521] ∧
      (scriptFinal L m script).sums.2 ≡ (scriptTotals L m script).2 [ZMOD 65521] := by
  have hlen : ∀ d ∈ chunks (beforeHeader L m script) ++ chunks (afterHeader L m script),
      d.length ≤ 5552 := by
    intro d hd
    rcases List.mem_append.mp hd with hd | hd
    · exact length_le_of_mem_chunks hd
    · exact length_le_of_mem_chunks hd
  have hruns := RunningSums.reduceRuns_modEq (m := 65521) (r := 225) (1, 0)
    ((chunks (beforeHeader L m script) ++ chunks (afterHeader L m script)).map
      (List.map signedByte))
  rw [← List.map_flatten, List.flatten_append, flatten_chunks, flatten_chunks] at hruns
  rw [scriptFinal, sumChunks_sums (reduced_ofChecksum isChecksum_init) hlen]
  exact hruns

theorem reduced_scriptFinal (L : ScriptLayout) (m : ℕ → UInt8) (script : ℕ) :
    (scriptFinal L m script).Reduced :=
  (reduced_ofChecksum isChecksum_init).sumChunks _

/-- Two checksums agree if and only if the exact sums with their borrows do, modulo
`ADLER32_BASE`. -/
theorem zendAccelScriptChecksum_eq_iff :
    zendAccelScriptChecksum L m script = zendAccelScriptChecksum L m' script ↔
      (scriptTotals L m script).1 ≡ (scriptTotals L m' script).1 [ZMOD 65521] ∧
        (scriptTotals L m script).2 ≡ (scriptTotals L m' script).2 [ZMOD 65521] := by
  have h := reduced_scriptFinal L m script
  have h' := reduced_scriptFinal L m' script
  obtain ⟨h₁, h₂⟩ := scriptFinal_modEq L m script
  obtain ⟨h₁', h₂'⟩ := scriptFinal_modEq L m' script
  rw [zendAccelScriptChecksum_eq, zendAccelScriptChecksum_eq]
  constructor
  · intro heq
    have hfinal : scriptFinal L m script = scriptFinal L m' script := by
      rw [← h.ofChecksum_checksum, heq, h'.ofChecksum_checksum]
    rw [hfinal] at h₁ h₂
    exact ⟨h₁.symm.trans h₁', h₂.symm.trans h₂'⟩
  · rintro ⟨ht₁, ht₂⟩
    obtain ⟨he₁, he₂⟩ := emod_of_modEq h (h₁.trans ht₁) (h₂.trans ht₂)
    obtain ⟨he₁', he₂'⟩ := emod_of_modEq h' h₁' h₂'
    refine congrArg checksum (sums_injective (Prod.ext (Nat.cast_inj.mpr ?_) (Nat.cast_inj.mpr ?_)))
    · exact he₁.symm.trans he₁'
    · exact he₂.symm.trans he₂'

end ZendOpcache
