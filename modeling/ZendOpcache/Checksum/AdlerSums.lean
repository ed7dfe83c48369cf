import ZendOpcache.Checksum.Adler32
import ZendOpcache.Checksum.Borrows

/-! # The sums of Adler-32

Within a run of `ADLER32_NMAX` bytes the words of `zend_adler32` keep the exact sums of the bytes,
as long as no sum is below zero at its end: a word then holds 2^32 more, which is 225 modulo
`ADLER32_BASE`. Bytes are signed, so that this happens only with bytes from 128 on.
-/

namespace ZendOpcache

/-- A byte as `zend_adler32` reads it. -/
def signedByte (x : UInt8) : ℤ := x.toInt8.toInt

theorem signedByte_eq (x : UInt8) :
    signedByte x = if x.toNat < 128 then (x.toNat : ℤ) else x.toNat - 256 := by
  change (BitVec.toInt x.toBitVec) = _
  rw [BitVec.toInt_eq_toNat_cond]
  change (if 2 * x.toNat < 256 then (x.toNat : ℤ) else x.toNat - (256 : ℕ)) = _
  split_ifs <;> omega

theorem signedByte_bounds (x : UInt8) : -128 ≤ signedByte x ∧ signedByte x ≤ 127 := by
  have hx := x.toNat_lt
  rw [signedByte_eq]
  split_ifs <;> omega

theorem signedByte_nonneg {x : UInt8} (h : x < 128) : 0 ≤ signedByte x := by
  have hlt : x.toNat < 128 := h
  rw [signedByte_eq, if_pos hlt]
  exact Int.natCast_nonneg _

theorem signedByte_injective : Function.Injective signedByte := by
  intro x y h
  have hx := x.toNat_lt
  have hy := y.toNat_lt
  rw [signedByte_eq, signedByte_eq] at h
  refine UInt8.toNat_inj.mp ?_
  split_ifs at h <;> omega

namespace AdlerState

variable {s : AdlerState} {buf xs : List UInt8} {cs : List (List UInt8)}

/-- The sums as numbers. -/
def sums (s : AdlerState) : ℤ × ℤ := (s.s1.toNat, s.s2.toNat)

theorem sums_injective : Function.Injective sums := by
  rintro ⟨a, b⟩ ⟨a', b'⟩ h
  simp only [sums, Prod.mk.injEq, Nat.cast_inj, UInt32.toNat_inj] at h
  rw [h.1, h.2]

theorem toNat_signed (x : UInt8) :
    (x.toInt8.toInt32.toUInt32.toNat : ℤ) ≡ signedByte x [ZMOD 2 ^ 32] := by
  have hext : (x.toBitVec.signExtend 32).toInt = x.toBitVec.toInt :=
    BitVec.toInt_signExtend_of_le (by decide)
  change ((x.toBitVec.signExtend 32).toNat : ℤ) ≡ x.toBitVec.toInt [ZMOD 2 ^ 32]
  rw [← hext, BitVec.toInt_eq_toNat_cond]
  split_ifs
  · rfl
  · exact (Int.modEq_sub_modulus_iff.mpr rfl)

/-- The words keep the exact sums modulo 2^32. -/
theorem sumUp_modEq (s : AdlerState) (xs : List UInt8) :
    (s.sumUp xs).sums.1 ≡ (runningSums s.sums (xs.map signedByte)).1 [ZMOD 2 ^ 32] ∧
      (s.sumUp xs).sums.2 ≡ (runningSums s.sums (xs.map signedByte)).2 [ZMOD 2 ^ 32] := by
  induction xs generalizing s with
  | nil => exact ⟨rfl, rfl⟩
  | cons x xs ih =>
    have hadd : ∀ a b : UInt32, ((a + b).toNat : ℤ) ≡ a.toNat + b.toNat [ZMOD 2 ^ 32] := by
      intro a b
      rw [UInt32.toNat_add]
      push_cast
      exact Int.mod_modEq _ _
    have h₁ : (s.do1 x).sums.1 ≡ s.sums.1 + signedByte x [ZMOD 2 ^ 32] :=
      (hadd _ _).trans ((toNat_signed x).add_left _)
    have h₂ : (s.do1 x).sums.2 ≡ s.sums.2 + (s.sums.1 + signedByte x) [ZMOD 2 ^ 32] :=
      (hadd _ _).trans (h₁.add_left _)
    obtain ⟨ih₁, ih₂⟩ := ih (s.do1 x)
    obtain ⟨hs₁, hs₂⟩ := RunningSums.modEq
      (t := (s.sums.1 + signedByte x, s.sums.2 + (s.sums.1 + signedByte x))) h₁ h₂
      (xs.map signedByte)
    exact ⟨ih₁.trans hs₁, ih₂.trans hs₂⟩

/-- A word that is reduced, by the exact number it stands for. -/
theorem emod_word {n : ℤ} (hlo : -2 ^ 32 ≤ n) (hhi : n < 2 ^ 32) :
    n % 2 ^ 32 % 65521 = (n + 225 * borrow n) % 65521 := by
  unfold borrow
  split_ifs <;> omega

/-- The sums of a run stay within one word. -/
theorem sums_bounds (hs : s.Reduced) (hlen : xs.length ≤ 5552) :
    let t := runningSums s.sums (xs.map signedByte)
    (-2 ^ 32 ≤ t.1 ∧ t.1 < 2 ^ 32) ∧ -2 ^ 32 ≤ t.2 ∧ t.2 < 2 ^ 32 := by
  have hb : ∀ x ∈ xs.map signedByte, -128 ≤ x ∧ x ≤ 127 := by
    intro x hx
    obtain ⟨y, _, rfl⟩ := List.mem_map.mp hx
    exact signedByte_bounds y
  have hsum := RunningSums.sum_bounds hb
  have hweight := RunningSums.weightedSum_bounds hb
  have hs₁ := hs.s1
  have hs₂ := hs.s2
  simp only [RunningSums.fst_eq, RunningSums.snd_eq]
  rw [List.length_map] at *
  have hlen' : (xs.length : ℤ) ≤ 5552 := by exact_mod_cast hlen
  have hprod : (xs.length : ℤ) * (xs.length + 1) ≤ 5552 * 5553 := by nlinarith
  have hcarry : (xs.length : ℤ) * s.sums.1 ≤ 5552 * 65520 := by
    have : s.sums.1 ≤ 65520 := by
      simp only [sums]
      omega
    nlinarith
  have hcarry' : (0 : ℤ) ≤ xs.length * s.sums.1 := by
    simp only [sums]
    positivity
  simp only [sums] at *
  refine ⟨⟨?_, ?_⟩, ?_, ?_⟩ <;> linarith

/-- A run comes out as the library has it. -/
theorem chunk_sums (hs : s.Reduced) (hlen : xs.length ≤ 5552) :
    (s.chunk xs).sums = reduceRun 65521 225 s.sums (xs.map signedByte) := by
  obtain ⟨h₁, h₂⟩ := sumUp_modEq s xs
  obtain ⟨⟨hlo₁, hhi₁⟩, hlo₂, hhi₂⟩ := sums_bounds hs hlen
  have hword : ∀ (a : UInt32) (n : ℤ), (a.toNat : ℤ) ≡ n [ZMOD 2 ^ 32] →
      (a.toNat : ℤ) = n % 2 ^ 32 := by
    intro a n h
    have ha := a.toNat_lt
    have hmod : (a.toNat : ℤ) % 2 ^ 32 = a.toNat := Int.emod_eq_of_lt (by omega) (by omega)
    rw [← hmod]
    exact h
  have hmod : ∀ a : UInt32, ((a % adler32Base).toNat : ℤ) = (a.toNat : ℤ) % 65521 := by
    intro a
    rw [UInt32.toNat_mod]
    rfl
  unfold reduceRun
  refine Prod.ext ?_ ?_
  · change (((s.sumUp xs).s1 % adler32Base).toNat : ℤ) = _
    rw [hmod, hword _ _ h₁, emod_word hlo₁ hhi₁]
  · change (((s.sumUp xs).s2 % adler32Base).toNat : ℤ) = _
    rw [hmod, hword _ _ h₂, emod_word hlo₂ hhi₂]

theorem sumChunks_sums (hs : s.Reduced) (hlen : ∀ c ∈ cs, c.length ≤ 5552) :
    (s.sumChunks cs).sums = reduceRuns 65521 225 s.sums (cs.map (List.map signedByte)) := by
  induction cs generalizing s with
  | nil => rfl
  | cons c cs ih =>
    have hrest := ih (reduced_reduce (s.sumUp c)) fun d hd => hlen d (List.mem_cons_of_mem c hd)
    have hhead := chunk_sums hs (hlen c List.mem_cons_self)
    change ((s.chunk c).sumChunks cs).sums = reduceRuns _ _ (reduceRun _ _ s.sums _) _
    rw [← hhead]
    exact hrest

end AdlerState

end ZendOpcache
