import Mathlib.Data.UInt
import ZendOpcache.Checksum.RunningSums

/-! # Adler-32

`zend_adler32` with its unrolled loops. Each run of up to `ADLER32_NMAX` bytes is summed up
in words of 32 bits and reduced once; the buffer is one of `signed char`. A pointer into the
buffer is the list of the bytes from there on.
-/

namespace ZendOpcache

/-- `ADLER32_BASE`, the largest prime smaller than 65536 -/
def adler32Base : UInt32 := 65521

/-- `ADLER32_NMAX` -/
def adler32Nmax : UInt32 := 5552

/-- `ADLER32_INIT` -/
def adler32Init : UInt32 := 1

/-- The variables `s1` and `s2`. -/
structure AdlerState where
  s1 : UInt32
  s2 : UInt32
deriving DecidableEq

namespace AdlerState

/-- `ADLER32_DO1`, which extends the sign of the byte -/
def do1 (s : AdlerState) (x : UInt8) : AdlerState :=
  let s1 := s.s1 + x.toInt8.toInt32.toUInt32
  ⟨s1, s.s2 + s1⟩

/-- `ADLER32_DO2` -/
def do2 (s : AdlerState) (buf : List UInt8) (i : ℕ) : AdlerState :=
  (s.do1 (buf.getD i 0)).do1 (buf.getD (i + 1) 0)

/-- `ADLER32_DO4` -/
def do4 (s : AdlerState) (buf : List UInt8) (i : ℕ) : AdlerState := (s.do2 buf i).do2 buf (i + 2)

/-- `ADLER32_DO8` -/
def do8 (s : AdlerState) (buf : List UInt8) (i : ℕ) : AdlerState := (s.do4 buf i).do4 buf (i + 4)

/-- `ADLER32_DO16` -/
def do16 (s : AdlerState) (buf : List UInt8) : AdlerState := (s.do8 buf 0).do8 buf 8

/-- The loop over blocks of 16 bytes, up to `end`, which is so many blocks away. -/
def blocks : ℕ → AdlerState → List UInt8 → AdlerState
  | 0, s, _ => s
  | n + 1, s, buf => blocks n (s.do16 buf) (buf.drop 16)

/-- The loop over single bytes. -/
def bytes : ℕ → AdlerState → List UInt8 → AdlerState
  | 0, s, _ => s
  | n + 1, s, buf => bytes n (s.do1 (buf.getD 0 0)) (buf.drop 1)

def reduce (s : AdlerState) : AdlerState := ⟨s.s1 % adler32Base, s.s2 % adler32Base⟩

/-- What is left after the outer loop. -/
def rest (s : AdlerState) (buf : List UInt8) (len : UInt32) : AdlerState :=
  if len = 0 then s
  else
    let n := (len &&& 0xfff0).toNat
    if 16 ≤ len then (((blocks (n / 16) s buf).bytes (len &&& 0xf).toNat (buf.drop n))).reduce
    else (s.bytes len.toNat buf).reduce

/-- The outer loop and what follows it; `n` bounds the rounds of the loop. -/
def loop : ℕ → AdlerState → List UInt8 → UInt32 → AdlerState
  | 0, s, buf, len => s.rest buf len
  | n + 1, s, buf, len =>
    if adler32Nmax ≤ len then
      loop n (blocks (adler32Nmax.toNat / 16) s buf).reduce (buf.drop adler32Nmax.toNat)
        (len - adler32Nmax)
    else s.rest buf len

/-- The halves of a checksum. -/
def ofChecksum (checksum : UInt32) : AdlerState :=
  ⟨checksum &&& 0xffff, (checksum >>> 16) &&& 0xffff⟩

def checksum (s : AdlerState) : UInt32 := (s.s2 <<< 16) ||| s.s1

end AdlerState

/-- `zend_adler32` -/
def zendAdler32 (checksum : UInt32) (buf : List UInt8) (len : UInt32) : UInt32 :=
  ((AdlerState.ofChecksum checksum).loop len.toNat buf len).checksum

/-- The Adler-32 of a buffer, from the sums that the halves of `checksum` give: both running
sums are exact, and reduced at the end. -/
def adler32 (checksum : ℕ) (buf : List UInt8) : ℕ :=
  let s := runningSums ((checksum % 65536 : ℕ), (checksum / 65536 : ℕ))
    (buf.map fun x => (x.toNat : ℤ))
  (s.2 % 65521).toNat * 65536 + (s.1 % 65521).toNat

example : zendAdler32 1 [87, 105, 107, 105] 4 = 0x03da0195 := by decide

namespace AdlerState

variable {s : AdlerState} {buf xs ys : List UInt8} {i n : ℕ} {len : UInt32}

/-- The sums after a list of bytes, without reduction. -/
def sumUp (s : AdlerState) (xs : List UInt8) : AdlerState := xs.foldl do1 s

/-- A run of bytes that is reduced once. -/
def chunk (s : AdlerState) (xs : List UInt8) : AdlerState := (s.sumUp xs).reduce

theorem sumUp_append (s : AdlerState) (xs ys : List UInt8) :
    s.sumUp (xs ++ ys) = (s.sumUp xs).sumUp ys :=
  List.foldl_append

theorem sumUp_take_add (s : AdlerState) (buf : List UInt8) (m n : ℕ) :
    s.sumUp (buf.take (m + n)) = (s.sumUp (buf.take m)).sumUp ((buf.drop m).take n) := by
  rw [List.take_add, sumUp_append]

theorem do2_eq (h : i + 2 ≤ buf.length) : s.do2 buf i = s.sumUp ((buf.drop i).take 2) := by
  have h₁ : i < buf.length := by omega
  have h₂ : i + 1 < buf.length := by omega
  have hget : ∀ k (hk : k < buf.length), buf.getD k 0 = buf[k] := fun k hk => by simp [hk]
  rw [List.drop_eq_getElem_cons h₁, List.drop_eq_getElem_cons h₂, do2, hget i h₁, hget _ h₂]
  rfl

theorem do4_eq (h : i + 4 ≤ buf.length) : s.do4 buf i = s.sumUp ((buf.drop i).take 4) := by
  rw [do4, do2_eq (by omega), do2_eq (by omega), ← List.drop_drop, ← sumUp_take_add]

theorem do8_eq (h : i + 8 ≤ buf.length) : s.do8 buf i = s.sumUp ((buf.drop i).take 8) := by
  rw [do8, do4_eq (by omega), do4_eq (by omega), ← List.drop_drop, ← sumUp_take_add]

theorem do16_eq (h : 16 ≤ buf.length) : s.do16 buf = s.sumUp (buf.take 16) := by
  rw [do16, do8_eq (by omega), do8_eq (by omega), List.drop_zero, ← sumUp_take_add]

theorem blocks_eq (h : 16 * n ≤ buf.length) : blocks n s buf = s.sumUp (buf.take (16 * n)) := by
  induction n generalizing s buf with
  | zero => rfl
  | succ n ih =>
    have hdrop : 16 * n ≤ (buf.drop 16).length := by
      rw [List.length_drop]
      omega
    rw [blocks, do16_eq (by omega), ih hdrop, ← sumUp_take_add, Nat.mul_succ, Nat.add_comm]

theorem bytes_eq (h : n ≤ buf.length) : bytes n s buf = s.sumUp (buf.take n) := by
  induction n generalizing s buf with
  | zero => rfl
  | succ n ih =>
    cases buf with
    | nil => simp at h
    | cons x buf =>
      rw [bytes, ih (by simpa using h)]
      rfl

theorem toNat_land_0xf (len : UInt32) : (len &&& 0xf).toNat = len.toNat % 16 :=
  Nat.and_two_pow_sub_one_eq_mod len.toNat 4

theorem toNat_land_0xfff0 (h : len.toNat < 65536) :
    (len &&& 0xfff0).toNat = 16 * (len.toNat / 16) := by
  rw [UInt32.toNat_and]
  have hmask : (0xfff0 : UInt32).toNat = (2 ^ 12 - 1) <<< 4 := rfl
  refine Nat.eq_of_testBit_eq fun k => ?_
  rw [hmask, Nat.testBit_and, Nat.testBit_shiftLeft, Nat.testBit_two_pow_sub_one,
    show (16 : ℕ) = 2 ^ 4 from rfl, Nat.testBit_two_pow_mul, Nat.testBit_div_two_pow]
  by_cases hk : 4 ≤ k
  · by_cases hk' : k < 16
    · have hlt : k - 4 < 12 := by omega
      simp [hk, hlt]
    · have hlow : len.toNat < 2 ^ k :=
        h.trans_le (Nat.pow_le_pow_right Nat.two_pos (show 16 ≤ k by omega))
      simp [hk, Nat.testBit_lt_two_pow hlow]
  · simp [hk]

/-- The runs of bytes that are reduced together. -/
def chunks (buf : List UInt8) : List (List UInt8) :=
  if 5552 ≤ buf.length then buf.take 5552 :: chunks (buf.drop 5552) else [buf]
termination_by buf.length
decreasing_by
  rw [List.length_drop]
  omega

/-- The sums after some runs of bytes. -/
def sumChunks (s : AdlerState) (cs : List (List UInt8)) : AdlerState := cs.foldl chunk s

theorem sumChunks_cons (s : AdlerState) (c : List UInt8) (cs : List (List UInt8)) :
    s.sumChunks (c :: cs) = (s.chunk c).sumChunks cs := rfl

theorem chunks_of_le (h : 5552 ≤ buf.length) :
    chunks buf = buf.take 5552 :: chunks (buf.drop 5552) := by
  rw [chunks, if_pos h]

theorem chunks_of_lt (h : buf.length < 5552) : chunks buf = [buf] := by
  rw [chunks, if_neg (by omega)]

theorem flatten_chunks (buf : List UInt8) : (chunks buf).flatten = buf := by
  fun_induction chunks buf with
  | case1 buf h ih => rw [List.flatten_cons, ih, List.take_append_drop]
  | case2 buf h => simp

theorem length_le_of_mem_chunks {c : List UInt8} (h : c ∈ chunks buf) : c.length ≤ 5552 := by
  fun_induction chunks buf with
  | case1 buf hlen ih =>
    rcases List.mem_cons.mp h with rfl | h
    · exact List.length_take_le _ _
    · exact ih h
  | case2 buf hlen =>
    rw [List.mem_singleton.mp h]
    omega

/-- Reduced sums, as between two runs. -/
structure Reduced (s : AdlerState) : Prop where
  s1 : s.s1.toNat < 65521
  s2 : s.s2.toNat < 65521

theorem reduced_reduce (s : AdlerState) : s.reduce.Reduced where
  s1 := by
    change s.s1.toNat % 65521 < 65521
    exact Nat.mod_lt _ (by decide)
  s2 := by
    change s.s2.toNat % 65521 < 65521
    exact Nat.mod_lt _ (by decide)

theorem Reduced.reduce_eq (h : s.Reduced) : s.reduce = s := by
  have h₁ : s.s1 % adler32Base = s.s1 := UInt32.toNat_inj.mp (Nat.mod_eq_of_lt h.s1)
  have h₂ : s.s2 % adler32Base = s.s2 := UInt32.toNat_inj.mp (Nat.mod_eq_of_lt h.s2)
  rw [reduce, h₁, h₂]

theorem Reduced.sumChunks (h : s.Reduced) (cs : List (List UInt8)) : (s.sumChunks cs).Reduced := by
  induction cs generalizing s with
  | nil => exact h
  | cons c cs ih => exact ih (reduced_reduce _)

theorem rest_eq (hs : s.Reduced) (hlen : len.toNat < 5552) (hbuf : len.toNat ≤ buf.length) :
    s.rest buf len = s.chunk (buf.take len.toNat) := by
  unfold rest
  by_cases h0 : len = 0
  · subst h0
    exact hs.reduce_eq.symm
  rw [if_neg h0]
  by_cases h16 : 16 ≤ len
  · have hland : (len &&& 0xfff0).toNat = 16 * (len.toNat / 16) := toNat_land_0xfff0 (by omega)
    simp only [if_pos h16, hland, toNat_land_0xf, Nat.mul_div_cancel_left _ (Nat.succ_pos 15)]
    have hdrop : len.toNat % 16 ≤ (buf.drop (16 * (len.toNat / 16))).length := by
      rw [List.length_drop]
      omega
    rw [blocks_eq (by omega), bytes_eq hdrop, ← sumUp_take_add, Nat.div_add_mod]
    rfl
  · simp only [if_neg h16]
    rw [bytes_eq hbuf]
    rfl

theorem rest_eq_sumChunks (hs : s.Reduced) (hlen : len.toNat < 5552)
    (hbuf : len.toNat ≤ buf.length) :
    s.rest buf len = s.sumChunks (chunks (buf.take len.toNat)) := by
  have htake : (buf.take len.toNat).length < 5552 := by
    rw [List.length_take]
    omega
  rw [rest_eq hs hlen hbuf, chunks_of_lt htake]
  rfl

/-- The loops sum up the bytes of the buffer, run by run. -/
theorem loop_eq (hs : s.Reduced) (hn : len.toNat ≤ n) (hbuf : len.toNat ≤ buf.length) :
    s.loop n buf len = s.sumChunks (chunks (buf.take len.toNat)) := by
  induction n generalizing s buf len with
  | zero => exact rest_eq_sumChunks hs (by omega) hbuf
  | succ n ih =>
    unfold loop
    have hmax' : adler32Nmax.toNat = 5552 := rfl
    by_cases hmax : adler32Nmax ≤ len
    · have hle : 5552 ≤ len.toNat := by
        rw [← hmax']
        exact UInt32.le_iff_toNat_le.mp hmax
      have hsub : (len - adler32Nmax).toNat = len.toNat - 5552 := by
        rw [UInt32.toNat_sub_of_le _ _ hmax, hmax']
      have hdrop : (len - adler32Nmax).toNat ≤ (buf.drop 5552).length := by
        rw [hsub, List.length_drop]
        exact Nat.sub_le_sub_right hbuf _
      have htake : 5552 ≤ (buf.take len.toNat).length := by
        rw [List.length_take]
        omega
      have hblocks : blocks 347 s buf = s.sumUp (buf.take 5552) := blocks_eq (hle.trans hbuf)
      rw [if_pos hmax, hmax', show 5552 / 16 = 347 from rfl, hblocks,
        ih (reduced_reduce _) (by omega) hdrop, hsub, chunks_of_le htake, List.take_take,
        Nat.min_eq_left hle, List.drop_take, sumChunks_cons, chunk]
    · rw [if_neg hmax]
      rw [UInt32.le_iff_toNat_le, hmax'] at hmax
      exact rest_eq_sumChunks hs (Nat.lt_of_not_le hmax) hbuf

end AdlerState

end ZendOpcache
