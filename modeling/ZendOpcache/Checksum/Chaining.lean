import ZendOpcache.Checksum.AdlerSums

/-! # Adler-32 of a buffer and of its parts

`zend_adler32` computes the Adler-32 of the bytes, and may be continued from part to part, as long
as all of them are below 128. The first byte from 128 on makes the checksum wrong: it is added with
256 too little, and wrapping around adds 225 at most once.
-/

namespace ZendOpcache

/-- A checksum whose halves are residues modulo `ADLER32_BASE`. -/
def IsChecksum (c : UInt32) : Prop := c.toNat % 65536 < 65521 ∧ c.toNat / 65536 < 65521

instance (c : UInt32) : Decidable (IsChecksum c) := inferInstanceAs (Decidable (_ ∧ _))

/-- The checksum of a whole buffer. -/
def zendAdler32Of (checksum : UInt32) (buf : List UInt8) : UInt32 :=
  zendAdler32 checksum buf buf.length.toUInt32

namespace AdlerState

variable {s : AdlerState} {c : UInt32} {buf a b : List UInt8}

theorem sums_ofChecksum (c : UInt32) :
    (ofChecksum c).sums = (((c.toNat % 65536 : ℕ) : ℤ), ((c.toNat / 65536 : ℕ) : ℤ)) := by
  have h₁ : (c &&& 0xffff).toNat = c.toNat % 65536 :=
    Nat.and_two_pow_sub_one_eq_mod c.toNat 16
  have hshift : (c >>> 16).toNat = c.toNat / 65536 := by
    rw [UInt32.toNat_shiftRight]
    exact Nat.shiftRight_eq_div_pow _ _
  have h₂ : ((c >>> 16) &&& 0xffff).toNat = c.toNat / 65536 := by
    have hc := c.toNat_lt
    have hand : ((c >>> 16) &&& 0xffff).toNat = (c >>> 16).toNat % 65536 :=
      Nat.and_two_pow_sub_one_eq_mod _ 16
    rw [hand, hshift, Nat.mod_eq_of_lt (by omega)]
  simp only [sums, ofChecksum, h₁, h₂]

theorem reduced_ofChecksum (h : IsChecksum c) : (ofChecksum c).Reduced := by
  have hs := sums_ofChecksum c
  simp only [sums, Prod.mk.injEq, Nat.cast_inj] at hs
  exact ⟨hs.1 ▸ h.1, hs.2 ▸ h.2⟩

theorem Reduced.toNat_checksum (h : s.Reduced) :
    s.checksum.toNat = s.s2.toNat * 65536 + s.s1.toNat := by
  have h₁ := h.s1
  have h₂ := h.s2
  have hshift : (s.s2 <<< 16).toNat = s.s2.toNat * 2 ^ 16 := by
    rw [UInt32.toNat_shiftLeft]
    change s.s2.toNat <<< 16 % 2 ^ 32 = _
    rw [Nat.shiftLeft_eq]
    exact Nat.mod_eq_of_lt (by omega)
  rw [checksum, UInt32.toNat_or, hshift, Nat.mul_comm, Nat.mul_comm s.s2.toNat]
  exact (Nat.two_pow_add_eq_or_of_lt (h₁.trans (show 65521 < 2 ^ 16 by decide)) _).symm

theorem Reduced.isChecksum (h : s.Reduced) : IsChecksum s.checksum := by
  have h₁ := h.s1
  have h₂ := h.s2
  unfold IsChecksum
  rw [h.toNat_checksum]
  omega

theorem Reduced.ofChecksum_checksum (h : s.Reduced) : ofChecksum s.checksum = s := by
  have h₁ := h.s1
  refine sums_injective ?_
  rw [sums_ofChecksum, h.toNat_checksum, sums]
  refine Prod.ext (Nat.cast_inj.mpr ?_) (Nat.cast_inj.mpr ?_)
  · omega
  · omega

/-- The sums at the end of a buffer. -/
def final (c : UInt32) (buf : List UInt8) : AdlerState := (ofChecksum c).sumChunks (chunks buf)

theorem reduced_final (h : IsChecksum c) (buf : List UInt8) : (final c buf).Reduced :=
  (reduced_ofChecksum h).sumChunks _

end AdlerState

open AdlerState

variable {c : UInt32} {buf a b : List UInt8}

theorem zendAdler32_eq {len : UInt32} (h : IsChecksum c) (hlen : len.toNat ≤ buf.length) :
    zendAdler32 c buf len = (final c (buf.take len.toNat)).checksum := by
  rw [zendAdler32, loop_eq (reduced_ofChecksum h) le_rfl hlen]
  rfl

theorem zendAdler32Of_eq (h : IsChecksum c) (hlen : buf.length < 2 ^ 32) :
    zendAdler32Of c buf = (final c buf).checksum := by
  have hlen' : buf.length.toUInt32.toNat = buf.length := Nat.mod_eq_of_lt hlen
  rw [zendAdler32Of, zendAdler32_eq h hlen'.le, hlen', List.take_length]

/-- How often the sums of a buffer are below zero at the end of a run. -/
def adlerBorrows (s : ℤ × ℤ) (buf : List UInt8) : ℤ × ℤ :=
  borrows 65521 225 s ((chunks buf).map (List.map signedByte))

/-- The sums are those of the signed bytes, but for the borrows. -/
theorem final_modEq (h : IsChecksum c) (buf : List UInt8) :
    let s := (ofChecksum c).sums
    (final c buf).sums.1 ≡ (runningSums s (buf.map signedByte)).1 +
        225 * (adlerBorrows s buf).1 [ZMOD 65521] ∧
      (final c buf).sums.2 ≡ (runningSums s (buf.map signedByte)).2 +
        225 * (adlerBorrows s buf).2 [ZMOD 65521] := by
  have hruns := RunningSums.reduceRuns_modEq (m := 65521) (r := 225) (ofChecksum c).sums
    ((chunks buf).map (List.map signedByte))
  rw [← List.map_flatten, flatten_chunks] at hruns
  rw [final, sumChunks_sums (reduced_ofChecksum h) fun d => length_le_of_mem_chunks]
  exact hruns

theorem emod_of_modEq {s : AdlerState} (h : s.Reduced) {m n : ℤ}
    (h₁ : s.sums.1 ≡ m [ZMOD 65521]) (h₂ : s.sums.2 ≡ n [ZMOD 65521]) :
    (m % 65521).toNat = s.s1.toNat ∧ (n % 65521).toNat = s.s2.toNat := by
  have hs₁ := h.s1
  have hs₂ := h.s2
  have hm : (s.s1.toNat : ℤ) % 65521 = m % 65521 := h₁
  have hn : (s.s2.toNat : ℤ) % 65521 = n % 65521 := h₂
  omega

/-- The bytes as the specification reads them. -/
def unsignedByte (x : UInt8) : ℤ := x.toNat

theorem map_signedByte (h : ∀ x ∈ buf, x < 128) : buf.map signedByte = buf.map unsignedByte := by
  refine List.map_congr_left fun x hx => ?_
  have hlt : x.toNat < 128 := h x hx
  rw [signedByte_eq, if_pos hlt, unsignedByte]

theorem adlerBorrows_eq (h : ∀ x ∈ buf, x < 128) (c : UInt32) :
    adlerBorrows (ofChecksum c).sums buf = (0, 0) := by
  refine RunningSums.borrows_of_nonneg (by decide) (Int.natCast_nonneg _) (Int.natCast_nonneg _) ?_
  rw [← List.map_flatten, flatten_chunks, map_signedByte h]
  intro x hx
  obtain ⟨y, _, rfl⟩ := List.mem_map.mp hx
  exact Int.natCast_nonneg _

theorem final_modEq_of_lt (hc : IsChecksum c) (h : ∀ x ∈ buf, x < 128) :
    let t := runningSums (ofChecksum c).sums (buf.map unsignedByte)
    (final c buf).sums.1 ≡ t.1 [ZMOD 65521] ∧ (final c buf).sums.2 ≡ t.2 [ZMOD 65521] := by
  have hmod := final_modEq hc buf
  simp only [adlerBorrows_eq h, map_signedByte h] at hmod
  simpa using hmod

theorem adler32_eq (c : UInt32) (buf : List UInt8) :
    adler32 c.toNat buf =
      ((runningSums (ofChecksum c).sums (buf.map unsignedByte)).2 % 65521).toNat * 65536 +
        ((runningSums (ofChecksum c).sums (buf.map unsignedByte)).1 % 65521).toNat := by
  rw [sums_ofChecksum]
  rfl

/-- Below 128 the sign of a byte makes no difference. -/
theorem zendAdler32Of_eq_adler32 (hc : IsChecksum c) (hlen : buf.length < 2 ^ 32)
    (h : ∀ x ∈ buf, x < 128) : (zendAdler32Of c buf).toNat = adler32 c.toNat buf := by
  have hfinal := reduced_final hc buf
  obtain ⟨h₁, h₂⟩ := final_modEq_of_lt hc h
  obtain ⟨hs₁, hs₂⟩ := emod_of_modEq hfinal h₁ h₂
  rw [zendAdler32Of_eq hc hlen, hfinal.toNat_checksum, adler32_eq, hs₁, hs₂]

theorem zendAdler32Of_append (hc : IsChecksum c) (hlen : (a ++ b).length < 2 ^ 32)
    (h : ∀ x ∈ a ++ b, x < 128) :
    zendAdler32Of (zendAdler32Of c a) b = zendAdler32Of c (a ++ b) := by
  have hlena : a.length < 2 ^ 32 := by
    rw [List.length_append] at hlen
    omega
  have hlenb : b.length < 2 ^ 32 := by
    rw [List.length_append] at hlen
    omega
  have hfinal := reduced_final hc a
  have hmid := hfinal.isChecksum
  obtain ⟨ha₁, ha₂⟩ := final_modEq_of_lt hc fun x hx => h x (List.mem_append_left b hx)
  obtain ⟨hb₁, hb₂⟩ := final_modEq_of_lt hmid fun x hx => h x (List.mem_append_right a hx)
  obtain ⟨hab₁, hab₂⟩ := final_modEq_of_lt hc h
  rw [hfinal.ofChecksum_checksum] at hb₁ hb₂
  obtain ⟨hm₁, hm₂⟩ := RunningSums.modEq ha₁ ha₂ (b.map unsignedByte)
  rw [List.map_append, RunningSums.append] at hab₁ hab₂
  rw [zendAdler32Of_eq hc hlena, zendAdler32Of_eq hmid hlenb, zendAdler32Of_eq hc hlen]
  congr 1
  obtain ⟨he₁, he₂⟩ := emod_of_modEq (reduced_final hmid b) (hb₁.trans hm₁) (hb₂.trans hm₂)
  obtain ⟨he₁', he₂'⟩ := emod_of_modEq (reduced_final hc (a ++ b)) hab₁ hab₂
  refine sums_injective (Prod.ext (Nat.cast_inj.mpr ?_) (Nat.cast_inj.mpr ?_))
  · exact he₁.symm.trans he₁'
  · exact he₂.symm.trans he₂'

theorem low_half_eq {k l m n : ℕ} (h : k * 65536 + l = m * 65536 + n) (hl : l < 65536)
    (hn : n < 65536) : l = n := by
  omega

theorem shifted_residue_ne {n β : ℤ} (h : 0 ≤ β) (h' : β ≤ 1) :
    ¬ n - 256 + 225 * β ≡ n [ZMOD 65521] := by
  unfold Int.ModEq
  omega

/-- The first byte from 128 on makes the checksum wrong. -/
theorem zendAdler32Of_ne_adler32 (hc : IsChecksum c) {xs : List UInt8} {x : UInt8}
    (hlen : (xs ++ [x]).length < 2 ^ 32) (hxs : ∀ y ∈ xs, y < 128) (hx : ¬ x < 128) :
    (zendAdler32Of c (xs ++ [x])).toNat ≠ adler32 c.toNat (xs ++ [x]) := by
  intro heq
  have hfinal := reduced_final hc (xs ++ [x])
  obtain ⟨h₁, -⟩ := final_modEq hc (xs ++ [x])
  have hborrows : 0 ≤ (adlerBorrows (ofChecksum c).sums (xs ++ [x])).1 ∧
      (adlerBorrows (ofChecksum c).sums (xs ++ [x])).1 ≤ 1 := by
    refine RunningSums.borrows_fst_of_dropLast (by decide) (Int.natCast_nonneg _)
      (Int.natCast_nonneg _) ?_
    rw [← List.map_flatten, flatten_chunks, List.map_append, List.map_singleton,
      List.dropLast_concat, map_signedByte hxs]
    intro y hy
    obtain ⟨z, _, rfl⟩ := List.mem_map.mp hy
    exact Int.natCast_nonneg _
  have hsigned : signedByte x = unsignedByte x - 256 := by
    rw [signedByte_eq, if_neg (show ¬ x.toNat < 128 from hx), unsignedByte]
  rw [zendAdler32Of_eq hc hlen, hfinal.toNat_checksum, adler32_eq] at heq
  rw [List.map_append, List.map_singleton, map_signedByte hxs, hsigned, RunningSums.fst_eq,
    List.sum_append, List.sum_singleton] at h₁
  rw [List.map_append, List.map_singleton, RunningSums.fst_eq, List.sum_append,
    List.sum_singleton] at heq
  set t := (ofChecksum c).sums.1 + ((xs.map unsignedByte).sum + unsignedByte x) with ht
  set β := (adlerBorrows (ofChecksum c).sums (xs ++ [x])).1
  have hlow : (final c (xs ++ [x])).s1.toNat = (t % 65521).toNat :=
    low_half_eq heq (hfinal.s1.trans (by decide)) (by omega)
  have hsum : (final c (xs ++ [x])).sums.1 ≡ t - 256 + 225 * β [ZMOD 65521] := by
    rw [ht]
    convert h₁ using 1
    ring
  have hres : (final c (xs ++ [x])).sums.1 ≡ t [ZMOD 65521] := by
    have hpos : 0 ≤ t % 65521 := Int.emod_nonneg _ (by decide)
    rw [sums, hlow, Int.toNat_of_nonneg hpos]
    exact Int.mod_modEq _ _
  exact shifted_residue_ne hborrows.1 hborrows.2 (hsum.symm.trans hres)

/-- The first entry of a list that lacks a property. -/
theorem exists_first_not {p : UInt8 → Prop} (h : ∃ x ∈ buf, ¬ p x) :
    ∃ xs x ys, xs ++ [x] ++ ys = buf ∧ (∀ y ∈ xs, p y) ∧ ¬ p x := by
  induction buf with
  | nil => simp at h
  | cons z buf ih =>
    by_cases hz : p z
    · have hrest : ∃ x ∈ buf, ¬ p x := by
        obtain ⟨x, hx, hp⟩ := h
        rcases List.mem_cons.mp hx with rfl | hx
        · exact absurd hz hp
        · exact ⟨x, hx, hp⟩
      obtain ⟨xs, x, ys, rfl, hxs, hx⟩ := ih hrest
      refine ⟨z :: xs, x, ys, rfl, fun y hy => ?_, hx⟩
      rcases List.mem_cons.mp hy with rfl | hy
      · exact hz
      · exact hxs y hy
    · exact ⟨[], z, buf, rfl, by simp, hz⟩

/-- Of a buffer and all of its parts the checksum is right if and only if no byte is from 128 on. -/
theorem zendAdler32_parts_iff (hc : IsChecksum c) (hlen : buf.length < 2 ^ 32) :
    (∀ a b, a ++ b = buf →
      (zendAdler32Of c a).toNat = adler32 c.toNat a ∧
        zendAdler32Of (zendAdler32Of c a) b = zendAdler32Of c (a ++ b)) ↔
      ∀ x ∈ buf, x < 128 := by
  constructor
  · intro h
    by_contra! hbad
    have hbad' : ∃ x ∈ buf, ¬ x < 128 := by simpa using hbad
    obtain ⟨xs, x, ys, rfl, hxs, hx⟩ := exists_first_not (p := (· < 128)) hbad'
    have hlen' : (xs ++ [x]).length < 2 ^ 32 := by
      rw [List.length_append] at hlen
      omega
    exact zendAdler32Of_ne_adler32 hc hlen' hxs hx (h (xs ++ [x]) ys rfl).1
  · rintro h a b rfl
    have hlen' : a.length < 2 ^ 32 := by
      rw [List.length_append] at hlen
      omega
    exact ⟨zendAdler32Of_eq_adler32 hc hlen' fun x hx => h x (List.mem_append_left b hx),
      zendAdler32Of_append hc hlen h⟩

theorem zendAdler32_parts_iff_ascii :
    (∀ a b, a ++ b = [0x50, 0x48, 0x50] →
      (zendAdler32Of 1 a).toNat = adler32 (1 : UInt32).toNat a ∧
        zendAdler32Of (zendAdler32Of 1 a) b = zendAdler32Of 1 (a ++ b)) ↔
      ∀ x ∈ ([0x50, 0x48, 0x50] : List UInt8), x < 128 :=
  zendAdler32_parts_iff (by decide) (by decide)

/-- A byte of `UTF-8` is enough. -/
theorem zendAdler32_nonAscii :
    IsChecksum 1 ∧ (zendAdler32Of 1 [0xc3]).toNat ≠ adler32 (1 : UInt32).toNat [0xc3] := by
  decide

end ZendOpcache
