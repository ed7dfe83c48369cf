import Mathlib.Data.List.Perm.Subperm
import ZendOpcache.Optimizer.NopRemoval

/-! # The opline numbers after the removal of NOPs

The oplines that stay are found at their new numbers, and each number in a table is brought
down to that of the first opline at or after it that stays. Only a negative start of a loop is not
looked up in the list.
-/

namespace ZendOpcache

/-- An opline without the numbers of the oplines it jumps to or is linked to. -/
def ZendOp.shown (o : ZendOp) : ZendOp :=
  let o := o.mapJumps fun _ => 0
  if o.opcode = .declareInheritedClassDelayed then { o with result := { o.result with num := 0 } }
  else o

namespace ZendBoundOpArray

/-- An opline at or after `t` is no NOP. -/
def HasTarget (ops : List ZendOp) (t : ℕ) : Prop :=
  ∃ j o, t ≤ j ∧ ops[j]? = some o ∧ o.opcode ≠ .nop

/-- The list of early bindings from `i` on -/
inductive Links (ops : List ZendOp) : ℕ → List ℕ → Prop
  | nil : Links ops noOpline []
  | cons {i : ℕ} {o : ZendOp} {l : List ℕ} (hne : i ≠ noOpline) (hi : ops[i]? = some o)
      (ho : o.opcode = .declareInheritedClassDelayed) (h : Links ops o.result.num l) :
      Links ops i (i :: l)

/-- What the compiler promises: every `GOTO` has its label, and the numbers in the oplines and in
the tables are those of oplines that a non-NOP follows. The starts of loops are left open. -/
structure Numbered (a : ZendBoundOpArray) (l : List ℕ) : Prop where
  last : a.opcodes.length < 2 ^ 32
  gotos : ∀ o ∈ a.opcodes, unresolvedGoto a.literals o = false
  jumps : ∀ o ∈ a.opcodes, ∀ t ∈ o.jumps, HasTarget a.opcodes t
  loops : ∀ e ∈ a.brkContArray, HasTarget a.opcodes e.brk ∧ HasTarget a.opcodes e.cont
  tries : ∀ e ∈ a.tryCatchArray, HasTarget a.opcodes e.tryOp ∧ HasTarget a.opcodes e.catchOp
  links : Links a.opcodes a.earlyBinding l

section Stays

variable {ops : List ZendOp} {i j t : ℕ} {o : ZendOp}

/-- The opline stays. -/
def Stays (ops : List ZendOp) (i : ℕ) : Prop := i < ops.length ∧ removed ops i = false

/-- The first opline at or after `t` that stays -/
def FirstStays (ops : List ZendOp) (t j : ℕ) : Prop :=
  Stays ops j ∧ t ≤ j ∧ ∀ k, t ≤ k → k < j → removed ops k = true

theorem HasTarget.lt_length (h : HasTarget ops t) : t < ops.length := by
  obtain ⟨j, o, htj, hj, -⟩ := h
  exact htj.trans_lt (List.getElem?_eq_some_iff.mp hj).1

theorem FirstStays.newNum_eq (h : FirstStays ops t j) : newNum ops t = newNum ops j :=
  ZendBoundOpArray.newNum_eq h.2.1 h.2.2

theorem removed_iff (hi : ops[i]? = some o) :
    removed ops i = true ↔ o.opcode = .nop ∨ jumpsNops ops i o = true := by
  simp [removed, hi]

theorem stays_of_ne_nop (hi : ops[i]? = some o) (hne : o.opcode ≠ .nop)
    (hjump : jumpsNops ops i o = false) : Stays ops i :=
  ⟨(List.getElem?_eq_some_iff.mp hi).1, by simp [removed, hi, hne, hjump]⟩

/-- The last opline that is no NOP is no `JMP` over NOPs, so it stays. -/
theorem exists_stays (hjumps : ∀ o ∈ ops, ∀ t ∈ o.jumps, HasTarget ops t)
    (h : HasTarget ops t) : ∃ j, t ≤ j ∧ Stays ops j := by
  obtain ⟨j, o, htj, hj, hne⟩ := h
  -- by induction on the number of oplines after it
  obtain ⟨d, hd⟩ : ∃ d, ops.length - j = d := ⟨_, rfl⟩
  induction d using Nat.strongRecOn generalizing j o with
  | ind d ih =>
    cases hjump : jumpsNops ops j o with
    | false => exact ⟨j, htj, stays_of_ne_nop hj hne hjump⟩
    | true =>
      obtain ⟨hjmp, hlt, -⟩ := jumpsNops_spec hjump
      obtain ⟨k, o', htk, hk, hne'⟩ :=
        hjumps o (List.mem_of_getElem? hj) o.op1.num (by simp [ZendOp.jumps, hjmp])
      have hkn := (List.getElem?_eq_some_iff.mp hk).1
      exact ih (ops.length - k) (by omega) k o' (by omega) hk hne' rfl

theorem exists_firstStays (hjumps : ∀ o ∈ ops, ∀ t ∈ o.jumps, HasTarget ops t)
    (h : HasTarget ops t) : ∃ j, FirstStays ops t j := by
  classical
  have hex := exists_stays hjumps h
  obtain ⟨htj, hj⟩ := Nat.find_spec hex
  refine ⟨Nat.find hex, hj, htj, fun k htk hk => ?_⟩
  have hnot := Nat.find_min hex hk
  by_contra hr
  exact hnot ⟨htk, hk.trans hj.1, by simpa using hr⟩

end Stays

/-- The oplines before `n` that stay, each at its new number -/
theorem kept_spec (ops : List ZendOp) : ∀ n ≤ ops.length,
    ((ops.zipIdx.take n).filter fun x => !removed ops x.2).length = newNum ops n ∧
      ∀ i o, i < n → ops[i]? = some o → removed ops i = false →
        ((ops.zipIdx.take n).filter fun x => !removed ops x.2)[newNum ops i]? = some (o, i) := by
  intro n
  induction n with
  | zero => exact fun _ => ⟨rfl, fun i o hi => absurd hi (Nat.not_lt_zero i)⟩
  | succ n ih =>
    intro hn
    obtain ⟨hlen, hget⟩ := ih (by omega)
    have hx : ops.zipIdx[n]? = some (ops[n], n) := by simp [List.getElem?_zipIdx]
    rw [List.take_add_one, hx, List.filter_append]
    cases hr : removed ops n with
    | true =>
      have hnil : [(ops[n], n)].filter (fun x => !removed ops x.2) = [] := by simp [hr]
      rw [Option.toList_some, hnil, List.append_nil, newNum_succ_of_removed hr]
      refine ⟨hlen, fun i o hi ho hs => ?_⟩
      rcases Nat.lt_or_eq_of_le (Nat.lt_succ_iff.mp hi) with hlt | rfl
      · exact hget i o hlt ho hs
      · rw [hs] at hr
        cases hr
    | false =>
      have hone : [(ops[n], n)].filter (fun x => !removed ops x.2) = [(ops[n], n)] := by simp [hr]
      rw [Option.toList_some, hone, List.length_append, hlen, newNum_succ_of_stays hr]
      refine ⟨rfl, fun i o hi ho hs => ?_⟩
      rcases Nat.lt_or_eq_of_le (Nat.lt_succ_iff.mp hi) with hlt | rfl
      · rw [List.getElem?_append_left (hlen.symm ▸ newNum_lt hs hlt)]
        exact hget i o hlt ho hs
      · obtain rfl := Option.some.inj ((List.getElem?_eq_getElem hn).symm.trans ho)
        rw [List.getElem?_append_right hlen.le, hlen, Nat.sub_self]
        rfl

section Shift

variable {a : ZendBoundOpArray} {l : List ℕ} {s : NopState} {outside : ℤ → ℕ} {t : ℕ}

/-- How far the number of an opline in the code goes down -/
theorem Compacts.shiftAt (h : Compacts a.opcodes a.opcodes.length s) (outside : ℤ → ℕ)
    (ht : t < a.opcodes.length) : s.shiftAt outside t = t - newNum a.opcodes t := by
  have hget : s.shiftlist[t]? = some (t - newNum a.opcodes t) := by
    rw [h.shiftlist, List.getElem?_map, List.getElem?_range ht]
    rfl
  rw [NopState.shiftAt, if_pos (Int.natCast_nonneg t), Int.toNat_natCast, hget]
  rfl

/-- A number in the code is brought down to the new one. -/
theorem Compacts.bringDown (h : Compacts a.opcodes a.opcodes.length s) (outside : ℤ → ℕ)
    (ht : t < a.opcodes.length) : s.bringDown outside t = newNum a.opcodes t := by
  have hle : newNum a.opcodes t ≤ t := newNum_le
  rw [NopState.bringDown, h.shiftAt outside ht]
  omega

/-- Nothing goes. -/
theorem Compacts.stays_of_shift (h : Compacts a.opcodes a.opcodes.length s)
    (hshift : s.shift = 0) : ∀ k < a.opcodes.length, removed a.opcodes k = false := by
  have hle : newNum a.opcodes a.opcodes.length ≤ a.opcodes.length := newNum_le
  have heq : newNum a.opcodes a.opcodes.length = a.opcodes.length := by
    have := h.shift
    omega
  exact Nat.count_iff_forall.mp heq

theorem Compacts.shift_of_stays (h : Compacts a.opcodes a.opcodes.length s)
    (hstays : ∀ k < a.opcodes.length, removed a.opcodes k = false) : s.shift = 0 := by
  rw [h.shift, newNum_eq_self hstays le_rfl, Nat.sub_self]

theorem Compacts.opcodes_eq (h : Compacts a.opcodes a.opcodes.length s)
    (hstays : ∀ k < a.opcodes.length, removed a.opcodes k = false) : s.opcodes = a.opcodes := by
  ext1 k
  rcases lt_or_ge k a.opcodes.length with hk | hk
  · have := h.moved k hk (hstays k hk)
    rwa [newNum_eq_self hstays hk.le] at this
  · exact h.rest k hk

end Shift

section Links

variable {ops xs : List ZendOp} {e i n p : ℕ} {l l' : List ℕ} {f : ℕ → ℕ}

theorem Links.unique (h : Links ops e l) (h' : Links ops e l') : l = l' := by
  induction h generalizing l' with
  | nil =>
    cases h' with
    | nil => rfl
    | cons hne => exact absurd rfl hne
  | cons hne hi _ _ ih =>
    cases h' with
    | nil => exact absurd rfl hne
    | cons _ hi' _ h' =>
      obtain rfl := Option.some.inj (hi.symm.trans hi')
      rw [ih h']

theorem Links.eq_cons (h : Links ops e l) (he : e ≠ noOpline) : l = e :: l.tail := by
  cases h with
  | nil => exact absurd rfl he
  | cons => rfl

/-- From any of its oplines on, the list is a shorter one. -/
theorem Links.of_mem (h : Links ops e l) (hi : i ∈ l) : ∃ l', Links ops i (i :: l') ∧
    l'.length < l.length := by
  induction h with
  | nil => cases hi
  | @cons j o l hne hj ho h ih =>
    rcases List.mem_cons.mp hi with rfl | hi
    · exact ⟨l, .cons hne hj ho h, Nat.lt_succ_self _⟩
    · obtain ⟨l', hl', hlt⟩ := ih hi
      exact ⟨l', hl', hlt.trans (Nat.lt_succ_self _)⟩

theorem Links.nodup (h : Links ops e l) : l.Nodup := by
  induction h with
  | nil => exact List.nodup_nil
  | cons hne hi ho h ih =>
    refine List.nodup_cons.mpr ⟨fun hmem => ?_, ih⟩
    obtain ⟨l', hl', hlt⟩ := h.of_mem hmem
    obtain rfl := (List.cons.inj (hl'.unique (.cons hne hi ho h))).2
    exact lt_irrefl _ hlt

theorem Links.getElem? (h : Links ops e l) (hi : i ∈ l) :
    ∃ o, ops[i]? = some o ∧ o.opcode = .declareInheritedClassDelayed := by
  induction h with
  | nil => cases hi
  | cons _ hj ho _ ih =>
    rcases List.mem_cons.mp hi with rfl | hi
    · exact ⟨_, hj, ho⟩
    · exact ih hi

/-- A link of the list is its end or goes on in the list. -/
theorem Links.next_mem {o : ZendOp} (h : Links ops e l) (hi : i ∈ l) (ho : ops[i]? = some o)
    (hne : o.result.num ≠ noOpline) : o.result.num ∈ l := by
  induction h with
  | nil => cases hi
  | @cons j o' l _ hj _ h ih =>
    apply List.mem_cons_of_mem
    rcases List.mem_cons.mp hi with rfl | hi
    · obtain rfl := Option.some.inj (ho.symm.trans hj)
      rw [h.eq_cons hne]
      exact List.mem_cons_self
    · exact ih hi

theorem Links.stays (h : Links ops e l) (hi : i ∈ l) : Stays ops i := by
  obtain ⟨o, ho, hop⟩ := h.getElem? hi
  exact stays_of_ne_nop ho (by rw [hop]; decide) (by simp [jumpsNops, hop])

/-- The link of an opline is brought down. -/
def relink (f : ℕ → ℕ) (o : ZendOp) : ZendOp :=
  if o.result.num = noOpline then o
  else { o with result := { o.result with num := f o.result.num } }

@[simp] theorem relink_opcode (o : ZendOp) : (relink f o).opcode = o.opcode := by
  unfold relink
  split_ifs <;> rfl

theorem getElem?_foldl_modify {g : ℕ → ℕ} {r : ZendOp → ZendOp} (h : (l.map g).Nodup) :
    (l.foldl (fun xs i => xs.modify (g i) r) xs)[p]? =
      (xs[p]?).map fun o => if p ∈ l.map g then r o else o := by
  induction l generalizing xs with
  | nil => simp
  | cons i l ih =>
    obtain ⟨hi, hl⟩ := List.nodup_cons.mp h
    rw [List.foldl_cons, ih hl, List.getElem?_modify, Option.map_eq_map, Option.map_map]
    congr 1
    ext1 o
    rw [Function.comp_apply]
    rcases eq_or_ne (g i) p with rfl | hne
    · simp [hi]
    · simp [hne, hne.symm]

theorem modify_congr {r q : ZendOp → ZendOp} {x : ZendOp} (hx : xs[p]? = some x)
    (h : r x = q x) : xs.modify p r = xs.modify p q := by
  ext1 k
  rw [List.getElem?_modify, List.getElem?_modify]
  rcases eq_or_ne p k with rfl | hne
  · simp [hx, h]
  · simp [hne]

/-- The walk over the links follows the list, while it is brought down. -/
theorem Links.shiftLinks_eq {k : ℕ} (h : Links ops e l) (hf : ∀ i ∈ l, ∀ j ∈ l, f i = f j → i = j)
    (hxs : ∀ i ∈ l, ∀ o, ops[i]? = some o → ∃ x, xs[f i]? = some x ∧ x.result = o.result)
    (he : e ≠ noOpline) (hlen : l.length ≤ k) :
    shiftLinks f k xs (f e) = l.foldl (fun xs i => xs.modify (f i) (relink f)) xs ∧
      linkReads f k xs (f e) = l.tail := by
  induction h generalizing xs k with
  | nil => exact absurd rfl he
  | @cons i o l hne hi ho h ih =>
    obtain ⟨k, rfl⟩ : ∃ k', k = k' + 1 := ⟨k - 1, by simp at hlen; omega⟩
    obtain ⟨x, hx, hres⟩ := hxs i List.mem_cons_self o hi
    have hnodup := (List.nodup_cons.mp (Links.cons hne hi ho h).nodup).1
    simp only [shiftLinks, linkReads, hx, hres, List.foldl_cons, List.tail_cons]
    rcases eq_or_ne o.result.num noOpline with hlast | hmore
    · obtain rfl : l = [] := h.unique (hlast ▸ .nil)
      rw [if_pos hlast, if_pos hlast]
      refine ⟨?_, rfl⟩
      rw [List.foldl_nil, modify_congr (q := id) hx (by simp [relink, hres, hlast]),
        List.modify_id]
    · rw [if_neg hmore, if_neg hmore,
        modify_congr (q := relink f) hx (by simp [relink, hres, hmore])]
      -- the other oplines of the list are not those that were changed
      have hrest : ∀ j ∈ l, ∀ o, ops[j]? = some o →
          ∃ x, (xs.modify (f i) (relink f))[f j]? = some x ∧ x.result = o.result := by
        intro j hj o hjo
        have hij : f i ≠ f j := fun heq =>
          hnodup (hf i List.mem_cons_self j (List.mem_cons_of_mem _ hj) heq ▸ hj)
        rw [List.getElem?_modify_ne _ _ hij]
        exact hxs j (List.mem_cons_of_mem _ hj) o hjo
      obtain ⟨hshift, hreads⟩ := ih (k := k)
        (fun i hi j hj => hf i (List.mem_cons_of_mem _ hi) j (List.mem_cons_of_mem _ hj)) hrest
        hmore (Nat.le_of_succ_le_succ hlen)
      rw [hshift, hreads]
      exact ⟨rfl, (h.eq_cons hmore).symm⟩

end Links

section Renumber

variable {a : ZendBoundOpArray} {l : List ℕ} {s : NopState} {outside : ℤ → ℕ} {i j t : ℕ}
  {o : ZendOp}

/-- The opline at its new number: its jumps are brought down, and its link if it is in the list of
early bindings. -/
def renumber (a : ZendBoundOpArray) (l : List ℕ) (i : ℕ) (o : ZendOp) : ZendOp :=
  if i ∈ l then relink (newNum a.opcodes) (o.mapJumps (newNum a.opcodes))
  else o.mapJumps (newNum a.opcodes)

theorem newNum_inj (hi : Stays a.opcodes i) (hj : Stays a.opcodes j)
    (h : newNum a.opcodes i = newNum a.opcodes j) : i = j := by
  rcases lt_trichotomy i j with hlt | heq | hlt
  · exact absurd h (newNum_lt hi.2 hlt).ne
  · exact heq
  · exact absurd h (newNum_lt hj.2 hlt).ne'

theorem Stays.newNum_lt_length (h : Stays a.opcodes i) :
    newNum a.opcodes i < newNum a.opcodes a.opcodes.length :=
  newNum_lt h.2 h.1

namespace Numbered

theorem link_lt (h : a.Numbered l) (hi : i ∈ l) : i < a.opcodes.length := (h.links.stays hi).1

theorem jump_lt (h : a.Numbered l) (hi : a.opcodes[i]? = some o) (ht : t ∈ o.jumps) :
    t < a.opcodes.length :=
  (h.jumps o (List.mem_of_getElem? hi) t ht).lt_length

theorem early_mem (h : a.Numbered l) (he : a.earlyBinding ≠ noOpline) : a.earlyBinding ∈ l := by
  rw [h.links.eq_cons he]
  exact List.mem_cons_self

end Numbered

/-- The oplines that stay, before their numbers are brought down -/
theorem Compacts.take_getElem? (hc : Compacts a.opcodes a.opcodes.length s)
    (hi : Stays a.opcodes i) :
    (s.opcodes.take s.newCount)[newNum a.opcodes i]? = a.opcodes[i]? := by
  rw [List.getElem?_take_of_lt (hc.newCount ▸ hi.newNum_lt_length)]
  exact hc.moved i hi.1 hi.2

theorem Compacts.take_length (hc : Compacts a.opcodes a.opcodes.length s) :
    (s.opcodes.take s.newCount).length = newNum a.opcodes a.opcodes.length := by
  rw [List.length_take, hc.newCount, hc.length]
  exact min_eq_left newNum_le

theorem Compacts.mem_take (hc : Compacts a.opcodes a.opcodes.length s)
    (ho : o ∈ s.opcodes.take s.newCount) : o ∈ a.opcodes := by
  obtain ⟨p, hp⟩ := List.mem_iff_getElem?.mp ho
  have hlt := (List.getElem?_eq_some_iff.mp hp).1
  rw [hc.take_length] at hlt
  obtain ⟨i, hi, hs, rfl⟩ := exists_newNum hlt
  rw [hc.take_getElem? ⟨hi, hs⟩] at hp
  exact List.mem_of_getElem? hp

namespace Numbered

theorem nodup_map (h : a.Numbered l) : (l.map (newNum a.opcodes)).Nodup :=
  h.links.nodup.map_on fun _ hi _ hj heq =>
    newNum_inj (h.links.stays hi) (h.links.stays hj) heq

theorem length_le (h : a.Numbered l) : l.length ≤ newNum a.opcodes a.opcodes.length := by
  have hsub : l.map (newNum a.opcodes) ⊆ List.range (newNum a.opcodes a.opcodes.length) := by
    intro p hp
    obtain ⟨i, hi, rfl⟩ := List.mem_map.mp hp
    exact List.mem_range.mpr (h.links.stays hi).newNum_lt_length
  simpa using (List.subperm_of_subset h.nodup_map hsub).length_le

/-- If nothing goes, all numbers stay. -/
theorem renumber_eq_self (h : a.Numbered l)
    (hstays : ∀ k < a.opcodes.length, removed a.opcodes k = false) (hi : a.opcodes[i]? = some o) :
    a.renumber l i o = o := by
  have hself : ∀ t < a.opcodes.length, newNum a.opcodes t = t := fun t ht =>
    newNum_eq_self hstays ht.le
  have hjumps := o.mapJumps_eq_self fun t ht => hself t (h.jump_lt hi ht)
  rw [renumber, hjumps]
  split_ifs with hmem
  · rw [relink]
    split_ifs with hend
    · rfl
    · rw [hself _ (h.link_lt (h.links.next_mem hmem hi hend))]
  · rfl

/-- The list of links is walked along once. -/
theorem shiftLinks_eq (h : a.Numbered l) (hc : Compacts a.opcodes a.opcodes.length s)
    {f : ℕ → ℕ} (hf : ∀ t < a.opcodes.length, f t = newNum a.opcodes t)
    (he : a.earlyBinding ≠ noOpline) :
    let ops := (s.opcodes.take s.newCount).map (ZendOp.mapJumps f)
    shiftLinks f ops.length ops (f a.earlyBinding) =
        l.foldl (fun xs i => xs.modify (f i) (relink f)) ops ∧
      linkReads f ops.length ops (f a.earlyBinding) = l.tail := by
  apply h.links.shiftLinks_eq _ _ he
  · rw [List.length_map, hc.take_length]
    exact h.length_le
  · intro i hi j hj heq
    rw [hf i (h.link_lt hi), hf j (h.link_lt hj)] at heq
    exact newNum_inj (h.links.stays hi) (h.links.stays hj) heq
  · intro i hi o ho
    refine ⟨o.mapJumps f, ?_, ZendOp.mapJumps_result⟩
    rw [List.getElem?_map, hf i (h.link_lt hi), hc.take_getElem? (h.links.stays hi), ho]
    rfl

theorem shiftNumbers_opcodes (h : a.Numbered l) (hc : Compacts a.opcodes a.opcodes.length s)
    (outside : ℤ → ℕ) {f : ℕ → ℕ} (hf : f = s.bringDown outside) :
    (a.shiftNumbers outside s).opcodes =
      l.foldl (fun xs i => xs.modify (f i) (relink f))
        ((s.opcodes.take s.newCount).map (ZendOp.mapJumps f)) := by
  subst hf
  dsimp only [shiftNumbers]
  split_ifs with he
  · obtain rfl : l = [] := h.links.unique (he ▸ .nil)
    rfl
  · exact (h.shiftLinks_eq hc (fun t ht => hc.bringDown outside ht) he).1

theorem foldl_modify_length {ops : List ZendOp} {f : ℕ → ℕ} {r : ZendOp → ZendOp} :
    (l.foldl (fun xs i => xs.modify (f i) r) ops).length = ops.length := by
  induction l generalizing ops with
  | nil => rfl
  | cons i l ih => rw [List.foldl_cons, ih, List.length_modify]

theorem nopRemoval_length (h : a.Numbered l) (outside : ℤ → ℕ) :
    (a.nopRemoval outside).opcodes.length = newNum a.opcodes a.opcodes.length := by
  obtain ⟨s, hs, hc⟩ := nopLoop_compacts a h.gotos
  rw [nopRemoval, hs]
  dsimp only
  split_ifs with hshift
  · have hstays := hc.stays_of_shift hshift
    rw [hc.opcodes_eq hstays, newNum_eq_self hstays le_rfl]
  · rw [h.shiftNumbers_opcodes hc outside rfl, foldl_modify_length, List.length_map,
      hc.take_length]

/-- An opline that stays is found at its new number. -/
theorem nopRemoval_getElem? (h : a.Numbered l) (outside : ℤ → ℕ) (hs : Stays a.opcodes i)
    (hi : a.opcodes[i]? = some o) :
    (a.nopRemoval outside).opcodes[newNum a.opcodes i]? = some (a.renumber l i o) := by
  obtain ⟨s, hloop, hc⟩ := nopLoop_compacts a h.gotos
  rw [nopRemoval, hloop]
  dsimp only
  split_ifs with hshift
  · have hstays := hc.stays_of_shift hshift
    rw [hc.opcodes_eq hstays, newNum_eq_self hstays hs.1.le, h.renumber_eq_self hstays hi, hi]
  · obtain ⟨f, hf⟩ : ∃ f, f = s.bringDown outside := ⟨_, rfl⟩
    have hnew : ∀ t < a.opcodes.length, f t = newNum a.opcodes t := fun t ht => by
      rw [hf]
      exact hc.bringDown outside ht
    have hmap : l.map f = l.map (newNum a.opcodes) :=
      List.map_congr_left fun i hi => hnew i (h.link_lt hi)
    have hmem : newNum a.opcodes i ∈ l.map (newNum a.opcodes) ↔ i ∈ l := by
      constructor
      · intro hp
        obtain ⟨j, hj, heq⟩ := List.mem_map.mp hp
        exact newNum_inj (h.links.stays hj) hs heq ▸ hj
      · exact List.mem_map_of_mem
    have hjumps : o.mapJumps f = o.mapJumps (newNum a.opcodes) :=
      ZendOp.mapJumps_congr fun t ht => hnew t (h.jump_lt hi ht)
    rw [h.shiftNumbers_opcodes hc outside hf, getElem?_foldl_modify (hmap ▸ h.nodup_map), hmap,
      List.getElem?_map, hc.take_getElem? hs, hi]
    simp only [Option.map_some, hmem, renumber, hjumps, Option.some.injEq]
    split_ifs with hl
    · rw [relink, relink, ZendOp.mapJumps_result]
      split_ifs with hend
      · rfl
      · rw [hnew _ (h.link_lt (h.links.next_mem hl hi hend))]
    · rfl

/-- The oplines that stay are left in their order. -/
theorem nopRemoval_opcodes (h : a.Numbered l) (outside : ℤ → ℕ) :
    (a.nopRemoval outside).opcodes =
      (a.opcodes.zipIdx.filter fun x => !removed a.opcodes x.2).map
        fun x => a.renumber l x.2 x.1 := by
  obtain ⟨hlen, hget⟩ := kept_spec a.opcodes a.opcodes.length le_rfl
  rw [← List.length_zipIdx (l := a.opcodes), List.take_length, List.length_zipIdx] at hlen hget
  ext1 p
  rcases lt_or_ge p (newNum a.opcodes a.opcodes.length) with hp | hp
  · obtain ⟨i, hi, hr, rfl⟩ := exists_newNum hp
    have ho := List.getElem?_eq_getElem hi
    rw [h.nopRemoval_getElem? outside ⟨hi, hr⟩ ho, List.getElem?_map, hget i _ hi ho hr]
    rfl
  · rw [List.getElem?_eq_none ((h.nopRemoval_length outside).trans_le hp),
      List.getElem?_eq_none (by rwa [List.length_map, hlen])]

theorem nopRemoval_tries (h : a.Numbered l) (outside : ℤ → ℕ) :
    (a.nopRemoval outside).tryCatchArray =
      a.tryCatchArray.map fun e => ⟨newNum a.opcodes e.tryOp, newNum a.opcodes e.catchOp⟩ := by
  obtain ⟨s, hloop, hc⟩ := nopLoop_compacts a h.gotos
  rw [nopRemoval, hloop]
  dsimp only
  split_ifs with hshift
  · have hstays := hc.stays_of_shift hshift
    apply (List.map_id _).symm.trans (List.map_congr_left _)
    intro e he
    obtain ⟨htry, hcatch⟩ := h.tries e he
    rw [newNum_eq_self hstays htry.lt_length.le, newNum_eq_self hstays hcatch.lt_length.le]
    rfl
  · apply List.map_congr_left
    intro e he
    obtain ⟨htry, hcatch⟩ := h.tries e he
    rw [hc.bringDown outside htry.lt_length, hc.bringDown outside hcatch.lt_length]

/-- The loops go to the new numbers, and a start in the code does. -/
theorem nopRemoval_loops (h : a.Numbered l) (outside : ℤ → ℕ) :
    ∃ g : ℤ → ℤ, (a.nopRemoval outside).brkContArray = (a.brkContArray.map fun e =>
        { e with
          brk := newNum a.opcodes e.brk, cont := newNum a.opcodes e.cont, start := g e.start }) ∧
      (∀ t < a.opcodes.length, g t = newNum a.opcodes t) ∧
      ((∀ k < a.opcodes.length, removed a.opcodes k = false) → ∀ z, g z = z) := by
  obtain ⟨s, hloop, hc⟩ := nopLoop_compacts a h.gotos
  rw [nopRemoval, hloop]
  dsimp only
  split_ifs with hshift
  · have hstays := hc.stays_of_shift hshift
    refine ⟨id, ?_, fun t ht => ?_, fun _ z => rfl⟩
    · apply (List.map_id _).symm.trans (List.map_congr_left _)
      intro e he
      obtain ⟨hbrk, hcont⟩ := h.loops e he
      rw [newNum_eq_self hstays hbrk.lt_length.le, newNum_eq_self hstays hcont.lt_length.le]
      rfl
    · rw [newNum_eq_self hstays ht.le]
      rfl
  · refine ⟨fun z => z - s.shiftAt outside z, ?_, fun t ht => ?_, fun hstays => ?_⟩
    · apply List.map_congr_left
      intro e he
      obtain ⟨hbrk, hcont⟩ := h.loops e he
      rw [hc.bringDown outside hbrk.lt_length, hc.bringDown outside hcont.lt_length]
    · have := hc.shiftAt outside ht
      have hle : newNum a.opcodes t ≤ t := newNum_le
      dsimp only
      omega
    · exact absurd (hc.shift_of_stays hstays) hshift

theorem nopRemoval_early (h : a.Numbered l) (outside : ℤ → ℕ) :
    (a.nopRemoval outside).earlyBinding =
      if a.earlyBinding = noOpline then noOpline else newNum a.opcodes a.earlyBinding := by
  obtain ⟨s, hloop, hc⟩ := nopLoop_compacts a h.gotos
  rw [nopRemoval, hloop]
  dsimp only
  split_ifs with hshift he he
  · exact he
  · have hlt := h.link_lt (h.early_mem he)
    rw [newNum_eq_self (hc.stays_of_shift hshift) hlt.le]
  · exact if_pos he
  · exact (if_neg he).trans (hc.bringDown outside (h.link_lt (h.early_mem he)))

/-- The list of early bindings goes through the same oplines. -/
theorem nopRemoval_links (h : a.Numbered l) (outside : ℤ → ℕ) :
    Links (a.nopRemoval outside).opcodes (a.nopRemoval outside).earlyBinding
      (l.map (newNum a.opcodes)) := by
  suffices hall : ∀ {e l'}, Links a.opcodes e l' → (∀ i ∈ l', i ∈ l) →
      Links (a.nopRemoval outside).opcodes (if e = noOpline then noOpline else newNum a.opcodes e)
        (l'.map (newNum a.opcodes)) by
    rw [h.nopRemoval_early]
    exact hall h.links fun _ hi => hi
  intro e l' hl
  induction hl with
  | nil => exact fun _ => if_pos rfl ▸ .nil
  | @cons i o l' hne hi ho _ ih =>
    intro hsub
    have hmem := hsub i List.mem_cons_self
    have hget := h.nopRemoval_getElem? outside (h.links.stays hmem) hi
    have hlt := h.link_lt hmem
    have hlast := h.last
    have hle : newNum a.opcodes i ≤ i := newNum_le
    rw [if_neg hne]
    apply Links.cons _ hget _ _
    · unfold noOpline
      omega
    · rw [renumber, if_pos hmem, relink_opcode, ZendOp.mapJumps_opcode, ho]
    · have hres : (a.renumber l i o).result.num =
          if o.result.num = noOpline then noOpline else newNum a.opcodes o.result.num := by
        rw [renumber, if_pos hmem, relink, ZendOp.mapJumps_result]
        split_ifs with hend
        · rw [ZendOp.mapJumps_result, hend]
        · rfl
      rw [hres]
      exact ih fun i hi => hsub i (List.mem_cons_of_mem _ hi)

theorem linkReads_eq (h : a.Numbered l) (hc : Compacts a.opcodes a.opcodes.length s)
    (he : a.earlyBinding ≠ noOpline) : a.earlyBinding ::
      linkReads (s.bringDown outside) (s.opcodes.take s.newCount).length
        ((s.opcodes.take s.newCount).map (ZendOp.mapJumps (s.bringDown outside)))
        (s.bringDown outside a.earlyBinding) = l := by
  have hreads := (h.shiftLinks_eq hc (fun t ht => hc.bringDown outside ht) he).2
  rw [List.length_map] at hreads
  rw [hreads, ← h.links.eq_cons he]

/-- All reads are in the list but for the negative starts. -/
theorem shiftReads_iff (h : a.Numbered l) (hc : Compacts a.opcodes a.opcodes.length s)
    (hstarts : ∀ e ∈ a.brkContArray, 0 ≤ e.start → HasTarget a.opcodes e.start.toNat) :
    (∀ n ∈ a.shiftReads outside s, 0 ≤ n ∧ n < a.opcodes.length) ↔
      ∀ e ∈ a.brkContArray, 0 ≤ e.start := by
  have hcast : ∀ {xs : List ℕ}, (∀ t ∈ xs, t < a.opcodes.length) →
      ∀ n ∈ xs.map (Nat.cast : ℕ → ℤ), 0 ≤ n ∧ n < a.opcodes.length := by
    intro xs hxs n hn
    obtain ⟨t, ht, rfl⟩ := List.mem_map.mp hn
    exact ⟨Int.natCast_nonneg t, Int.ofNat_lt.mpr (hxs t ht)⟩
  constructor
  · intro hreads e he
    apply (hreads e.start _).1
    simp only [shiftReads, List.mem_append, List.mem_flatMap]
    exact .inl (.inl (.inr ⟨e, he, by simp⟩))
  · intro hpos n hn
    simp only [shiftReads, List.mem_append] at hn
    rcases hn with ((hn | hn) | hn) | hn
    · apply hcast _ n hn
      intro t ht
      obtain ⟨o, ho, ht⟩ := List.mem_flatMap.mp ht
      exact (h.jumps o (hc.mem_take ho) t ht).lt_length
    · obtain ⟨e, he, hn⟩ := List.mem_flatMap.mp hn
      obtain ⟨hbrk, hcont⟩ := h.loops e he
      have hstart := (hstarts e he (hpos e he)).lt_length
      have := hbrk.lt_length
      have := hcont.lt_length
      have := hpos e he
      simp only [List.mem_cons, List.not_mem_nil, or_false] at hn
      omega
    · obtain ⟨e, he, hn⟩ := List.mem_flatMap.mp hn
      obtain ⟨htry, hcatch⟩ := h.tries e he
      have := htry.lt_length
      have := hcatch.lt_length
      simp only [List.mem_cons, List.not_mem_nil, or_false] at hn
      omega
    · split_ifs at hn with he
      · cases hn
      · rw [h.linkReads_eq hc he] at hn
        exact hcast (fun t ht => h.link_lt ht) n hn

end Numbered

theorem shown_mapJumps {f : ℕ → ℕ} : (o.mapJumps f).shown = o.shown := by
  unfold ZendOp.shown
  simp only [ZendOp.mapJumps_mapJumps]
  rfl

theorem shown_relink {f : ℕ → ℕ} (ho : o.opcode = .declareInheritedClassDelayed) :
    (relink f o).shown = o.shown := by
  rw [relink]
  split_ifs
  · rfl
  · simp [ZendOp.shown, ZendOp.mapJumps, ho]

/-- An opline shows the same under its new number. -/
theorem Numbered.shown_renumber (h : a.Numbered l) (hi : a.opcodes[i]? = some o) :
    (a.renumber l i o).shown = o.shown := by
  rw [renumber]
  split_ifs with hmem
  · obtain ⟨o', ho', hop⟩ := h.links.getElem? hmem
    obtain rfl := Option.some.inj (hi.symm.trans ho')
    rw [shown_relink (ZendOp.mapJumps_opcode.trans hop), shown_mapJumps]
  · exact shown_mapJumps

end Renumber

/-- The number `t'` in the new code designates the opline that `t` does in the old one: the first
one at or after it that stays. -/
def Designates (a c : ZendBoundOpArray) (t t' : ℕ) : Prop :=
  ∃ j o o', FirstStays a.opcodes t j ∧ t' = newNum a.opcodes j ∧ a.opcodes[j]? = some o ∧
    c.opcodes[t']? = some o' ∧ o'.shown = o.shown

/-- The list of shifts is read within its bounds, and what the tables designate is kept. -/
structure KeepsTables (outside : ℤ → ℕ) (a : ZendBoundOpArray) (l : List ℕ) : Prop where
  reads : ∀ n ∈ a.nopRemovalReads outside, 0 ≤ n ∧ n < a.opcodes.length
  loops : List.Forall₂ (fun e e' : ZendBrkContElement => (e.start < 0 → e'.start = e.start) ∧
      (0 ≤ e.start → ∃ t : ℕ, e'.start = t ∧ a.Designates (a.nopRemoval outside) e.start.toNat t) ∧
      a.Designates (a.nopRemoval outside) e.brk e'.brk ∧
      a.Designates (a.nopRemoval outside) e.cont e'.cont)
    a.brkContArray (a.nopRemoval outside).brkContArray
  tries : List.Forall₂ (fun e e' : ZendTryCatchElement =>
      a.Designates (a.nopRemoval outside) e.tryOp e'.tryOp ∧
      a.Designates (a.nopRemoval outside) e.catchOp e'.catchOp)
    a.tryCatchArray (a.nopRemoval outside).tryCatchArray
  links : ∃ l', Links (a.nopRemoval outside).opcodes (a.nopRemoval outside).earlyBinding l' ∧
    List.Forall₂ (a.Designates (a.nopRemoval outside)) l l'

section Tables

variable {a : ZendBoundOpArray} {l : List ℕ} {t : ℕ}

theorem Numbered.designates (h : a.Numbered l) (outside : ℤ → ℕ) (ht : HasTarget a.opcodes t) :
    a.Designates (a.nopRemoval outside) t (newNum a.opcodes t) := by
  obtain ⟨j, hj⟩ := exists_firstStays h.jumps ht
  have ho := List.getElem?_eq_getElem hj.1.1
  rw [hj.newNum_eq]
  exact ⟨j, _, _, hj, rfl, ho, h.nopRemoval_getElem? outside hj.1 ho, h.shown_renumber ho⟩

theorem Stays.hasTarget {ops : List ZendOp} {i : ℕ} (h : Stays ops i) : HasTarget ops i := by
  have hi := List.getElem?_eq_getElem h.1
  refine ⟨i, _, le_rfl, hi, fun hnop => ?_⟩
  have hr := h.2
  rw [(removed_iff hi).mpr (.inl hnop)] at hr
  exact absurd hr (by decide)

/-- The tables are kept, and the list of shifts is only read within its bounds, exactly if nothing
goes or no loop has a negative start. -/
theorem keepsTables_iff (outside : ℤ → ℕ) (h : a.Numbered l)
    (hstarts : ∀ e ∈ a.brkContArray, 0 ≤ e.start → HasTarget a.opcodes e.start.toNat) :
    KeepsTables outside a l ↔
      (∀ k < a.opcodes.length, removed a.opcodes k = false) ∨
        ∀ e ∈ a.brkContArray, 0 ≤ e.start := by
  obtain ⟨s, hloop, hc⟩ := nopLoop_compacts a h.gotos
  have hreads : (∀ n ∈ a.nopRemovalReads outside, 0 ≤ n ∧ n < a.opcodes.length) ↔
      (∀ k < a.opcodes.length, removed a.opcodes k = false) ∨
        ∀ e ∈ a.brkContArray, 0 ≤ e.start := by
    rw [nopRemovalReads, hloop]
    dsimp only
    split_ifs with hshift
    · exact ⟨fun _ => .inl (hc.stays_of_shift hshift), fun _ n hn => absurd hn List.not_mem_nil⟩
    · rw [h.shiftReads_iff hc hstarts]
      exact ⟨.inr, fun hor => hor.resolve_left fun hstays => hshift (hc.shift_of_stays hstays)⟩
  constructor
  · exact fun hk => hreads.mp hk.reads
  · intro hor
    obtain ⟨g, hloops, hstart, hself⟩ := h.nopRemoval_loops outside
    constructor
    · exact hreads.mpr hor
    · rw [hloops, List.forall₂_map_right_iff, List.forall₂_same]
      intro e he
      obtain ⟨hbrk, hcont⟩ := h.loops e he
      refine ⟨fun hneg => ?_, fun hpos => ?_, h.designates outside hbrk, h.designates outside hcont⟩
      · rcases hor with hstays | hpos
        · exact hself hstays _
        · exact absurd (hpos e he) (not_le.mpr hneg)
      · have htarget := hstarts e he hpos
        refine ⟨newNum a.opcodes e.start.toNat, ?_, h.designates outside htarget⟩
        have := hstart e.start.toNat htarget.lt_length
        rwa [Int.toNat_of_nonneg hpos] at this
    · rw [h.nopRemoval_tries, List.forall₂_map_right_iff, List.forall₂_same]
      intro e he
      obtain ⟨htry, hcatch⟩ := h.tries e he
      exact ⟨h.designates outside htry, h.designates outside hcatch⟩
    · refine ⟨_, h.nopRemoval_links outside, ?_⟩
      rw [List.forall₂_map_right_iff, List.forall₂_same]
      exact fun i hi => h.designates outside (h.links.stays hi).hasTarget

/-- `for (;;) echo $x;` after a NOP, with a `try` around it and a class to be declared late -/
def endlessLoop (start : ℤ) : ZendBoundOpArray where
  opcodes :=
    [⟨.nop, .none, .none, .none, 0⟩,
      ⟨.declareInheritedClassDelayed, ⟨.const, 0, false⟩, ⟨.const, 1, false⟩,
        ⟨.unused, noOpline, false⟩, 0⟩,
      ⟨.echo, ⟨.cv, 0, false⟩, .none, .none, 0⟩,
      ⟨.jmp, ⟨.unused, 2, false⟩, .none, .none, 0⟩,
      ⟨.ret, ⟨.const, 2, false⟩, .none, .none, 0⟩]
  literals := []
  brkContArray := [⟨start, 2, 4, -1⟩]
  tryCatchArray := [⟨2, 4⟩]
  hasFinallyBlock := false
  T := 0
  lastVar := 1
  lastCacheSlot := 0
  earlyBinding := 1

theorem endlessLoop_hasTarget {start : ℤ} (ht : t ≤ 4) :
    HasTarget (endlessLoop start).opcodes t :=
  ⟨4, _, ht, rfl, by decide⟩

theorem endlessLoop_numbered (start : ℤ) : (endlessLoop start).Numbered [1] where
  last := show 5 < 2 ^ 32 by decide
  gotos := show ∀ o ∈ (endlessLoop 0).opcodes, unresolvedGoto [] o = false by decide
  jumps := fun o ho t ht => by
    have hall : ∀ o ∈ (endlessLoop 0).opcodes, ∀ t ∈ o.jumps, t ≤ 4 := by decide
    exact endlessLoop_hasTarget (hall o ho t ht)
  loops := fun e he => by
    obtain rfl := List.mem_singleton.mp he
    exact ⟨endlessLoop_hasTarget (t := 4) le_rfl, endlessLoop_hasTarget (t := 2) (by decide)⟩
  tries := fun e he => by
    obtain rfl := List.mem_singleton.mp he
    exact ⟨endlessLoop_hasTarget (by decide), endlessLoop_hasTarget le_rfl⟩
  links := .cons (show 1 ≠ noOpline by decide) rfl rfl .nil

theorem keepsTables_iff_foreach : KeepsTables (fun _ => 0) (endlessLoop 2) [1] := by
  apply (keepsTables_iff _ (endlessLoop_numbered 2) fun e he _ => _).mpr
  · right
    intro e he
    obtain rfl := List.mem_singleton.mp he
    decide
  · intro e he _
    obtain rfl := List.mem_singleton.mp he
    exact endlessLoop_hasTarget (by decide)

/-- The start of a loop without a loop variable is looked up before the list of shifts. -/
theorem keepsTables_fails : ¬∀ (outside : ℤ → ℕ) (a : ZendBoundOpArray) (l : List ℕ),
    a.Numbered l →
      (∀ e ∈ a.brkContArray, 0 ≤ e.start → HasTarget a.opcodes e.start.toNat) →
        KeepsTables outside a l := by
  intro hall
  have hk := hall (fun _ => 1) (endlessLoop (-1)) [1] (endlessLoop_numbered (-1)) <| by
    intro e he hpos
    obtain rfl := List.mem_singleton.mp he
    exact absurd hpos (by decide)
  have hmem : (-1 : ℤ) ∈ (endlessLoop (-1)).nopRemovalReads fun _ => 1 := by decide
  exact absurd (hk.reads _ hmem).1 (by decide)

end Tables

end ZendBoundOpArray

end ZendOpcache
