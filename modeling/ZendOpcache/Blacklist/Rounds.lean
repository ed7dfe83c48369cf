import Mathlib.Data.List.Basic
import ZendOpcache.Blacklist.Translation

/-! # The rounds of the blacklist

Entries that fit into the empty buffer are compiled in groups, in their order: a group that the next
entry does not fit after is closed at its last complete entry, which has been written in the
same round. An entry that does not even fit into the empty buffer is never got past.
-/

namespace ZendOpcache

/-- The expression for some entries, without the parentheses. -/
def alternatives (g : List (List UInt8)) : List UInt8 := [ascii '|'].intercalate (g.map translation)

/-- The regular expression for some entries. -/
def groupPattern (g : List (List UInt8)) : List UInt8 :=
  [ascii '^', ascii '('] ++ alternatives g ++ [ascii ')']

/-- The buffer before anything is written in a round. -/
def patternHead : List RegexpCell := [some (ascii '^', 0), some (ascii '(', 0)]

/-- The pattern of a group, as the buffer has it in a round. -/
def roundPattern (round : ℕ) (g : List (List UInt8)) : List RegexpCell :=
  patternHead ++ (alternatives g ++ [ascii ')']).map fun x => some (x, round)

/-- What has been compiled after some rounds. -/
def roundPatterns (gs : List (List (List UInt8))) : List (List RegexpCell) :=
  gs.mapIdx fun k g => roundPattern (k + 1) g

/-- The alternatives of a round that is not complete. -/
def openAlternatives (g : List (List UInt8)) : List UInt8 :=
  g.flatMap fun c => translation c ++ [ascii '|']

/-- The fill levels of the buffer stay within it, for entries from position `p` on. This can only
fail for empty entries, each of which adds a bar. -/
def FillsWithin : ℕ → List (List UInt8) → Prop
  | _, [] => True
  | p, c :: cs =>
    let q := (if Fits p c then p else 2) + (translation c).length
    (Fits p c ∨ p < regexpSize) ∧ (if cs = [] then q + 1 < regexpSize else q < regexpSize) ∧
      FillsWithin (q + 1) cs

instance : ∀ (p : ℕ) (cs : List (List UInt8)), Decidable (FillsWithin p cs)
  | _, [] => inferInstanceAs (Decidable True)
  | p, c :: cs =>
    have := instDecidableFillsWithin ((if Fits p c then p else 2) + (translation c).length + 1) cs
    inferInstanceAs (Decidable (_ ∧ _ ∧ _))

variable {g : List (List UInt8)} {c : List UInt8}

theorem openAlternatives_append (g : List (List UInt8)) (c : List UInt8) :
    openAlternatives (g ++ [c]) = openAlternatives g ++ (translation c ++ [ascii '|']) := by
  simp [openAlternatives]

theorem alternatives_append (g : List (List UInt8)) (c : List UInt8) :
    alternatives (g ++ [c]) = openAlternatives g ++ translation c := by
  induction g with
  | nil => simp [alternatives, openAlternatives, List.intercalate]
  | cons d g ih =>
    have hne : (g ++ [c]).map translation ≠ [] := by simp
    rw [List.cons_append, alternatives, List.map_cons, List.intercalate_cons_of_ne_nil hne]
    rw [alternatives] at ih
    rw [ih]
    simp [openAlternatives]

/-- An open round ends in a bar. -/
theorem openAlternatives_eq (h : g ≠ []) : openAlternatives g = alternatives g ++ [ascii '|'] := by
  obtain ⟨g', c, rfl⟩ := (List.eq_nil_or_concat' g).resolve_left h
  rw [openAlternatives_append, alternatives_append, List.append_assoc]

namespace UpdateState

variable {entries gs : List (List (List UInt8))} {malloc : ℕ → Bool} {s s' : UpdateState}

/-- The buffer of a round holds its head and what the round itself has written. -/
structure Holds (s : UpdateState) (w : List UInt8) : Prop where
  eq : s.upTo = patternHead ++ w.map fun x => some (x, s.round)

theorem Holds.p_eq {w : List UInt8} (h : s.Holds w) : s.p = w.length + 2 := by
  rw [← length_upTo, h.eq, List.length_append, List.length_map, Nat.add_comm]
  rfl

theorem Holds.write {w : List UInt8} (h : s.Holds w) (w' : List UInt8) :
    (s.write w').Holds (w ++ w') where
  eq := by
    rw [upTo_write, h.eq, (agrees_write s w').round, List.map_append, List.append_assoc]

theorem Holds.writeChar {w : List UInt8} (h : s.Holds w) (x : UInt8) :
    (s.writeChar x).Holds (w ++ [x]) :=
  h.write [x]

/-- Going back leaves what was written before. -/
theorem Holds.goBack {w w' : List UInt8} (h : s.Holds (w ++ w')) (hs : Agrees s.p s s') :
    UpdateState.Holds { s' with p := w.length + 2 } w where
  eq := by
    have hp := h.p_eq
    rw [List.length_append] at hp
    have htake : UpdateState.upTo { s' with p := w.length + 2 } = s.upTo.take (w.length + 2) := by
      rw [upTo, upTo, ← List.map_take, List.take_range, Nat.min_eq_left (by omega)]
      refine List.map_congr_left fun k hk => hs.cells k ?_
      have hk' : k < w.length + 2 := List.mem_range.mp hk
      omega
    have hhead : (patternHead ++ w.map fun x => (some (x, s.round) : RegexpCell)).length =
        w.length + 2 := by
      rw [List.length_append, List.length_map, Nat.add_comm]
      rfl
    rw [htake, h.eq, List.map_append, ← List.append_assoc, List.take_left' hhead]
    simp only [hs.round]

theorem takeWhile_eq_of {α : Type*} {f : α → Bool} {xs ys : List α} {y : α}
    (hxs : ∀ x ∈ xs, f x = true) (hy : f y = false) : (xs ++ y :: ys).takeWhile f = xs := by
  rw [List.takeWhile_append_of_pos hxs, List.takeWhile_cons_of_neg (by simp [hy]), List.append_nil]

/-- The pattern is what the buffer holds, once a zero is written behind it. -/
theorem pattern_eq {w : List UInt8} (h : s.Holds w) (hw : (0 : UInt8) ∉ w) (hs : s.p < regexpSize) :
    (s.writeChar 0).pattern = patternHead ++ w.map fun x => some (x, s.round) := by
  obtain ⟨r, hr⟩ : ∃ r, regexpSize = s.p + (r + 1) := ⟨regexpSize - s.p - 1, by omega⟩
  have hbefore : (List.range s.p).map (s.writeChar 0).cells = s.upTo :=
    List.map_congr_left fun k hk => (agrees_writeChar s 0).cells k (List.mem_range.mp hk)
  have hzero : (s.writeChar 0).cells s.p = some (0, s.round) := Function.update_self _ _ _
  rw [pattern, hr, List.range_add, List.map_append, hbefore, List.range_succ_eq_map, List.map_cons,
    List.map_cons, Nat.add_zero, hzero, takeWhile_eq_of _ (by simp), h.eq]
  rw [h.eq]
  intro x hx
  rcases List.mem_append.mp hx with hx | hx
  · have hhead : ∀ x ∈ patternHead, x.all (fun x => decide (x.1 ≠ 0)) = true := by decide
    exact hhead x hx
  · obtain ⟨y, hy, rfl⟩ := List.mem_map.mp hx
    have hne : y ≠ 0 := fun h0 => hw (h0 ▸ hy)
    simpa using hne

theorem putEntry_of_fits (h : Fits s.p c) :
    s.putEntry c = .ok (s.write (translation c), []) := by
  unfold putEntry
  rcases h with rfl | ⟨h, h'⟩
  · exact ite_self _
  · rw [if_pos h]
    exact translate_of_lt le_rfl (.inr h')

theorem putEntry_of_not_fits (h : ¬ Fits s.p c) (hs : s.p ≤ regexpSize) :
    ∃ s' rest, s.putEntry c = .ok (s', rest) ∧ rest ≠ [] ∧ Agrees s.p s s' ∧ s.p ≤ s'.p := by
  obtain ⟨hc, h⟩ := not_or.mp h
  unfold putEntry
  by_cases hlen : s.p + c.length < regexpEnd
  · rw [if_pos hlen]
    exact translate_of_le le_rfl hc (by omega) hs
  · rw [if_neg hlen]
    exact ⟨s, c, rfl, hc, .refl _ s, le_rfl⟩

/-- The outer loop has compiled the groups `gs`, and has `g` in the buffer and `rest` before it. -/
structure AtHead (entries : List (List UInt8)) (gs : List (List (List UInt8)))
    (g rest : List (List UInt8)) (s : UpdateState) : Prop where
  split : gs.flatten ++ g ++ rest = entries
  nonempty : ∀ h ∈ gs, h ≠ []
  i : s.i = (gs.flatten ++ g).length
  round : s.round = gs.length + 1
  holds : s.Holds (openAlternatives g)
  backtrack : g ≠ [] → s.backtrack = some (s.p - 1)
  patterns : s.patterns = roundPatterns gs

variable {entries g rest : List (List UInt8)} {gs : List (List (List UInt8))}

theorem AtHead.getElem? (h : AtHead entries gs g rest s) : entries[s.i]? = rest.head? := by
  rw [← h.split, h.i, List.getElem?_append_right le_rfl, Nat.sub_self, List.head?_eq_getElem?]

theorem AtHead.length (h : AtHead entries gs g rest s) : entries.length = s.i + rest.length := by
  rw [← h.split, List.length_append, h.i]

theorem nextEntry_eq (h : s.p < regexpSize) :
    s.nextEntry = .ok
      { { s with backtrack := some s.p }.writeChar (ascii '|') with i := s.i + 1 } := by
  unfold nextEntry
  rw [put_eq (show UpdateState.p { s with backtrack := some s.p } < regexpSize from h)]
  rfl

theorem nextEntry_of_le (h : regexpSize ≤ s.p) : s.nextEntry = .error .overrun := by
  unfold nextEntry
  rw [put_of_le (show regexpSize ≤ UpdateState.p { s with backtrack := some s.p } from h)]
  rfl

/-- An entry that fits, and is not the last one. -/
theorem AtHead.turn_next {d : List UInt8} (h : AtHead entries gs g (c :: d :: rest) s)
    (hc : Fits s.p c) :
    turn malloc entries s c = (s.write (translation c)).nextEntry := by
  have hlast : ¬ (([] : List UInt8) ≠ [] ∨ (s.write (translation c)).i = entries.length - 1) := by
    rw [(agrees_write s _).i, h.length, List.length_cons, List.length_cons]
    simp
  rw [turn, putEntry_of_fits hc]
  exact if_neg hlast

theorem AtHead.nextEntry {d : List UInt8} (h : AtHead entries gs g (c :: d :: rest) s)
    (hlt : s.p + (translation c).length < regexpSize) :
    ∃ s', (s.write (translation c)).nextEntry = .ok s' ∧
      AtHead entries gs (g ++ [c]) (d :: rest) s' ∧ s'.p = s.p + (translation c).length + 1 := by
  have hagrees := agrees_write s (translation c)
  have hp := write_p s (translation c)
  have hholds := (h.holds.write (translation c)).writeChar (ascii '|')
  rw [List.append_assoc, ← openAlternatives_append] at hholds
  refine ⟨_, nextEntry_eq (by omega), ⟨?_, h.nonempty, ?_, ?_, ⟨hholds.eq⟩, fun _ => rfl, ?_⟩, ?_⟩
  · rw [← h.split]
    simp
  · change (s.write (translation c)).i + 1 = _
    rw [hagrees.i, h.i]
    simp [Nat.add_assoc]
  · exact hagrees.round.trans h.round
  · exact hagrees.patterns.trans h.patterns
  · change (s.write (translation c)).p + 1 = _
    rw [hp]

theorem compile_of_le (h : regexpSize ≤ s.p + 1) : compile malloc s = .error .overrun := by
  unfold compile
  by_cases hp : s.p < regexpSize
  · rw [put_eq hp]
    change ((s.writeChar (ascii ')')).put 0 >>= _) = _
    rw [put_of_le (show regexpSize ≤ (s.writeChar (ascii ')')).p from h)]
    rfl
  · rw [put_of_le (by omega)]
    rfl

theorem compile_eq (hp : s.p + 1 < regexpSize) : compile malloc s =
    if malloc s.patterns.length then
      .ok { ((s.writeChar (ascii ')')).writeChar 0) with
        p := 2
        round := s.round + 1
        patterns := s.patterns ++ [((s.writeChar (ascii ')')).writeChar 0).pattern] }
    else .error (.returned s.patterns) := by
  unfold compile
  rw [put_eq (by omega)]
  change ((s.writeChar (ascii ')')).put 0 >>= _) = _
  rw [put_eq (show (s.writeChar (ascii ')')).p < regexpSize from hp)]
  rfl

theorem roundPatterns_append (gs : List (List (List UInt8))) (g : List (List UInt8)) :
    roundPatterns (gs ++ [g]) = roundPatterns gs ++ [roundPattern (gs.length + 1) g] := by
  simp [roundPatterns, List.mapIdx_append]

/-- The group `g` is complete, and the buffer is to be closed behind it. -/
structure AtEnd (entries : List (List UInt8)) (gs : List (List (List UInt8)))
    (g rest : List (List UInt8)) (s : UpdateState) : Prop where
  split : gs.flatten ++ g ++ rest = entries
  nonempty : ∀ h ∈ gs ++ [g], h ≠ []
  i : s.i = (gs.flatten ++ g).length
  round : s.round = gs.length + 1
  holds : s.Holds (alternatives g)
  patterns : s.patterns = roundPatterns gs

theorem zero_notMem_alternatives {g : List (List UInt8)} (h : ∀ c ∈ g, (0 : UInt8) ∉ c) :
    (0 : UInt8) ∉ alternatives g := by
  rcases List.eq_nil_or_concat' g with rfl | ⟨g, c, rfl⟩
  · decide
  rw [alternatives_append, List.mem_append, not_or]
  refine ⟨fun hmem => ?_, zero_notMem_translation (h c (by simp))⟩
  obtain ⟨d, hd, hmem⟩ := List.mem_flatMap.mp hmem
  rcases List.mem_append.mp hmem with hmem | hmem
  · exact zero_notMem_translation (h d (List.mem_append_left _ hd)) hmem
  · revert hmem
    decide

/-- The expression of a group is compiled, and the next round starts. -/
theorem AtEnd.compile (h : AtEnd entries gs g rest s) (hzero : ∀ c ∈ entries, (0 : UInt8) ∉ c)
    (hp : s.p + 1 < regexpSize) :
    if malloc gs.length then
      ∃ s', UpdateState.compile malloc s = .ok s' ∧ AtHead entries (gs ++ [g]) [] rest s'
    else UpdateState.compile malloc s = .error (.returned (roundPatterns gs)) := by
  have hg : (0 : UInt8) ∉ alternatives g := by
    refine zero_notMem_alternatives fun d hd => hzero d ?_
    rw [← h.split]
    exact List.mem_append_left _ (List.mem_append_right _ hd)
  have hclose := h.holds.writeChar (ascii ')')
  have hclose₀ : (0 : UInt8) ∉ alternatives g ++ [ascii ')'] := by
    rw [List.mem_append, not_or]
    exact ⟨hg, by decide⟩
  have hpattern := pattern_eq hclose hclose₀ (show s.p + 1 < regexpSize from hp)
  rw [compile_eq hp, hpattern, h.patterns, show (roundPatterns gs).length = gs.length from
    List.length_mapIdx]
  split_ifs
  · refine ⟨_, rfl, ⟨?_, h.nonempty, ?_, ?_, ⟨?_⟩, fun hne => absurd rfl hne, ?_⟩⟩
    · rw [← h.split]
      simp
    · change s.i = _
      rw [h.i]
      simp
    · change s.round + 1 = _
      rw [h.round, List.length_append]
      rfl
    · rw [← List.nil_append (alternatives g ++ _)] at hclose
      exact (hclose.goBack (agrees_writeChar (s.writeChar (ascii ')')) 0)).eq
    · rw [roundPatterns_append, ← h.round]
      rfl
  · rfl

/-- The last entry, when it fits. -/
theorem AtHead.turn_last (h : AtHead entries gs g [c] s) (hc : Fits s.p c) :
    turn malloc entries s c = compile malloc { s.write (translation c) with i := s.i + 1 } := by
  have hagrees := agrees_write s (translation c)
  have hlast : (s.write (translation c)).i = entries.length - 1 := by
    rw [hagrees.i, h.length]
    rfl
  rw [turn, putEntry_of_fits hc]
  refine (if_pos (.inr hlast)).trans ?_
  rw [closeAt, if_neg (not_not_intro rfl), hagrees.i]
  rfl

theorem AtHead.atEnd_last (h : AtHead entries gs g [c] s) :
    AtEnd entries gs (g ++ [c]) [] { s.write (translation c) with i := s.i + 1 } where
  split := by
    rw [← h.split]
    simp
  nonempty x hx := by
    rcases List.mem_append.mp hx with hx | hx
    · exact h.nonempty x hx
    · rw [List.mem_singleton.mp hx]
      simp
  i := by
    change s.i + 1 = _
    rw [h.i]
    simp [Nat.add_assoc]
  round := (agrees_write s _).round.trans h.round
  holds := by
    have hwrite := h.holds.write (translation c)
    rw [← alternatives_append] at hwrite
    exact ⟨hwrite.eq⟩
  patterns := (agrees_write s _).patterns.trans h.patterns

/-- An entry that does not fit after others. -/
theorem AtHead.turn_back (h : AtHead entries gs g (c :: rest) s) (hg : g ≠ []) (hc : ¬ Fits s.p c)
    (hp : s.p ≤ regexpSize) :
    ∃ s', Agrees s.p s s' ∧
      turn malloc entries s c = compile malloc { s' with p := s.p - 1 } := by
  obtain ⟨s', rest', heq, hne, hagrees, -⟩ := putEntry_of_not_fits hc hp
  refine ⟨s', hagrees, ?_⟩
  rw [turn, heq]
  refine (if_pos (.inl hne)).trans ?_
  rw [closeAt, if_pos hne, hagrees.backtrack, h.backtrack hg]
  rfl

theorem AtHead.atEnd_back (h : AtHead entries gs g rest s) (hg : g ≠ [])
    (hagrees : Agrees s.p s s') : AtEnd entries gs g rest { s' with p := s.p - 1 } where
  split := h.split
  nonempty x hx := by
    rcases List.mem_append.mp hx with hx | hx
    · exact h.nonempty x hx
    · rwa [List.mem_singleton.mp hx]
  i := hagrees.i.trans h.i
  round := hagrees.round.trans h.round
  holds := by
    have hlen := h.holds.p_eq
    have hholds := h.holds
    rw [openAlternatives_eq hg] at hlen hholds
    rw [List.length_append, List.length_singleton] at hlen
    have hback : s.p - 1 = (alternatives g).length + 2 := by omega
    rw [hback]
    exact hholds.goBack hagrees
  patterns := hagrees.patterns.trans h.patterns

/-- The loop ends in this way, if it is given enough turns. -/
def LoopsTo (malloc : ℕ → Bool) (entries : List (List UInt8)) (s : UpdateState)
    (r : Except UpdateExit (List (List RegexpCell))) : Prop :=
  ∃ fuel, loop malloc entries fuel s = some r

variable {r : Except UpdateExit (List (List RegexpCell))} {e : UpdateExit}

theorem LoopsTo.end (h : entries[s.i]? = none) : LoopsTo malloc entries s (.ok s.patterns) :=
  ⟨1, by simp only [loop, h]⟩

theorem LoopsTo.step_iff (hc : entries[s.i]? = some c) (h : turn malloc entries s c = .ok s') :
    LoopsTo malloc entries s r ↔ LoopsTo malloc entries s' r := by
  have hloop : ∀ n, loop malloc entries (n + 1) s = loop malloc entries n s' := fun n => by
    simp only [loop, hc, h]
  constructor
  · rintro ⟨fuel, hfuel⟩
    cases fuel with
    | zero => cases hfuel
    | succ n => exact ⟨n, (hloop n).symm.trans hfuel⟩
  · rintro ⟨fuel, hfuel⟩
    exact ⟨fuel + 1, (hloop fuel).trans hfuel⟩

theorem LoopsTo.error_iff (hc : entries[s.i]? = some c) (h : turn malloc entries s c = .error e) :
    LoopsTo malloc entries s r ↔ r = .error e := by
  have hloop : ∀ n, loop malloc entries (n + 1) s = some (.error e) := fun n => by
    simp only [loop, hc, h]
  constructor
  · rintro ⟨fuel, hfuel⟩
    cases fuel with
    | zero => cases hfuel
    | succ n => exact (Option.some.inj ((hloop n).symm.trans hfuel)).symm
  · rintro rfl
    exact ⟨1, hloop 0⟩

/-- All entries have been compiled in groups, or those before a failed allocation. -/
def Compiles (malloc : ℕ → Bool) (entries : List (List UInt8)) (s : UpdateState) : Prop :=
  ∃ gs : List (List (List UInt8)), (∀ g ∈ gs, g ≠ []) ∧
    ((gs.flatten = entries ∧ LoopsTo malloc entries s (.ok (roundPatterns gs))) ∨
      ((∃ k, malloc k = false) ∧ gs.flatten <+: entries ∧
        LoopsTo malloc entries s (.error (.returned (roundPatterns gs)))))

theorem Compiles.step (hc : entries[s.i]? = some c) (h : turn malloc entries s c = .ok s')
    (hs : Compiles malloc entries s') : Compiles malloc entries s := by
  obtain ⟨gs, hne, hgs⟩ := hs
  refine ⟨gs, hne, ?_⟩
  rw [LoopsTo.step_iff hc h, LoopsTo.step_iff hc h]
  exact hgs

theorem FillsWithin.of_not_fits {p : ℕ} (hc : ¬ Fits p c) (hc' : Fits 2 c)
    (h : FillsWithin p (c :: rest)) : p < regexpSize ∧ FillsWithin 2 (c :: rest) := by
  obtain ⟨hp, hlast, hrest⟩ := h
  rw [if_neg hc] at hlast hrest
  refine ⟨hp.resolve_left hc, .inl hc', ?_, ?_⟩
  · rwa [if_pos hc']
  · rwa [if_pos hc']

theorem AtHead.p_eq_two (h : AtHead entries gs [] rest s) : s.p = 2 := h.holds.p_eq

/-- A group has been compiled, or its allocation has failed. -/
theorem AtEnd.compiles {t : UpdateState} (h : AtEnd entries gs g rest t)
    (hc : entries[s.i]? = some c) (hturn : turn malloc entries s c = UpdateState.compile malloc t)
    (hzero : ∀ c ∈ entries, (0 : UInt8) ∉ c) (hp : t.p + 1 < regexpSize)
    (hnext : ∀ s', AtHead entries (gs ++ [g]) [] rest s' → Compiles malloc entries s') :
    Compiles malloc entries s := by
  have hcompile : if malloc gs.length then _ else _ := h.compile hzero hp
  split_ifs at hcompile with hmalloc
  · obtain ⟨s', heq, h'⟩ := hcompile
    exact Compiles.step hc (hturn.trans heq) (hnext s' h')
  · have hne : ∀ x ∈ gs, x ≠ [] := fun x hx => h.nonempty x (List.mem_append_left _ hx)
    refine ⟨gs, hne, .inr ⟨⟨gs.length, by simpa using hmalloc⟩, ?_, ?_⟩⟩
    · rw [← h.split, List.append_assoc]
      exact List.prefix_append _ _
    · exact (LoopsTo.error_iff hc (hturn.trans hcompile)).mpr rfl

/-- Entries that fit into the empty buffer are compiled, as long as the fill levels stay within
it. -/
theorem AtHead.compiles (hzero : ∀ c ∈ entries, (0 : UInt8) ∉ c) (h : AtHead entries gs g rest s)
    (hend : rest = [] → g = []) (hfits : ∀ c ∈ rest, Fits 2 c) (hfill : FillsWithin s.p rest) :
    Compiles malloc entries s := by
  induction rest generalizing gs g s with
  | nil =>
    obtain rfl := hend rfl
    have hloop : LoopsTo malloc entries s (.ok s.patterns) := .end (h.getElem?.trans rfl)
    refine ⟨gs, h.nonempty, .inl ⟨?_, h.patterns ▸ hloop⟩⟩
    rw [← h.split]
    simp
  | cons c rest ih =>
    -- an entry that fits where it is
    have hhere : ∀ {gs g s}, AtHead entries gs g (c :: rest) s → Fits s.p c →
        FillsWithin s.p (c :: rest) → Compiles malloc entries s := by
      intro gs g s h hc hfill
      obtain ⟨-, hlast, hrest⟩ := hfill
      rw [if_pos hc] at hlast hrest
      cases rest with
      | nil =>
        rw [if_pos rfl, ← write_p] at hlast
        exact h.atEnd_last.compiles (h.getElem?.trans rfl) (h.turn_last hc) hzero hlast
          fun s' h' => ih h' (fun _ => rfl) (by simp) trivial
      | cons d rest =>
        rw [if_neg (List.cons_ne_nil d rest)] at hlast
        obtain ⟨s', heq, h', hp⟩ := h.nextEntry hlast
        refine Compiles.step (h.getElem?.trans rfl) ((h.turn_next hc).trans heq) ?_
        exact ih h' (fun hnil => by cases hnil) (fun x hx => hfits x (List.mem_cons_of_mem c hx))
          (hp ▸ hrest)
    have hc' := hfits c List.mem_cons_self
    by_cases hc : Fits s.p c
    · exact hhere h hc hfill
    -- the round is closed before the entry, and has one, since the entry fits into the empty buffer
    obtain ⟨hp, hfill'⟩ := FillsWithin.of_not_fits hc hc' hfill
    have hg : g ≠ [] := by
      rintro rfl
      exact hc (h.p_eq_two ▸ hc')
    obtain ⟨s', hagrees, hturn⟩ := h.turn_back hg hc hp.le
    have hpos := h.holds.p_eq
    have hlt : s.p - 1 + 1 < regexpSize := by omega
    exact (h.atEnd_back hg hagrees).compiles (h.getElem?.trans rfl) hturn hzero hlt
      fun s' h' => hhere h' (h'.p_eq_two ▸ hc') (h'.p_eq_two ▸ hfill')

theorem atHead_start (entries : List (List UInt8)) : AtHead entries [] [] entries updateStart where
  split := rfl
  nonempty := by simp
  i := rfl
  round := rfl
  holds := ⟨rfl⟩
  backtrack h := absurd rfl h
  patterns := rfl

end UpdateState

end ZendOpcache
