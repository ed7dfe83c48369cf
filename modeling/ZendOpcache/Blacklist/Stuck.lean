import ZendOpcache.Blacklist.Rounds

/-! # Entries that are never got past

An entry that does not fit into the empty buffer ends the outer loop with a write through the null
pointer, or keeps it at that entry for good. With that, `zend_accel_blacklist_update_regexp`
compiles the whole list if and only if every entry fits and the bars of empty entries stay in the
buffer.
-/

namespace ZendOpcache

namespace UpdateState

variable {entries g rest : List (List UInt8)} {gs : List (List (List UInt8))} {malloc : ℕ → Bool}
  {s s' : UpdateState} {c : List UInt8} {k : ℕ} {r : Except UpdateExit (List (List RegexpCell))}

/-- How the end of a round may go. -/
theorem compile_cases (malloc : ℕ → Bool) (s : UpdateState) :
    compile malloc s = .error .overrun ∨
      (malloc s.patterns.length = false ∧ compile malloc s = .error (.returned s.patterns)) ∨
      ∃ s', compile malloc s = .ok s' ∧ s'.p = 2 ∧ s'.i = s.i := by
  by_cases hlt : s.p + 1 < regexpSize
  · rw [compile_eq hlt]
    cases malloc s.patterns.length with
    | false => exact .inr (.inl ⟨rfl, rfl⟩)
    | true => exact .inr (.inr ⟨_, rfl, rfl, rfl⟩)
  · exact .inl (compile_of_le (by omega))

/-- How a turn may go. -/
theorem turn_cases (malloc : ℕ → Bool) (entries : List (List UInt8)) (c : List UInt8)
    (hp : s.p ≤ regexpSize) :
    (Fits s.p c ∧ turn malloc entries s c = (s.write (translation c)).nextEntry) ∨
      (∃ t, t.i = s.i + 1 ∧ Fits s.p c ∧ turn malloc entries s c = compile malloc t) ∨
      (¬ Fits s.p c ∧ (turn malloc entries s c = .error .nullPointer ∨
        ∃ t, t.i = s.i ∧ turn malloc entries s c = compile malloc t)) := by
  by_cases hc : Fits s.p c
  · have hturn : turn malloc entries s c =
        if (([] : List UInt8) ≠ [] ∨ (s.write (translation c)).i = entries.length - 1) then
          closeAt (s.write (translation c)) [] >>= compile malloc
        else (s.write (translation c)).nextEntry := by
      rw [turn, putEntry_of_fits hc]
      rfl
    by_cases hlast : ([] : List UInt8) ≠ [] ∨ (s.write (translation c)).i = entries.length - 1
    · refine .inr (.inl ⟨{ s.write (translation c) with i := (s.write (translation c)).i + 1 },
        congrArg (· + 1) (agrees_write s _).i, hc, ?_⟩)
      rw [hturn, if_pos hlast]
      rfl
    · exact .inl ⟨hc, hturn.trans (if_neg hlast)⟩
  · obtain ⟨t, rest, heq, hne, hagrees, -⟩ := putEntry_of_not_fits hc hp
    refine .inr (.inr ⟨hc, ?_⟩)
    have hturn : turn malloc entries s c = (t.closeAt rest >>= compile malloc) := by
      rw [turn, heq]
      exact if_pos (.inl hne)
    rw [hturn, closeAt, if_pos hne]
    cases t.backtrack with
    | none => exact .inl rfl
    | some q => exact .inr ⟨{ t with p := q, backtrack := some q }, hagrees.i, rfl⟩

/-- What a turn does to the number of the entry. -/
theorem turn_ok (hp : 2 ≤ s.p) (hp' : s.p ≤ regexpSize) (h : turn malloc entries s c = .ok s') :
    (2 ≤ s'.p ∧ s'.p ≤ regexpSize) ∧ (s'.i = s.i ∨ (s'.i = s.i + 1 ∧ Fits s.p c)) := by
  have hsize : 2 ≤ regexpSize := by decide
  have hcompile : ∀ {t}, compile malloc t = .ok s' → s'.p = 2 ∧ s'.i = t.i := by
    intro t ht
    rcases compile_cases malloc t with heq | ⟨-, heq⟩ | ⟨t', heq, hp₁, hi⟩
    · cases heq.symm.trans ht
    · cases heq.symm.trans ht
    · cases heq.symm.trans ht
      exact ⟨hp₁, hi⟩
  rcases turn_cases malloc entries c hp' with ⟨hc, heq⟩ | ⟨t, hi, hc, heq⟩ | ⟨-, heq | ⟨t, hi, heq⟩⟩
  · have hwrite := write_p s (translation c)
    rw [heq] at h
    by_cases hlt : (s.write (translation c)).p < regexpSize
    · rw [nextEntry_eq hlt] at h
      cases h
      refine ⟨⟨?_, hlt⟩, .inr ⟨congrArg (· + 1) (agrees_write s _).i, hc⟩⟩
      change 2 ≤ (s.write (translation c)).p + 1
      omega
    · rw [nextEntry_of_le (Nat.le_of_not_lt hlt)] at h
      cases h
  · obtain ⟨hp₁, hi'⟩ := hcompile (heq.symm.trans h)
    exact ⟨by omega, .inr ⟨hi'.trans hi, hc⟩⟩
  · cases heq.symm.trans h
  · obtain ⟨hp₁, hi'⟩ := hcompile (heq.symm.trans h)
    exact ⟨by omega, .inl (hi'.trans hi)⟩

/-- As long as there is memory, the function does not return early. -/
theorem turn_error {ps : List (List RegexpCell)} (hmalloc : ∀ k, malloc k = true)
    (hp : s.p ≤ regexpSize) : turn malloc entries s c ≠ .error (.returned ps) := by
  intro h
  have hcompile : ∀ t, compile malloc t ≠ .error (.returned ps) := by
    intro t ht
    rcases compile_cases malloc t with heq | ⟨hfalse, -⟩ | ⟨t', heq, -⟩
    · cases heq.symm.trans ht
    · cases hfalse.symm.trans (hmalloc _)
    · cases heq.symm.trans ht
  rcases turn_cases malloc entries c hp with ⟨-, heq⟩ | ⟨t, -, -, heq⟩ | ⟨-, heq | ⟨t, -, heq⟩⟩
  · rw [heq] at h
    by_cases hlt : (s.write (translation c)).p < regexpSize
    · rw [nextEntry_eq hlt] at h
      cases h
    · rw [nextEntry_of_le (Nat.le_of_not_lt hlt)] at h
      cases h
  · exact hcompile t (heq.symm.trans h)
  · cases heq.symm.trans h
  · exact hcompile t (heq.symm.trans h)

/-- The function does not come to an end in the normal way, nor for want of memory. -/
def Fails (malloc : ℕ → Bool) (entries : List (List UInt8)) (s : UpdateState) : Prop :=
  ∀ ps, ¬ LoopsTo malloc entries s (.ok ps) ∧ ¬ LoopsTo malloc entries s (.error (.returned ps))

/-- The loop does not get past an entry that does not fit into the empty buffer. -/
theorem fails_of_not_fits (hmalloc : ∀ k, malloc k = true) (hc : entries[k]? = some c)
    (hfits : ¬ Fits 2 c) (hi : s.i ≤ k) (hp : 2 ≤ s.p) (hp' : s.p ≤ regexpSize) :
    Fails malloc entries s := by
  have hrun : ∀ fuel (s : UpdateState), s.i ≤ k → 2 ≤ s.p → s.p ≤ regexpSize → ∀ ps,
      loop malloc entries fuel s ≠ some (.ok ps) ∧
        loop malloc entries fuel s ≠ some (.error (.returned ps)) := by
    intro fuel
    induction fuel with
    | zero => exact fun s _ _ _ ps => ⟨fun h => (by cases h), fun h => (by cases h)⟩
    | succ n ih =>
      intro s hi hp hp' ps
      obtain ⟨d, hd⟩ : ∃ d, entries[s.i]? = some d :=
        ⟨_, List.getElem?_eq_getElem (hi.trans_lt (List.getElem?_eq_some_iff.mp hc).1)⟩
      simp only [loop, hd]
      cases hturn : turn malloc entries s d with
      | error e =>
        refine ⟨fun h => (by cases h), fun h => ?_⟩
        cases h
        exact turn_error hmalloc hp' hturn
      | ok s' =>
        obtain ⟨⟨hq, hq'⟩, hi'⟩ := turn_ok hp hp' hturn
        have hle : s'.i ≤ k := by
          rcases hi' with hi' | ⟨hi', hd'⟩
          · omega
          · rcases Nat.lt_or_ge s.i k with hlt | hge
            · omega
            · obtain rfl : s.i = k := by omega
              rw [hc] at hd
              cases hd
              exact absurd (hd'.mono hp) hfits
        exact ih s' hle hq hq' ps
  intro ps
  constructor
  · rintro ⟨fuel, h⟩
    exact (hrun fuel s hi hp hp' ps).1 h
  · rintro ⟨fuel, h⟩
    exact (hrun fuel s hi hp hp' ps).2 h

theorem Fails.step (hc : entries[s.i]? = some c) (h : turn malloc entries s c = .ok s')
    (hs : Fails malloc entries s') : Fails malloc entries s := by
  intro ps
  rw [LoopsTo.step_iff hc h, LoopsTo.step_iff hc h]
  exact hs ps

theorem Fails.overrun (hc : entries[s.i]? = some c)
    (h : turn malloc entries s c = .error .overrun) : Fails malloc entries s := by
  intro ps
  rw [LoopsTo.error_iff hc h, LoopsTo.error_iff hc h]
  exact ⟨fun h => (by cases h), fun h => (by cases h)⟩

theorem FillsWithin.of_fits {p : ℕ} (hc' : Fits 2 c) (hc : ¬ Fits p c) (hp : p < regexpSize)
    (h : FillsWithin 2 (c :: rest)) : FillsWithin p (c :: rest) := by
  obtain ⟨-, hlast, hrest⟩ := h
  rw [if_pos hc'] at hlast hrest
  refine ⟨.inr hp, ?_, ?_⟩
  · rwa [if_neg hc]
  · rwa [if_neg hc]

/-- Bars of empty entries that do not stay in the buffer are written behind it. -/
theorem AtHead.fails_of_not_fills (hzero : ∀ c ∈ entries, (0 : UInt8) ∉ c)
    (hmalloc : ∀ k, malloc k = true) (h : AtHead entries gs g rest s)
    (hfits : ∀ c ∈ rest, Fits 2 c) (hp : s.p ≤ regexpSize) (hfill : ¬ FillsWithin s.p rest) :
    Fails malloc entries s := by
  induction rest generalizing gs g s with
  | nil => exact absurd trivial hfill
  | cons c rest ih =>
    -- an entry that fits where it is
    have hhere : ∀ {gs g s}, AtHead entries gs g (c :: rest) s → Fits s.p c → s.p ≤ regexpSize →
        ¬ FillsWithin s.p (c :: rest) → Fails malloc entries s := by
      intro gs g s h hc hp hfill
      have hwrite := write_p s (translation c)
      rw [FillsWithin, if_pos hc] at hfill
      cases rest with
      | nil =>
        refine Fails.overrun (h.getElem?.trans rfl) ((h.turn_last hc).trans (compile_of_le ?_))
        by_contra hlt
        refine hfill ⟨.inl hc, ?_, trivial⟩
        rw [if_pos rfl, ← hwrite]
        exact Nat.lt_of_not_le hlt
      | cons d rest =>
        rw [if_neg (List.cons_ne_nil d rest)] at hfill
        by_cases hlt : s.p + (translation c).length < regexpSize
        · obtain ⟨s', heq, h', hp'⟩ := h.nextEntry hlt
          refine Fails.step (h.getElem?.trans rfl) ((h.turn_next hc).trans heq) ?_
          refine ih h' (fun x hx => hfits x (List.mem_cons_of_mem c hx)) (by omega) fun hrest => ?_
          exact hfill ⟨.inl hc, hlt, hp' ▸ hrest⟩
        · refine Fails.overrun (h.getElem?.trans rfl) ((h.turn_next hc).trans ?_)
          exact nextEntry_of_le (by omega)
    have hc' := hfits c List.mem_cons_self
    by_cases hc : Fits s.p c
    · exact hhere h hc hp hfill
    have hg : g ≠ [] := by
      rintro rfl
      exact hc (h.p_eq_two ▸ hc')
    obtain ⟨s', hagrees, hturn⟩ := h.turn_back hg hc hp
    have hpos := h.holds.p_eq
    by_cases hlt : s.p < regexpSize
    · have hclosed : s.p - 1 + 1 < regexpSize := by omega
      have hcompile : if malloc gs.length then _ else _ :=
        (h.atEnd_back hg hagrees).compile hzero hclosed
      rw [if_pos (hmalloc _)] at hcompile
      obtain ⟨t, heq, ht⟩ := hcompile
      refine Fails.step (h.getElem?.trans rfl) (hturn.trans heq) (hhere ht ?_ ?_ fun hfill' => ?_)
      · exact ht.p_eq_two ▸ hc'
      · exact ht.p_eq_two ▸ (show 2 ≤ regexpSize by decide)
      · exact hfill (FillsWithin.of_fits hc' hc hlt (ht.p_eq_two ▸ hfill'))
    · refine Fails.overrun (h.getElem?.trans rfl) (hturn.trans (compile_of_le ?_))
      change regexpSize ≤ s.p - 1 + 1
      omega

end UpdateState

open UpdateState

variable {entries : List (List UInt8)} {c : List UInt8}

/-- The patterns have no character of an earlier round behind their head. -/
def CleanPatterns (ps : List (List RegexpCell)) : Prop :=
  ∀ k x, ps[k]? = some x → ∀ cell ∈ x.drop 2, ∃ b, cell = some (b, k + 1)

/-- The function comes to an end without a fault, and all that it compiles is of one round. -/
def UpdatesCleanly (malloc : ℕ → Bool) (entries : List (List UInt8)) : Prop :=
  ∃ fuel ps, (zendAccelBlacklistUpdateRegexp malloc fuel entries = some (.ok ps) ∨
    zendAccelBlacklistUpdateRegexp malloc fuel entries = some (.error (.returned ps))) ∧
    CleanPatterns ps

theorem cleanPatterns_roundPatterns (gs : List (List (List UInt8))) :
    CleanPatterns (roundPatterns gs) := by
  intro k x hx cell hcell
  rw [roundPatterns, List.getElem?_mapIdx] at hx
  obtain ⟨g, -, rfl⟩ := Option.map_eq_some_iff.mp hx
  have hdrop : (roundPattern (k + 1) g).drop 2 =
      (alternatives g ++ [ascii ')']).map fun x => some (x, k + 1) := rfl
  rw [hdrop] at hcell
  obtain ⟨b, -, rfl⟩ := List.mem_map.mp hcell
  exact ⟨b, rfl⟩

/-- The list of entries is compiled without a fault, whatever memory there is, if and only if every
entry fits into the empty buffer and the bars of empty entries stay in it. -/
theorem updatesCleanly_iff (hzero : ∀ c ∈ entries, (0 : UInt8) ∉ c) :
    (∀ malloc, UpdatesCleanly malloc entries) ↔
      (∀ c ∈ entries, Fits 2 c) ∧ FillsWithin 2 entries := by
  have hp : updateStart.p = 2 := rfl
  constructor
  · intro h
    obtain ⟨fuel, ps, hps, -⟩ := h fun _ => true
    have hnot : ¬ Fails (fun _ => true) entries updateStart := by
      intro hfails
      rcases hps with hps | hps
      · exact (hfails ps).1 ⟨fuel, hps⟩
      · exact (hfails ps).2 ⟨fuel, hps⟩
    have hfits : ∀ c ∈ entries, Fits 2 c := by
      intro c hc
      by_contra hbad
      obtain ⟨k, hk⟩ := List.mem_iff_getElem?.mp hc
      exact hnot (fails_of_not_fits (fun _ => rfl) hk hbad (Nat.zero_le k) le_rfl (by decide))
    refine ⟨hfits, ?_⟩
    by_contra hfill
    exact hnot ((atHead_start entries).fails_of_not_fills hzero (fun _ => rfl) hfits
      (by decide) hfill)
  · rintro ⟨hfits, hfill⟩ malloc
    have hcompiles : Compiles malloc entries updateStart :=
      (atHead_start entries).compiles hzero (fun _ => rfl) hfits hfill
    obtain ⟨gs, -, hgs⟩ := hcompiles
    rcases hgs with ⟨-, fuel, hloop⟩ | ⟨-, -, fuel, hloop⟩
    · exact ⟨fuel, _, .inl hloop, cleanPatterns_roundPatterns gs⟩
    · exact ⟨fuel, _, .inr hloop, cleanPatterns_roundPatterns gs⟩

theorem updatesCleanly_iff_wildcards :
    (∀ malloc, UpdatesCleanly malloc [[47, 42, 42], [], [47, 63]]) ↔
      (∀ c ∈ [[47, 42, 42], [], [47, 63]], Fits 2 c) ∧ FillsWithin 2 [[47, 42, 42], [], [47, 63]] :=
  updatesCleanly_iff (by decide)

/-- The first entry is one that does not fit, and there is nothing to go back to. -/
theorem update_nullPointer (malloc : ℕ → Bool) (h : ¬ Fits 2 c) (n : ℕ) :
    zendAccelBlacklistUpdateRegexp malloc (n + 1) (c :: entries) =
      some (.error .nullPointer) := by
  obtain ⟨t, rest, heq, hne, hagrees, -⟩ :=
    putEntry_of_not_fits (s := updateStart) (c := c) h (by decide)
  have hturn : turn malloc (c :: entries) updateStart c = .error .nullPointer := by
    rw [turn, heq]
    refine (if_pos (.inl hne)).trans ?_
    rw [closeAt, if_pos hne, hagrees.backtrack]
    rfl
  have hentry : (c :: entries)[updateStart.i]? = some c := rfl
  simp only [zendAccelBlacklistUpdateRegexp, loop, hentry, hturn]

theorem lastStart_replicate (n : ℕ) :
    lastStart (List.replicate (n + 1) (ascii '?')) = 4 * n := by
  induction n with
  | zero => rfl
  | succ n ih =>
    have hstep : regexpStep (List.replicate (n + 2) (ascii '?')) =
        (['[', '^', '/', ']'].map ascii, List.replicate (n + 1) (ascii '?')) := rfl
    have hne : List.replicate (n + 2) (ascii '?') ≠ [] := by simp
    have hrest : (regexpStep (List.replicate (n + 2) (ascii '?'))).2 ≠ [] := by simp [hstep]
    rw [lastStart_cons hne hrest, hstep]
    change 4 + lastStart (List.replicate (n + 1) (ascii '?')) = _
    rw [ih]
    omega

/-- An entry of 3071 question marks. -/
theorem update_questionMarks :
    (0 : UInt8) ∉ List.replicate 3071 (ascii '?') ∧ ∀ malloc,
      zendAccelBlacklistUpdateRegexp malloc 1 [List.replicate 3071 (ascii '?')] =
        some (.error .nullPointer) ∧
      ¬ UpdatesCleanly malloc [List.replicate 3071 (ascii '?')] := by
  have hstart := lastStart_replicate 3070
  simp only [Nat.reduceAdd] at hstart
  have hfits : ¬ Fits 2 (List.replicate 3071 (ascii '?')) := by
    rintro (h | ⟨-, h⟩)
    · have hlen := congrArg List.length h
      rw [List.length_replicate, List.length_nil] at hlen
      omega
    · rw [hstart] at h
      exact absurd h (by decide)
  refine ⟨fun hmem => ?_, fun malloc => ⟨update_nullPointer malloc hfits 0, ?_⟩⟩
  · exact absurd (List.eq_of_mem_replicate hmem) (by decide)
  · rintro ⟨fuel, ps, hps, -⟩
    cases fuel with
    | zero => rcases hps with hps | hps <;> cases hps
    | succ n =>
      rw [update_nullPointer malloc hfits n] at hps
      rcases hps with hps | hps <;> cases hps

end ZendOpcache
