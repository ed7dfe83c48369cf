import ZendOpcache.Blacklist.UpdateRegexp

/-! # The translation of an entry

What the inner loop writes for a whole entry, and when it gets to the end of it: each part must
start before `end`. Since a part has at most five characters, the loop itself never
writes behind the buffer.
-/

namespace ZendOpcache

/-- The parts of the translation, with a bound on their number. -/
def regexpParts : ℕ → List UInt8 → List (List UInt8)
  | 0, _ => []
  | n + 1, c => if c = [] then [] else (regexpStep c).1 :: regexpParts n (regexpStep c).2

/-- The regular expression of an entry. -/
def translation (c : List UInt8) : List UInt8 := (regexpParts c.length c).flatten

/-- How far behind the start of the translation its last part starts. -/
def lastStart (c : List UInt8) : ℕ := (regexpParts c.length c).dropLast.flatten.length

/-- The entry is translated to its end, from this position of the buffer on. -/
def Fits (p : ℕ) (c : List UInt8) : Prop :=
  c = [] ∨ (p + c.length < regexpEnd ∧ p + lastStart c < regexpEnd)

instance (p : ℕ) (c : List UInt8) : Decidable (Fits p c) := inferInstanceAs (Decidable (_ ∨ _))

variable {c w : List UInt8} {n p q : ℕ}

theorem Fits.mono (h : Fits q c) (hpq : p ≤ q) : Fits p c := by
  rcases h with h | ⟨h, h'⟩
  · exact .inl h
  · exact .inr ⟨by omega, by omega⟩

/-- What one turn of the inner loop does, by the first characters of what is left. -/
theorem regexpStep_cases (x : UInt8) (c : List UInt8) :
    (x = ascii '?' ∧ regexpStep (x :: c) = (['[', '^', '/', ']'].map ascii, c)) ∨
    (x = ascii '*' ∧ ∃ d, c = ascii '*' :: d ∧ regexpStep (x :: c) = (['.', '*'].map ascii, d)) ∨
    (x = ascii '*' ∧ (∀ d, c ≠ ascii '*' :: d) ∧
      regexpStep (x :: c) = (['[', '^', '/', ']', '*'].map ascii, c)) ∨
    (x ∈ escaped ∧ regexpStep (x :: c) = ([ascii '\\', x], c)) ∨
    (x ≠ ascii '?' ∧ x ≠ ascii '*' ∧ x ∉ escaped ∧ regexpStep (x :: c) = ([x], c)) := by
  by_cases hq : x = ascii '?'
  · exact .inl ⟨hq, if_pos hq⟩
  refine .inr ?_
  by_cases hs : x = ascii '*'
  · subst hs
    cases c with
    | nil => exact .inr (.inl ⟨rfl, by simp, rfl⟩)
    | cons y d =>
      by_cases hy : y = ascii '*'
      · subst hy
        exact .inl ⟨rfl, d, rfl, rfl⟩
      · refine .inr (.inl ⟨rfl, by simp [hy], ?_⟩)
        simp only [regexpStep, if_neg hq, if_neg hy, if_true]
  · refine .inr (.inr ?_)
    by_cases he : x ∈ escaped
    · refine .inl ⟨he, ?_⟩
      simp only [regexpStep, if_neg hq, if_neg hs, if_pos he]
    · refine .inr ⟨hq, hs, he, ?_⟩
      simp only [regexpStep, if_neg hq, if_neg hs, if_neg he]

theorem regexpStep_length (h : c ≠ []) : (regexpStep c).2.length < c.length := by
  obtain ⟨x, c, rfl⟩ := List.exists_cons_of_ne_nil h
  rcases regexpStep_cases x c with ⟨-, heq⟩ | ⟨-, d, rfl, heq⟩ | ⟨-, -, heq⟩ | ⟨-, heq⟩ |
    ⟨-, -, -, heq⟩ <;> simp only [heq, List.length_cons] <;> omega

/-- A part has at least one character and at most five. -/
theorem regexpStep_bounds (h : c ≠ []) :
    0 < (regexpStep c).1.length ∧ (regexpStep c).1.length ≤ 5 := by
  obtain ⟨x, c, rfl⟩ := List.exists_cons_of_ne_nil h
  rcases regexpStep_cases x c with ⟨-, heq⟩ | ⟨-, d, rfl, heq⟩ | ⟨-, -, heq⟩ | ⟨-, heq⟩ |
    ⟨-, -, -, heq⟩ <;> simp [heq]

theorem regexpStep_suffix (c : List UInt8) : (regexpStep c).2 <:+ c := by
  cases c with
  | nil => exact List.suffix_rfl
  | cons x c =>
    rcases regexpStep_cases x c with ⟨-, heq⟩ | ⟨-, d, rfl, heq⟩ | ⟨-, -, heq⟩ | ⟨-, heq⟩ |
      ⟨-, -, -, heq⟩ <;> rw [heq]
    case inr.inl => exact ⟨[x, ascii '*'], rfl⟩
    all_goals exact List.suffix_cons x c

theorem zero_notMem_regexpStep (h : (0 : UInt8) ∉ c) : (0 : UInt8) ∉ (regexpStep c).1 := by
  cases c with
  | nil => exact List.not_mem_nil
  | cons x c =>
    have hx : (0 : UInt8) ≠ x := fun hx => h (hx ▸ List.mem_cons_self)
    rcases regexpStep_cases x c with ⟨-, heq⟩ | ⟨-, d, rfl, heq⟩ | ⟨-, -, heq⟩ | ⟨-, heq⟩ |
      ⟨-, -, -, heq⟩ <;> rw [heq]
    case inl | inr.inl | inr.inr.inl =>
      dsimp only
      decide
    case inr.inr.inr.inl =>
      have hbackslash : (0 : UInt8) ≠ ascii '\\' := by decide
      simp [hx, hbackslash]
    case inr.inr.inr.inr => simpa using hx

/-- The bound on the number of parts does not matter. -/
theorem regexpParts_eq (h : c.length ≤ n) : regexpParts n c = regexpParts c.length c := by
  induction n using Nat.strongRecOn generalizing c with
  | _ n ih =>
    cases c with
    | nil => cases n <;> simp [regexpParts]
    | cons x c =>
      have hstep := regexpStep_length (List.cons_ne_nil x c)
      rw [List.length_cons] at h hstep
      obtain ⟨n, rfl⟩ : ∃ k, n = k + 1 := ⟨n - 1, by omega⟩
      rw [List.length_cons, regexpParts, regexpParts, if_neg (List.cons_ne_nil x c),
        if_neg (List.cons_ne_nil x c), ih n (by omega) (by omega),
        ih c.length (by omega) (by omega)]

theorem regexpParts_cons (h : c ≠ []) :
    regexpParts c.length c =
      (regexpStep c).1 :: regexpParts (regexpStep c).2.length (regexpStep c).2 := by
  have hstep := regexpStep_length h
  obtain ⟨k, hk⟩ : ∃ k, c.length = k + 1 := ⟨c.length - 1, by omega⟩
  rw [hk, regexpParts, if_neg h, regexpParts_eq (show _ ≤ k by omega)]

@[simp] theorem translation_nil : translation [] = [] := rfl

theorem translation_cons (h : c ≠ []) :
    translation c = (regexpStep c).1 ++ translation (regexpStep c).2 := by
  rw [translation, regexpParts_cons h, List.flatten_cons, translation]

theorem regexpParts_ne_nil (h : c ≠ []) : regexpParts c.length c ≠ [] := by
  rw [regexpParts_cons h]
  exact List.cons_ne_nil _ _

theorem lastStart_cons (h : c ≠ []) (h' : (regexpStep c).2 ≠ []) :
    lastStart c = (regexpStep c).1.length + lastStart (regexpStep c).2 := by
  rw [lastStart, regexpParts_cons h, List.dropLast_cons_of_ne_nil (regexpParts_ne_nil h'),
    List.flatten_cons, List.length_append, lastStart]

theorem lastStart_of_last (h : c ≠ []) (h' : (regexpStep c).2 = []) : lastStart c = 0 := by
  rw [lastStart, regexpParts_cons h, h']
  rfl

/-- The translation ends at most five characters behind the start of its last part. -/
theorem length_translation_le (c : List UInt8) : (translation c).length ≤ lastStart c + 5 := by
  induction hn : c.length using Nat.strongRecOn generalizing c with
  | _ n ih =>
    by_cases hc : c = []
    · simp [hc]
    have hstep := regexpStep_length hc
    have hbounds := regexpStep_bounds hc
    rw [translation_cons hc, List.length_append]
    by_cases hrest : (regexpStep c).2 = []
    · rw [hrest, translation_nil, List.length_nil]
      omega
    · have hle := ih _ (hn ▸ hstep) _ rfl
      rw [lastStart_cons hc hrest]
      omega

theorem zero_notMem_translation (h : (0 : UInt8) ∉ c) : (0 : UInt8) ∉ translation c := by
  induction hn : c.length using Nat.strongRecOn generalizing c with
  | _ n ih =>
    by_cases hc : c = []
    · simp [hc]
    rw [translation_cons hc, List.mem_append, not_or]
    refine ⟨zero_notMem_regexpStep h, ?_⟩
    exact ih _ (hn ▸ regexpStep_length hc) (fun hmem => h ((regexpStep_suffix c).mem hmem)) rfl

namespace UpdateState

variable {s s' : UpdateState}

/-- A character, written where there is room for it. -/
def writeChar (s : UpdateState) (x : UInt8) : UpdateState :=
  { s with cells := Function.update s.cells s.p (some (x, s.round)), p := s.p + 1 }

/-- A list of characters, written where there is room for it. -/
def write (s : UpdateState) (w : List UInt8) : UpdateState := w.foldl writeChar s

/-- What is in the buffer before `p`. -/
def upTo (s : UpdateState) : List RegexpCell := (List.range s.p).map s.cells

@[simp] theorem length_upTo (s : UpdateState) : s.upTo.length = s.p := by simp [upTo]

@[simp] theorem write_nil (s : UpdateState) : s.write [] = s := rfl

theorem write_append (s : UpdateState) (w w' : List UInt8) :
    s.write (w ++ w') = (s.write w).write w' :=
  List.foldl_append

@[simp] theorem write_p (s : UpdateState) (w : List UInt8) : (s.write w).p = s.p + w.length := by
  induction w generalizing s with
  | nil => rfl
  | cons x w ih =>
    rw [List.length_cons, ← Nat.add_assoc, Nat.add_right_comm]
    exact ih _

/-- Two states that differ only in what is in the buffer from a position on. -/
structure Agrees (p : ℕ) (s s' : UpdateState) : Prop where
  i : s'.i = s.i
  round : s'.round = s.round
  backtrack : s'.backtrack = s.backtrack
  patterns : s'.patterns = s.patterns
  cells : ∀ k < p, s'.cells k = s.cells k

theorem Agrees.refl (p : ℕ) (s : UpdateState) : Agrees p s s := ⟨rfl, rfl, rfl, rfl, fun _ _ => rfl⟩

theorem Agrees.trans {s'' : UpdateState} (h : Agrees p s s') (h' : Agrees q s' s'') (hpq : p ≤ q) :
    Agrees p s s'' where
  i := h'.i.trans h.i
  round := h'.round.trans h.round
  backtrack := h'.backtrack.trans h.backtrack
  patterns := h'.patterns.trans h.patterns
  cells k hk := (h'.cells k (hk.trans_le hpq)).trans (h.cells k hk)

theorem agrees_writeChar (s : UpdateState) (x : UInt8) : Agrees s.p s (s.writeChar x) :=
  ⟨rfl, rfl, rfl, rfl, fun _ hk => Function.update_of_ne hk.ne _ _⟩

theorem agrees_write (s : UpdateState) (w : List UInt8) : Agrees s.p s (s.write w) := by
  induction w generalizing s with
  | nil => exact .refl _ s
  | cons x w ih => exact (agrees_writeChar s x).trans (ih _) (Nat.le_succ _)

theorem upTo_writeChar (s : UpdateState) (x : UInt8) :
    (s.writeChar x).upTo = s.upTo ++ [some (x, s.round)] := by
  have hlast : (s.writeChar x).cells s.p = some (x, s.round) := Function.update_self _ _ _
  have hp : (s.writeChar x).p = s.p + 1 := rfl
  rw [upTo, hp, List.range_succ, List.map_append, List.map_singleton, hlast, upTo]
  refine congrArg (· ++ _) (List.map_congr_left fun k hk => ?_)
  exact (agrees_writeChar s x).cells k (List.mem_range.mp hk)

theorem upTo_write (s : UpdateState) (w : List UInt8) :
    (s.write w).upTo = s.upTo ++ w.map fun x => some (x, s.round) := by
  induction w generalizing s with
  | nil => simp
  | cons x w ih =>
    have hrest := ih (s.writeChar x)
    rw [upTo_writeChar, List.append_assoc] at hrest
    exact hrest

theorem put_eq (h : s.p < regexpSize) (x : UInt8) : s.put x = .ok (s.writeChar x) := if_pos h

theorem put_of_le (h : regexpSize ≤ s.p) (x : UInt8) : s.put x = .error .overrun :=
  if_neg (by omega)

theorem puts_eq (h : s.p + w.length ≤ regexpSize) : s.puts w = .ok (s.write w) := by
  induction w generalizing s with
  | nil => rfl
  | cons x w ih =>
    rw [List.length_cons] at h
    have hp : (s.writeChar x).p = s.p + 1 := rfl
    rw [puts, List.foldlM_cons, put_eq (by omega)]
    exact ih (by omega)

/-- The inner loop gets to the end of an entry that fits. -/
theorem translate_of_lt (hn : c.length ≤ n) (h : c = [] ∨ s.p + lastStart c < regexpEnd) :
    s.translate n c = .ok (s.write (translation c), []) := by
  induction n generalizing s c with
  | zero =>
    have hc : c = [] := List.length_eq_zero_iff.mp (by omega)
    subst hc
    rfl
  | succ n ih =>
    by_cases hc : c = []
    · subst hc
      rfl
    have hlast := h.resolve_left hc
    have hstep := regexpStep_length hc
    have hbounds := regexpStep_bounds hc
    have hend : regexpEnd = 12279 := rfl
    have hsize : regexpSize = 12288 := rfl
    have hputs : s.puts (regexpStep c).1 = .ok (s.write (regexpStep c).1) := puts_eq (by omega)
    have hrest : (regexpStep c).2 = [] ∨
        (s.write (regexpStep c).1).p + lastStart (regexpStep c).2 < regexpEnd := by
      by_cases hr : (regexpStep c).2 = []
      · exact .inl hr
      · rw [lastStart_cons hc hr] at hlast
        rw [write_p]
        exact .inr (by omega)
    rw [translate, if_pos ⟨hc, by omega⟩, hputs, translation_cons hc, write_append]
    exact ih (by omega) hrest

/-- Otherwise it stops before the end, and behind what was there before. -/
theorem translate_of_le (hn : c.length ≤ n) (hc : c ≠ []) (h : regexpEnd ≤ s.p + lastStart c)
    (hs : s.p ≤ regexpSize) :
    ∃ s' rest, s.translate n c = .ok (s', rest) ∧ rest ≠ [] ∧ Agrees s.p s s' ∧ s.p ≤ s'.p := by
  induction n generalizing s c with
  | zero => exact absurd (List.length_eq_zero_iff.mp (by omega)) hc
  | succ n ih =>
    have hstep := regexpStep_length hc
    have hbounds := regexpStep_bounds hc
    have hend : regexpEnd = 12279 := rfl
    have hsize : regexpSize = 12288 := rfl
    by_cases hp : s.p < regexpEnd
    · have hr : (regexpStep c).2 ≠ [] := by
        intro hr
        rw [lastStart_of_last hc hr] at h
        omega
      have hputs : s.puts (regexpStep c).1 = .ok (s.write (regexpStep c).1) := puts_eq (by omega)
      have hwrite := write_p s (regexpStep c).1
      rw [lastStart_cons hc hr] at h
      obtain ⟨s', rest, heq, hne, hagrees, hle⟩ :=
        ih (s := s.write (regexpStep c).1) (by omega) hr (by omega) (by omega)
      refine ⟨s', rest, ?_, hne, (agrees_write s _).trans hagrees (by omega), by omega⟩
      rw [translate, if_pos ⟨hc, hp⟩, hputs]
      exact heq
    · refine ⟨s, c, ?_, hc, .refl _ s, le_rfl⟩
      rw [translate, if_neg fun hlt => hp hlt.2]

end UpdateState

end ZendOpcache
