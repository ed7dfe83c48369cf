import ZendOpcache.Blacklist.Ere
import ZendOpcache.Blacklist.Rounds

/-! # What the blacklist matches

The wildcards of an entry have a meaning of their own, and the translation of an entry is an
expression with that meaning. However the entries are divided into rounds, a path is
blacklisted if and only if one of its prefixes matches an entry.
-/

namespace ZendOpcache

/-- An entry matches a text. Two stars are taken together where they can be. -/
inductive GlobMatches : List UInt8 → List UInt8 → Prop
  | nil : GlobMatches [] []
  | one {c w x} : x ≠ ascii '/' → GlobMatches c w → GlobMatches (ascii '?' :: c) (x :: w)
  | any {c w} (v) : GlobMatches c w → GlobMatches (ascii '*' :: ascii '*' :: c) (v ++ w)
  | run {c w v} : (∀ d, c ≠ ascii '*' :: d) → (∀ x ∈ v, x ≠ ascii '/') → GlobMatches c w →
      GlobMatches (ascii '*' :: c) (v ++ w)
  | char {c w x} : x ≠ ascii '?' → x ≠ ascii '*' → GlobMatches c w → GlobMatches (x :: c) (x :: w)

/-- The string of some cells, all of which must have been written. -/
def readString (cells : List RegexpCell) : Option (List UInt8) := cells.mapM (Option.map Prod.fst)

/-- An element of `regexp_list`, as `regcomp` leaves it -/
def compRegex (cells : List RegexpCell) : Option Ere := (readString cells).bind Ere.regcomp

/-- `zend_accel_blacklist_is_blacklisted`. It has no value where `regcomp` has failed. -/
def zendAccelBlacklistIsBlacklisted : List (Option Ere) → List UInt8 → Option Bool
  | [], _ => some false
  | none :: _, _ => none
  | some r :: list, path =>
    if r.regexec path then some true else zendAccelBlacklistIsBlacklisted list path

variable {c w t : List UInt8} {x z : UInt8} {g : List (List UInt8)} {n : ℕ}

@[simp] theorem globMatches_nil : GlobMatches [] w ↔ w = [] := by
  constructor
  · intro h
    cases h
    rfl
  · rintro rfl
    exact .nil

theorem globMatches_one : GlobMatches (ascii '?' :: c) w ↔
    ∃ u v, w = u ++ v ∧ (∃ x, u = [x] ∧ x ≠ ascii '/') ∧ GlobMatches c v := by
  constructor
  · intro h
    cases h with
    | one hx h => exact ⟨_, _, rfl, ⟨_, rfl, hx⟩, h⟩
    | char hx _ _ => exact absurd rfl hx
  · rintro ⟨_, v, rfl, ⟨x, rfl, hx⟩, h⟩
    exact .one hx h

theorem globMatches_any : GlobMatches (ascii '*' :: ascii '*' :: c) w ↔
    ∃ u v, w = u ++ v ∧ GlobMatches c v := by
  constructor
  · intro h
    cases h with
    | any u h => exact ⟨u, _, rfl, h⟩
    | run hc _ _ => exact absurd rfl (hc c)
    | char _ hx _ => exact absurd rfl hx
  · rintro ⟨u, v, rfl, h⟩
    exact .any u h

theorem globMatches_run (hc : ∀ d, c ≠ ascii '*' :: d) : GlobMatches (ascii '*' :: c) w ↔
    ∃ u v, w = u ++ v ∧ (∀ x ∈ u, x ≠ ascii '/') ∧ GlobMatches c v := by
  constructor
  · intro h
    cases h with
    | any _ _ => exact absurd rfl (hc _)
    | run _ hu h => exact ⟨_, _, rfl, hu, h⟩
    | char _ hx _ => exact absurd rfl hx
  · rintro ⟨u, v, rfl, hu, h⟩
    exact .run hc hu h

theorem globMatches_char (hq : x ≠ ascii '?') (hs : x ≠ ascii '*') : GlobMatches (x :: c) w ↔
    ∃ u v, w = u ++ v ∧ u = [x] ∧ GlobMatches c v := by
  constructor
  · intro h
    cases h with
    | one _ _ => exact absurd rfl hq
    | any _ _ => exact absurd rfl hs
    | run _ _ _ => exact absurd rfl hs
    | char _ _ h => exact ⟨[x], _, rfl, rfl, h⟩
  · rintro ⟨_, v, rfl, rfl, h⟩
    exact .char hq hs h

namespace Ere

/-- The set of characters other than a slash, as the translation writes it -/
theorem parseAtom_notSlash (n : ℕ) (t : List UInt8) :
    parseAtom (n + 1) (['[', '^', '/', ']'].map ascii ++ t) =
      some (set fun y => !([ascii '/'].contains y), t) :=
  rfl

theorem parseAtom_escaped (n : ℕ) (x : UInt8) (t : List UInt8) :
    parseAtom (n + 1) (ascii '\\' :: x :: t) = some (set (· == x), t) :=
  rfl

/-- A character that needs no escape is an atom. -/
theorem parseAtom_char (hq : x ≠ ascii '?') (hs : x ≠ ascii '*') (he : x ∉ escaped) (n : ℕ)
    (t : List UInt8) : parseAtom (n + 1) (x :: t) = some (set (· == x), t) := by
  have hop : x ∉ operators := by
    intro hmem
    have hsub : ∀ y ∈ operators, y = ascii '?' ∨ y = ascii '*' ∨ y ∈ escaped := by decide +kernel
    rcases hsub x hmem with h | h | h
    · exact hq h
    · exact hs h
    · exact he h
  have hne : ∀ y ∈ escaped, x ≠ y := fun y hy h => he (h ▸ hy)
  rw [parseAtom.eq_def]
  simp only
  rw [if_neg (hne _ (by decide)), if_neg (hne _ (by decide)), if_neg (hne _ (by decide)),
    if_neg (hne _ (by decide)), if_neg (hne _ (by decide)), if_neg (hne _ (by decide)), if_neg hop]

end Ere

open Ere

/-- A part is one piece of an expression, with the meaning that the characters have that it
translates. -/
theorem regexpStep_parses (x : UInt8) (c : List UInt8) : ∃ r L, Denotes r L ∧
    (∀ n z t, z ∉ repeats →
      parsePiece (n + 2) ((regexpStep (x :: c)).1 ++ z :: t) = some (r, z :: t)) ∧
    ∀ w, GlobMatches (x :: c) w ↔ ∃ u v, w = u ++ v ∧ L u ∧
      GlobMatches (regexpStep (x :: c)).2 v := by
  rcases regexpStep_cases x c with ⟨rfl, heq⟩ | ⟨rfl, d, rfl, heq⟩ | ⟨rfl, hc, heq⟩ |
    ⟨he, heq⟩ | ⟨hq, hs, he, heq⟩ <;> rw [heq]
  · refine ⟨_, _, .set fun y => !([ascii '/'].contains y), fun n z t hz => ?_, fun w => ?_⟩
    · exact parsePiece_atom (parseAtom_notSlash n _) hz
    · rw [globMatches_one]
      simp
  · refine ⟨_, _, .star_set fun _ => true, fun n z t hz => parsePiece_star rfl, fun w => ?_⟩
    rw [globMatches_any]
    simp
  · refine ⟨_, _, .star_set fun y => !([ascii '/'].contains y), fun n z t hz => ?_, fun w => ?_⟩
    · exact parsePiece_star (parseAtom_notSlash n (ascii '*' :: z :: t))
    · rw [globMatches_run hc]
      simp
  · refine ⟨_, _, .set (· == x), fun n z t hz => ?_, fun w => ?_⟩
    · exact parsePiece_atom (parseAtom_escaped n x _) hz
    · have hne : ∀ y ∈ escaped, y ≠ ascii '?' ∧ y ≠ ascii '*' := by decide +kernel
      rw [globMatches_char (hne x he).1 (hne x he).2]
      simp
  · refine ⟨_, _, .set (· == x), fun n z t hz => ?_, fun w => ?_⟩
    · exact parsePiece_atom (parseAtom_char hq hs he n _) hz
    · rw [globMatches_char hq hs]
      simp

/-- What a part starts with neither repeats the part before it nor ends the alternative. -/
theorem regexpStep_head (h : c ≠ []) : ∃ y p, (regexpStep c).1 = y :: p ∧ y ∉ repeats ∧
    ¬ (y = ascii '|' ∨ y = ascii ')') := by
  obtain ⟨x, c, rfl⟩ := List.exists_cons_of_ne_nil h
  rcases regexpStep_cases x c with ⟨-, heq⟩ | ⟨-, d, -, heq⟩ | ⟨-, -, heq⟩ | ⟨-, heq⟩ |
    ⟨hq, hs, he, heq⟩ <;> rw [heq]
  case inr.inr.inr.inr =>
    have hne : ∀ y ∈ escaped, x ≠ y := fun y hy h => he (h ▸ hy)
    refine ⟨x, [], rfl, ?_, ?_⟩
    · simp only [repeats, List.map_cons, List.map_nil, List.mem_cons, List.not_mem_nil, or_false,
        not_or]
      exact ⟨hs, hne _ (by decide), hq⟩
    · exact not_or.mpr ⟨hne _ (by decide), hne _ (by decide)⟩
  all_goals exact ⟨_, _, rfl, by decide, by decide⟩

/-- The translation of an entry is an alternative with the meaning of the entry. -/
theorem parseBranch_translation (h : c ≠ []) : ∃ r, Denotes r (GlobMatches c) ∧
    ∀ n z t, (translation c).length + 2 ≤ n → (z = ascii '|' ∨ z = ascii ')') →
      parseBranch n (translation c ++ z :: t) = some (r, z :: t) := by
  induction hk : c.length using Nat.strongRecOn generalizing c with
  | _ k ih =>
    have hstep := regexpStep_length h
    have hbounds := (regexpStep_bounds h).1
    obtain ⟨x, c, rfl⟩ := List.exists_cons_of_ne_nil h
    obtain ⟨r, L, hr, hpiece, hglob⟩ := regexpStep_parses x c
    by_cases hrest : (regexpStep (x :: c)).2 = []
    · refine ⟨r, hr.congr fun w => ?_, fun n z t hn hz => ?_⟩
      · rw [hglob, hrest]
        simp
      · rw [translation_cons h, hrest, translation_nil, List.append_nil] at hn ⊢
        obtain ⟨m, rfl⟩ : ∃ m, n = m + 3 := ⟨n - 3, by omega⟩
        refine parseBranch_last (hpiece m z t ?_) hz
        rcases hz with rfl | rfl <;> decide
    · obtain ⟨q, hq, hbranch⟩ := ih _ (hk ▸ hstep) hrest rfl
      refine ⟨.seq r q, (hr.seq hq).congr fun w => (hglob w).symm, fun n z t hn hz => ?_⟩
      rw [translation_cons h, List.length_append] at hn
      obtain ⟨m, rfl⟩ : ∃ m, n = m + 3 := ⟨n - 3, by omega⟩
      have hnext := hbranch (m + 2) z t (by omega) hz
      obtain ⟨y, p, hpart, hrep, hbar⟩ := regexpStep_head hrest
      rw [translation_cons hrest, hpart] at hnext
      rw [translation_cons h, translation_cons hrest, hpart, List.append_assoc]
      exact parseBranch_cons (hpiece m y _ hrep) hbar hnext

/-- The translations of some entries are alternatives with the meaning of one of them. -/
theorem parseAlternatives_alternatives (hg : g ≠ []) (h : ∀ c ∈ g, c ≠ []) :
    ∃ r, Denotes r (fun w => ∃ c ∈ g, GlobMatches c w) ∧
      ∀ n t, (alternatives g).length + 3 ≤ n →
        parseAlternatives n (alternatives g ++ ascii ')' :: t) = some (r, ascii ')' :: t) := by
  induction g with
  | nil => exact absurd rfl hg
  | cons c g ih =>
    obtain ⟨r, hr, hbranch⟩ := parseBranch_translation (h c List.mem_cons_self)
    by_cases hg' : g = []
    · subst hg'
      have halt : alternatives [c] = translation c := by simp [alternatives, List.intercalate]
      refine ⟨r, hr.congr fun w => by simp, fun n t hn => ?_⟩
      rw [halt] at hn ⊢
      obtain ⟨m, rfl⟩ : ∃ m, n = m + 1 := ⟨n - 1, by omega⟩
      exact parseAlternatives_last (hbranch m _ t (by omega) (.inr rfl)) (by decide)
    · obtain ⟨q, hq, halts⟩ := ih hg' fun d hd => h d (List.mem_cons_of_mem c hd)
      have halt : alternatives (c :: g) = translation c ++ ascii '|' :: alternatives g := by
        rw [alternatives, List.map_cons, List.intercalate_cons_of_ne_nil (by simpa using hg'),
          alternatives, List.append_assoc]
        rfl
      refine ⟨.alt r q, (hr.alt hq).congr fun w => by simp, fun n t hn => ?_⟩
      rw [halt, List.length_append, List.length_cons] at hn
      rw [halt, List.append_assoc, List.cons_append]
      obtain ⟨m, rfl⟩ : ∃ m, n = m + 1 := ⟨n - 1, by omega⟩
      exact parseAlternatives_cons (hbranch m _ _ (by omega) (.inl rfl)) (halts m t (by omega))

theorem readString_map (cells : List RegexpCell) (s : List UInt8)
    (h : cells.map (Option.map Prod.fst) = s.map some) : readString cells = some s := by
  induction cells generalizing s with
  | nil =>
    cases s with
    | nil => rfl
    | cons y s => cases h
  | cons x cells ih =>
    cases s with
    | nil => cases h
    | cons y s =>
      rw [List.map_cons, List.map_cons, List.cons.injEq] at h
      have hrest := ih s h.2
      rw [readString] at hrest
      rw [readString, List.mapM_cons, h.1, hrest]
      rfl

theorem readString_roundPattern (round : ℕ) (g : List (List UInt8)) :
    readString (roundPattern round g) = some (groupPattern g) := by
  refine readString_map _ _ ?_
  rw [roundPattern, groupPattern, List.map_append, List.map_map, List.append_assoc,
    List.map_append (f := some)]
  exact congrArg _ (List.map_congr_left fun _ _ => rfl)

/-- The expression that a round compiles matches the paths of which a prefix matches an entry. -/
theorem compRegex_roundPattern (round : ℕ) (hg : g ≠ []) (h : ∀ c ∈ g, c ≠ []) :
    ∃ r, compRegex (roundPattern round g) = some r ∧
      ∀ path, r.regexec path = true ↔ ∃ c ∈ g, ∃ w, w <+: path ∧ GlobMatches c w := by
  obtain ⟨r, hr, hparse⟩ := parseAlternatives_alternatives hg h
  refine ⟨.seq .bol r, ?_, fun path => ?_⟩
  · rw [compRegex, readString_roundPattern, Option.bind_some, groupPattern]
    exact regcomp_anchored (hparse _ [] (by omega))
  · rw [hr.regexec_bol_iff]
    constructor
    · rintro ⟨w, ⟨c, hc, hw⟩, hinit⟩
      exact ⟨c, hc, w, hinit, hw⟩
    · rintro ⟨c, hc, w, hinit, hw⟩
      exact ⟨w, ⟨c, hc, hw⟩, hinit⟩

/-- A list of expressions decides whether a prefix of a path matches one of some entries. -/
def Decides (list : List (Option Ere)) (entries : List (List UInt8)) : Prop :=
  ∀ path, ∃ b, zendAccelBlacklistIsBlacklisted list path = some b ∧
    (b = true ↔ ∃ c ∈ entries, ∃ w, w <+: path ∧ GlobMatches c w)

theorem Decides.cons {list : List (Option Ere)} {entries : List (List UInt8)} {r : Ere}
    (hr : ∀ path, r.regexec path = true ↔ ∃ c ∈ g, ∃ w, w <+: path ∧ GlobMatches c w)
    (h : Decides list entries) : Decides (some r :: list) (g ++ entries) := by
  intro path
  obtain ⟨b, hb, hiff⟩ := h path
  rw [zendAccelBlacklistIsBlacklisted]
  by_cases hmatch : r.regexec path = true
  · obtain ⟨c, hc, hw⟩ := (hr path).mp hmatch
    rw [if_pos hmatch]
    exact ⟨true, rfl, by simpa using ⟨c, .inl hc, hw⟩⟩
  · have hnot : ¬ ∃ c ∈ g, ∃ w, w <+: path ∧ GlobMatches c w := fun h => hmatch ((hr path).mpr h)
    rw [if_neg hmatch]
    refine ⟨b, hb, hiff.trans ⟨?_, ?_⟩⟩
    · rintro ⟨c, hc, hw⟩
      exact ⟨c, List.mem_append_right g hc, hw⟩
    · rintro ⟨c, hc, hw⟩
      rcases List.mem_append.mp hc with hc | hc
      · exact absurd ⟨c, hc, hw⟩ hnot
      · exact ⟨c, hc, hw⟩

/-- The rounds together match what their entries match. -/
theorem decides_roundPatterns {gs : List (List (List UInt8))} (hgs : ∀ g ∈ gs, g ≠ [])
    (h : ∀ c ∈ gs.flatten, c ≠ []) : Decides ((roundPatterns gs).map compRegex) gs.flatten := by
  have hround : ∀ k, Decides ((gs.mapIdx fun i g => roundPattern (i + k) g).map compRegex)
      gs.flatten := by
    induction gs with
    | nil => exact fun k path => ⟨false, rfl, by simp⟩
    | cons g gs ih =>
      intro k
      obtain ⟨r, heq, hr⟩ := compRegex_roundPattern (0 + k) (hgs g List.mem_cons_self)
        fun c hc => h c (List.mem_append_left _ hc)
      have hrest := ih (fun g' hg' => hgs g' (List.mem_cons_of_mem g hg'))
        (fun c hc => h c (List.mem_append_right _ hc)) (k + 1)
      rw [List.mapIdx_cons, List.map_cons, heq, List.flatten_cons]
      refine Decides.cons hr ?_
      simpa only [Nat.add_assoc, Nat.add_comm 1 k] using hrest
  exact hround 1

/-! ### The length of an expression -/

namespace UpdateState
variable {s s' : UpdateState} {c : List UInt8} {malloc : ℕ → Bool} {entries : List (List UInt8)}

theorem put_patterns {x : UInt8} (h : s.put x = .ok s') : s'.patterns = s.patterns := by
  unfold put at h
  split_ifs at h
  cases h
  rfl

theorem puts_patterns {xs : List UInt8} (h : s.puts xs = .ok s') : s'.patterns = s.patterns := by
  induction xs generalizing s with
  | nil =>
    cases h
    rfl
  | cons x xs ih =>
    rw [puts, List.foldlM_cons] at h
    cases hput : s.put x with
    | error e =>
      rw [hput] at h
      cases h
    | ok t =>
      rw [hput] at h
      exact (ih h).trans (put_patterns hput)

theorem translate_patterns {n : ℕ} {c' : List UInt8} (h : translate n s c = .ok (s', c')) :
    s'.patterns = s.patterns := by
  induction n generalizing s c with
  | zero =>
    cases h
    rfl
  | succ n ih =>
    rw [translate] at h
    split_ifs at h
    · cases hputs : s.puts (regexpStep c).1 with
      | error e =>
        rw [hputs] at h
        cases h
      | ok t =>
        rw [hputs] at h
        exact (ih h).trans (puts_patterns hputs)
    · cases h
      rfl

theorem putEntry_patterns {c' : List UInt8} (h : s.putEntry c = .ok (s', c')) :
    s'.patterns = s.patterns := by
  unfold putEntry at h
  split_ifs at h
  · exact translate_patterns h
  · cases h
    rfl

/-- What is compiled is at most as long as the buffer. -/
def PatternsFit (s : UpdateState) : Prop := ∀ w ∈ s.patterns, w.length ≤ regexpSize

theorem PatternsFit.compile (h : s.PatternsFit) (hs : compile malloc s = .ok s') :
    s'.PatternsFit := by
  unfold UpdateState.compile at hs
  cases h₁ : s.put (ascii ')') with
  | error e =>
    rw [h₁] at hs
    cases hs
  | ok t =>
    rw [h₁] at hs
    change (t.put 0 >>= _) = _ at hs
    cases h₂ : t.put 0 with
    | error e =>
      rw [h₂] at hs
      cases hs
    | ok u =>
      rw [h₂] at hs
      change (if _ then _ else _) = _ at hs
      split_ifs at hs
      cases hs
      intro w hw
      rcases List.mem_append.mp hw with hw | hw
      · rw [put_patterns h₂, put_patterns h₁] at hw
        exact h w hw
      · rw [List.mem_singleton.mp hw, pattern]
        exact (List.takeWhile_prefix _).length_le.trans (by simp)

theorem PatternsFit.turn (h : s.PatternsFit) (hs : turn malloc entries s c = .ok s') :
    s'.PatternsFit := by
  unfold UpdateState.turn at hs
  cases hput : s.putEntry c with
  | error e =>
    rw [hput] at hs
    cases hs
  | ok x =>
    obtain ⟨t, c'⟩ := x
    have ht : t.PatternsFit := by
      unfold PatternsFit
      rwa [putEntry_patterns hput]
    rw [hput] at hs
    change (if _ then _ else _) = _ at hs
    split_ifs at hs
    · unfold closeAt at hs
      split_ifs at hs
      · cases hb : t.backtrack with
        | none =>
          dsimp only at hs
          rw [hb] at hs
          cases hs
        | some q =>
          dsimp only at hs
          rw [hb] at hs
          exact PatternsFit.compile
            (show PatternsFit { t with p := q, backtrack := some q } from ht) hs
      · exact PatternsFit.compile (show PatternsFit { t with i := t.i + 1 } from ht) hs
    · unfold nextEntry at hs
      cases hbar : ({ t with backtrack := some t.p } : UpdateState).put (ascii '|') with
      | error e =>
        rw [hbar] at hs
        cases hs
      | ok u =>
        rw [hbar] at hs
        cases hs
        change ∀ w ∈ u.patterns, _
        rw [put_patterns hbar]
        exact ht

/-- No expression is longer than the buffer. -/
theorem PatternsFit.loop {n : ℕ} {ps : List (List RegexpCell)} (h : s.PatternsFit)
    (hs : loop malloc entries n s = some (.ok ps)) : ∀ w ∈ ps, w.length ≤ regexpSize := by
  induction n generalizing s with
  | zero => cases hs
  | succ n ih =>
    rw [UpdateState.loop] at hs
    split at hs
    · cases hs
      exact h
    · split at hs
      · cases hs
      · rename_i t ht
        exact ih (h.turn ht) hs

end UpdateState

open UpdateState

/-- Entries that are not empty stay within the buffer if each fits into the empty one. -/
theorem fillsWithin_of_fits {p : ℕ} (hp : p ≤ regexpEnd + 5) (hne : ∀ c ∈ g, c ≠ [])
    (hfits : ∀ c ∈ g, Fits 2 c) : FillsWithin p g := by
  induction g generalizing p with
  | nil => trivial
  | cons c g ih =>
    have hend : regexpEnd = 12279 := rfl
    have hsize : regexpSize = 12288 := rfl
    have hlen := length_translation_le c
    have hlast : (if Fits p c then p else 2) + lastStart c < regexpEnd := by
      have hc := hne c List.mem_cons_self
      split_ifs with hfit
      · exact (hfit.resolve_left hc).2
      · exact ((hfits c List.mem_cons_self).resolve_left hc).2
    refine ⟨.inr (by omega), ?_, ih (by omega) (fun d hd => hne d (List.mem_cons_of_mem c hd))
      fun d hd => hfits d (List.mem_cons_of_mem c hd)⟩
    by_cases hg : g = []
    · rw [if_pos hg]
      omega
    · rw [if_neg hg]
      omega

/-- Entries that are not empty and that fit into the buffer are compiled in groups, each entry once,
and a path is then blacklisted if and only if one of its prefixes matches one of them. If there is
no memory for a round, the function says so, and this holds of the entries of the rounds before. -/
theorem isBlacklisted_iff (malloc : ℕ → Bool) {entries : List (List UInt8)}
    (hzero : ∀ c ∈ entries, (0 : UInt8) ∉ c) (hne : ∀ c ∈ entries, c ≠ [])
    (hfits : ∀ c ∈ entries, Fits 2 c) :
    ∃ fuel gs, Decides ((roundPatterns gs).map compRegex) gs.flatten ∧
      ((gs.flatten = entries ∧
          zendAccelBlacklistUpdateRegexp malloc fuel entries = some (.ok (roundPatterns gs))) ∨
        ((∃ k, malloc k = false) ∧ gs.flatten <+: entries ∧
          zendAccelBlacklistUpdateRegexp malloc fuel entries =
            some (.error (.returned (roundPatterns gs))))) := by
  have hfill : FillsWithin updateStart.p entries :=
    fillsWithin_of_fits (by decide) hne hfits
  have hcompiles : Compiles malloc entries updateStart :=
    (atHead_start entries).compiles hzero (fun _ => rfl) hfits hfill
  obtain ⟨gs, hgs, ⟨hflat, fuel, hloop⟩ | ⟨hmalloc, hinit, fuel, hloop⟩⟩ := hcompiles
  · refine ⟨fuel, gs, decides_roundPatterns hgs ?_, .inl ⟨hflat, hloop⟩⟩
    rwa [hflat]
  · refine ⟨fuel, gs, decides_roundPatterns hgs ?_, .inr ⟨hmalloc, hinit, hloop⟩⟩
    exact fun c hc => hne c (hinit.subset hc)

theorem translation_replicate (n : ℕ) (x : UInt8) (hx : x = ascii 'a' ∨ x = ascii 'b') :
    translation (List.replicate n x) = List.replicate n x := by
  induction n with
  | zero => rfl
  | succ n ih =>
    have hstep : regexpStep (x :: List.replicate n x) = ([x], List.replicate n x) := by
      rcases hx with rfl | rfl <;> rfl
    rw [List.replicate_succ, translation_cons (List.cons_ne_nil _ _), hstep, ih]
    rfl

theorem lastStart_le (c : List UInt8) : lastStart c ≤ (translation c).length := by
  obtain ⟨t, ht⟩ := List.dropLast_prefix (regexpParts c.length c)
  have hlen := congrArg (fun l => (List.flatten l).length) ht
  rw [List.flatten_append, List.length_append] at hlen
  unfold lastStart translation
  omega

/-- Two names of `n` letters, and `/c?` -/
def longNames (n : ℕ) : List (List UInt8) :=
  [List.replicate n (ascii 'a'), List.replicate n (ascii 'b'), [47, 99, 63]]

theorem zero_notMem_longNames (n : ℕ) : ∀ c ∈ longNames n, (0 : UInt8) ∉ c := by
  have ha : (0 : UInt8) ≠ ascii 'a' := by decide
  have hb : (0 : UInt8) ≠ ascii 'b' := by decide
  simp [longNames, ha, hb]

theorem fits_longNames {n : ℕ} (hn : n < regexpEnd - 2) : ∀ c ∈ longNames n, Fits 2 c := by
  have hname : ∀ x, x = ascii 'a' ∨ x = ascii 'b' → Fits 2 (List.replicate n x) := by
    intro x hx
    have hstart := lastStart_le (List.replicate n x)
    rw [translation_replicate n x hx, List.length_replicate] at hstart
    refine .inr ⟨?_, by omega⟩
    rw [List.length_replicate]
    omega
  have hquestion : Fits 2 [47, 99, 63] := by decide
  simpa [longNames] using ⟨hname _ (.inl rfl), hname _ (.inr rfl), hquestion⟩

theorem length_roundPattern_longNames (n : ℕ) :
    (roundPattern 1 (longNames n)).length = 2 * n + 11 := by
  have hquestion : translation [47, 99, 63] = [47, 99] ++ ['[', '^', '/', ']'].map ascii := by
    decide
  simp [roundPattern, patternHead, alternatives, longNames, List.intercalate,
    translation_replicate, hquestion]
  omega

/-- Names that one expression has no room for -/
theorem isBlacklisted_iff_longNames : ∃ fuel gs,
    Decides ((roundPatterns gs).map compRegex) gs.flatten ∧ gs.flatten = longNames 9000 ∧
    zendAccelBlacklistUpdateRegexp (fun _ => true) fuel (longNames 9000) =
      some (.ok (roundPatterns gs)) ∧ 2 ≤ gs.length := by
  have hend : regexpEnd = 12279 := rfl
  have hne : ∀ c ∈ longNames 9000, c ≠ [] := by
    have h : ∀ n ≠ 0, ∀ c ∈ longNames n, c ≠ [] := by simp [longNames]
    exact h 9000 (by omega)
  obtain ⟨fuel, gs, hdecides, ⟨hflat, hok⟩ | ⟨⟨k, hmalloc⟩, -⟩⟩ :=
    isBlacklisted_iff (fun _ => true) (zero_notMem_longNames 9000) hne
      (fits_longNames (by omega))
  · refine ⟨fuel, gs, hdecides, hflat, hok, ?_⟩
    have hbound := UpdateState.PatternsFit.loop (fun w hw => absurd hw List.not_mem_nil) hok
    match gs, hflat, hbound with
    | [], hflat, _ => cases hflat
    | [g], hflat, hbound =>
      obtain rfl : g = longNames 9000 := by rw [← hflat, List.flatten_singleton]
      have hlen := hbound _ (List.mem_singleton.mpr rfl)
      have hsize : regexpSize = 12288 := rfl
      have heq := length_roundPattern_longNames 9000
      change (roundPattern 1 (longNames 9000)).length ≤ regexpSize at hlen
      omega
    | _ :: _ :: _, _, _ => simp
  · simp at hmalloc

end ZendOpcache
