import Mathlib.Data.List.Basic
import Mathlib.Data.UInt

/-! # Extended regular expressions

The expressions of POSIX over single bytes, without intervals and without ranges and classes
between brackets. An expression matches between two positions of a subject, so that anchors may
stand anywhere. Matching is decided by the list of positions where a match may end.
-/

namespace ZendOpcache

/-- A character of C. -/
def ascii (c : Char) : UInt8 := c.toNat.toUInt8

inductive Ere where
  | empty
  /-- the start of the subject -/
  | bol
  /-- the end of the subject -/
  | eol
  | set (p : UInt8 → Bool)
  | seq (r q : Ere)
  | alt (r q : Ere)
  | star (r : Ere)

namespace Ere

/-- An expression matches between two positions of a subject. -/
inductive Matches (s : List UInt8) : Ere → ℕ → ℕ → Prop
  | empty {i} : Matches s empty i i
  | bol : Matches s bol 0 0
  | eol : Matches s eol s.length s.length
  | set {p i x} : s[i]? = some x → p x = true → Matches s (set p) i (i + 1)
  | seq {r q i j k} : Matches s r i j → Matches s q j k → Matches s (seq r q) i k
  | altLeft {r q i j} : Matches s r i j → Matches s (alt r q) i j
  | altRight {r q i j} : Matches s q i j → Matches s (alt r q) i j
  | starNil {r i} : Matches s (star r) i i
  | starCons {r i j k} : Matches s r i j → Matches s (star r) j k → Matches s (star r) i k

/-- The positions that steps of `f` lead to, each of which gets ahead. -/
def starEnds (f : ℕ → List ℕ) : ℕ → ℕ → List ℕ
  | 0, i => [i]
  | n + 1, i => i :: ((f i).filter (i < ·)).flatMap (starEnds f n)

/-- The positions where a match may end that starts at a position. -/
def ends (s : List UInt8) : Ere → ℕ → List ℕ
  | .empty, i => [i]
  | .bol, i => if i = 0 then [i] else []
  | .eol, i => if i = s.length then [i] else []
  | .set p, i => if s[i]?.any p then [i + 1] else []
  | .seq r q, i => (r.ends s i).flatMap (q.ends s)
  | .alt r q, i => r.ends s i ++ q.ends s i
  | .star r, i => starEnds (r.ends s) (s.length + 1) i

/-- `regexec`, as far as it says whether there is a match -/
def regexec (r : Ere) (s : List UInt8) : Bool :=
  (List.range (s.length + 1)).any fun i => !(r.ends s i).isEmpty

variable {s : List UInt8} {r q : Ere} {i j k n : ℕ} {f : ℕ → List ℕ}

theorem Matches.le (h : Matches s r i j) : i ≤ j := by
  induction h with
  | seq _ _ ih ih' => exact ih.trans ih'
  | altLeft _ ih => exact ih
  | altRight _ ih => exact ih
  | starCons _ _ ih ih' => exact ih.trans ih'
  | set => exact Nat.le_succ _
  | _ => exact le_rfl

theorem Matches.le_length (h : Matches s r i j) (hi : i ≤ s.length) : j ≤ s.length := by
  induction h with
  | empty => exact hi
  | bol => exact hi
  | eol => exact hi
  | set hx _ => exact (List.getElem?_eq_some_iff.mp hx).1
  | seq _ _ ih ih' => exact ih' (ih hi)
  | altLeft _ ih => exact ih hi
  | altRight _ ih => exact ih hi
  | starNil => exact hi
  | starCons _ _ ih ih' => exact ih' (ih hi)

theorem matches_of_mem_starEnds (hf : ∀ i, ∀ j ∈ f i, Matches s r i j) (h : j ∈ starEnds f n i) :
    Matches s (star r) i j := by
  induction n generalizing i with
  | zero =>
    rw [List.mem_singleton.mp h]
    exact .starNil
  | succ n ih =>
    rcases List.mem_cons.mp h with rfl | h
    · exact .starNil
    · obtain ⟨k, hk, h⟩ := List.mem_flatMap.mp h
      exact .starCons (hf i k (List.mem_of_mem_filter hk)) (ih h)

/-- A repetition gets to its end in steps that get ahead. -/
theorem mem_starEnds (hf : ∀ i j, i ≤ s.length → Matches s r i j → j ∈ f i)
    (h : Matches s (star r) i j) (hi : i ≤ s.length) (hn : s.length - i ≤ n) :
    j ∈ starEnds f n i := by
  generalize hr : star r = r' at h
  induction h generalizing n with
  | starNil =>
    cases n with
    | zero => exact List.mem_singleton_self _
    | succ n => exact List.mem_cons_self
  | @starCons r i k j hstep hrest _ ih =>
    cases hr
    have hk := hstep.le_length hi
    rcases hstep.le.eq_or_lt with rfl | hlt
    · exact ih hi hn rfl
    · cases n with
      | zero => omega
      | succ n =>
        refine List.mem_cons_of_mem _ (List.mem_flatMap.mpr ⟨k, ?_, ih hk (by omega) rfl⟩)
        exact List.mem_filter.mpr ⟨hf i k hi hstep, by simpa using hlt⟩
  | _ => cases hr

theorem matches_of_mem_ends (h : j ∈ ends s r i) : Matches s r i j := by
  induction r generalizing i j with
  | empty =>
    rw [List.mem_singleton.mp h]
    exact .empty
  | bol =>
    rw [ends] at h
    split_ifs at h with hi
    · rw [List.mem_singleton.mp h, hi]
      exact .bol
    · exact absurd h List.not_mem_nil
  | eol =>
    rw [ends] at h
    split_ifs at h with hi
    · rw [List.mem_singleton.mp h, hi]
      exact .eol
    · exact absurd h List.not_mem_nil
  | set p =>
    cases hx : s[i]? with
    | none => simp [ends, hx] at h
    | some x =>
      have hends : ends s (set p) i = if p x then [i + 1] else [] := by simp [ends, hx]
      rw [hends] at h
      split_ifs at h with hp
      · rw [List.mem_singleton.mp h]
        exact .set hx hp
      · exact absurd h List.not_mem_nil
  | seq r q ihr ihq =>
    obtain ⟨k, hk, h⟩ := List.mem_flatMap.mp h
    exact .seq (ihr hk) (ihq h)
  | alt r q ihr ihq =>
    rcases List.mem_append.mp h with h | h
    · exact .altLeft (ihr h)
    · exact .altRight (ihq h)
  | star r ih => exact matches_of_mem_starEnds (fun i j hj => ih hj) h

theorem mem_ends (hi : i ≤ s.length) (h : Matches s r i j) : j ∈ ends s r i := by
  induction r generalizing i j with
  | empty =>
    cases h
    exact List.mem_singleton_self _
  | bol =>
    cases h
    exact List.mem_singleton_self _
  | eol =>
    cases h
    rw [ends, if_pos rfl]
    exact List.mem_singleton_self _
  | set p =>
    cases h with
    | set hx hp =>
      simp [ends, hx, hp]
  | seq r q ihr ihq =>
    cases h with
    | seq hr hq => exact List.mem_flatMap.mpr ⟨_, ihr hi hr, ihq (hr.le_length hi) hq⟩
  | alt r q ihr ihq =>
    cases h with
    | altLeft h => exact List.mem_append_left _ (ihr hi h)
    | altRight h => exact List.mem_append_right _ (ihq hi h)
  | star r ih => exact mem_starEnds (fun i j hi hj => ih hi hj) h hi (by omega)

theorem regexec_iff : regexec r s = true ↔ ∃ i j, i ≤ s.length ∧ Matches s r i j := by
  have hends : ∀ i, (!(r.ends s i).isEmpty) = true ↔ ∃ j, j ∈ r.ends s i := fun i => by
    simp [List.eq_nil_iff_forall_not_mem]
  rw [regexec, List.any_eq_true]
  constructor
  · rintro ⟨i, hi, h⟩
    obtain ⟨j, hj⟩ := (hends i).mp h
    exact ⟨i, j, Nat.le_of_lt_succ (List.mem_range.mp hi), matches_of_mem_ends hj⟩
  · rintro ⟨i, j, hi, h⟩
    exact ⟨i, List.mem_range.mpr (Nat.lt_succ_of_le hi), (hends i).mpr ⟨j, mem_ends hi h⟩⟩

/-- An expression that starts with an anchor matches at the start of the subject only. -/
theorem matches_bol_seq_iff : (∃ i j, i ≤ s.length ∧ Matches s (seq bol r) i j) ↔
    ∃ j, Matches s r 0 j := by
  constructor
  · rintro ⟨i, j, -, h⟩
    cases h with
    | seq hb hr =>
      cases hb
      exact ⟨j, hr⟩
  · rintro ⟨j, h⟩
    exact ⟨0, j, Nat.zero_le _, .seq .bol h⟩

/-- What an expression without anchors matches does not depend on where it stands. -/
structure Denotes (r : Ere) (L : List UInt8 → Prop) : Prop where
  matches_iff : ∀ s i j, Matches s r i j ↔ ∃ w, L w ∧ w <+: s.drop i ∧ j = i + w.length

variable {L M : List UInt8 → Prop} {p : UInt8 → Bool}

theorem Denotes.congr (h : Denotes r L) (hLM : ∀ w, L w ↔ M w) : Denotes r M where
  matches_iff s i j := by simpa only [hLM] using h.matches_iff s i j

theorem prefix_drop_append {u v : List UInt8} :
    u ++ v <+: s.drop i ↔ u <+: s.drop i ∧ v <+: s.drop (i + u.length) := by
  rw [← List.drop_drop]
  constructor
  · rintro ⟨t, ht⟩
    rw [← ht, List.append_assoc, List.drop_left]
    exact ⟨List.prefix_append u _, List.prefix_append v t⟩
  · rintro ⟨⟨t, ht⟩, hv⟩
    rw [← ht, List.drop_left] at hv
    obtain ⟨t', rfl⟩ := hv
    exact ⟨t', by rw [← ht, List.append_assoc]⟩

theorem Denotes.set (p : UInt8 → Bool) : Denotes (Ere.set p) fun w => ∃ x, w = [x] ∧
    p x = true where
  matches_iff s i j := by
    have hhead : ∀ x, [x] <+: s.drop i ↔ s[i]? = some x := fun x => by
      rw [List.singleton_prefix_iff_head?_eq_some, List.head?_drop]
    constructor
    · intro h
      cases h with
      | @set _ _ x hx hp => exact ⟨[x], ⟨x, rfl, hp⟩, (hhead x).mpr hx, rfl⟩
    · rintro ⟨_, ⟨x, rfl, hp⟩, hinit, rfl⟩
      exact .set ((hhead x).mp hinit) hp

theorem Denotes.seq (hr : Denotes r L) (hq : Denotes q M) :
    Denotes (Ere.seq r q) fun w => ∃ u v, w = u ++ v ∧ L u ∧ M v where
  matches_iff s i j := by
    constructor
    · intro h
      cases h with
      | seq h h' =>
        obtain ⟨u, hu, hinit, rfl⟩ := (hr.matches_iff _ _ _).mp h
        obtain ⟨v, hv, hinit', rfl⟩ := (hq.matches_iff _ _ _).mp h'
        refine ⟨u ++ v, ⟨u, v, rfl, hu, hv⟩, prefix_drop_append.mpr ⟨hinit, hinit'⟩, ?_⟩
        rw [List.length_append, Nat.add_assoc]
    · rintro ⟨_, ⟨u, v, rfl, hu, hv⟩, hinit, rfl⟩
      obtain ⟨hinit, hinit'⟩ := prefix_drop_append.mp hinit
      refine .seq ((hr.matches_iff _ _ _).mpr ⟨u, hu, hinit, rfl⟩)
        ((hq.matches_iff _ _ _).mpr ⟨v, hv, hinit', ?_⟩)
      rw [List.length_append, Nat.add_assoc]

theorem Denotes.alt (hr : Denotes r L) (hq : Denotes q M) :
    Denotes (Ere.alt r q) fun w => L w ∨ M w where
  matches_iff s i j := by
    constructor
    · intro h
      cases h with
      | altLeft h =>
        obtain ⟨w, hw, h⟩ := (hr.matches_iff _ _ _).mp h
        exact ⟨w, .inl hw, h⟩
      | altRight h =>
        obtain ⟨w, hw, h⟩ := (hq.matches_iff _ _ _).mp h
        exact ⟨w, .inr hw, h⟩
    · rintro ⟨w, hw | hw, h⟩
      · exact .altLeft ((hr.matches_iff _ _ _).mpr ⟨w, hw, h⟩)
      · exact .altRight ((hq.matches_iff _ _ _).mpr ⟨w, hw, h⟩)

/-- A repetition of a set, as one run. -/
theorem Denotes.star_set (p : UInt8 → Bool) :
    Denotes (star (Ere.set p)) fun w => ∀ x ∈ w, p x = true where
  matches_iff s i j := by
    constructor
    · intro h
      generalize hr : star (Ere.set p) = r at h
      induction h with
      | starNil => exact ⟨[], by simp, List.nil_prefix, rfl⟩
      | starCons hstep _ _ ih =>
        cases hr
        obtain ⟨w, hw, hinit, rfl⟩ := ih rfl
        obtain ⟨_, ⟨x, rfl, hp⟩, hinit', rfl⟩ := ((Denotes.set p).matches_iff _ _ _).mp hstep
        refine ⟨[x] ++ w, by simpa [hp] using hw, prefix_drop_append.mpr ⟨hinit', hinit⟩, ?_⟩
        rw [List.length_append, Nat.add_assoc]
      | _ => cases hr
    · rintro ⟨w, hw, hinit, rfl⟩
      induction w generalizing i with
      | nil => exact .starNil
      | cons x w ih =>
        obtain ⟨hx, hinit⟩ := prefix_drop_append.mp (List.singleton_append ▸ hinit)
        have hstep : Matches s (Ere.set p) i (i + 1) :=
          ((Denotes.set p).matches_iff _ _ _).mpr ⟨[x], ⟨x, rfl, hw x List.mem_cons_self⟩, hx, rfl⟩
        have hrest := ih (i + 1) (fun y hy => hw y (List.mem_cons_of_mem x hy)) hinit
        rw [List.length_cons, Nat.add_comm w.length, ← Nat.add_assoc]
        exact .starCons hstep hrest

/-- An anchored expression matches prefixes of the subject. -/
theorem Denotes.regexec_bol_iff (h : Denotes r L) :
    regexec (Ere.seq bol r) s = true ↔ ∃ w, L w ∧ w <+: s := by
  rw [regexec_iff, matches_bol_seq_iff]
  constructor
  · rintro ⟨j, hj⟩
    obtain ⟨w, hw, hinit, -⟩ := (h.matches_iff _ _ _).mp hj
    exact ⟨w, hw, hinit⟩
  · rintro ⟨w, hw, hinit⟩
    exact ⟨_, (h.matches_iff _ _ _).mpr ⟨w, hw, hinit, rfl⟩⟩

/-- The set of a bracket expression: the first character may be a bracket, and what follows is up to
the next one. -/
def bracketSet : List UInt8 → Option (List UInt8 × List UInt8)
  | [] => none
  | x :: s =>
    let members := s.takeWhile (· ≠ ascii ']')
    match s.dropWhile (· ≠ ascii ']') with
    | [] => none
    | _ :: rest => some (x :: members, rest)

/-- A bracket expression, from behind its `[` on. -/
def bracket : List UInt8 → Option (Ere × List UInt8)
  | [] => none
  | x :: s =>
    if x = ascii '^' then
      (bracketSet s).map fun r => (set fun y => !r.1.contains y, r.2)
    else (bracketSet (x :: s)).map fun r => (set fun y => r.1.contains y, r.2)

/-- The characters that are not an atom by themselves: operators, what repeats an atom, and the
bracket of an interval. -/
def operators : List UInt8 := ['|', ')', '*', '+', '?', '\x7b'].map ascii

mutual

/-- Alternatives, up to the end or to a closing parenthesis; `n` bounds the depth. -/
def parseAlternatives : ℕ → List UInt8 → Option (Ere × List UInt8)
  | 0, _ => none
  | n + 1, s =>
    match parseBranch n s with
    | none => none
    | some (r, s) =>
      match s with
      | x :: s' =>
        if x = ascii '|' then
          (parseAlternatives n s').map fun q => (alt r q.1, q.2)
        else some (r, s)
      | [] => some (r, s)

/-- One alternative, which is not empty. -/
def parseBranch : ℕ → List UInt8 → Option (Ere × List UInt8)
  | 0, _ => none
  | n + 1, s =>
    match parsePiece n s with
    | none => none
    | some (r, s) =>
      match s with
      | x :: s' =>
        if x = ascii '|' ∨ x = ascii ')' then some (r, x :: s')
        else (parseBranch n (x :: s')).map fun q => (seq r q.1, q.2)
      | [] => some (r, [])

/-- An atom, and what repeats it. -/
def parsePiece : ℕ → List UInt8 → Option (Ere × List UInt8)
  | 0, _ => none
  | n + 1, s =>
    match parseAtom n s with
    | none => none
    | some (r, s) =>
      match s with
      | x :: s' =>
        if x = ascii '*' then some (star r, s')
        else if x = ascii '+' then some (seq r (star r), s')
        else if x = ascii '?' then some (alt r empty, s')
        else some (r, x :: s')
      | [] => some (r, [])

def parseAtom : ℕ → List UInt8 → Option (Ere × List UInt8)
  | 0, _ => none
  | _, [] => none
  | n + 1, x :: s =>
    if x = ascii '(' then
      match parseAlternatives n s with
      | some (r, y :: s') => if y = ascii ')' then some (r, s') else none
      | _ => none
    else if x = ascii '[' then bracket s
    else if x = ascii '.' then some (set fun _ => true, s)
    else if x = ascii '^' then some (bol, s)
    else if x = ascii '$' then some (eol, s)
    else if x = ascii '\\' then
      match s with
      | y :: s' => some (set (· == y), s')
      | [] => none
    else if x ∈ operators then none
    else some (set (· == x), s)

end

/-- `regcomp`, which has no value for what is not an expression -/
def regcomp (s : List UInt8) : Option Ere :=
  match parseAlternatives (4 * s.length + 4) s with
  | some (r, []) => some r
  | _ => none

/-- What repeats an atom. -/
def repeats : List UInt8 := ['*', '+', '?'].map ascii

variable {x z : UInt8} {t u : List UInt8}

theorem parsePiece_atom (h : parseAtom n s = some (r, z :: t)) (hz : z ∉ repeats) :
    parsePiece (n + 1) s = some (r, z :: t) := by
  simp only [repeats, List.map_cons, List.map_nil, List.mem_cons, List.not_mem_nil, or_false,
    not_or] at hz
  rw [parsePiece, h]
  simp only [if_neg hz.1, if_neg hz.2.1, if_neg hz.2.2]

theorem parsePiece_star (h : parseAtom n s = some (r, ascii '*' :: t)) :
    parsePiece (n + 1) s = some (star r, t) := by
  rw [parsePiece, h]
  rfl

theorem parseBranch_last (h : parsePiece n s = some (r, z :: t))
    (hz : z = ascii '|' ∨ z = ascii ')') : parseBranch (n + 1) s = some (r, z :: t) := by
  rw [parseBranch, h]
  exact if_pos hz

theorem parseBranch_cons (h : parsePiece n s = some (r, z :: t))
    (hz : ¬ (z = ascii '|' ∨ z = ascii ')')) (hrest : parseBranch n (z :: t) = some (q, u)) :
    parseBranch (n + 1) s = some (seq r q, u) := by
  rw [parseBranch, h]
  refine (if_neg hz).trans ?_
  rw [hrest]
  rfl

theorem parseAlternatives_last (h : parseBranch n s = some (r, z :: t)) (hz : z ≠ ascii '|') :
    parseAlternatives (n + 1) s = some (r, z :: t) := by
  rw [parseAlternatives, h]
  exact if_neg hz

theorem parseAlternatives_cons (h : parseBranch n s = some (r, ascii '|' :: t))
    (hrest : parseAlternatives n t = some (q, u)) :
    parseAlternatives (n + 1) s = some (alt r q, u) := by
  rw [parseAlternatives, h]
  refine (if_pos rfl).trans ?_
  rw [hrest]
  rfl

/-- An anchored group is an expression if its alternatives are. -/
theorem regcomp_anchored (h : parseAlternatives (4 * s.length + 11) (s ++ [ascii ')']) =
      some (r, [ascii ')'])) :
    regcomp ([ascii '^', ascii '('] ++ s ++ [ascii ')']) = some (seq bol r) := by
  have hlen : 4 * ([ascii '^', ascii '('] ++ s ++ [ascii ')']).length + 4 = 4 * s.length + 16 := by
    simp only [List.length_append, List.length_cons, List.length_nil]
    omega
  have hgroup : parseAtom (4 * s.length + 12) (ascii '(' :: (s ++ [ascii ')'])) = some (r, []) := by
    simp only [parseAtom, h, if_true]
  have hbranch : parseBranch (4 * s.length + 14) (ascii '(' :: (s ++ [ascii ')'])) =
      some (r, []) := by
    rw [parseBranch, parsePiece, hgroup]
  have hbol : parsePiece (4 * s.length + 14)
      (ascii '^' :: ascii '(' :: (s ++ [ascii ')'])) =
        some (bol, ascii '(' :: (s ++ [ascii ')'])) :=
    parsePiece_atom rfl (by decide)
  have hwhole := parseBranch_cons hbol (by decide) hbranch
  rw [regcomp, hlen]
  change (match parseAlternatives (4 * s.length + 16)
    (ascii '^' :: ascii '(' :: (s ++ [ascii ')'])) with | some (r, []) => some r | _ => none) = _
  rw [parseAlternatives, hwhole]

end Ere

end ZendOpcache
