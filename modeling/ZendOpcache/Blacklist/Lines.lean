import Mathlib.Data.List.Basic
import ZendOpcache.Blacklist.Ere

/-! # The lines of a blacklist file

What `zend_accel_blacklist_loadone` makes of a line before it is duplicated: a pointer into the
buffer and a length, which are adjusted separately. The buffer holds what `fgets` has read, its
terminator, and what earlier lines have left behind it.
-/

namespace ZendOpcache

/-- The line as the function sees it: `pbuf` is a position of `buf`. -/
structure LineState where
  buf : List UInt8
  pbuf : ℕ
  pathLength : ℤ

/-- What becomes of a line. -/
inductive LineOutcome where
  /-- `continue` -/
  | skipped
  /-- the arguments of `zend_strndup` are `pbuf` and `path_length` -/
  | duplicated (s : LineState)

namespace LineState

/-- A character of the buffer. There is no value outside of it. -/
def readAt (s : LineState) (k : ℤ) : Option UInt8 := if 0 ≤ k then s.buf[k.toNat]? else none

/-- `path_length > 0 && buf[path_length - 1] == x` -/
def endsWith (s : LineState) (x : UInt8) : Option Bool :=
  if 0 < s.pathLength then (s.readAt (s.pathLength - 1)).map (· == x) else some false

/-- `buf[--path_length] = 0` -/
def cut (s : LineState) : LineState :=
  { s with buf := s.buf.set (s.pathLength - 1).toNat 0, pathLength := s.pathLength - 1 }

/-- A line feed at the end, and a carriage return before it -/
def stripNewline (s : LineState) : Option LineState := do
  if ← s.endsWith (ascii '\n') then
    if ← s.cut.endsWith (ascii '\r') then return s.cut.cut else return s.cut
  else return s

/-- `*pbuf++ = 0` -/
def skip (s : LineState) : LineState := { s with buf := s.buf.set s.pbuf 0, pbuf := s.pbuf + 1 }

/-- The loop that strips carriage returns from the start, with a bound on its turns -/
def stripPrefix : ℕ → LineState → Option LineState
  | 0, _ => none
  | n + 1, s => do
    if (← s.readAt s.pbuf) = ascii '\r' then
      stripPrefix n { s.skip with pathLength := s.pathLength - 1 }
    else return s

/-- The quotes at both ends -/
def stripQuotes (s : LineState) : Option LineState := do
  if (← s.readAt s.pbuf) = ascii '"' then
    if (← s.readAt (s.pbuf + s.pathLength - 1)) = ascii '"' then
      return { s.skip with pathLength := s.pathLength - 2 }
    else return s
  else return s

/-- What is empty or a comment is skipped. -/
def outcome (s : LineState) : Option LineOutcome := do
  if s.pathLength = 0 then return .skipped
  else if (← s.readAt s.pbuf) = ascii ';' then return .skipped
  else return .duplicated s

end LineState

/-- `strlen` -/
def strlen (buf : List UInt8) : ℕ := (buf.takeWhile (· ≠ 0)).length

/-- One turn of the loop of `zend_accel_blacklist_loadone`, up to `zend_strndup` -/
def loadLine (fuel : ℕ) (buf : List UInt8) : Option LineOutcome := do
  let s ← LineState.stripNewline { buf := buf, pbuf := 0, pathLength := strlen buf }
  let s ← s.stripPrefix fuel
  let s ← s.stripQuotes
  s.outcome

/-- A line without its end -/
def withoutNewline (w : List UInt8) : List UInt8 :=
  if w.getLast? = some (ascii '\n') then
    if w.dropLast.getLast? = some (ascii '\r') then w.dropLast.dropLast else w.dropLast
  else w

/-- What is left of a line without its end and the carriage returns at its start -/
def lineBody (w : List UInt8) : List UInt8 := (withoutNewline w).dropWhile (· = ascii '\r')

/-- A text without a pair of quotes around it -/
def withoutQuotes (w : List UInt8) : List UInt8 :=
  if 2 ≤ w.length ∧ w.head? = some (ascii '"') ∧ w.getLast? = some (ascii '"') then w.tail.dropLast
  else w

/-- What a line of the file stands for -/
def strippedLine (w : List UInt8) : List UInt8 := withoutQuotes (lineBody w)

/-- The outcome for a line is the right one: it is skipped if nothing is left of it or it is a
comment, and otherwise exactly what is left is duplicated. -/
def LineOutcome.IsFor (w : List UInt8) : LineOutcome → Prop
  | .skipped => strippedLine w = [] ∨ (strippedLine w).head? = some (ascii ';')
  | .duplicated s => strippedLine w ≠ [] ∧ (strippedLine w).head? ≠ some (ascii ';') ∧
      s.pathLength = (strippedLine w).length ∧
      (s.buf.drop s.pbuf).take (strippedLine w).length = strippedLine w ∧
      s.pbuf + (strippedLine w).length ≤ w.length

namespace LineState

variable {s : LineState} {v : List UInt8} {x : UInt8} {n k : ℕ}

/-- The pointer and the length describe a text that ends before position `n`. -/
structure Describes (s : LineState) (v : List UInt8) (n : ℕ) : Prop where
  split : ∃ before rest, s.buf = before ++ v ++ rest ∧ s.pbuf = before.length ∧
    before.length + v.length ≤ n
  pathLength : s.pathLength = v.length

/-- The text ends at the terminator. -/
def Ends (s : LineState) (v : List UInt8) : Prop := s.buf[s.pbuf + v.length]? = some 0

theorem Describes.getElem? (h : s.Describes v n) (hk : k < v.length) :
    s.buf[s.pbuf + k]? = v[k]? := by
  obtain ⟨before, rest, hbuf, hp, -⟩ := h.split
  rw [hbuf, hp, List.append_assoc, List.getElem?_append_right (Nat.le_add_right _ _),
    Nat.add_sub_cancel_left, List.getElem?_append_left hk]

theorem readAt_natCast (s : LineState) (k : ℕ) : s.readAt k = s.buf[k]? := by
  rw [readAt, if_pos (Int.natCast_nonneg k), Int.toNat_natCast]

/-- The first character of the text, or its terminator -/
theorem Describes.readAt_pbuf (h : s.Describes v n) (hend : v = [] → s.Ends v) :
    s.readAt s.pbuf = some (v.headD 0) := by
  rw [readAt_natCast]
  cases v with
  | nil => exact hend rfl
  | cons x v => exact h.getElem? (Nat.succ_pos _)

/-- The last character of the text -/
theorem Describes.readAt_last (h : s.Describes v n) (hv : v ≠ []) :
    s.readAt (s.pbuf + s.pathLength - 1) = v.getLast? := by
  have hpos := List.length_pos_of_ne_nil hv
  have hindex : (s.pbuf : ℤ) + s.pathLength - 1 = (s.pbuf + (v.length - 1) : ℕ) := by
    rw [h.pathLength]
    omega
  rw [hindex, readAt_natCast, h.getElem? (by omega), List.getLast?_eq_getElem?]

theorem Describes.skip (h : s.Describes (x :: v) n) :
    Describes { s.skip with pathLength := s.pathLength - 1 } v n where
  split := by
    obtain ⟨before, rest, hbuf, hp, hn⟩ := h.split
    refine ⟨before ++ [0], rest, ?_, ?_, ?_⟩
    · change s.buf.set s.pbuf 0 = _
      rw [hbuf, hp, List.append_assoc, List.set_append_right _ _ le_rfl, Nat.sub_self]
      simp
    · change s.pbuf + 1 = _
      rw [hp, List.length_append, List.length_singleton]
    · rw [List.length_append, List.length_singleton]
      rw [List.length_cons] at hn
      omega
  pathLength := by
    change s.pathLength - 1 = _
    rw [h.pathLength, List.length_cons]
    omega

theorem Ends.skip (h : s.Ends (x :: v)) {l : ℤ} :
    Ends { s.skip with pathLength := l } v := by
  change (s.buf.set s.pbuf 0)[s.pbuf + 1 + v.length]? = some 0
  rw [List.getElem?_set_ne (by omega), ← h, List.length_cons]
  congr 1
  omega

theorem Describes.endsWith (h : s.Describes v n) (hp : s.pbuf = 0) :
    s.endsWith x = some (v.getLast? == some x) := by
  rw [LineState.endsWith]
  cases hv : v with
  | nil =>
    rw [h.pathLength, hv, if_neg (by simp)]
    rfl
  | cons y u =>
    have hne : v ≠ [] := hv ▸ List.cons_ne_nil y u
    have hlast := h.readAt_last hne
    have hpos := List.length_pos_of_ne_nil hne
    rw [hp, Nat.cast_zero, zero_add] at hlast
    rw [← hv, hlast, if_pos (by rw [h.pathLength]; omega), List.getLast?_eq_getLast_of_ne_nil hne]
    rfl

theorem Describes.cut (h : s.Describes v n) (hv : v ≠ []) (hp : s.pbuf = 0) :
    s.cut.Describes v.dropLast n ∧ s.cut.Ends v.dropLast := by
  obtain ⟨before, rest, hbuf, hp', hn⟩ := h.split
  obtain rfl : before = [] := List.length_eq_zero_iff.mp (hp'.symm.trans hp)
  obtain ⟨u, y, rfl⟩ := (List.eq_nil_or_concat' v).resolve_left hv
  have hlen : (s.pathLength - 1).toNat = u.length := by
    rw [h.pathLength, List.length_append, List.length_singleton]
    omega
  have hcut : s.cut.buf = [] ++ u ++ 0 :: rest := by
    change s.buf.set (s.pathLength - 1).toNat 0 = _
    rw [hbuf, hlen, List.nil_append, List.append_assoc, List.set_append_right _ _ le_rfl,
      Nat.sub_self]
    rfl
  rw [List.length_append, List.length_singleton] at hn
  rw [List.dropLast_concat]
  refine ⟨⟨⟨[], 0 :: rest, hcut, hp', by omega⟩, ?_⟩, ?_⟩
  · change s.pathLength - 1 = _
    rw [h.pathLength, List.length_append, List.length_singleton]
    omega
  · change s.cut.buf[s.pbuf + u.length]? = _
    rw [hcut, hp, List.nil_append, Nat.zero_add, List.getElem?_append_right le_rfl, Nat.sub_self]
    rfl

/-- The text of the line as `fgets` has left it -/
theorem describes_start (w rest : List UInt8) :
    Describes ⟨w ++ 0 :: rest, 0, w.length⟩ w w.length ∧ Ends ⟨w ++ 0 :: rest, 0, w.length⟩ w := by
  refine ⟨⟨⟨[], 0 :: rest, rfl, rfl, by simp⟩, rfl⟩, ?_⟩
  change (w ++ 0 :: rest)[0 + w.length]? = some 0
  rw [Nat.zero_add, List.getElem?_append_right le_rfl, Nat.sub_self]
  rfl

theorem stripNewline_eq (h : s.Describes v n) (hend : s.Ends v) (hp : s.pbuf = 0) :
    ∃ s', s.stripNewline = some s' ∧ s'.Describes (withoutNewline v) n ∧
      s'.Ends (withoutNewline v) ∧ s'.pbuf = 0 := by
  have hne : ∀ {u : List UInt8} {y : UInt8}, u.getLast? = some y → u ≠ [] := by
    rintro u y hy rfl
    cases hy
  rw [stripNewline, h.endsWith hp, withoutNewline]
  by_cases hlf : v.getLast? = some (ascii '\n')
  · obtain ⟨hcut, hcutEnd⟩ := h.cut (hne hlf) hp
    rw [if_pos hlf]
    by_cases hcr : v.dropLast.getLast? = some (ascii '\r')
    · obtain ⟨hcut', hcutEnd'⟩ := hcut.cut (hne hcr) hp
      rw [if_pos hcr]
      refine ⟨s.cut.cut, ?_, hcut', hcutEnd', hp⟩
      simp [hlf, hcut.endsWith hp, hcr]
    · rw [if_neg hcr]
      refine ⟨s.cut, ?_, hcut, hcutEnd, hp⟩
      simp [hlf, hcut.endsWith hp, hcr]
  · rw [if_neg hlf]
    refine ⟨s, ?_, h, hend, hp⟩
    simp [hlf]

theorem stripPrefix_eq {fuel : ℕ} (hfuel : v.length < fuel) (h : s.Describes v n)
    (hend : s.Ends v) : ∃ s', s.stripPrefix fuel = some s' ∧
      s'.Describes (v.dropWhile (· = ascii '\r')) n ∧ s'.Ends (v.dropWhile (· = ascii '\r')) := by
  induction fuel generalizing s v with
  | zero => exact absurd hfuel (Nat.not_lt_zero _)
  | succ fuel ih =>
    rw [stripPrefix, h.readAt_pbuf fun _ => hend]
    cases v with
    | nil => exact ⟨s, rfl, h, hend⟩
    | cons x v =>
      rw [List.dropWhile_cons]
      by_cases hx : x = ascii '\r'
      · obtain ⟨s', heq, hs'⟩ := ih (Nat.lt_of_succ_lt_succ hfuel) h.skip hend.skip
        refine ⟨s', ?_, ?_⟩
        · simpa [hx] using heq
        · simpa [hx] using hs'
      · refine ⟨s, ?_, ?_⟩
        · simp [hx]
        · simpa [hx] using ⟨h, hend⟩

theorem stripQuotes_of_ne (h : s.Describes v n) (hend : s.Ends v) (hv : v ≠ [ascii '"']) :
    ∃ s', s.stripQuotes = some s' ∧ s'.Describes (withoutQuotes v) n := by
  rw [stripQuotes, h.readAt_pbuf fun _ => hend]
  cases v with
  | nil => exact ⟨s, rfl, h⟩
  | cons x v =>
    by_cases hx : x = ascii '"'
    · subst hx
      have hne : v ≠ [] := fun hnil => hv (hnil ▸ rfl)
      have hlen : 2 ≤ (ascii '"' :: v).length := Nat.succ_le_succ (List.length_pos_of_ne_nil hne)
      obtain ⟨u, y, rfl⟩ := (List.eq_nil_or_concat' v).resolve_left hne
      have hlast : (ascii '"' :: (u ++ [y])).getLast? = some y := by
        rw [← List.cons_append, List.getLast?_concat]
      rw [h.readAt_last (List.cons_ne_nil _ _), hlast, withoutQuotes, hlast]
      by_cases hy : y = ascii '"'
      · obtain ⟨⟨before, rest, hbuf, hp, hn⟩, hpath⟩ := h.skip
        rw [if_pos ⟨hlen, rfl, by rw [hy]⟩, List.tail_cons, List.dropLast_concat]
        refine ⟨{ s.skip with pathLength := s.pathLength - 2 }, by simp [hy],
          ⟨before, y :: rest, ?_, hp,
          ?_⟩, ?_⟩
        · simpa using hbuf
        · rw [List.length_append] at hn
          omega
        · rw [List.length_append, List.length_singleton] at hpath
          change s.pathLength - 1 = _ at hpath
          change s.pathLength - 2 = _
          omega
      · rw [if_neg (by simp [hy])]
        exact ⟨s, by simp [hy], h⟩
    · rw [withoutQuotes, if_neg (by simp [hx])]
      exact ⟨s, by simp [hx], h⟩

/-- A single quote is taken for a pair. -/
theorem stripQuotes_quote (h : s.Describes [ascii '"'] n) (hend : s.Ends [ascii '"']) :
    ∃ s', s.stripQuotes = some s' ∧ s'.pathLength = -1 ∧ s'.Ends [] := by
  rw [stripQuotes, h.readAt_pbuf fun _ => hend, h.readAt_last (List.cons_ne_nil _ _)]
  refine ⟨{ s.skip with pathLength := s.pathLength - 2 }, by simp, ?_, hend.skip⟩
  change s.pathLength - 2 = _
  rw [h.pathLength]
  rfl

theorem outcome_eq (h : s.Describes v n) :
    s.outcome = some (if v = [] ∨ v.head? = some (ascii ';') then .skipped else .duplicated s) := by
  cases v with
  | nil =>
    rw [outcome, h.pathLength]
    rfl
  | cons x v =>
    have hne : s.pathLength ≠ 0 := by
      rw [h.pathLength, List.length_cons]
      omega
    rw [outcome, if_neg hne, h.readAt_pbuf fun hnil => absurd hnil (List.cons_ne_nil x v)]
    by_cases hx : x = ascii ';'
    · simp [hx]
    · simp [hx]

theorem Describes.take_drop (h : s.Describes v n) : (s.buf.drop s.pbuf).take v.length = v := by
  obtain ⟨before, rest, hbuf, hp, -⟩ := h.split
  rw [hbuf, hp, List.append_assoc, List.drop_left, List.take_left]

theorem Describes.pbuf_add_le (h : s.Describes v n) : s.pbuf + v.length ≤ n := by
  obtain ⟨before, rest, -, hp, hn⟩ := h.split
  rwa [hp]

end LineState

theorem strlen_eq {w : List UInt8} (hw : (0 : UInt8) ∉ w) (rest : List UInt8) :
    strlen (w ++ 0 :: rest) = w.length := by
  have hne : ∀ x ∈ w, decide (x ≠ 0) = true := fun x hx =>
    decide_eq_true fun h0 => hw (h0 ▸ hx)
  rw [strlen, List.takeWhile_append_of_pos hne]
  simp

theorem length_withoutNewline_le (w : List UInt8) : (withoutNewline w).length ≤ w.length := by
  have hlast := (List.dropLast_sublist w).length_le
  rw [withoutNewline]
  split_ifs
  · exact (List.dropLast_sublist _).length_le.trans hlast
  · exact hlast
  · exact le_rfl

variable {w : List UInt8} {fuel : ℕ}

/-- What is left of the line before its quotes are looked at -/
theorem loadLine_eq (hw : (0 : UInt8) ∉ w) (hfuel : w.length < fuel) (rest : List UInt8) :
    ∃ s : LineState, s.Describes (lineBody w) w.length ∧ s.Ends (lineBody w) ∧
      loadLine fuel (w ++ 0 :: rest) = s.stripQuotes.bind LineState.outcome := by
  obtain ⟨hstart, hend⟩ := LineState.describes_start w rest
  obtain ⟨s, heq, hs, hend, -⟩ := LineState.stripNewline_eq hstart hend rfl
  obtain ⟨s', heq', hs', hend'⟩ :=
    LineState.stripPrefix_eq ((length_withoutNewline_le w).trans_lt hfuel) hs hend
  refine ⟨s', hs', hend', ?_⟩
  rw [loadLine, strlen_eq hw, heq]
  change (s.stripPrefix fuel).bind _ = _
  rw [heq']
  rfl

/-- The pointer and the length are those of what the line stands for, unless a single quote is all
that is left of it. -/
theorem loadLine_isFor_iff (hw : (0 : UInt8) ∉ w) (hfuel : w.length < fuel) (rest : List UInt8) :
    (∃ out, loadLine fuel (w ++ 0 :: rest) = some out ∧ out.IsFor w) ↔
      lineBody w ≠ [ascii '"'] := by
  obtain ⟨s, hs, hend, heq⟩ := loadLine_eq hw hfuel rest
  rw [heq]
  constructor
  · rintro ⟨out, hout, hfor⟩ hquote
    rw [hquote] at hs hend
    obtain ⟨s', heq', hlen, hend'⟩ := LineState.stripQuotes_quote hs hend
    have hread : s'.readAt s'.pbuf = some 0 := (s'.readAt_natCast s'.pbuf).trans hend'
    have hdup : s'.outcome = some (.duplicated s') := by
      rw [LineState.outcome, if_neg (by omega), hread]
      rfl
    rw [heq', Option.bind_some, hdup] at hout
    cases hout
    have hpath := hfor.2.2.1
    omega
  · intro hne
    obtain ⟨s', heq', hs'⟩ := LineState.stripQuotes_of_ne hs hend hne
    rw [heq', Option.bind_some, LineState.outcome_eq hs']
    refine ⟨_, rfl, ?_⟩
    split_ifs with hskip
    · exact hskip
    · obtain ⟨hnil, hcomment⟩ := not_or.mp hskip
      exact ⟨hnil, hcomment, hs'.pathLength, hs'.take_drop, hs'.pbuf_add_le⟩

/-- A quoted path behind a carriage return, and at the end of a file -/
theorem loadLine_isFor_iff_quoted :
    (∃ out, loadLine 7 ([13, 34, 47, 97, 34] ++ 0 :: [10, 0]) = some out ∧
        out.IsFor [13, 34, 47, 97, 34]) ↔
      lineBody [13, 34, 47, 97, 34] ≠ [ascii '"'] :=
  loadLine_isFor_iff (by decide) (by decide) [10, 0]

/-- The line is a single quote. -/
theorem loadLine_singleQuote :
    loadLine 3 ([34, 10] ++ 0 :: []) = some (.duplicated ⟨[0, 0, 0], 1, -1⟩) ∧
      ¬ ∃ out, loadLine 3 ([34, 10] ++ 0 :: []) = some out ∧ out.IsFor [34, 10] := by
  have heq : loadLine 3 ([34, 10] ++ 0 :: []) = some (.duplicated ⟨[0, 0, 0], 1, -1⟩) := rfl
  refine ⟨heq, ?_⟩
  rintro ⟨out, hout, hfor⟩
  rw [heq] at hout
  cases hout
  have hlen : (-1 : ℤ) = (strippedLine [34, 10]).length := hfor.2.2.1
  omega

end ZendOpcache
