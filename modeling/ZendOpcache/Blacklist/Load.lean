import Mathlib.Data.List.TakeWhile
import ZendOpcache.Blacklist.Lines
import ZendOpcache.Blacklist.Matching

/-! # Loading the blacklist

`zend_accel_blacklist_load` reads the files that a pattern names. Each line that stands for
something is expanded to an entry, and after each file all entries are compiled anew. Whatever
is left in the buffers, a path is blacklisted if and only if one of its prefixes matches the
expansion of a line of a file.
-/

namespace ZendOpcache

/-- `MAXPATHLEN` -/
def maxPathLen : ℕ := 4096

/-- What `fgets` takes from the rest of a file if there is room for so many characters, and what it
leaves. -/
def fgets : ℕ → List UInt8 → List UInt8 × List UInt8
  | 0, rest => ([], rest)
  | _ + 1, [] => ([], [])
  | n + 1, x :: rest =>
    if x = ascii '\n' then ([x], rest) else (x :: (fgets n rest).1, (fgets n rest).2)

/-- The blacklist. Each element of `regexp_list` is the buffer it was compiled from. -/
structure ZendBlacklist where
  entries : List (List UInt8)
  regexpList : List (List RegexpCell)

/-- What a call of `zend_accel_blacklist_loadone` meets: the bytes of the file, if it can be opened,
its directory, if it has a real path, and the results of the calls of `malloc`. -/
structure BlacklistFile where
  bytes : Option (List UInt8)
  blacklistPath : Option (List UInt8)
  mallocEntry : ℕ → Bool
  mallocRegexp : ℕ → Bool

/-- The variables of the loop over the lines. `realPath` is the string in `real_path`. -/
structure LoadState where
  buf : List UInt8
  realPath : List UInt8
  entries : List (List UInt8)

/-- What is done to a line before it is looked at -/
def stripLine (fuel : ℕ) (buf : List UInt8) : Option LineState := do
  let s ← LineState.stripNewline { buf := buf, pbuf := 0, pathLength := strlen buf }
  let s ← s.stripPrefix fuel
  s.stripQuotes

/-- `zend_strndup` of `pbuf`. A negative length is taken for a very large one. -/
def LineState.zendStrndup (s : LineState) : Option (List UInt8) :=
  if 0 ≤ s.pathLength ∧ s.pbuf + s.pathLength ≤ s.buf.length then
    some ((s.buf.drop s.pbuf).take s.pathLength.toNat)
  else none

/-- `expand_filepath_ex` or, without a directory, `expand_filepath`. Where there is no result,
`real_path` is left as it is. -/
abbrev ExpandFilepath := Option (List UInt8) → List UInt8 → Option (List UInt8)

section Load

variable (expand : ExpandFilepath) (file : BlacklistFile)

/-- One turn of the loop, for the line in the buffer. The flag says if the loop goes on. -/
def loadTurn (s : LoadState) : Option (LoadState × Bool) := do
  let l ← stripLine (maxPathLen + 1) s.buf
  match ← l.outcome with
  | .skipped => return ({ s with buf := l.buf }, true)
  | .duplicated l =>
    let pathDup ← l.zendStrndup
    let realPath := (expand file.blacklistPath pathDup).getD s.realPath
    if file.mallocEntry s.entries.length then
      return (⟨l.buf, realPath, s.entries ++ [realPath]⟩, true)
    else return (⟨l.buf, realPath, s.entries⟩, false)

/-- The loop over the lines of a file, with a bound on their number -/
def loadLines : ℕ → List UInt8 → LoadState → Option (LoadState × Bool)
  | 0, _, _ => none
  | n + 1, rest, s =>
    if rest = [] then some (s, true)
    else do
      let line := (fgets (maxPathLen - 1) rest).1
      let (s, more) ← loadTurn expand file
        { s with buf := line ++ 0 :: s.buf.drop (line.length + 1) }
      if more then loadLines n (fgets (maxPathLen - 1) rest).2 s else return (s, false)

/-- `zend_accel_blacklist_update_regexp` as it changes the blacklist: the list is replaced with the
first expression. -/
def ZendBlacklist.updateRegexp (malloc : ℕ → Bool) (fuel : ℕ) (b : ZendBlacklist) :
    Option ZendBlacklist :=
  if b.entries = [] then some b
  else
    match zendAccelBlacklistUpdateRegexp malloc fuel b.entries with
    | some (.ok ps) | some (.error (.returned ps)) =>
      some { b with regexpList := if ps = [] then b.regexpList else ps }
    | _ => none

/-- `zend_accel_blacklist_loadone`. If there is no memory for an entry, the expressions stay as they
are. -/
def zendAccelBlacklistLoadone (fuel : ℕ) (b : ZendBlacklist) : Option ZendBlacklist :=
  match file.bytes with
  | none => some b
  | some bytes => do
    let (s, complete) ← loadLines expand file (bytes.length + 1) bytes
      ⟨List.replicate (maxPathLen + 1) 0, [], b.entries⟩
    if complete then ZendBlacklist.updateRegexp file.mallocRegexp fuel ⟨s.entries, b.regexpList⟩
    else return ⟨s.entries, b.regexpList⟩

/-- `zend_accel_blacklist_load` of the files that `glob` has found -/
def zendAccelBlacklistLoad (fuel : ℕ) (files : List BlacklistFile) (b : ZendBlacklist) :
    Option ZendBlacklist :=
  files.foldlM (fun b file => zendAccelBlacklistLoadone expand file fuel b) b

end Load

/-! ### What a file stands for -/

/-- The lines of a file, with a bound on their number -/
def fgetsLines : ℕ → List UInt8 → List (List UInt8)
  | 0, _ => []
  | n + 1, rest =>
    if rest = [] then []
    else (fgets (maxPathLen - 1) rest).1 :: fgetsLines n (fgets (maxPathLen - 1) rest).2

/-- The string that a line is -/
def lineString (line : List UInt8) : List UInt8 := line.takeWhile (· ≠ 0)

/-- What a line stands for, if it is not skipped -/
def lineText (line : List UInt8) : Option (List UInt8) :=
  let t := strippedLine (lineString line)
  if t = [] ∨ t.head? = some (ascii ';') then none else some t

/-- What the lines of a file stand for -/
def fileTexts (bytes : List UInt8) : List (List UInt8) :=
  (fgetsLines bytes.length bytes).filterMap lineText

/-- The entries that some texts become. A text that cannot be expanded becomes what the text before
it has become. -/
def textEntries (expand : List UInt8 → Option (List UInt8)) :
    List UInt8 → List (List UInt8) → List (List UInt8)
  | _, [] => []
  | last, t :: ts => (expand t).getD last :: textEntries expand ((expand t).getD last) ts

/-- The entries of a file -/
def BlacklistFile.entries (expand : ExpandFilepath) (file : BlacklistFile) : List (List UInt8) :=
  match file.bytes with
  | none => []
  | some bytes => textEntries (expand file.blacklistPath) [] (fileTexts bytes)

section Lines

variable {n : ℕ} {rest line : List UInt8}

/-- No character is lost. -/
theorem fgets_append (n : ℕ) (rest : List UInt8) : (fgets n rest).1 ++ (fgets n rest).2 = rest := by
  induction n generalizing rest with
  | zero => rfl
  | succ n ih =>
    cases rest with
    | nil => rfl
    | cons x rest =>
      rw [fgets]
      split_ifs
      · rfl
      · exact congrArg (x :: ·) (ih rest)

theorem length_fgets_le (n : ℕ) (rest : List UInt8) : (fgets n rest).1.length ≤ n := by
  induction n generalizing rest with
  | zero => exact le_rfl
  | succ n ih =>
    cases rest with
    | nil => exact Nat.zero_le _
    | cons x rest =>
      rw [fgets]
      split_ifs
      · exact Nat.succ_le_succ (Nat.zero_le n)
      · exact Nat.succ_le_succ (ih rest)

theorem length_fgets_lt (hn : 0 < n) (h : rest ≠ []) : (fgets n rest).2.length < rest.length := by
  obtain ⟨n, rfl⟩ := Nat.exists_eq_succ_of_ne_zero hn.ne'
  obtain ⟨x, rest, rfl⟩ := List.exists_cons_of_ne_nil h
  rw [fgets]
  split_ifs
  · exact Nat.lt_succ_self _
  · have hlen := congrArg List.length (fgets_append n rest)
    rw [List.length_append] at hlen
    change (fgets n rest).2.length < rest.length + 1
    omega

theorem lineString_eq (line : List UInt8) (junk : List UInt8) :
    ∃ rest, line ++ 0 :: junk = lineString line ++ 0 :: rest := by
  have hsplit := List.takeWhile_append_dropWhile (p := fun x : UInt8 => decide (x ≠ 0)) (l := line)
  cases hdrop : line.dropWhile (fun x : UInt8 => decide (x ≠ 0)) with
  | nil =>
    rw [hdrop, List.append_nil] at hsplit
    exact ⟨junk, by rw [lineString, hsplit]⟩
  | cons x u =>
    have hx : x = 0 := by
      have := List.head?_dropWhile_not (fun x : UInt8 => decide (x ≠ 0)) line
      rw [hdrop] at this
      simpa using this
    refine ⟨u ++ 0 :: junk, ?_⟩
    rw [hdrop, hx] at hsplit
    calc line ++ 0 :: junk = (lineString line ++ 0 :: u) ++ 0 :: junk := by rw [lineString, hsplit]
      _ = lineString line ++ 0 :: (u ++ 0 :: junk) := by rw [List.append_assoc, List.cons_append]

theorem zero_notMem_lineString (line : List UInt8) : (0 : UInt8) ∉ lineString line := by
  intro h
  simpa using List.mem_takeWhile_imp h

theorem length_lineString_le (line : List UInt8) : (lineString line).length ≤ line.length :=
  (List.takeWhile_sublist _).length_le

/-- The line is stripped to what it stands for. -/
theorem stripLine_eq {w : List UInt8} {fuel : ℕ} (hw : (0 : UInt8) ∉ w) (hfuel : w.length < fuel)
    (hquote : lineBody w ≠ [ascii '"']) (junk : List UInt8) :
    ∃ s, stripLine fuel (w ++ 0 :: junk) = some s ∧ s.Describes (strippedLine w) w.length := by
  obtain ⟨hstart, hend⟩ := LineState.describes_start w junk
  obtain ⟨s, heq, hs, hend, -⟩ := LineState.stripNewline_eq hstart hend rfl
  obtain ⟨s', heq', hs', hend'⟩ :=
    LineState.stripPrefix_eq ((length_withoutNewline_le w).trans_lt hfuel) hs hend
  obtain ⟨s'', heq'', hs''⟩ := LineState.stripQuotes_of_ne hs' hend' hquote
  refine ⟨s'', ?_, hs''⟩
  rw [stripLine, strlen_eq hw, heq]
  change (s.stripPrefix fuel).bind _ = _
  rw [heq']
  exact heq''

/-- The copy of a line is what the line stands for. -/
theorem LineState.Describes.zendStrndup {s : LineState} {v : List UInt8} (h : s.Describes v n) :
    s.zendStrndup = some v := by
  have hlen : s.pbuf + v.length ≤ s.buf.length := by
    obtain ⟨before, after, hbuf, hp, -⟩ := h.split
    rw [hbuf, hp, List.length_append, List.length_append]
    omega
  rw [LineState.zendStrndup, h.pathLength, Int.toNat_natCast, h.take_drop, if_pos]
  exact ⟨Int.natCast_nonneg _, by exact_mod_cast hlen⟩

/-- One turn: a line that is skipped changes the buffer, and one that is not becomes an entry if
there is memory for it. -/
theorem loadTurn_eq (expand : ExpandFilepath) (file : BlacklistFile) {s : LoadState}
    {junk : List UInt8} (hbuf : s.buf = line ++ 0 :: junk) (hlen : line.length ≤ maxPathLen)
    (hquote : lineBody (lineString line) ≠ [ascii '"']) :
    ∃ buf, loadTurn expand file s =
      match lineText line with
      | none => some ({ s with buf := buf }, true)
      | some t =>
        let realPath := (expand file.blacklistPath t).getD s.realPath
        if file.mallocEntry s.entries.length then
          some (⟨buf, realPath, s.entries ++ [realPath]⟩, true)
        else some (⟨buf, realPath, s.entries⟩, false) := by
  obtain ⟨rest, hrest⟩ := lineString_eq line junk
  have hlt : (lineString line).length < maxPathLen + 1 :=
    Nat.lt_succ_of_le ((length_lineString_le line).trans hlen)
  obtain ⟨l, hstrip, hl⟩ := stripLine_eq (zero_notMem_lineString line) hlt hquote rest
  refine ⟨l.buf, ?_⟩
  rw [loadTurn, hbuf, hrest, hstrip]
  simp only [Option.bind_eq_bind, Option.bind_some, LineState.outcome_eq hl, lineText]
  by_cases hskip : strippedLine (lineString line) = [] ∨
      (strippedLine (lineString line)).head? = some (ascii ';')
  · simp [hskip]
  · simp only [if_neg hskip, hl.zendStrndup, Option.bind_some]
    rfl

end Lines

/-! ### The entries of a file -/

/-- What the loop over the lines has added: all entries, or the first ones if there was no memory
for one. -/
structure LoadedUpTo (file : BlacklistFile) (old added : List (List UInt8))
    (x : LoadState × Bool) : Prop where
  isPrefix : ∃ es, es <+: added ∧ x.1.entries = old ++ es
  complete : x.2 = true → x.1.entries = old ++ added
  memory : (∀ k, file.mallocEntry k = true) → x.2 = true

section Entries

variable {n : ℕ} {rest : List UInt8}

theorem loadLines_eq (expand : ExpandFilepath) (file : BlacklistFile) (hn : rest.length ≤ n)
    (hquote : ∀ line ∈ fgetsLines n rest, lineBody (lineString line) ≠ [ascii '"'])
    (s : LoadState) :
    ∃ x, loadLines expand file (n + 1) rest s = some x ∧
      LoadedUpTo file s.entries
        (textEntries (expand file.blacklistPath) s.realPath
          ((fgetsLines n rest).filterMap lineText)) x := by
  induction n generalizing rest s with
  | zero =>
    obtain rfl := List.eq_nil_of_length_eq_zero (Nat.le_zero.mp hn)
    exact ⟨(s, true), rfl, ⟨[], List.prefix_rfl, (List.append_nil _).symm⟩,
      fun _ => (List.append_nil _).symm, fun _ => rfl⟩
  | succ n ih =>
    by_cases hrest : rest = []
    · subst hrest
      exact ⟨(s, true), rfl, ⟨[], List.prefix_rfl, (List.append_nil _).symm⟩,
        fun _ => (List.append_nil _).symm, fun _ => rfl⟩
    have hlt := length_fgets_lt (show 0 < maxPathLen - 1 by decide) hrest
    have hlines : fgetsLines (n + 1) rest = (fgets (maxPathLen - 1) rest).1 ::
        fgetsLines n (fgets (maxPathLen - 1) rest).2 := if_neg hrest
    rw [hlines] at hquote ⊢
    have hquote' := fun line hline => hquote line (List.mem_cons_of_mem _ hline)
    have hrun : loadLines expand file (n + 1 + 1) rest s =
        (loadTurn expand file { s with
          buf := (fgets (maxPathLen - 1) rest).1 ++
            0 :: s.buf.drop ((fgets (maxPathLen - 1) rest).1.length + 1) }).bind fun x =>
          if x.2 then loadLines expand file (n + 1) (fgets (maxPathLen - 1) rest).2 x.1
          else some (x.1, false) := if_neg hrest
    have hlen : (fgets (maxPathLen - 1) rest).1.length ≤ maxPathLen :=
      (length_fgets_le _ rest).trans (Nat.sub_le _ _)
    obtain ⟨buf, hturn⟩ := loadTurn_eq expand file (s := { s with
      buf := (fgets (maxPathLen - 1) rest).1 ++
        0 :: s.buf.drop ((fgets (maxPathLen - 1) rest).1.length + 1) }) rfl hlen
      (hquote _ List.mem_cons_self)
    rw [hrun, hturn]
    cases htext : lineText (fgets (maxPathLen - 1) rest).1 with
    | none =>
      rw [List.filterMap_cons_none htext]
      exact ih (by omega) hquote' { s with buf := buf }
    | some t =>
      rw [List.filterMap_cons_some htext, textEntries]
      dsimp only
      cases hmalloc : file.mallocEntry s.entries.length with
      | false =>
        refine ⟨_, rfl, ⟨[], List.nil_prefix, (List.append_nil _).symm⟩, fun h => ?_, fun h => ?_⟩
        · cases h
        · exact absurd (h s.entries.length) (by simp [hmalloc])
      | true =>
        obtain ⟨x, hx, ⟨es, hes, hadded⟩, hcomplete, hmemory⟩ := ih (by omega) hquote'
          ⟨buf, (expand file.blacklistPath t).getD s.realPath,
            s.entries ++ [(expand file.blacklistPath t).getD s.realPath]⟩
        refine ⟨x, hx, ⟨_ :: es, List.cons_prefix_cons.mpr ⟨rfl, hes⟩, ?_⟩, fun h => ?_, hmemory⟩
        · rw [hadded, List.append_assoc, List.singleton_append]
        · rw [hcomplete h, List.append_assoc, List.singleton_append]

/-- The entries of some texts, the first of which can be expanded, are the expansions. -/
theorem mem_textEntries {expand : List UInt8 → Option (List UInt8)} {ts : List (List UInt8)}
    (h : ∀ t, ts.head? = some t → (expand t).isSome) (last c : List UInt8) :
    c ∈ textEntries expand last ts ↔ ∃ t ∈ ts, expand t = some c := by
  have hrest : ∀ (ts : List (List UInt8)) (last : List UInt8),
      c ∈ last :: textEntries expand last ts ↔ c = last ∨ ∃ t ∈ ts, expand t = some c := by
    intro ts
    induction ts with
    | nil => simp [textEntries]
    | cons t ts ih =>
      intro last
      rw [textEntries, List.mem_cons, ih]
      cases ht : expand t with
      | none => simp [ht]
      | some d => simp [ht, eq_comm]
  cases ts with
  | nil => simp [textEntries]
  | cons t ts =>
    obtain ⟨d, hd⟩ := Option.isSome_iff_exists.mp (h t rfl)
    rw [textEntries, hd, Option.getD_some, hrest]
    simp [hd, eq_comm]

end Entries

/-! ### The expressions after some files -/

/-- An entry that the buffer has room for -/
structure UsableEntry (c : List UInt8) : Prop where
  ne_nil : c ≠ []
  zero_notMem : (0 : UInt8) ∉ c
  fits : Fits 2 c

/-- A file of which each line is stripped as it should be, each expansion can be translated, and the
first text can be expanded. -/
structure BlacklistFile.Loadable (expand : ExpandFilepath) (file : BlacklistFile)
    (bytes : List UInt8) : Prop where
  quote : ∀ line ∈ fgetsLines bytes.length bytes, lineBody (lineString line) ≠ [ascii '"']
  first : ∀ t, (fileTexts bytes).head? = some t → (expand file.blacklistPath t).isSome
  usable : ∀ t ∈ fileTexts bytes, ∀ c, expand file.blacklistPath t = some c → UsableEntry c

/-- No call of `malloc` fails. -/
def BlacklistFile.EnoughMemory (file : BlacklistFile) : Prop :=
  (∀ k, file.mallocEntry k = true) ∧ ∀ k, file.mallocRegexp k = true

/-- One of the prefixes of a path matches the expansion of a line of one of the files. -/
def MatchesLine (expand : ExpandFilepath) (files : List BlacklistFile) (path : List UInt8) : Prop :=
  ∃ file ∈ files, ∃ bytes, file.bytes = some bytes ∧ ∃ t ∈ fileTexts bytes,
    ∃ c, expand file.blacklistPath t = some c ∧ ∃ w, w <+: path ∧ GlobMatches c w

namespace ZendBlacklist

/-- The expressions are those of the given entries, each entry once. -/
def CompiledFrom (b : ZendBlacklist) (es : List (List UInt8)) : Prop :=
  ∃ gs, (∀ g ∈ gs, g ≠ []) ∧ b.regexpList = roundPatterns gs ∧ gs.flatten = es

/-- All entries can be translated, and the expressions are those of the first entries. -/
structure Inv (b : ZendBlacklist) : Prop where
  usable : ∀ c ∈ b.entries, UsableEntry c
  compiled : ∃ es, es <+: b.entries ∧ b.CompiledFrom es

variable {b : ZendBlacklist} {malloc : ℕ → Bool}

theorem inv_init : Inv ⟨[], []⟩ where
  usable _ h := by cases h
  compiled := ⟨[], List.prefix_rfl, [], by simp, rfl, rfl⟩

theorem loop_mono {entries : List (List UInt8)} {s : UpdateState} {n m : ℕ} (hnm : n ≤ m)
    {r : Except UpdateExit (List (List RegexpCell))}
    (h : UpdateState.loop malloc entries n s = some r) :
    UpdateState.loop malloc entries m s = some r := by
  induction n generalizing s m with
  | zero => cases h
  | succ n ih =>
    obtain ⟨m, rfl⟩ : ∃ k, m = k + 1 := ⟨m - 1, by omega⟩
    rw [UpdateState.loop] at h ⊢
    cases hc : entries[s.i]? with
    | none => simpa only [hc] using h
    | some c =>
      simp only [hc] at h ⊢
      cases hturn : UpdateState.turn malloc entries s c with
      | error e => simpa only [hturn] using h
      | ok s' =>
        simp only [hturn] at h ⊢
        exact ih (Nat.le_of_succ_le_succ hnm) h

/-- The entries are compiled anew, as far as there is memory. -/
theorem Inv.updateRegexp (h : Inv b) (malloc : ℕ → Bool) :
    ∃ n b', (∀ fuel, n ≤ fuel → b.updateRegexp malloc fuel = some b') ∧ Inv b' ∧
      b'.entries = b.entries ∧ ((∀ k, malloc k = true) → b'.CompiledFrom b.entries) := by
  by_cases hnil : b.entries = []
  · refine ⟨0, b, fun fuel _ => if_pos hnil, h, rfl, fun _ => ?_⟩
    obtain ⟨es, hes, hcompiled⟩ := h.compiled
    rw [hnil] at hes ⊢
    rwa [List.prefix_nil.mp hes] at hcompiled
  have hfill : FillsWithin updateStart.p b.entries :=
    fillsWithin_of_fits (by decide) (fun c hc => (h.usable c hc).ne_nil)
      fun c hc => (h.usable c hc).fits
  have hcompiles : UpdateState.Compiles malloc b.entries updateStart :=
    (UpdateState.atHead_start b.entries).compiles (fun c hc => (h.usable c hc).zero_notMem)
      (fun _ => rfl) (fun c hc => (h.usable c hc).fits) hfill
  obtain ⟨gs, hgs, ⟨hflat, n, hloop⟩ | ⟨⟨k, hk⟩, hprefix, n, hloop⟩⟩ := hcompiles
  · have hpatterns : roundPatterns gs ≠ [] := by
      intro hempty
      obtain rfl : gs = [] := by simpa [roundPatterns] using hempty
      exact hnil hflat.symm
    refine ⟨n, ⟨b.entries, roundPatterns gs⟩, fun fuel hfuel => ?_, ⟨h.usable, b.entries,
      List.prefix_rfl, gs, hgs, rfl, hflat⟩, rfl, fun _ => ⟨gs, hgs, rfl, hflat⟩⟩
    rw [ZendBlacklist.updateRegexp, if_neg hnil, zendAccelBlacklistUpdateRegexp,
      loop_mono hfuel hloop]
    simp [hpatterns]
  · refine ⟨n, ⟨b.entries, if roundPatterns gs = [] then b.regexpList else roundPatterns gs⟩,
      fun fuel hfuel => ?_, ⟨h.usable, ?_⟩, rfl, fun hmalloc => ?_⟩
    · rw [ZendBlacklist.updateRegexp, if_neg hnil, zendAccelBlacklistUpdateRegexp,
        loop_mono hfuel hloop]
    · split_ifs with hempty
      · exact h.compiled
      · exact ⟨gs.flatten, hprefix, gs, hgs, rfl, rfl⟩
    · exact absurd (hmalloc k) (by simp [hk])

theorem Inv.loadone {expand : ExpandFilepath} {file : BlacklistFile} (h : Inv b)
    (hfile : ∀ bytes, file.bytes = some bytes → file.Loadable expand bytes) :
    ∃ n b', (∀ fuel, n ≤ fuel → zendAccelBlacklistLoadone expand file fuel b = some b') ∧ Inv b' ∧
      (∀ c ∈ b'.entries, c ∈ b.entries ∨ c ∈ file.entries expand) ∧
      (file.EnoughMemory → b.CompiledFrom b.entries → b'.CompiledFrom b'.entries ∧
        b'.entries = b.entries ++ file.entries expand) := by
  cases hbytes : file.bytes with
  | none =>
    refine ⟨0, b, fun fuel _ => ?_, h, fun c hc => .inl hc, fun _ hall => ⟨hall, ?_⟩⟩
    · rw [zendAccelBlacklistLoadone, hbytes]
    · rw [BlacklistFile.entries, hbytes, List.append_nil]
  | some bytes =>
    have hload := hfile bytes hbytes
    have hentries : file.entries expand =
        textEntries (expand file.blacklistPath) [] (fileTexts bytes) := by
      rw [BlacklistFile.entries, hbytes]
    obtain ⟨⟨s, complete⟩, hrun, ⟨es, hes, hadded⟩, hcomplete, hmemory⟩ :=
      loadLines_eq expand file le_rfl hload.quote
        ⟨List.replicate (maxPathLen + 1) 0, [], b.entries⟩
    rw [← fileTexts, ← hentries] at hes hcomplete
    -- the entries of the file as far as they are there
    have husable : ∀ c ∈ s.entries, UsableEntry c := by
      intro c hc
      rcases List.mem_append.mp (hadded ▸ hc) with hc | hc
      · exact h.usable c hc
      · obtain ⟨t, ht, heq⟩ := (mem_textEntries hload.first [] c).mp (hentries ▸ hes.subset hc)
        exact hload.usable t ht c heq
    have hinv : Inv ⟨s.entries, b.regexpList⟩ := by
      obtain ⟨fs, hfs, hcompiled⟩ := h.compiled
      refine ⟨husable, fs, hfs.trans ?_, hcompiled⟩
      exact hadded ▸ List.prefix_append _ _
    have hsub : ∀ c ∈ s.entries, c ∈ b.entries ∨ c ∈ file.entries expand := by
      intro c hc
      exact (List.mem_append.mp (hadded ▸ hc)).imp_right fun hc => hes.subset hc
    cases complete with
    | false =>
      refine ⟨0, ⟨s.entries, b.regexpList⟩, fun fuel _ => ?_, hinv, hsub, fun hmem _ => ?_⟩
      · rw [zendAccelBlacklistLoadone, hbytes]
        simp [hrun]
      · exact absurd (hmemory hmem.1) Bool.false_ne_true
    | true =>
      obtain ⟨n, b', hupdate, hinv', heq, hall⟩ := hinv.updateRegexp file.mallocRegexp
      have hsub' : ∀ c ∈ b'.entries, c ∈ b.entries ∨ c ∈ file.entries expand := by
        rw [heq]
        exact hsub
      refine ⟨n, b', fun fuel hfuel => ?_, hinv', hsub', fun hmem _ => ?_⟩
      · rw [zendAccelBlacklistLoadone, hbytes]
        simpa [hrun] using hupdate fuel hfuel
      · exact ⟨heq ▸ hall hmem.2, heq.trans (hcomplete rfl)⟩

/-- After some files, the expressions are those of their entries. -/
theorem Inv.load {expand : ExpandFilepath} {files : List BlacklistFile} (h : Inv b)
    (hfiles : ∀ file ∈ files, ∀ bytes, file.bytes = some bytes → file.Loadable expand bytes) :
    ∃ n b', (∀ fuel, n ≤ fuel → zendAccelBlacklistLoad expand fuel files b = some b') ∧ Inv b' ∧
      (∀ c ∈ b'.entries, c ∈ b.entries ∨ ∃ file ∈ files, c ∈ file.entries expand) ∧
      ((∀ file ∈ files, file.EnoughMemory) → b.CompiledFrom b.entries →
        b'.CompiledFrom b'.entries ∧
          b'.entries = b.entries ++ files.flatMap (·.entries expand)) := by
  induction files generalizing b with
  | nil =>
    refine ⟨0, b, fun _ _ => rfl, h, fun c hc => .inl hc, fun _ hall => ⟨hall, ?_⟩⟩
    rw [List.flatMap_nil, List.append_nil]
  | cons file files ih =>
    obtain ⟨n, b₁, hone, hinv, hsub, hmem⟩ := h.loadone (hfiles file List.mem_cons_self)
    obtain ⟨m, b₂, hrest, hinv', hsub', hmem'⟩ :=
      ih hinv fun f hf => hfiles f (List.mem_cons_of_mem file hf)
    refine ⟨max n m, b₂, fun fuel hfuel => ?_, hinv', fun c hc => ?_, fun hmalloc hall => ?_⟩
    · have hfirst := hone fuel ((le_max_left n m).trans hfuel)
      rw [zendAccelBlacklistLoad, List.foldlM_cons, hfirst]
      exact hrest fuel ((le_max_right n m).trans hfuel)
    · rcases hsub' c hc with hc | ⟨f, hf, hc⟩
      · exact (hsub c hc).imp_right fun hc => ⟨file, List.mem_cons_self, hc⟩
      · exact .inr ⟨f, List.mem_cons_of_mem file hf, hc⟩
    · obtain ⟨hall', heq⟩ := hmem (hmalloc file List.mem_cons_self) hall
      obtain ⟨hall'', heq'⟩ := hmem' (fun f hf => hmalloc f (List.mem_cons_of_mem file hf)) hall'
      exact ⟨hall'', by rw [heq', heq, List.append_assoc, List.flatMap_cons]⟩

end ZendBlacklist

open ZendBlacklist

theorem mem_entries {expand : ExpandFilepath} {file : BlacklistFile}
    (hfile : ∀ bytes, file.bytes = some bytes → file.Loadable expand bytes) (c : List UInt8) :
    c ∈ file.entries expand ↔ ∃ bytes, file.bytes = some bytes ∧
      ∃ t ∈ fileTexts bytes, expand file.blacklistPath t = some c := by
  rw [BlacklistFile.entries]
  cases hbytes : file.bytes with
  | none => simp
  | some bytes => simp [mem_textEntries (hfile bytes hbytes).first]

/-- Whatever is in the files, `zend_accel_blacklist_load` comes to an end. Then a path is
blacklisted only if one of its prefixes matches the expansion of a line, and if there was enough
memory, whenever one does. -/
theorem isBlacklisted_of_load {expand : ExpandFilepath} {files : List BlacklistFile}
    (hfiles : ∀ file ∈ files, ∀ bytes, file.bytes = some bytes → file.Loadable expand bytes) :
    ∃ n b, (∀ fuel, n ≤ fuel → zendAccelBlacklistLoad expand fuel files ⟨[], []⟩ = some b) ∧
      ∀ path, ∃ r, zendAccelBlacklistIsBlacklisted (b.regexpList.map compRegex) path = some r ∧
        (r = true → MatchesLine expand files path) ∧
        ((∀ file ∈ files, file.EnoughMemory) → MatchesLine expand files path → r = true) := by
  obtain ⟨n, b, hload, hinv, hsub, hmem⟩ := inv_init.load hfiles
  refine ⟨n, b, hload, fun path => ?_⟩
  obtain ⟨es, hes, gs, hgs, hlist, hflat⟩ := hinv.compiled
  have hne : ∀ c ∈ gs.flatten, c ≠ [] := fun c hc =>
    (hinv.usable c (hes.subset (hflat ▸ hc))).ne_nil
  obtain ⟨r, hr, hiff⟩ := decides_roundPatterns hgs hne path
  refine ⟨r, hlist ▸ hr, fun htrue => ?_, fun hmemory hmatch => ?_⟩
  · obtain ⟨c, hc, hw⟩ := hiff.mp htrue
    rcases hsub c (hes.subset (hflat ▸ hc)) with hc | ⟨file, hfile, hc⟩
    · cases hc
    · obtain ⟨bytes, hbytes, t, ht, hexpand⟩ := (mem_entries (hfiles file hfile) c).mp hc
      exact ⟨file, hfile, bytes, hbytes, t, ht, c, hexpand, hw⟩
  · obtain ⟨file, hfile, bytes, hbytes, t, ht, c, hexpand, hw⟩ := hmatch
    obtain ⟨⟨gs', hgs', hlist', hflat'⟩, heq⟩ := hmem hmemory ⟨[], by simp, rfl, rfl⟩
    have hc : c ∈ gs'.flatten := by
      rw [hflat', heq, List.nil_append]
      exact List.mem_flatMap.mpr ⟨file, hfile, (mem_entries (hfiles file hfile) c).mpr
        ⟨bytes, hbytes, t, ht, hexpand⟩⟩
    have hne' : ∀ c ∈ gs'.flatten, c ≠ [] := fun c hc => (hinv.usable c (hflat' ▸ hc)).ne_nil
    obtain ⟨r', hr', hiff'⟩ := decides_roundPatterns hgs' hne' path
    obtain rfl : r' = r := by
      rw [← hlist', hlist] at hr'
      exact Option.some.inj (hr'.symm.trans hr)
    exact hiff'.mpr ⟨c, hc, hw⟩

/-- A comment, `"a*.inc"` with its quotes, an empty line and `/b**` without a line feed, in a file
of `/d` -/
def wildcardsFile : BlacklistFile where
  bytes := some [59, 32, 120, 10, 34, 97, 42, 46, 105, 110, 99, 34, 13, 10, 10, 47, 98, 42, 42]
  blacklistPath := some [47, 100]
  mallocEntry _ := true
  mallocRegexp _ := true

/-- The path `/bc` is blacklisted by the last line. -/
theorem isBlacklisted_of_load_wildcardsFile :
    let expand : ExpandFilepath := fun dir t =>
      if t.head? = some (ascii '/') then some t else dir.map (· ++ ascii '/' :: t)
    ∃ n b, (∀ fuel, n ≤ fuel →
        zendAccelBlacklistLoad expand fuel [wildcardsFile] ⟨[], []⟩ = some b) ∧
      zendAccelBlacklistIsBlacklisted (b.regexpList.map compRegex) [47, 98, 99] = some true := by
  intro expand
  have htexts : fileTexts
      [59, 32, 120, 10, 34, 97, 42, 46, 105, 110, 99, 34, 13, 10, 10, 47, 98, 42, 42] =
        [[97, 42, 46, 105, 110, 99], [47, 98, 42, 42]] := by decide +kernel
  have hfiles : ∀ file ∈ [wildcardsFile], ∀ bytes, file.bytes = some bytes →
      file.Loadable expand bytes := by
    rintro file hfile bytes hbytes
    obtain rfl := List.mem_singleton.mp hfile
    obtain rfl := Option.some.inj hbytes
    refine ⟨by decide +kernel, fun t ht => ?_, fun t ht c hc => ?_⟩
    · rw [htexts] at ht
      obtain rfl := Option.some.inj ht
      rfl
    · rw [htexts] at ht
      rcases List.mem_cons.mp ht with rfl | ht
      · obtain rfl := Option.some.inj hc
        exact ⟨by decide, by decide, by decide⟩
      · obtain rfl := List.mem_singleton.mp ht
        obtain rfl := Option.some.inj hc
        exact ⟨by decide, by decide, by decide⟩
  obtain ⟨n, b, hload, hpath⟩ := isBlacklisted_of_load hfiles
  obtain ⟨r, hr, -, hmatch⟩ := hpath [47, 98, 99]
  refine ⟨n, b, hload, ?_⟩
  rw [hr, hmatch]
  · intro file hfile
    obtain rfl := List.mem_singleton.mp hfile
    exact ⟨fun _ => rfl, fun _ => rfl⟩
  · refine ⟨wildcardsFile, by simp, _, rfl, [47, 98, 42, 42], by rw [htexts]; simp,
      [47, 98, 42, 42], rfl, [47, 98, 99], List.prefix_rfl, ?_⟩
    exact .char (by decide) (by decide) (.char (by decide) (by decide) (.any [99] .nil))

end ZendOpcache
