import ZendOpcache.Cache.IncludeRun

/-! # The keys of scripts

The key of a script joins the current directory, the requested name, the directory of the
executed script and the `include_path` with colons. It separates two requests exactly when no colon
inside of a part lets the parts be split in another way, and no letter of a path is the text of
another.
-/

namespace ZendOpcache

/-- A request for a script. -/
structure LookupContext (paths : List (List Char)) where
  cwd : List Char
  filename : List Char
  /-- the executed file, if there is one -/
  script : Option (List Char)
  script_ne : script ≠ some []
  includePath : List Char
  /-- the number of the path in the table, if the process uses its letter -/
  registered : Option ℕ
  registered_path : ∀ i, registered = some i → i < 53 ∧ paths[i]? = some includePath

/-- `IS_ABSOLUTE_PATH` -/
def isAbsolutePath (filename : List Char) : Bool := filename.head? == some '/'

/-- The characters of a scheme -/
def isSchemeChar (c : Char) : Bool := c.isAlphanum || c == '+' || c == '-' || c == '.'

def isStreamPath (filename : List Char) : Bool :=
  let n := (filename.takeWhile isSchemeChar).length
  1 < n && (filename.drop n).take 3 == [':', '/', '/']

/-- The loop of `accel_make_persistent_key_ex` from the end of a name that is not empty. -/
def parentScriptLen (script : List Char) : ℕ → ℕ
  | 0 => 0
  | n + 1 => if 0 < n ∧ script[n]? ≠ some '/' then parentScriptLen script n else n

/-- The size of the buffer for keys, with a `MAXPATHLEN` of 4096 -/
def keySize : ℕ := 4096 * 8

namespace LookupContext

variable {paths : List (List Char)}

/-- The part of the key that stands for the `include_path`. -/
def part (x : LookupContext paths) : List Char :=
  match x.registered with
  | some i => [pathLetter i]
  | none => x.includePath

/-- The name is neither absolute nor that of a stream. -/
def relative (x : LookupContext paths) : Bool :=
  !isAbsolutePath x.filename && !isStreamPath x.filename

/-- `accel_make_persistent_key_ex`, which has no value where the key does not fit the buffer -/
def accelMakePersistentKeyEx (useCwd : Bool) (x : LookupContext paths) : Option (List Char) :=
  let key :=
    if useCwd && x.relative then
      let parent := match x.script with
        | some script =>
          if script.head? = some '[' then [] else script.take (parentScriptLen script script.length)
        | none => []
      x.cwd ++ [':'] ++ x.filename ++ [':'] ++
        (if parent = [] then [] else parent ++ [':']) ++ x.part
    else x.filename
  if keySize ≤ key.length then none else some key

end LookupContext

/-- The loop of `accel_php_resolve_path`. -/
def lastSlash (script : List Char) : ℕ → Option ℕ
  | 0 => none
  | n + 1 => if script[n]? = some '/' then some n else lastSlash script n

/-- The directory that `accel_php_resolve_path` searches last -/
def scriptDirectory (script : Option (List Char)) : Option (List Char) :=
  script.bind fun s =>
    if s.head? = some '[' then none
    else (lastSlash s s.length).bind fun n => if 0 < n then some (s.take n) else none

/-- The text before a colon goes on after the one of the other side, with all of it. -/
def Shifts (a b a' b' : List Char) : Prop := ∃ r, a = a' ++ ':' :: r ∧ r ++ ':' :: b = b'

/-- A text with a colon, split in two ways. -/
theorem append_colon_eq_iff {a b a' b' : List Char} :
    a ++ ':' :: b = a' ++ ':' :: b' ↔ (a = a' ∧ b = b') ∨ Shifts a b a' b' ∨ Shifts a' b' a b := by
  constructor
  · intro h
    rcases List.append_eq_append_iff.mp h with ⟨r, rfl, hr⟩ | ⟨r, rfl, hr⟩
    · cases r with
      | nil => exact .inl ⟨by simp, by simpa using hr⟩
      | cons c r =>
        obtain ⟨rfl, rfl⟩ := List.cons.inj hr
        exact .inr (.inr ⟨r, rfl, rfl⟩)
    · cases r with
      | nil => exact .inl ⟨by simp, by simpa using hr.symm⟩
      | cons c r =>
        obtain ⟨rfl, rfl⟩ := List.cons.inj hr
        exact .inr (.inl ⟨r, rfl, rfl⟩)
  · rintro (⟨rfl, rfl⟩ | ⟨r, rfl, rfl⟩ | ⟨r, rfl, rfl⟩)
    · rfl
    · simp
    · simp

theorem Shifts.ne {a b a' b' : List Char} (h : Shifts a b a' b') : a ≠ a' := by
  rintro rfl
  obtain ⟨r, hr, -⟩ := h
  simpa using congrArg List.length hr

/-- The two loops find the same slash. -/
theorem parentScriptLen_eq (script : List Char) (n : ℕ) :
    parentScriptLen script n = (lastSlash script n).getD 0 := by
  induction n with
  | zero => rfl
  | succ n ih =>
    unfold parentScriptLen lastSlash
    by_cases hslash : script[n]? = some '/'
    · simp [hslash]
    · rcases Nat.eq_zero_or_pos n with rfl | hn
      · simp [hslash, lastSlash]
      · simp [hslash, hn, ih]

namespace LookupContext

variable {paths : List (List Char)} (x y : LookupContext paths)

def directory : Option (List Char) := scriptDirectory x.script

/-- The key after the name. -/
def tail : List Char :=
  match x.directory with
  | some d => d ++ ':' :: x.part
  | none => x.part

/-- The key after the current directory. -/
def rest : List Char := x.filename ++ ':' :: x.tail

/-- One has the letter of its path, and the other the same letter as the text of its own. -/
def LetterAsText : Prop :=
  x.includePath ≠ y.includePath ∧ ∃ i, x.registered = some i ∧ y.registered = none ∧
    y.includePath = [pathLetter i]

/-- The parts after the name can be taken for those of another request. -/
def TailConfused : Prop :=
  match x.directory, y.directory with
  | some d, some d' => Shifts d x.part d' y.part ∨ Shifts d' y.part d x.part ∨
      d = d' ∧ (x.LetterAsText y ∨ y.LetterAsText x)
  | none, some d' => x.part = d' ++ ':' :: y.part
  | some d, none => y.part = d ++ ':' :: x.part
  | none, none => x.LetterAsText y ∨ y.LetterAsText x

/-- The parts of one request can be taken for those of another. -/
def Confused : Prop :=
  match x.relative, y.relative with
  | true, true =>
    Shifts x.cwd x.rest y.cwd y.rest ∨ Shifts y.cwd y.rest x.cwd x.rest ∨
    x.cwd = y.cwd ∧ (Shifts x.filename x.tail y.filename y.tail ∨
      Shifts y.filename y.tail x.filename x.tail ∨ x.filename = y.filename ∧ x.TailConfused y)
  | true, false => y.filename = x.cwd ++ ':' :: x.rest
  | false, true => x.filename = y.cwd ++ ':' :: y.rest
  | false, false => False

/-- The requests are for the same script: for absolute names and streams nothing but the name
matters. -/
def SameRequest : Prop :=
  match x.relative, y.relative with
  | true, true => x.cwd = y.cwd ∧ x.filename = y.filename ∧ x.directory = y.directory ∧
      x.includePath = y.includePath
  | false, false => x.filename = y.filename
  | _, _ => False

variable {x y}

theorem lastSlash_lt {script : List Char} {m : ℕ} : ∀ {n : ℕ}, lastSlash script n = some m → m < n
  | 0, h => by simp [lastSlash] at h
  | n + 1, h => by
    unfold lastSlash at h
    split_ifs at h
    · obtain rfl := Option.some.inj h
      omega
    · have := lastSlash_lt h
      omega

theorem directory_ne_nil {d : List Char} (h : x.directory = some d) : d ≠ [] := by
  simp only [directory, scriptDirectory, Option.bind_eq_some_iff] at h
  obtain ⟨s, -, h⟩ := h
  split_ifs at h
  obtain ⟨n, hn, h⟩ := Option.bind_eq_some_iff.mp h
  split_ifs at h with hpos
  obtain rfl := Option.some.inj h
  have hlt := lastSlash_lt hn
  intro hnil
  have hlen := congrArg List.length hnil
  rw [List.length_take, List.length_nil] at hlen
  omega

/-- The directory in the key is the one that is searched. -/
theorem parent_eq : (match x.script with
    | some script =>
      if script.head? = some '[' then [] else script.take (parentScriptLen script script.length)
    | none => []) = x.directory.getD [] := by
  unfold directory scriptDirectory
  cases x.script with
  | none => rfl
  | some script =>
    simp only [Option.bind_some, parentScriptLen_eq]
    split_ifs
    · rfl
    · cases lastSlash script script.length with
      | none => simp
      | some n =>
        rcases Nat.eq_zero_or_pos n with rfl | hn
        · simp
        · simp [hn]

/-- The key of a relative name. -/
theorem key_of_relative (h : x.relative = true) : x.accelMakePersistentKeyEx true =
    if keySize ≤ (x.cwd ++ ':' :: x.rest).length then none else some (x.cwd ++ ':' :: x.rest) := by
  have hkey : x.cwd ++ [':'] ++ x.filename ++ [':'] ++ (if x.directory.getD [] = [] then []
      else x.directory.getD [] ++ [':']) ++ x.part = x.cwd ++ ':' :: x.rest := by
    unfold rest tail
    cases hd : x.directory with
    | none => simp
    | some d => simp [directory_ne_nil hd]
  unfold accelMakePersistentKeyEx
  dsimp only
  rw [parent_eq, hkey]
  simp only [h, Bool.and_self, if_true]

theorem key_of_absolute (h : x.relative = false) : x.accelMakePersistentKeyEx true =
    if keySize ≤ x.filename.length then none else some x.filename := by
  simp [accelMakePersistentKeyEx, h]

theorem LetterAsText.part_eq (h : x.LetterAsText y) : x.part = y.part := by
  obtain ⟨-, i, hx, hy, htext⟩ := h
  simp [part, hx, hy, htext]

/-- Equal parts stand for equal paths, or a letter is taken for a text. -/
theorem includePath_of_part (h : x.part = y.part) :
    x.includePath = y.includePath ∨ x.LetterAsText y ∨ y.LetterAsText x := by
  by_cases hpath : x.includePath = y.includePath
  · exact .inl hpath
  refine .inr ?_
  unfold part at h
  cases hx : x.registered with
  | none =>
    cases hy : y.registered with
    | none => exact absurd (by simpa [hx, hy] using h) hpath
    | some j => exact .inr ⟨Ne.symm hpath, j, hy, hx, by simpa [hx, hy] using h⟩
  | some i =>
    cases hy : y.registered with
    | none => exact .inl ⟨hpath, i, hx, hy, by simpa [hx, hy] using h.symm⟩
    | some j =>
      obtain ⟨hi, hpx⟩ := x.registered_path i hx
      obtain ⟨hj, hpy⟩ := y.registered_path j hy
      obtain rfl := pathLetter_inj hi hj (by simpa [hx, hy] using h)
      exact absurd (Option.some.inj (hpx.symm.trans hpy)) hpath

theorem tailConfused_of_eq (h : x.tail = y.tail) :
    (x.directory = y.directory ∧ x.includePath = y.includePath) ∨ x.TailConfused y := by
  unfold tail at h
  unfold TailConfused
  cases hx : x.directory with
  | none =>
    cases hy : y.directory with
    | none =>
      rw [hx, hy] at h
      exact (includePath_of_part h).imp_left fun hp => ⟨rfl, hp⟩
    | some d' =>
      rw [hx, hy] at h
      exact .inr h
  | some d =>
    cases hy : y.directory with
    | none =>
      rw [hx, hy] at h
      exact .inr h.symm
    | some d' =>
      rw [hx, hy] at h
      rcases append_colon_eq_iff.mp h with ⟨rfl, hpart⟩ | hshift | hshift
      · rcases includePath_of_part hpart with hp | hletter
        · exact .inl ⟨rfl, hp⟩
        · exact .inr (.inr (.inr ⟨rfl, hletter⟩))
      · exact .inr (.inl hshift)
      · exact .inr (.inr (.inl hshift))

theorem TailConfused.tail_eq (h : x.TailConfused y) : x.tail = y.tail ∧
    ¬ (x.directory = y.directory ∧ x.includePath = y.includePath) := by
  have hletter : x.LetterAsText y ∨ y.LetterAsText x → x.part = y.part ∧
      x.includePath ≠ y.includePath := by
    rintro (h | h)
    · exact ⟨h.part_eq, h.1⟩
    · exact ⟨h.part_eq.symm, h.1.symm⟩
  unfold TailConfused at h
  unfold tail
  cases hx : x.directory with
  | none =>
    cases hy : y.directory with
    | none =>
      rw [hx, hy] at h
      exact ⟨(hletter h).1, fun hsame => (hletter h).2 hsame.2⟩
    | some d' =>
      rw [hx, hy] at h
      exact ⟨h, by simp⟩
  | some d =>
    cases hy : y.directory with
    | none =>
      rw [hx, hy] at h
      exact ⟨h.symm, by simp⟩
    | some d' =>
      rw [hx, hy] at h
      rcases h with hshift | hshift | ⟨rfl, h⟩
      · exact ⟨append_colon_eq_iff.mpr (.inr (.inl hshift)),
          fun hsame => hshift.ne (by simpa using hsame.1)⟩
      · exact ⟨append_colon_eq_iff.mpr (.inr (.inr hshift)),
          fun hsame => hshift.ne (by simpa using hsame.1.symm)⟩
      · exact ⟨by rw [(hletter h).1], fun hsame => (hletter h).2 hsame.2⟩

/-- The keys of two relative names. -/
theorem relative_eq_iff (hx : x.relative = true) (hy : y.relative = true) :
    (x.cwd ++ ':' :: x.rest = y.cwd ++ ':' :: y.rest → x.SameRequest y) ↔ ¬ x.Confused y := by
  unfold SameRequest Confused
  rw [hx, hy]
  dsimp only
  constructor
  · rintro h (hshift | hshift | ⟨hcwd, hshift | hshift | ⟨hname, htail⟩⟩)
    · exact hshift.ne (h (append_colon_eq_iff.mpr (.inr (.inl hshift)))).1
    · exact hshift.ne (h (append_colon_eq_iff.mpr (.inr (.inr hshift)))).1.symm
    · have hrest : x.rest = y.rest := append_colon_eq_iff.mpr (.inr (.inl hshift))
      exact hshift.ne (h (by rw [hcwd, hrest])).2.1
    · have hrest : x.rest = y.rest := append_colon_eq_iff.mpr (.inr (.inr hshift))
      exact hshift.ne (h (by rw [hcwd, hrest])).2.1.symm
    · obtain ⟨heq, hne⟩ := htail.tail_eq
      exact hne (h (by rw [hcwd, rest, rest, hname, heq])).2.2
  · intro h hkey
    rcases append_colon_eq_iff.mp hkey with ⟨hcwd, hrest⟩ | hshift | hshift
    · rcases append_colon_eq_iff.mp hrest with ⟨hname, htail⟩ | hshift | hshift
      · rcases tailConfused_of_eq htail with hsame | hconf
        · exact ⟨hcwd, hname, hsame⟩
        · exact absurd (.inr (.inr ⟨hcwd, .inr (.inr ⟨hname, hconf⟩)⟩)) h
      · exact absurd (.inr (.inr ⟨hcwd, .inl hshift⟩)) h
      · exact absurd (.inr (.inr ⟨hcwd, .inr (.inl hshift)⟩)) h
    · exact absurd (.inl hshift) h
    · exact absurd (.inr (.inl hshift)) h

theorem key_eq (h : (x.accelMakePersistentKeyEx true).isSome = true) :
    x.accelMakePersistentKeyEx true =
      some (if x.relative then x.cwd ++ ':' :: x.rest else x.filename) := by
  cases hr : x.relative with
  | true =>
    rw [key_of_relative hr] at h ⊢
    rw [if_neg fun hlen => by simp only [if_pos hlen] at h; simp at h]
    rfl
  | false =>
    rw [key_of_absolute hr] at h ⊢
    rw [if_neg fun hlen => by simp only [if_pos hlen] at h; simp at h]
    rfl

/-- A text without a name between colons that is relative. -/
def NoRelativePart (p : List Char) : Prop :=
  ∀ cwd filename rest, p = cwd ++ ':' :: (filename ++ ':' :: rest) →
    isAbsolutePath filename = true ∨ isStreamPath filename = true

/-- A path is the key of a relative name exactly when there is such a name between two of its
colons. -/
theorem key_ne_path_iff {p : List Char} (hfit : p.length < keySize) :
    (∀ z : LookupContext paths, z.relative = true → z.accelMakePersistentKeyEx true ≠ some p) ↔
      NoRelativePart p := by
  constructor
  · rintro h cwd filename rest rfl
    by_contra hne
    simp only [not_or, Bool.not_eq_true] at hne
    let z : LookupContext paths := ⟨cwd, filename, none, by simp, rest, none, by simp⟩
    have hrel : z.relative = true := by simp [z, relative, hne]
    have hkey : z.cwd ++ ':' :: z.rest = cwd ++ ':' :: (filename ++ ':' :: rest) := rfl
    refine h z hrel ?_
    rw [key_of_relative hrel, hkey, if_neg (Nat.not_le.mpr hfit)]
  · intro h z hrel hkey
    rw [key_of_relative hrel] at hkey
    split_ifs at hkey
    have hname := h z.cwd z.filename z.tail (Option.some.inj hkey).symm
    simp only [relative, Bool.and_eq_true, Bool.not_eq_true'] at hrel
    simp [hrel] at hname

/-- Two requests have different keys unless they are for the same script, exactly when their parts
cannot be taken for each other's; and no relative name has the key `p`, exactly when `p` has no
relative name between two colons. -/
theorem accelMakePersistentKeyEx_separates_iff {p : List Char}
    (hx : (x.accelMakePersistentKeyEx true).isSome = true)
    (hy : (y.accelMakePersistentKeyEx true).isSome = true) (hfit : p.length < keySize) :
    ((x.accelMakePersistentKeyEx true = y.accelMakePersistentKeyEx true → x.SameRequest y) ↔
      ¬ x.Confused y) ∧
    ((∀ z : LookupContext paths, z.relative = true → z.accelMakePersistentKeyEx true ≠ some p) ↔
      NoRelativePart p) := by
  refine ⟨?_, key_ne_path_iff hfit⟩
  rw [key_eq hx, key_eq hy, Option.some_inj]
  cases hrx : x.relative with
  | true =>
    cases hry : y.relative with
    | true =>
      simp only [if_true]
      exact relative_eq_iff hrx hry
    | false =>
      simp only [SameRequest, Confused, hrx, hry, if_true, Bool.false_eq_true, if_false]
      exact not_congr eq_comm
  | false =>
    cases hry : y.relative with
    | true =>
      simp only [SameRequest, Confused, hrx, hry, if_true, Bool.false_eq_true, if_false]
    | false => simp [SameRequest, Confused, hrx, hry]

end LookupContext

section Process

variable {π : Type*} [DecidableEq π] [ZendInlineHash (List Char)] {s s₀ : IncludePaths π}
  {path : List Char}

/-- The registered paths, as they stand in memory -/
def IncludePaths.paths (s : IncludePaths π) : List (List Char) :=
  s.keys.hashEntries.map fun e => e.key.dropLast

omit [DecidableEq π] in
/-- In the states that guarded runs reach, the requests of all processes are such contexts, with one
table. -/
theorem IncludePaths.Inv.exists_context (h : s.Inv s₀ path) (p : π) (cwd filename : List Char)
    (script : Option (List Char)) (hscript : script ≠ some []) :
    ∃ x : LookupContext s.paths, x.cwd = cwd ∧ x.filename = filename ∧ x.script = script ∧
      x.includePath = (s.globals p).includePath ∧ x.part = s.includePart p := by
  cases hkey : (s.globals p).includePathKey with
  | none =>
    refine ⟨⟨cwd, filename, script, hscript, (s.globals p).includePath, none, by simp⟩, rfl,
      rfl, rfl,
      rfl, ?_⟩
    simp [LookupContext.part, IncludePaths.includePart, hkey]
  | some q =>
    obtain ⟨i, e, he, hh, hd⟩ := h.sound.find_eq_some_iff.mp (h.served p q hkey)
    refine ⟨⟨cwd, filename, script, hscript, (s.globals p).includePath, some i,
      fun j hj => ?_⟩, rfl,
      rfl, rfl, rfl, ?_⟩
    · obtain rfl := Option.some.inj hj
      refine ⟨h.sound.index_lt he, ?_⟩
      rw [IncludePaths.paths, List.getElem?_map, IncludePaths.getElem?_keys, he]
      simp [hh.text]
    · simp [LookupContext.part, IncludePaths.includePart, hkey, hh.letter hd]

end Process

namespace LookupContext

/-- A request outside of any script, with the text of the `include_path` in the key -/
def plain (cwd filename includePath : List Char) : LookupContext [] :=
  ⟨cwd, filename, none, by simp, includePath, none, by simp⟩

theorem accelMakePersistentKeyEx_separates_iff_plain :
    ((plain ['/', 'a'] ['b'] []).accelMakePersistentKeyEx true =
      (plain ['/', 'a'] ['c'] []).accelMakePersistentKeyEx true →
        (plain ['/', 'a'] ['b'] []).SameRequest (plain ['/', 'a'] ['c'] [])) ∧
      NoRelativePart ['/', 'a'] := by
  have hsep := accelMakePersistentKeyEx_separates_iff (x := plain ['/', 'a'] ['b'] [])
    (y := plain ['/', 'a'] ['c'] []) (p := ['/', 'a']) (by decide +kernel) (by decide +kernel)
    (by decide +kernel)
  refine ⟨fun h => absurd h (by decide +kernel), hsep.2.mp fun z hrel hkey => ?_⟩
  rw [key_of_relative hrel] at hkey
  split_ifs at hkey
  have hcolon : ':' ∈ ['/', 'a'] := by
    rw [← Option.some.inj hkey]
    simp
  exact absurd hcolon (by decide)

/-- A colon in the current directory: two requests have one key, which is a path as well. -/
theorem cwd_with_colon :
    (plain ['/', 'a', ':', 'b'] ['c'] []).accelMakePersistentKeyEx true =
      some ['/', 'a', ':', 'b', ':', 'c', ':'] ∧
    (plain ['/', 'a'] ['b', ':', 'c'] []).accelMakePersistentKeyEx true =
      some ['/', 'a', ':', 'b', ':', 'c', ':'] ∧
    ¬ (plain ['/', 'a', ':', 'b'] ['c'] []).SameRequest (plain ['/', 'a'] ['b', ':', 'c'] []) ∧
    isAbsolutePath ['/', 'a', ':', 'b', ':', 'c', ':'] = true := by
  refine ⟨by decide +kernel, by decide +kernel, fun h => ?_, rfl⟩
  have hcwd : (plain ['/', 'a', ':', 'b'] ['c'] []).cwd =
      (plain ['/', 'a'] ['b', ':', 'c'] []).cwd :=
    h.1
  exact absurd hcwd (by decide)

end LookupContext

end ZendOpcache
