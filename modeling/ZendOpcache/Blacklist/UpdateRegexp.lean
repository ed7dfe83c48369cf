import Mathlib.Data.List.Basic
import Mathlib.Data.UInt
import Mathlib.Logic.Function.Basic
import ZendOpcache.Blacklist.Ere

/-! # The regular expressions of the blacklist

`zend_accel_blacklist_update_regexp` of a build for Unix. The entries are translated one after the
other into a buffer on the stack; when one does not fit, what was complete before it is compiled,
and the buffer is filled from its start again. A character of the buffer carries the round that has
written it.
-/

namespace ZendOpcache

/-- `sizeof(regexp)` -/
def regexpSize : ℕ := 12 * 1024

/-- The pointer `end`, which keeps room for the longest translation of a character and for what
closes the expression. -/
def regexpEnd : ℕ := regexpSize - 9

/-- The characters that are escaped. -/
def escaped : List UInt8 :=
  ['^', '.', '[', ']', '$', '(', ')', '|', '+', '\x7b', '\x7d', '\\'].map ascii

/-- What one turn of the inner loop writes, and where it leaves `c`. -/
def regexpStep : List UInt8 → List UInt8 × List UInt8
  | [] => ([], [])
  | x :: c =>
    if x = ascii '?' then (['[', '^', '/', ']'].map ascii, c)
    else if x = ascii '*' then
      match c with
      | y :: c' =>
        if y = ascii '*' then (['.', '*'].map ascii, c')
        else (['[', '^', '/', ']', '*'].map ascii, c)
      | [] => (['[', '^', '/', ']', '*'].map ascii, c)
    else if x ∈ escaped then ([ascii '\\', x], c)
    else ([x], c)

/-- A character of the buffer and its round, or one that has never been written. -/
abbrev RegexpCell := Option (UInt8 × ℕ)

/-- The variables of the function: `patterns` is what has been compiled, in the order of
`regexp_list`. -/
structure UpdateState where
  i : ℕ
  round : ℕ
  cells : ℕ → RegexpCell
  p : ℕ
  backtrack : Option ℕ
  patterns : List (List RegexpCell)

/-- How the function may be left, other than at its end. -/
inductive UpdateExit where
  /-- `malloc() failed` -/
  | returned (patterns : List (List RegexpCell))
  /-- a write through a null pointer -/
  | nullPointer
  /-- a write behind the buffer -/
  | overrun

namespace UpdateState

/-- `*p++ = x` -/
def put (s : UpdateState) (x : UInt8) : Except UpdateExit UpdateState :=
  if s.p < regexpSize then
    .ok { s with cells := Function.update s.cells s.p (some (x, s.round)), p := s.p + 1 }
  else .error .overrun

def puts (s : UpdateState) (xs : List UInt8) : Except UpdateExit UpdateState := xs.foldlM put s

/-- The inner loop, over what is left of the path. -/
def translate : ℕ → UpdateState → List UInt8 → Except UpdateExit (UpdateState × List UInt8)
  | 0, s, c => .ok (s, c)
  | n + 1, s, c =>
    if c ≠ [] ∧ s.p < regexpEnd then do
      let s ← s.puts (regexpStep c).1
      translate n s (regexpStep c).2
    else .ok (s, c)

/-- The string in the buffer, as `regcomp` reads it. -/
def pattern (s : UpdateState) : List RegexpCell :=
  ((List.range regexpSize).map s.cells).takeWhile fun x => x.all fun x => x.1 ≠ 0

/-- The translation of an entry, if there is room for its path. It leaves `c` somewhere. -/
def putEntry (s : UpdateState) (c : List UInt8) : Except UpdateExit (UpdateState × List UInt8) :=
  if s.p + c.length < regexpEnd then s.translate c.length c else .ok (s, c)

/-- Where the expression ends: after the last entry, or before an entry of which something is left,
which is not stepped over. -/
def closeAt (s : UpdateState) (c : List UInt8) : Except UpdateExit UpdateState :=
  if c ≠ [] then
    match s.backtrack with
    | none => .error .nullPointer
    | some q => .ok { s with p := q }
  else .ok { s with i := s.i + 1 }

/-- The end of a round: `regcomp`, and the buffer from its start again. -/
def compile (malloc : ℕ → Bool) (s : UpdateState) : Except UpdateExit UpdateState := do
  let s ← s.put (ascii ')')
  let s ← s.put 0
  if malloc s.patterns.length then
    .ok { s with p := 2, round := s.round + 1, patterns := s.patterns ++ [s.pattern] }
  else .error (.returned s.patterns)

/-- The end of an entry within a round. -/
def nextEntry (s : UpdateState) : Except UpdateExit UpdateState := do
  let s ← { s with backtrack := some s.p }.put (ascii '|')
  .ok { s with i := s.i + 1 }

variable (malloc : ℕ → Bool) (entries : List (List UInt8))

/-- One turn of the outer loop, for the entry `c`. -/
def turn (s : UpdateState) (c : List UInt8) : Except UpdateExit UpdateState :=
  s.putEntry c >>= fun x =>
    if x.2 ≠ [] ∨ x.1.i = entries.length - 1 then x.1.closeAt x.2 >>= compile malloc
    else x.1.nextEntry

/-- The outer loop. It has no value where so many turns are not enough. -/
def loop : ℕ → UpdateState → Option (Except UpdateExit (List (List RegexpCell)))
  | 0, _ => none
  | n + 1, s =>
    match entries[s.i]? with
    | none => some (.ok s.patterns)
    | some c =>
      match turn malloc entries s c with
      | .error e => some (.error e)
      | .ok s => loop n s

end UpdateState

/-- The state before the outer loop. -/
def updateStart : UpdateState where
  i := 0
  round := 1
  cells := Function.update (Function.update (fun _ => none) 0 (some (ascii '^', 0))) 1
    (some (ascii '(', 0))
  p := 2
  backtrack := none
  patterns := []

/-- `zend_accel_blacklist_update_regexp`, with a bound on the turns of its loop -/
def zendAccelBlacklistUpdateRegexp (malloc : ℕ → Bool) (fuel : ℕ) (entries : List (List UInt8)) :
    Option (Except UpdateExit (List (List RegexpCell))) :=
  UpdateState.loop malloc entries fuel updateStart

end ZendOpcache
