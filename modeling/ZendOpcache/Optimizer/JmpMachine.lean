import Mathlib.Logic.Function.Basic
import ZendOpcache.Optimizer.Pass3
import ZendOpcache.Transition.Altered

/-! # Execution of jumps

An executor with a value for every variable. Jumps move on silently, and an `_EX` jump stores the
boolean of its operand. Any other opline is shown with the values that it reads from temporaries;
what it does is up to the executor.
-/

namespace ZendOpcache

/-- Temporaries and compiled variables. A `TMP_VAR` and a `VAR` of one number share their place. -/
inductive ZendVar where
  | temp (n : ℕ)
  | cv (n : ℕ)
  deriving DecidableEq, Repr

abbrev Valuation (V : Type*) := ZendVar → V

/-- The values of an executor, and what it does at the oplines that are no jumps. -/
structure Executor (V ι : Type*) where
  /-- the value of a literal, or of an operand that is not used -/
  constant : Option Zval → V
  isTrue : V → Bool
  ofBool : Bool → V
  isTrue_ofBool : ∀ b, isTrue (ofBool b) = b
  /-- the temporaries that an opline reads -/
  reads : ZendOp → List ℕ
  exec : ℕ → ZendOp → Valuation V → ι → Option (ℕ × Valuation V)

def ZendOpcode.isJump : ZendOpcode → Bool
  | .jmp | .jmpz | .jmpnz | .jmpznz | .jmpzEx | .jmpnzEx | .jmpSet | .jmpSetVar => true
  | _ => false

def ZendOpcode.isEx (c : ZendOpcode) : Bool := c == .jmpzEx || c == .jmpnzEx

/-- The opline after a jump, by the truth of its operand -/
def ZendOp.goesTo (o : ZendOp) (i : ℕ) (v : Bool) : ℕ :=
  match o.opcode with
  | .jmp => o.op1.num
  | .jmpz | .jmpzEx => if v then i + 1 else o.op2.num
  | .jmpnz | .jmpnzEx | .jmpSet | .jmpSetVar => if v then o.op2.num else i + 1
  | .jmpznz => if v then o.extendedValue else o.op2.num
  | _ => i + 1

/-- The numbers of the oplines that are jumps -/
def ZendOpArray.jumpAt (a : ZendOpArray) (p : ℕ) : Bool := (a.opcodes[p]?).any (·.opcode.isJump)

namespace Executor

variable {V ι : Type*} (e : Executor V ι)

def value (literals : List ZendLiteral) (ρ : Valuation V) (x : Znode) : V :=
  match x.type with
  | .const => e.constant ((literals[x.num]?).map (·.constant))
  | .tmpVar | .var => ρ (.temp x.num)
  | .cv => ρ (.cv x.num)
  | .unused => e.constant none

/-- What a jump tests -/
def test (literals : List ZendLiteral) (o : ZendOp) (ρ : Valuation V) : Bool :=
  e.isTrue (e.value literals ρ o.op1)

/-- The boolean of the operand in a temporary -/
def storeBool (n : ℕ) (v : Bool) (ρ : Valuation V) : Valuation V :=
  Function.update ρ (.temp n) (e.ofBool v)

/-- What a jump stores. A `BOOL` is the rest of a jump to the next opline. -/
def store (literals : List ZendLiteral) (o : ZendOp) (ρ : Valuation V) : Valuation V :=
  match o.opcode with
  | .jmpzEx | .jmpnzEx | .bool => e.storeBool o.result.num (e.test literals o ρ) ρ
  | .jmpSet | .jmpSetVar =>
    if e.test literals o ρ then
      Function.update ρ (.temp o.result.num) (e.value literals ρ o.op1)
    else ρ
  | _ => ρ

/-- A jump, or what is left of one -/
def jump (literals : List ZendLiteral) (o : ZendOp) (s : ℕ × Valuation V) : ℕ × Valuation V :=
  (o.goesTo s.1 (e.test literals o s.2), e.store literals o s.2)

/-- One move, where the given oplines are jumps or what is left of them. What is seen are the number
of an opline and the values that it reads from temporaries. -/
def move (J : ℕ → Bool) (a : ZendOpArray) (s : ℕ × Valuation V) :
    Move (ℕ × Valuation V) ι (ℕ × List V) :=
  match a.opcodes[s.1]? with
  | none => .stuck
  | some o =>
    if J s.1 then .silent (e.jump a.literals o s)
    else .shows (s.1, (e.reads o).map fun n => s.2 (.temp n)) fun x => e.exec s.1 o s.2 x

/-- The moves of an op array, but for the jump at `i` -/
def moveBy (J : ℕ → Bool) (a : ZendOpArray) (i : ℕ) (k : Valuation V → ℕ × Valuation V)
    (s : ℕ × Valuation V) : Move (ℕ × Valuation V) ι (ℕ × List V) :=
  if s.1 = i then .silent (k s.2) else e.move J a s

variable {e} {J : ℕ → Bool} {a b : ZendOpArray} {i : ℕ} {o : ZendOp} {ρ : Valuation V}
  {k : Valuation V → ℕ × Valuation V}

theorem move_jump (ho : a.opcodes[i]? = some o) (hJ : J i = true) :
    e.move J a (i, ρ) = .silent (e.jump a.literals o (i, ρ)) := by
  simp [move, ho, hJ]

theorem moveBy_self : e.moveBy J a i k (i, ρ) = .silent (k ρ) := if_pos rfl

theorem moveBy_of_ne {s : ℕ × Valuation V} (h : s.1 ≠ i) : e.moveBy J a i k s = e.move J a s :=
  if_neg h

/-- The jump as it is -/
theorem moveBy_jump (ho : a.opcodes[i]? = some o) (hJ : J i = true) :
    e.moveBy J a i (fun ρ => e.jump a.literals o (i, ρ)) = e.move J a := by
  funext s
  obtain ⟨p, ρ⟩ := s
  by_cases hp : p = i
  · subst hp
    rw [moveBy_self, move_jump ho hJ]
  · exact moveBy_of_ne hp

theorem altered_moveBy (ho : a.opcodes[i]? = some o) (hJ : J i = true) :
    Altered (e.move J a) (e.moveBy J a i k) := by
  rintro ⟨p, ρ⟩
  by_cases hp : p = i
  · subst hp
    exact .inr ⟨_, _, move_jump ho hJ, moveBy_self⟩
  · exact .inl (moveBy_of_ne hp)

/-- What is shown does not depend on whether the jump at `i` goes on as `k` says: nothing tells the
difference, and the jumps do not loop for ever where there is something to show. -/
def Harmless (e : Executor V ι) (J : ℕ → Bool) (a : ZendOpArray) (i : ℕ)
    (k : Valuation V → ℕ × Valuation V) : Prop :=
  (∀ ρ, SameTraces (e.move J a) (i, ρ) (k ρ)) ∧
    ∀ s, Spins (e.moveBy J a i k) s → ∀ is os, Trace (e.move J a) s is os → os = []

theorem sameRuns_moveBy_iff (ho : a.opcodes[i]? = some o) (hJ : J i = true) :
    SameRuns (e.moveBy J a i k) (e.move J a) ↔ e.Harmless J a i k := by
  rw [(altered_moveBy ho hJ).sameRuns_iff]
  refine and_congr_left fun _ => ⟨fun h ρ => h _ _ moveBy_self, ?_⟩
  rintro h ⟨p, ρ⟩ t hmove
  by_cases hp : p = i
  · subst hp
    obtain rfl := Move.silent.inj (moveBy_self.symm.trans hmove)
    exact h ρ
  · rw [moveBy_of_ne hp] at hmove
    exact sameTraces_of_silent hmove

/-- An op array with another jump at `i` makes the moves of the old one, if that comes silently to
where the new jump leads. -/
theorem sameRuns_of_reaches {o' : ZendOp} (hJ : J i = true)
    (hother : ∀ n, n ≠ i → b.opcodes[n]? = a.opcodes[n]?) (hliterals : b.literals = a.literals)
    (ho' : b.opcodes[i]? = some o')
    (hreach : ∀ ρ, ∃ l, Silent (e.moveBy J a i k) (l + 1) (i, ρ)
      (e.jump b.literals o' (i, ρ))) : SameRuns (e.move J b) (e.moveBy J a i k) := by
  have htracks : Tracks (e.moveBy J a i k) (e.move J b) Eq := by
    rintro ⟨p, ρ⟩ _ rfl
    refine .of_rel ?_
    by_cases hp : p = i
    · subst hp
      obtain ⟨l, hl⟩ := hreach ρ
      cases hl with
      | head hmove hs =>
        rw [hmove, move_jump ho' hJ]
        exact .silent ⟨l, 0, _, _, hs, .refl _, rfl⟩
    · have heq : e.move J b (p, ρ) = e.move J a (p, ρ) := by
        simp only [move, hother p hp, hliterals]
      rw [moveBy_of_ne hp, heq]
      exact .refl (fun s => .of_rel rfl) _
  exact SameRuns.symm fun s is os => htracks.trace_iff rfl

/-- The new jump keeps what is shown exactly if the difference is harmless. -/
theorem sameRuns_iff_harmless {o' : ZendOp} (ho : a.opcodes[i]? = some o) (hJ : J i = true)
    (hother : ∀ n, n ≠ i → b.opcodes[n]? = a.opcodes[n]?) (hliterals : b.literals = a.literals)
    (ho' : b.opcodes[i]? = some o')
    (hreach : ∀ ρ, ∃ l, Silent (e.moveBy J a i k) (l + 1) (i, ρ)
      (e.jump b.literals o' (i, ρ))) :
    SameRuns (e.move J b) (e.move J a) ↔ e.Harmless J a i k := by
  have h := sameRuns_of_reaches hJ hother hliterals ho' hreach
  rw [← sameRuns_moveBy_iff ho hJ]
  exact ⟨fun h' => h.symm.trans h', fun h' => h.trans h'⟩

theorem sameRuns_of_reaches_jump {o' : ZendOp} (ho : a.opcodes[i]? = some o) (hJ : J i = true)
    (hother : ∀ n, n ≠ i → b.opcodes[n]? = a.opcodes[n]?) (hliterals : b.literals = a.literals)
    (ho' : b.opcodes[i]? = some o')
    (hreach : ∀ ρ, ∃ l, Silent (e.move J a) (l + 1) (i, ρ) (e.jump b.literals o' (i, ρ))) :
    SameRuns (e.move J b) (e.move J a) := by
  have h := sameRuns_of_reaches (e := e) (k := fun ρ => e.jump a.literals o (i, ρ)) hJ hother
    hliterals ho' (by rwa [moveBy_jump ho hJ])
  rwa [moveBy_jump ho hJ] at h

end Executor

end ZendOpcache
