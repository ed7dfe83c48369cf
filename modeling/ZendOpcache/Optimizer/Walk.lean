import ZendOpcache.Optimizer.JmpInvariant
import ZendOpcache.Transition.Altered

/-! # Walking through the blocks

From a place in the graph, control passes `NOP`s and jumps silently, as the variables say, until it
comes to any other opline. What is found does not change if the end of one block is rewritten with
the same exits, or if a block is joined with its only predecessor.
-/

namespace ZendOpcache

/-- A place in the graph: an opline of a block, or its end, and the variables that are true. -/
structure Place where
  block : ℕ
  opno : ℕ
  truth : ZnodeType × ℕ → Bool

/-- What is found: an opline with its constants, or the null pointer. -/
abbrev Found := Option (ZendOp × Option Zval × Option Zval)

def Znode.var (x : Znode) : ZnodeType × ℕ := (x.type, x.num)

/-- The variable that an `_EX` jump sets. It is a temporary, whatever the kind says. -/
def ZendOp.resultVar (o : ZendOp) : ZnodeType × ℕ :=
  (if o.result.type = .unused then .tmpVar else o.result.type, o.result.num)

/-- The operand without the number of its literal -/
def Znode.blank (x : Znode) : Znode := if x.type = .const then { x with num := 0 } else x

namespace ZendOpcode

/-- `JMP`, `JMPZ`, `JMPNZ`, `JMPZNZ`, `JMPZ_EX` and `JMPNZ_EX` -/
def jumps : ZendOpcode → Bool
  | .jmp | .jmpz | .jmpnz | .jmpznz | .jmpzEx | .jmpnzEx => true
  | _ => false

/-- The result becomes the truth value of the operand. -/
def setsTruth : ZendOpcode → Bool
  | .jmpzEx | .jmpnzEx | .qmAssign => true
  | _ => false

end ZendOpcode

/-- The edge that a jump takes, by the truth value of its operand. -/
def ZendCodeBlock.jumpTo (x : ZendCodeBlock) (op : ZendOpcode) (v : Bool) : Option ℕ :=
  match op with
  | .jmpz | .jmpzEx => if v then x.followTo else x.op2To
  | .jmpnz | .jmpnzEx => if v then x.op2To else x.followTo
  | .jmpznz => if v then x.extTo else x.op2To
  | _ => x.op1To

theorem ZendCodeBlock.mem_successors_of_jumpTo {x : ZendCodeBlock} {op : ZendOpcode} {v : Bool}
    {t : ℕ} (h : x.jumpTo op v = some t) : t ∈ x.successors := by
  rw [ZendCodeBlock.mem_successors, ZendCfg.mem_edges]
  unfold jumpTo at h
  split at h <;> try split_ifs at h
  all_goals simp [h]

namespace ZendCfg

/-- The value of an operand that is a constant -/
def constant (c : ZendCfg) (x : Znode) : Option Zval :=
  if x.type = .const then some (c.literal x) else none

def found (c : ZendCfg) (o : ZendOp) : Found :=
  some ({ o with op1 := o.op1.blank, op2 := o.op2.blank }, c.constant o.op1, c.constant o.op2)

/-- Control goes along an edge. -/
def enter (e : Option ℕ) (truth : ZnodeType × ℕ → Bool) : Move Place Unit Found :=
  match e with
  | none => .shows none fun _ => none
  | some t => .silent ⟨t, 0, truth⟩

section Enter

variable {e : Option ℕ} {truth : ZnodeType × ℕ → Bool} {s : Place}

theorem enter_silent (h : enter e truth = .silent s) :
    e = some s.block ∧ s.opno = 0 := by
  cases e with
  | none => cases h
  | some t =>
    obtain rfl := Move.silent.inj h
    exact ⟨rfl, rfl⟩

theorem enter_shows {w : Found} {next : Unit → Option Place}
    (h : enter e truth = .shows w next) : next = fun _ => none := by
  cases e with
  | none => exact (Move.shows.inj h).2.symm
  | some t => cases h

end Enter

section Walk

variable [ZendEngine]

def isTrue (c : ZendCfg) (truth : ZnodeType × ℕ → Bool) (x : Znode) : Bool :=
  ((c.constant x).map zendIsTrue).getD (truth x.var)

/-- The variables after an opline -/
def effect (c : ZendCfg) (o : ZendOp) (truth : ZnodeType × ℕ → Bool) : ZnodeType × ℕ → Bool :=
  if o.opcode.setsTruth then Function.update truth o.resultVar (c.isTrue truth o.op1) else truth

/-- One move of a walk. The `QM_ASSIGN` at opline `k` of block `b` is what is left of the jump that
the block ended with. -/
def walk (c : ZendCfg) (b k : ℕ) (s : Place) : Move Place Unit Found :=
  match (c.blocks s.block).oplines with
  | none => .shows none fun _ => none
  | some ops =>
    match ops[s.opno]? with
    | none => enter (c.blocks s.block).followTo s.truth
    | some o =>
      if o.opcode = .nop ∨ (o.opcode = .qmAssign ∧ s.block = b ∧ s.opno = k) then
        .silent ⟨s.block, s.opno + 1, c.effect o s.truth⟩
      else if o.opcode.jumps then
        enter ((c.blocks s.block).jumpTo o.opcode (c.isTrue s.truth o.op1)) (c.effect o s.truth)
      else .shows (c.found o) fun _ => none

variable {c c' : ZendCfg} {b k i x : ℕ} {o : ZendOp} {ops : List ZendOp} {s s' : Place}
  {truth : ZnodeType × ℕ → Bool}

theorem walk_end (hops : (c.blocks x).oplines = some ops) (hi : ops[i]? = none) :
    c.walk b k ⟨x, i, truth⟩ = enter (c.blocks x).followTo truth := by
  simp [walk, hops, hi]

theorem effect_of_not (h : o.opcode.setsTruth = false) : c.effect o truth = truth := by
  simp [effect, h]

theorem effect_of_sets (h : o.opcode.setsTruth = true) :
    c.effect o truth = Function.update truth o.resultVar (c.isTrue truth o.op1) :=
  if_pos h

theorem walk_nop (hops : (c.blocks x).oplines = some ops) (hi : ops[i]? = some o)
    (ho : o.opcode = .nop) : c.walk b k ⟨x, i, truth⟩ = .silent ⟨x, i + 1, truth⟩ := by
  simp [walk, hops, hi, ho, effect, ZendOpcode.setsTruth]

theorem walk_jump (hops : (c.blocks x).oplines = some ops) (hi : ops[i]? = some o)
    (ho : o.opcode.jumps = true) : c.walk b k ⟨x, i, truth⟩ =
      enter ((c.blocks x).jumpTo o.opcode (c.isTrue truth o.op1)) (c.effect o truth) := by
  have hnop : o.opcode ≠ .nop := fun h => by simp [h, ZendOpcode.jumps] at ho
  have hqm : o.opcode ≠ .qmAssign := fun h => by simp [h, ZendOpcode.jumps] at ho
  simp [walk, hops, hi, hnop, hqm, ho]

/-- A silent move goes on in the block or along an edge. -/
theorem walk_silent (h : c.walk b k s = .silent s') :
    (s'.block = s.block ∧ s'.opno = s.opno + 1 ∧
      ∃ ops o, (c.blocks s.block).oplines = some ops ∧ ops[s.opno]? = some o ∧
        (o.opcode = .nop ∨ o.opcode = .qmAssign)) ∨
    (s'.opno = 0 ∧ s'.block ∈ (c.blocks s.block).successors) := by
  unfold walk at h
  split at h
  · cases h
  · rename_i ops hops
    split at h
    · obtain ⟨hfollow, hzero⟩ := enter_silent h
      exact .inr ⟨hzero, followTo_mem_successors hfollow⟩
    · rename_i o hi
      split_ifs at h with hpassed
      · obtain rfl := Move.silent.inj h
        exact .inl ⟨rfl, rfl, ops, o, hops, hi, hpassed.imp_right And.left⟩
      · obtain ⟨he, hzero⟩ := enter_silent h
        exact .inr ⟨hzero, ZendCodeBlock.mem_successors_of_jumpTo he⟩

theorem walk_shows {w : Found} {next : Unit → Option Place} (h : c.walk b k s = .shows w next) :
    next = fun _ => none := by
  unfold walk at h
  split at h
  · exact (Move.shows.inj h).2.symm
  · split at h
    · exact enter_shows h
    · split_ifs at h
      · exact enter_shows h
      · exact (Move.shows.inj h).2.symm

theorem walk_ne_stuck : c.walk b k s ≠ .stuck := by
  have henter : ∀ e truth, enter e truth ≠ .stuck := fun e truth h => by cases e <;> cases h
  unfold walk
  split
  · nofun
  · split
    · exact henter _ _
    · split_ifs
      · nofun
      · exact henter _ _
      · nofun

/-- Two walks that make the same move -/
theorem rel_of_walk_eq {R : Place → Place → Prop} {t : Place} (h : c'.walk b k t = c.walk b k s)
    (hR : ∀ p, c.walk b k s = .silent p → R p p) :
    Move.Rel R (c.walk b k s) (c'.walk b k t) := by
  rw [h]
  cases hmove : c.walk b k s with
  | stuck => exact absurd hmove walk_ne_stuck
  | silent p => exact .silent (hR p hmove)
  | shows w next =>
    rw [walk_shows hmove]
    exact .shows fun _ => .none

/-- The walk passes the first `NOP`s of a block. -/
theorem silent_nops (hops : (c.blocks x).oplines = some ops) : ∀ n,
    (∀ i < n, ∃ o, ops[i]? = some o ∧ o.opcode = .nop) →
      Silent (c.walk b k) n ⟨x, 0, truth⟩ ⟨x, n, truth⟩
  | 0, _ => .refl _
  | n + 1, h => by
    obtain ⟨o, hi, ho⟩ := h n n.lt_succ_self
    have hn := silent_nops hops n fun i hi => h i (hi.trans n.lt_succ_self)
    exact hn.trans (.one (walk_nop hops hi ho))

theorem silent_find? (truth : ZnodeType × ℕ → Bool) (hops : (c.blocks x).oplines = some ops)
    (h : ops.find? (·.opcode != .nop) = some o) :
    ∃ i, ops[i]? = some o ∧ Silent (c.walk b k) i ⟨x, 0, truth⟩ ⟨x, i, truth⟩ := by
  obtain ⟨-, pre, suf, rfl, hpre⟩ := List.find?_eq_some_iff_append.mp h
  refine ⟨pre.length, by simp, silent_nops hops _ fun i hi => ?_⟩
  refine ⟨pre[i], by rw [List.getElem?_append_left hi, List.getElem?_eq_getElem hi], ?_⟩
  simpa using hpre _ (List.getElem_mem hi)

/-- From a block of `NOP`s the walk goes to the block that it falls to. -/
theorem silent_nopOnly (truth : ZnodeType × ℕ → Bool) (hops : (c.blocks x).oplines = some ops)
    (h : ops.find? (·.opcode != .nop) = none) :
    Silent (c.walk b k) ops.length ⟨x, 0, truth⟩ ⟨x, ops.length, truth⟩ ∧
      c.walk b k ⟨x, ops.length, truth⟩ = enter (c.blocks x).followTo truth := by
  rw [List.find?_eq_none] at h
  refine ⟨silent_nops hops _ fun i hi => ⟨ops[i], by simp [hi], ?_⟩, walk_end hops (by simp)⟩
  simpa using h _ (List.getElem_mem hi)

/-- The walk comes to the opline that `next_target` finds. -/
theorem silent_skipNops (truth : ZnodeType × ℕ → Bool) : ∀ (n : ℕ) {x t : ℕ},
    c.skipNops n x = some (t, o) →
    ∃ m i ops, Silent (c.walk b k) m ⟨x, 0, truth⟩ ⟨t, i, truth⟩ ∧
      (c.blocks t).oplines = some ops ∧ ops[i]? = some o
  | 0, _, _, h => by simp [skipNops] at h
  | n + 1, x, t, h => by
    unfold skipNops at h
    split at h
    · cases h
    · rename_i ops hops
      split at h
      · rename_i o' ho
        obtain ⟨rfl, rfl⟩ := Prod.mk.inj (Option.some.inj h)
        obtain ⟨i, hi, hs⟩ := silent_find? (b := b) (k := k) truth hops ho
        exact ⟨i, i, ops, hs, hops, hi⟩
      · rename_i hno
        obtain ⟨y, hy, h⟩ := Option.bind_eq_some_iff.mp h
        obtain ⟨hs, hend⟩ := silent_nopOnly (b := b) (k := k) truth hops hno
        rw [hy] at hend
        obtain ⟨m, i, ops', hs', hops', hi⟩ := silent_skipNops truth n h
        exact ⟨_, i, ops', hs.trans (.head hend hs'), hops', hi⟩

/-- The code that a walk sees. -/
structure SameCode (c c' : ZendCfg) (x : ℕ) : Prop where
  oplines : (c'.blocks x).oplines = (c.blocks x).oplines
  edges : (c'.blocks x).edges = (c.blocks x).edges

omit [ZendEngine] in
theorem SameCode.jumpTo (h : SameCode c c' x) (op : ZendOpcode) (v : Bool) :
    (c'.blocks x).jumpTo op v = (c.blocks x).jumpTo op v := by
  have hedges := h.edges
  simp only [ZendCodeBlock.edges, List.cons.injEq, and_true] at hedges
  obtain ⟨h₁, h₂, h₃, h₄⟩ := hedges
  simp only [ZendCodeBlock.jumpTo, h₁, h₂, h₃, h₄]

/-- The constants of an opline are the same. -/
def SameConstants (c c' : ZendCfg) (o : ZendOp) : Prop :=
  c'.constant o.op1 = c.constant o.op1 ∧ c'.constant o.op2 = c.constant o.op2

omit [ZendEngine] in
theorem SameConstants.of_literals (h : c'.literals = c.literals) : SameConstants c c' o := by
  simp [SameConstants, constant, literal, h]

theorem SameConstants.isTrue (h : SameConstants c c' o) :
    c'.isTrue truth o.op1 = c.isTrue truth o.op1 := by
  rw [ZendCfg.isTrue, ZendCfg.isTrue, h.1]

theorem SameConstants.effect (h : SameConstants c c' o) : c'.effect o truth = c.effect o truth := by
  rw [ZendCfg.effect, ZendCfg.effect, h.isTrue]

omit [ZendEngine] in
theorem SameConstants.found (h : SameConstants c c' o) : c'.found o = c.found o := by
  rw [ZendCfg.found, ZendCfg.found, h.1, h.2]

/-- A walk sees the code and the constants only. -/
theorem walk_congr (h : SameCode c c' s.block)
    (hconst : ∀ ops o, (c.blocks s.block).oplines = some ops → ops[s.opno]? = some o →
      SameConstants c c' o) : c'.walk b k s = c.walk b k s := by
  have hfollow := followTo_eq_of_edges h.edges
  unfold walk
  rw [h.oplines]
  split
  · rfl
  · rename_i ops hops
    split
    · rw [hfollow]
    · rename_i o hi
      have hsame := hconst ops o hops hi
      rw [hsame.effect, hsame.isTrue, hsame.found, h.jumpTo]

section Harmless

/-- The walk with another way out at opline `k` of block `b` -/
def walkBy (c : ZendCfg) (b k : ℕ) (exit : (ZnodeType × ℕ → Bool) → Move Place Unit Found)
    (s : Place) : Move Place Unit Found :=
  if s.block = b ∧ s.opno = k then exit s.truth else c.walk b k s

/-- The other way out cannot be told: the walk finds the same from where it leads as from the block
itself, and taking it over and over does not keep the walk from what it finds. -/
def Harmless (c : ZendCfg) (b k : ℕ) (exit : (ZnodeType × ℕ → Bool) → Move Place Unit Found) :
    Prop :=
  (∀ truth s, exit truth = .silent s → SameTraces (c.walk b k) ⟨b, k, truth⟩ s) ∧
    ∀ s, Spins (c.walkBy b k exit) s → ∀ is os, Trace (c.walk b k) s is os → os = []

variable {exit : (ZnodeType × ℕ → Bool) → Move Place Unit Found}

theorem walkBy_self : c.walkBy b k exit ⟨b, k, truth⟩ = exit truth := if_pos ⟨rfl, rfl⟩

theorem harmless_iff (hsilent : ∀ truth, (∃ s, c.walk b k ⟨b, k, truth⟩ = .silent s) ∧
    ∃ s, exit truth = .silent s) : c.Harmless b k exit ↔
      ∀ truth is found, Trace (c.walk b k) ⟨b, k, truth⟩ is found ↔
        Trace (c.walkBy b k exit) ⟨b, k, truth⟩ is found := by
  have hwalk : ∀ s : Place, ¬(s.block = b ∧ s.opno = k) → c.walkBy b k exit s = c.walk b k s :=
    fun s hs => if_neg hs
  have halt : Altered (c.walk b k) (c.walkBy b k exit) := by
    rintro ⟨x, i, truth⟩
    by_cases hs : x = b ∧ i = k
    · obtain ⟨rfl, rfl⟩ := hs
      obtain ⟨⟨s, hs⟩, s', hs'⟩ := hsilent truth
      exact .inr ⟨s, s', hs, walkBy_self.trans hs'⟩
    · exact .inl (hwalk _ hs)
  have hruns : SameRuns (c.walkBy b k exit) (c.walk b k) ↔ c.Harmless b k exit := by
    rw [halt.sameRuns_iff, Harmless]
    refine and_congr_left fun _ => ⟨fun h truth s hs => h _ _ (walkBy_self.trans hs), ?_⟩
    rintro h ⟨x, i, truth⟩ t ht
    by_cases hs : x = b ∧ i = k
    · obtain ⟨rfl, rfl⟩ := hs
      exact h truth t (walkBy_self.symm.trans ht)
    · exact sameTraces_of_silent ((hwalk _ hs).symm.trans ht)
  rw [← hruns]
  constructor
  · exact fun h truth is found => (h ⟨b, k, truth⟩ is found).symm
  · intro h
    refine (sameRuns_of_agree hwalk ?_).symm
    rintro ⟨x, i, truth⟩ ⟨rfl, rfl⟩
    exact h truth

end Harmless

section Rewrite

/-- Both walks leave the end of the block in the same way. -/
def SameExit (c c' : ZendCfg) (b k : ℕ) (truth : ZnodeType × ℕ → Bool) : Prop :=
  ∃ m n s t, Silent (c.walk b k) m ⟨b, k, truth⟩ s ∧ Silent (c'.walk b k) n ⟨b, k, truth⟩ t ∧
    c'.walk b k t = c.walk b k s ∧ ∀ p, c.walk b k s = .silent p → p.opno = 0

/-- The walk leaves the end of the block along an edge. -/
def Exits (c : ZendCfg) (b k : ℕ) (truth : ZnodeType × ℕ → Bool) (e : Option ℕ)
    (truth' : ZnodeType × ℕ → Bool) : Prop :=
  ∃ m s, Silent (c.walk b k) m ⟨b, k, truth⟩ s ∧ c.walk b k s = enter e truth'

section Exits

variable {e : Option ℕ} {truth' : ZnodeType × ℕ → Bool} {t : ℕ}

theorem Exits.sameExit (h : c.Exits b k truth e truth') (h' : c'.Exits b k truth e truth') :
    SameExit c c' b k truth := by
  obtain ⟨m, s, hs, hwalk⟩ := h
  obtain ⟨n, t, ht, hwalk'⟩ := h'
  refine ⟨m, n, s, t, hs, ht, hwalk'.trans hwalk.symm, fun p hp => ?_⟩
  exact (enter_silent (hwalk.symm.trans hp)).2

theorem exits_jump (truth : ZnodeType × ℕ → Bool) (hops : (c.blocks b).oplines = some ops)
    (hi : ops[k]? = some o) (ho : o.opcode.jumps = true) :
    c.Exits b k truth ((c.blocks b).jumpTo o.opcode (c.isTrue truth o.op1)) (c.effect o truth) :=
  ⟨0, _, .refl _, walk_jump hops hi ho⟩

/-- A `NOP`, or the assignment that is left of a jump, is passed. -/
theorem exits_passed (truth : ZnodeType × ℕ → Bool) (hops : (c.blocks b).oplines = some ops)
    (hi : ops[k]? = some o)
    (hlen : ops.length = k + 1) (ho : o.opcode = .nop ∨ o.opcode = .qmAssign) :
    c.Exits b k truth (c.blocks b).followTo (c.effect o truth) := by
  have hmove : c.walk b k ⟨b, k, truth⟩ = .silent ⟨b, k + 1, c.effect o truth⟩ := by
    simp only [walk, hops, hi, and_true, if_pos ho]
  refine ⟨1, ⟨b, k + 1, c.effect o truth⟩, .one hmove, walk_end hops ?_⟩
  exact List.getElem?_eq_none hlen.le

/-- The jump leads to another jump. -/
theorem Exits.thread {n : ℕ} (h : c.Exits b k truth (some x) truth')
    (hskip : c.skipNops n x = some (t, o)) (ho : o.opcode.jumps = true) :
    c.Exits b k truth ((c.blocks t).jumpTo o.opcode (c.isTrue truth' o.op1))
      (c.effect o truth') := by
  obtain ⟨m, s, hs, hwalk⟩ := h
  obtain ⟨m', i, ops, hs', hops, hi⟩ := silent_skipNops (b := b) (k := k) truth' n hskip
  exact ⟨_, _, hs.trans (.head hwalk hs'), walk_jump hops hi ho⟩

/-- The jump leads to a block of `NOP`s. -/
theorem Exits.nopOnly (h : c.Exits b k truth (some x) truth')
    (hops : (c.blocks x).oplines = some ops) (hno : ops.find? (·.opcode != .nop) = none) :
    c.Exits b k truth (c.blocks x).followTo truth' := by
  obtain ⟨m, s, hs, hwalk⟩ := h
  obtain ⟨hs', hend⟩ := silent_nopOnly (b := b) (k := k) truth' hops hno
  exact ⟨_, _, hs.trans (.head hwalk hs'), hend⟩

end Exits

/-- The end of a block is rewritten. -/
theorem tracks_of_sameExit (hcode : ∀ x ≠ b, SameCode c c' x)
    (hconst : ∀ x ops i o, (c.blocks x).oplines = some ops → ops[i]? = some o →
      (x, i) ≠ (b, k) → SameConstants c c' o)
    (hplain : ∀ i < k, ∃ ops ops' o, (c.blocks b).oplines = some ops ∧
      (c'.blocks b).oplines = some ops' ∧ ops[i]? = some o ∧ ops'[i]? = some o ∧
      o.opcode.jumps = false)
    (hexit : ∀ truth, SameExit c c' b k truth) :
    Tracks (c.walk b k) (c'.walk b k) fun s t => s = t ∧ (s.block = b → s.opno ≤ k) := by
  rintro ⟨x, i, truth⟩ _ ⟨rfl, hle⟩
  dsimp only at hle
  by_cases hlast : x = b ∧ i = k
  · obtain ⟨rfl, rfl⟩ := hlast
    obtain ⟨m, n, s, t, hs, ht, heq, hzero⟩ := hexit truth
    refine ⟨m, n, s, t, hs, ht, rel_of_walk_eq heq fun p hp => .of_rel ⟨rfl, fun _ => ?_⟩⟩
    rw [hzero p hp]
    exact Nat.zero_le _
  · have hwalk : c'.walk b k ⟨x, i, truth⟩ = c.walk b k ⟨x, i, truth⟩ := by
      by_cases hx : x = b
      · -- an opline before the last one does not jump
        obtain ⟨ops, ops', o, hops, hops', hi, hi', hjump⟩ := hplain i (by have := hle hx; omega)
        have hsame := hconst b ops i o hops hi fun h => hlast ⟨hx, (Prod.mk.inj h).2⟩
        simp only [walk, hx, hops, hops', hi, hi', hjump, hsame.effect, hsame.found,
          Bool.false_eq_true, if_false]
      · refine walk_congr (hcode x hx) fun ops o hops hi => hconst x ops i o hops hi fun h => ?_
        exact hx (Prod.mk.inj h).1
    refine .of_rel (rel_of_walk_eq hwalk fun p hp => .of_rel ⟨rfl, fun hpb => ?_⟩)
    rcases walk_silent hp with ⟨hblock, hopno, -⟩ | ⟨hopno, -⟩
    · have := hle (hblock.symm.trans hpb)
      have : i ≠ k := fun hik => hlast ⟨hblock.symm.trans hpb, hik⟩
      dsimp only at *
      omega
    · omega

end Rewrite

section Join

variable {A : Set ℕ} {y X : ℕ} {ops ops' : List ZendOp}

/-- The code after `X` has been joined with its predecessor `y`. -/
structure JoinedCode (c c' : ZendCfg) (y X : ℕ) (ops ops' : List ZendOp) : Prop where
  oplines : (c.blocks y).oplines = some ops
  oplines_joined : (c.blocks X).oplines = some ops'
  oplines_self : (c'.blocks y).oplines = some (ops ++ ops')
  plain : ∀ o ∈ ops, o.opcode.jumps = false
  follow : (c.blocks y).followTo = some X
  edges_self : (c'.blocks y).edges = (c.blocks X).edges
  code : ∀ x, x ≠ y → x ≠ X → SameCode c c' x
  literals : c'.literals = c.literals

/-- The places before and after the join -/
def JoinedPlace (A : Set ℕ) (y X l : ℕ) (s t : Place) : Prop :=
  (s = t ∧ s.block ∈ A ∧ s.block ≠ X ∧ (s.block = y → s.opno ≤ l)) ∨
    (s.block = X ∧ X ∈ A ∧ t = ⟨y, l + s.opno, s.truth⟩)

omit [ZendEngine] in
theorem joinedPlace_of_entry {l : ℕ} (hs : s.opno = 0) (hA : s.block ∈ A) (hX : s.block ≠ X) :
    JoinedPlace A y X l s s :=
  .inl ⟨rfl, hA, hX, fun _ => hs ▸ Nat.zero_le l⟩

variable (h : JoinedCode c c' y X ops ops') (hyX : y ≠ X) (hyb : y ≠ b) (hXb : X ≠ b)
  (hedge : ∀ x ∈ A, ∀ t ∈ (c.blocks x).successors, t ∈ A)
  (hpred : ∀ x ∈ A, X ∈ (c.blocks x).successors → x = y)
include h hyX hyb hXb hedge hpred

/-- A walk through the joined block -/
theorem JoinedCode.rel_joined (hX : X ∈ A) (truth : ZnodeType × ℕ → Bool) :
    Move.Rel (JoinedPlace A y X ops.length) (c.walk b k ⟨X, i, truth⟩)
      (c'.walk b k ⟨y, ops.length + i, truth⟩) := by
  have hentry : ∀ e truth, (∀ t, e = some t → t ∈ (c.blocks X).successors) →
      Move.Rel (JoinedPlace A y X ops.length) (enter e truth) (enter e truth) := by
    intro e truth he
    cases e with
    | none => exact .shows fun _ => .none
    | some t =>
      have ht := he t rfl
      exact .silent (joinedPlace_of_entry rfl (hedge X hX t ht) fun heq =>
        hyX (hpred X hX (heq ▸ ht)).symm)
  have hsame : ∀ o, SameConstants c c' o := fun o => .of_literals h.literals
  have hjump : ∀ op v, (c'.blocks y).jumpTo op v = (c.blocks X).jumpTo op v := by
    have hedges := h.edges_self
    simp only [ZendCodeBlock.edges, List.cons.injEq, and_true] at hedges
    obtain ⟨h₁, h₂, h₃, h₄⟩ := hedges
    intro op v
    simp only [ZendCodeBlock.jumpTo, h₁, h₂, h₃, h₄]
  have hi : (ops ++ ops')[ops.length + i]? = ops'[i]? := by
    rw [List.getElem?_append_right (Nat.le_add_right _ _), Nat.add_sub_cancel_left]
  cases ho : ops'[i]? with
  | none =>
    rw [walk_end h.oplines_joined ho, walk_end h.oplines_self (hi.trans ho),
      followTo_eq_of_edges h.edges_self]
    exact hentry _ _ fun t ht => followTo_mem_successors ht
  | some o =>
    simp only [walk, h.oplines_joined, h.oplines_self, hi, ho, hXb, hyb, false_and, and_false,
      or_false, (hsame o).effect, (hsame o).isTrue, (hsame o).found, hjump]
    split_ifs
    · exact .silent (.inr ⟨rfl, hX, rfl⟩)
    · exact hentry _ _ fun t ht => ZendCodeBlock.mem_successors_of_jumpTo ht
    · exact .shows fun _ => .none

/-- A block is joined with its only predecessor. -/
theorem JoinedCode.tracks :
    Tracks (c.walk b k) (c'.walk b k) (JoinedPlace A y X ops.length) := by
  rintro ⟨x, i, truth⟩ t (⟨rfl, hA, hX, hle⟩ | ⟨rfl, hX, rfl⟩)
  · dsimp only at hA hX hle
    have hnext : ∀ p, c.walk b k ⟨x, i, truth⟩ = .silent p → x ≠ y ∨ i < ops.length →
        JoinedPlace A y X ops.length p p := by
      intro p hp hlt
      rcases walk_silent hp with ⟨hblock, hopno, -⟩ | ⟨hzero, hsucc⟩
      · refine .inl ⟨rfl, hblock ▸ hA, hblock ▸ hX, fun hy => ?_⟩
        have := hlt.resolve_left fun hne => hne (hblock.symm.trans hy)
        dsimp only at hopno
        omega
      · by_cases hpX : p.block = X
        · -- only `y` leads to the joined block, at its end
          obtain rfl := hpred x hA (hpX ▸ hsucc)
          have hi := hlt.resolve_left fun hne => hne rfl
          obtain ⟨o, ho⟩ : ∃ o, ops[i]? = some o := ⟨_, List.getElem?_eq_getElem hi⟩
          have hplain := h.plain o (List.mem_of_getElem? ho)
          simp only [walk, h.oplines, ho, hplain, Bool.false_eq_true, if_false] at hp
          split_ifs at hp
          exact absurd ((congrArg Place.block (Move.silent.inj hp)).trans hpX) hX
        · exact joinedPlace_of_entry hzero (hedge x hA _ hsucc) hpX
    by_cases hxy : x = y
    · subst hxy
      rcases (hle rfl).lt_or_eq with hlt | rfl
      · have hi : (ops ++ ops')[i]? = ops[i]? := List.getElem?_append_left hlt
        obtain ⟨o, ho⟩ : ∃ o, ops[i]? = some o := ⟨_, List.getElem?_eq_getElem hlt⟩
        have hplain := h.plain o (List.mem_of_getElem? ho)
        have hsame : SameConstants c c' o := .of_literals h.literals
        have hwalk : c'.walk b k ⟨x, i, truth⟩ = c.walk b k ⟨x, i, truth⟩ := by
          simp only [walk, h.oplines, h.oplines_self, hi, ho, hplain, hsame.effect, hsame.found,
            Bool.false_eq_true, if_false]
        exact .of_rel (rel_of_walk_eq hwalk fun p hp => .of_rel (hnext p hp (.inr hlt)))
      · -- the walk enters the joined block
        have hend : c.walk b k ⟨x, ops.length, truth⟩ = .silent ⟨X, 0, truth⟩ := by
          rw [walk_end h.oplines (by simp), h.follow]
          rfl
        have hXA : X ∈ A := hedge x hA X (followTo_mem_successors h.follow)
        have hrel := h.rel_joined hyX hyb hXb hedge hpred (i := 0) (k := k) hXA truth
        exact ⟨1, 0, _, _, .one hend, .refl _, hrel.mono fun _ _ => .of_rel⟩
    · have hwalk := walk_congr (b := b) (k := k) (s := ⟨x, i, truth⟩) (h.code x hxy hX)
        fun _ _ _ _ => .of_literals h.literals
      exact .of_rel (rel_of_walk_eq hwalk fun p hp => .of_rel (hnext p hp (.inl hxy)))
  · have hrel := h.rel_joined hyX hyb hXb hedge hpred (i := i) (k := k) hX truth
    exact .of_rel (hrel.mono fun _ _ => .of_rel)

end Join

section Delete

variable {t : ℕ}

/-- The code after the empty block `y`, which falls to `t`, has been deleted. -/
structure SkippedCode (c c' : ZendCfg) (y t : ℕ) : Prop where
  empty : (c.blocks y).oplines = some []
  follow : (c.blocks y).followTo = some t
  oplines : ∀ x, (c'.blocks x).oplines = (c.blocks x).oplines
  edges : ∀ x, (c'.blocks x).edges = (c.blocks x).edges ∨
    (c'.blocks x).edges = (c.blocks x).edges.map (redirectEdge y t)
  literals : c'.literals = c.literals

omit [ZendEngine] in
/-- The same edge is taken, or one that skips the deleted block. -/
theorem SkippedCode.jumpTo {y : ℕ} (h : SkippedCode c c' y t) (x : ℕ) (op : ZendOpcode) (v : Bool) :
    (c'.blocks x).jumpTo op v = (c.blocks x).jumpTo op v ∨
      (c.blocks x).jumpTo op v = some y ∧ (c'.blocks x).jumpTo op v = some t := by
  rcases h.edges x with hsame | hmap
  · exact .inl (SameCode.jumpTo ⟨h.oplines x, hsame⟩ op v)
  · have hjump : (c'.blocks x).jumpTo op v = redirectEdge y t ((c.blocks x).jumpTo op v) := by
      simp only [ZendCodeBlock.edges, List.map_cons, List.map_nil, List.cons.injEq,
        and_true] at hmap
      obtain ⟨h₁, h₂, h₃, h₄⟩ := hmap
      simp only [ZendCodeBlock.jumpTo, h₁, h₂, h₃, h₄]
      split <;> try split_ifs
      all_goals rfl
    rw [hjump]
    unfold redirectEdge
    split_ifs with hy
    · exact .inr ⟨hy, rfl⟩
    · exact .inl rfl

/-- An empty block is deleted. -/
theorem SkippedCode.tracks {y : ℕ} (h : SkippedCode c c' y t) :
    Tracks (c.walk b k) (c'.walk b k) Eq := by
  rintro ⟨x, i, truth⟩ _ rfl
  refine .of_rel ?_
  have hrefl : ∀ m : Move Place Unit Found, m ≠ .stuck → (∀ w next, m = .shows w next →
      next = fun _ => none) → Move.Rel (Converge (c.walk b k) (c'.walk b k) Eq) m m := by
    intro m hstuck hshows
    cases m with
    | stuck => exact absurd rfl hstuck
    | silent p => exact .silent (.of_rel rfl)
    | shows w next =>
      obtain rfl := hshows w next rfl
      exact .shows fun _ => .none
  have henter : ∀ op v truth, Move.Rel (Converge (c.walk b k) (c'.walk b k) Eq)
      (enter ((c.blocks x).jumpTo op v) truth) (enter ((c'.blocks x).jumpTo op v) truth) := by
    intro op v truth
    rcases h.jumpTo x op v with hsame | ⟨hy, ht⟩
    · rw [hsame]
      refine hrefl _ (fun hstuck => ?_) fun w next hshows => enter_shows hshows
      cases he : (c.blocks x).jumpTo op v <;> rw [he] at hstuck <;> cases hstuck
    · -- the walk falls through the deleted block
      rw [hy, ht]
      have hend : c.walk b k ⟨y, 0, truth⟩ = .silent ⟨t, 0, truth⟩ := by
        rw [walk_end h.empty rfl, h.follow]
        rfl
      exact .silent ⟨1, 0, _, _, .one hend, .refl _, rfl⟩
  have hsame : ∀ o, SameConstants c c' o := fun o => .of_literals h.literals
  obtain hops | ⟨ops, hops⟩ := Option.eq_none_or_eq_some (c.blocks x).oplines
  · simp only [walk, h.oplines, hops]
    exact .shows fun _ => .none
  · cases hi : ops[i]? with
    | none =>
      rw [walk_end hops hi, walk_end ((h.oplines x).trans hops) hi]
      exact henter .jmpz true truth
    | some o =>
      simp only [walk, h.oplines, hops, hi, (hsame o).effect, (hsame o).isTrue, (hsame o).found]
      split_ifs
      · exact .silent (.of_rel rfl)
      · exact henter _ _ _
      · exact .shows fun _ => .none

end Delete

end Walk

end ZendCfg

end ZendOpcache
