import ZendOpcache.Optimizer.ReplaceTmp

/-! # Literals and their string buffers

A literal is a structure copy of the constant, so it shares the buffer of a string with it. The
opcodes that get a pair of literals add the constant twice and lower-case its buffer in between:
both literals point at one buffer, and the first one no longer holds the original spelling.
-/

namespace ZendOpcache

/-- A value, where a string is the buffer that holds it -/
inductive BufferedZval where
  | string (buffer : ℕ)
  | other (val : {v : Zval // ∀ s, v ≠ .string s})
  deriving DecidableEq, Repr

theorem long_ne_string (n : Int64) (s : List UInt8) : Zval.long n ≠ .string s := by
  intro h
  cases h

structure BufferedLiteral where
  constant : BufferedZval
  hashValue : ℕ
  cacheSlot : ℤ
  deriving DecidableEq, Repr

/-- The buffer that is released with a literal: an interned string has no owner. -/
def BufferedLiteral.owned (interned : ℕ → Bool) (l : BufferedLiteral) : Option ℕ :=
  match l.constant with
  | .string b => if interned b then none else some b
  | .other _ => none

/-- The literals of an op array, and the memory of their strings -/
structure LiteralMemory where
  buffers : ℕ → List UInt8
  literals : List BufferedLiteral
  lastCacheSlot : ℕ

namespace LiteralMemory

section Update

variable (m : LiteralMemory)

/-- The value that the program sees -/
def read : BufferedZval → Zval
  | .string b => .string (m.buffers b)
  | .other v => v.1

def readLiteral (l : BufferedLiteral) : ZendLiteral := ⟨m.read l.constant, l.hashValue, l.cacheSlot⟩

/-- The owned buffers, once for each literal that owns one -/
def ownedBuffers (interned : ℕ → Bool) : List ℕ := m.literals.filterMap (·.owned interned)

/-- `zend_optimizer_add_literal` -/
def addLiteral (val : BufferedZval) : LiteralMemory :=
  { m with literals := m.literals ++ [⟨val, 0, -1⟩] }

def modifyLiteral (i : ℕ) (f : BufferedLiteral → BufferedLiteral) : LiteralMemory :=
  { m with literals := m.literals.modify i f }

/-- Reserve cache slots for a literal. -/
def takeSlots (i k : ℕ) : LiteralMemory :=
  { m.modifyLiteral i fun l => { l with cacheSlot := m.lastCacheSlot } with
    lastCacheSlot := m.lastCacheSlot + k }

/-- `zend_str_tolower` writes to the buffer. -/
def strTolower (b : ℕ) : LiteralMemory :=
  { m with buffers := Function.update m.buffers b (zendStrTolower (m.buffers b)) }

variable [ZendEngine]

/-- The hash of the string that a literal holds at this moment -/
def hashLiteral (i : ℕ) : LiteralMemory :=
  m.modifyLiteral i fun l =>
    match m.read l.constant with
    | .string s => { l with hashValue := zendHashFunc s }
    | _ => l

/-- `update_op1_const` on the literals -/
def updateOp1Const (o : ZendOp) (val : BufferedZval) : LiteralMemory :=
  if o.opcode = .free then m
  else
    let i := m.literals.length
    match val with
    | .string b =>
      if o.opcode.pairsOp1 then
        (((((m.addLiteral val).hashLiteral i).takeSlots i 1).strTolower b).addLiteral
          val).hashLiteral (i + 1)
      else if o.opcode = .doFcall then
        (((m.strTolower b).addLiteral val).hashLiteral i).takeSlots i 1
      else (m.addLiteral val).hashLiteral i
    | .other _ => m.addLiteral val

/-- `update_op2_const` on the literals; `prev` is the opline before. -/
def updateOp2Const (prev : Option ZendOp) (o : ZendOp) (val : BufferedZval) : LiteralMemory :=
  let i := m.literals.length
  match val with
  | .string b =>
    let m' := (m.addLiteral val).hashLiteral i
    if o.opcode.pairsOp2 then
      (((m'.takeSlots i 1).strTolower b).addLiteral val).hashLiteral (i + 1)
    else if o.opcode.isMethodCall then
      (((m'.strTolower b).addLiteral val).hashLiteral (i + 1)).takeSlots i 2
    else if o.opcode.isPropertyOp ||
        (o.opcode.isAssignOp && o.extendedValue == zendAssignObj) then m'.takeSlots i 2
    else if o.opcode.isDimensionOp || (o.opcode == .opData && prev.any (·.checksData)) then
      match zendHandleNumeric (m.buffers b) with
      | some n => m'.modifyLiteral i fun l =>
        { l with constant := .other ⟨.long n, long_ne_string n⟩ }
      | none => m'
    else m'
  | .other _ => m.addLiteral val

end Update

section Spec

variable [ZendEngine] (m : LiteralMemory)

/-- The literal holds a string and the hash of it. -/
def Hashed (l : BufferedLiteral) : Prop :=
  ∃ s, m.read l.constant = .string s ∧ l.hashValue = zendHashFunc s

/-- A pair of literals for a string: the original spelling, then the key to look up -/
structure Pair (interned : ℕ → Bool) (i : ℕ) (s : List UInt8) : Prop where
  original : ∃ l, m.literals[i]? = some l ∧ m.read l.constant = .string s ∧ m.Hashed l
  key : ∃ l, m.literals[i + 1]? = some l ∧ m.read l.constant = .string (zendStrTolower s) ∧
    m.Hashed l
  owners : (m.ownedBuffers interned).Nodup

end Spec

section Pairs

@[simp] theorem modify_length_append {α : Type*} (l r : List α) (x : α) (f : α → α) :
    (l ++ x :: r).modify l.length f = l ++ f x :: r := by
  induction l with
  | nil => rfl
  | cons y l ih => simp [ih]

@[simp] theorem modify_length_append_succ {α : Type*} (l : List α) (x y : α) (f : α → α) :
    (l ++ [x, y]).modify (l.length + 1) f = l ++ [x, f y] := by
  induction l with
  | nil => rfl
  | cons z l ih => simp [ih]

variable [ZendEngine] (m : LiteralMemory) (b : ℕ)

/-- The memory after a string got two literals, with its buffer lower-cased in between -/
def withPair (k : ℕ) : LiteralMemory where
  buffers := Function.update m.buffers b (zendStrTolower (m.buffers b))
  literals := m.literals ++ [⟨.string b, zendHashFunc (m.buffers b), m.lastCacheSlot⟩,
    ⟨.string b, zendHashFunc (zendStrTolower (m.buffers b)), -1⟩]
  lastCacheSlot := m.lastCacheSlot + k

variable {m b} {o : ZendOp} {interned : ℕ → Bool}

theorem updateOp1Const_pair (hpair : o.opcode.pairsOp1 = true) :
    m.updateOp1Const o (.string b) = m.withPair b 1 := by
  have hfree : o.opcode ≠ .free := by
    intro h
    simp [h, ZendOpcode.pairsOp1] at hpair
  simp [updateOp1Const, withPair, hfree, hpair, addLiteral, hashLiteral, takeSlots, strTolower,
    modifyLiteral, read]

theorem updateOp2Const_pair (prev : Option ZendOp) (hpair : o.opcode.pairsOp2 = true) :
    m.updateOp2Const prev o (.string b) = m.withPair b 1 := by
  simp [updateOp2Const, withPair, hpair, addLiteral, hashLiteral, takeSlots, strTolower,
    modifyLiteral, read]

theorem updateOp2Const_method (prev : Option ZendOp) (hcall : o.opcode.isMethodCall = true) :
    m.updateOp2Const prev o (.string b) = m.withPair b 2 := by
  have hpair : o.opcode.pairsOp2 = false := by
    unfold ZendOpcode.isMethodCall at hcall
    split at hcall <;> simp_all [ZendOpcode.pairsOp2]
  simp [updateOp2Const, withPair, hpair, hcall, addLiteral, hashLiteral, takeSlots, strTolower,
    modifyLiteral, read]

theorem withPair_first (k : ℕ) : (m.withPair b k).literals[m.literals.length]? =
    some ⟨.string b, zendHashFunc (m.buffers b), m.lastCacheSlot⟩ := by
  simp [withPair]

theorem withPair_second (k : ℕ) : (m.withPair b k).literals[m.literals.length + 1]? =
    some ⟨.string b, zendHashFunc (zendStrTolower (m.buffers b)), -1⟩ := by
  simp [withPair]

theorem withPair_read (k : ℕ) :
    (m.withPair b k).read (.string b) = .string (zendStrTolower (m.buffers b)) := by
  simp [read, withPair]

theorem withPair_owned (k : ℕ) : (m.withPair b k).ownedBuffers interned =
    m.ownedBuffers interned ++ if interned b then [] else [b, b] := by
  cases hi : interned b <;> simp [ownedBuffers, withPair, BufferedLiteral.owned, hi]

/-- Two literals for one buffer are a pair only if nobody owns the buffer and it was in lower case
before. -/
theorem pair_withPair_iff (hown : (m.ownedBuffers interned).Nodup) (k : ℕ) :
    (m.withPair b k).Pair interned m.literals.length (m.buffers b) ↔
      interned b = true ∧ zendStrTolower (m.buffers b) = m.buffers b := by
  constructor
  · rintro ⟨⟨l, hl, hread, -⟩, -, hnodup⟩
    rw [withPair_owned] at hnodup
    constructor
    · by_contra hi
      rw [if_neg hi] at hnodup
      simpa using (List.nodup_append.mp hnodup).2.1
    · obtain rfl := Option.some.inj ((withPair_first k).symm.trans hl)
      rw [withPair_read] at hread
      exact Zval.string.inj hread
  · rintro ⟨hi, hlower⟩
    constructor
    · refine ⟨_, withPair_first k, ?_, _, withPair_read k, ?_⟩
      · rw [withPair_read, hlower]
      · rw [hlower]
    · exact ⟨_, withPair_second k, withPair_read k, _, withPair_read k, rfl⟩
    · rw [withPair_owned, if_pos hi, List.append_nil]
      exact hown

/-- The pairs of literals that the two functions add are right exactly for an interned string
without upper-case letters. -/
theorem updateConst_pair_iff (m : LiteralMemory) (b : ℕ) (o : ZendOp) (prev : Option ZendOp)
    (interned : ℕ → Bool) (hown : (m.ownedBuffers interned).Nodup) :
    (o.opcode.pairsOp1 = true →
      ((m.updateOp1Const o (.string b)).Pair interned m.literals.length (m.buffers b) ↔
        interned b = true ∧ zendStrTolower (m.buffers b) = m.buffers b)) ∧
    (o.opcode.pairsOp2 = true ∨ o.opcode.isMethodCall = true →
      ((m.updateOp2Const prev o (.string b)).Pair interned m.literals.length (m.buffers b) ↔
        interned b = true ∧ zendStrTolower (m.buffers b) = m.buffers b)) := by
  constructor
  · intro hpair
    rw [updateOp1Const_pair hpair]
    exact pair_withPair_iff hown 1
  · rintro (hpair | hcall)
    · rw [updateOp2Const_pair prev hpair]
      exact pair_withPair_iff hown 1
    · rw [updateOp2Const_method prev hcall]
      exact pair_withPair_iff hown 2

end Pairs

section Reading

variable {m m' : LiteralMemory} {b : ℕ}

/-- Lower-casing the string changes no literal that is there. -/
def Spares (m : LiteralMemory) (b : ℕ) : Prop :=
  (∃ l ∈ m.literals, l.constant = .string b) → zendStrTolower (m.buffers b) = m.buffers b

/-- The program sees the new literals behind the old ones. -/
structure Adds (m m' : LiteralMemory) (x : List ZendLiteral × ℕ) : Prop where
  literals : ∃ new, m'.literals = m.literals ++ new ∧ new.map m'.readLiteral = x.1
  kept : ∀ l ∈ m.literals, m'.readLiteral l = m.readLiteral l
  lastCacheSlot : m'.lastCacheSlot = m.lastCacheSlot + x.2

theorem readLiteral_congr (h : m'.buffers = m.buffers) (l : BufferedLiteral) :
    m'.readLiteral l = m.readLiteral l := by
  simp only [readLiteral, read, h]

theorem Spares.readLiteral_eq (h : m.Spares b) (hb : m'.buffers = (m.strTolower b).buffers)
    {l : BufferedLiteral} (hl : l ∈ m.literals) : m'.readLiteral l = m.readLiteral l := by
  rw [readLiteral_congr hb]
  unfold readLiteral read strTolower
  cases hc : l.constant with
  | other v => rfl
  | string c =>
    by_cases hcb : c = b
    · subst hcb
      simp [h ⟨l, hl, hc⟩]
    · simp [Function.update_of_ne hcb]

/-- One literal, where the strings stay as they are -/
theorem Adds.single (l : BufferedLiteral) (k : ℕ) {x : List ZendLiteral × ℕ}
    (hx : x = ([m.readLiteral l], k)) (hb : m'.buffers = m.buffers)
    (hl : m'.literals = m.literals ++ [l]) (hslot : m'.lastCacheSlot = m.lastCacheSlot + k) :
    m.Adds m' x := by
  subst hx
  refine ⟨⟨[l], hl, ?_⟩, fun l _ => readLiteral_congr hb l, hslot⟩
  rw [List.map_singleton, readLiteral_congr hb]

variable [ZendEngine] {o : ZendOp}

theorem Spares.adds_withPair (h : m.Spares b) (k : ℕ) : m.Adds (m.withPair b k)
    ([⟨.string (zendStrTolower (m.buffers b)), zendHashFunc (m.buffers b), m.lastCacheSlot⟩,
      ⟨.string (zendStrTolower (m.buffers b)), zendHashFunc (zendStrTolower (m.buffers b)), -1⟩],
      k) := by
  refine ⟨⟨_, rfl, ?_⟩, fun l hl => h.readLiteral_eq rfl hl, rfl⟩
  simp [readLiteral, withPair_read]

theorem op1Literals_other (opcode : ZendOpcode) {v : Zval} (hv : ∀ s, v ≠ .string s) (slot : ℤ) :
    op1Literals opcode v slot = ([⟨v, 0, -1⟩], 0) := by
  cases v with
  | string s => exact absurd rfl (hv s)
  | _ => rfl

theorem op2Literals_other (prev : Option ZendOp) (o : ZendOp) {v : Zval}
    (hv : ∀ s, v ≠ .string s) (slot : ℤ) : op2Literals prev o v slot = ([⟨v, 0, -1⟩], 0) := by
  cases v with
  | string s => exact absurd rfl (hv s)
  | _ => rfl

theorem adds_op1Literals {val : BufferedZval} (hfree : o.opcode ≠ .free)
    (hspare : ∀ b, val = .string b → m.Spares b) :
    m.Adds (m.updateOp1Const o val) (op1Literals o.opcode (m.read val) m.lastCacheSlot) := by
  cases val with
  | other v =>
    simp only [updateOp1Const, if_neg hfree, read, op1Literals_other _ v.2]
    exact .single ⟨.other v, 0, -1⟩ 0 rfl rfl rfl rfl
  | string b =>
    have hspare := hspare b rfl
    by_cases hpair : o.opcode.pairsOp1 = true
    · rw [updateOp1Const_pair hpair]
      simpa [op1Literals, read, hpair] using hspare.adds_withPair 1
    · by_cases hcall : o.opcode = .doFcall
      · simp only [updateOp1Const, op1Literals, read, hcall, ZendOpcode.pairsOp1]
        have hl : ((((m.strTolower b).addLiteral (.string b)).hashLiteral
            m.literals.length).takeSlots m.literals.length 1).literals =
            m.literals ++ [⟨.string b, zendHashFunc (zendStrTolower (m.buffers b)),
              m.lastCacheSlot⟩] := by
          simp [addLiteral, hashLiteral, takeSlots, strTolower, modifyLiteral, read]
        refine ⟨⟨_, hl, ?_⟩, fun l hl => hspare.readLiteral_eq rfl hl, rfl⟩
        simp [readLiteral, read, addLiteral, hashLiteral, takeSlots, strTolower, modifyLiteral]
      · simp only [updateOp1Const, op1Literals, read, hfree, hcall, hpair, if_false]
        refine .single ⟨.string b, zendHashFunc (m.buffers b), -1⟩ 0 rfl rfl ?_ rfl
        simp [addLiteral, hashLiteral, modifyLiteral, read]

theorem adds_op2Literals (prev : Option ZendOp) {val : BufferedZval}
    (hspare : ∀ b, val = .string b → m.Spares b) :
    m.Adds (m.updateOp2Const prev o val) (op2Literals prev o (m.read val) m.lastCacheSlot) := by
  cases val with
  | other v =>
    simp only [updateOp2Const, read, op2Literals_other _ _ v.2]
    exact .single ⟨.other v, 0, -1⟩ 0 rfl rfl rfl rfl
  | string b =>
    have hspare := hspare b rfl
    by_cases hpair : o.opcode.pairsOp2 = true
    · rw [updateOp2Const_pair prev hpair]
      simpa [op2Literals, read, hpair] using hspare.adds_withPair 1
    by_cases hcall : o.opcode.isMethodCall = true
    · rw [updateOp2Const_method prev hcall]
      simpa [op2Literals, read, hpair, hcall] using hspare.adds_withPair 2
    have hadd : ((m.addLiteral (.string b)).hashLiteral m.literals.length).literals =
        m.literals ++ [⟨.string b, zendHashFunc (m.buffers b), -1⟩] := by
      simp [addLiteral, hashLiteral, modifyLiteral, read]
    unfold updateOp2Const op2Literals
    simp only [read, if_neg hpair, if_neg hcall]
    split_ifs with hprop hdim
    · refine .single ⟨.string b, zendHashFunc (m.buffers b), m.lastCacheSlot⟩ 2 rfl rfl ?_ rfl
      simp only [takeSlots, modifyLiteral, hadd, modify_length_append]
      rfl
    · cases zendHandleNumeric (m.buffers b) with
      | none => exact .single _ 0 rfl rfl hadd rfl
      | some n =>
        refine .single ⟨.other ⟨.long n, long_ne_string n⟩, zendHashFunc (m.buffers b),
          -1⟩ 0 rfl rfl ?_ rfl
        simp only [modifyLiteral, hadd, modify_length_append]
    · exact .single _ 0 rfl rfl hadd rfl

/-- The op array as the program sees it -/
structure Reads (m : LiteralMemory) (a : ZendOpArray) : Prop where
  literals : a.literals = m.literals.map m.readLiteral
  lastCacheSlot : a.lastCacheSlot = m.lastCacheSlot

variable {a : ZendOpArray} {i : ℕ} {val : BufferedZval} (h : m.Reads a)
  (ho : a.opcodes[i]? = some o) (hspare : ∀ b, val = .string b → m.Spares b)

omit [ZendEngine] in
include h in
theorem Reads.adds {x : List ZendLiteral × ℕ} (hadds : m.Adds m' x) (f : ZendOp → ZendOp) :
    m'.Reads ((a.addLiterals x).modifyOp i f) := by
  obtain ⟨⟨new, hnew, hread⟩, hkept, hslot⟩ := hadds
  constructor
  · simp only [ZendOpArray.modifyOp_literals, ZendOpArray.addLiterals, h.literals, hnew,
      List.map_append, hread, List.map_congr_left hkept]
  · simp only [ZendOpArray.modifyOp, ZendOpArray.addLiterals, h.lastCacheSlot, hslot]

include h ho hspare

/-- The memory holds what `update_op1_const` does to the list of literals. -/
theorem Reads.updateOp1Const :
    (m.updateOp1Const o val).Reads (a.updateOp1Const i (m.read val)) := by
  unfold ZendOpArray.updateOp1Const
  rw [ho]
  dsimp only
  split_ifs with hfree
  · rw [LiteralMemory.updateOp1Const, if_pos hfree]
    exact ⟨h.literals, h.lastCacheSlot⟩
  · rw [h.lastCacheSlot]
    exact h.adds (adds_op1Literals hfree hspare) _

theorem Reads.updateOp2Const :
    (m.updateOp2Const (if i = 0 then none else a.opcodes[i - 1]?) o val).Reads
      (a.updateOp2Const i (m.read val)) := by
  unfold ZendOpArray.updateOp2Const
  rw [ho]
  dsimp only
  rw [h.lastCacheSlot]
  exact h.adds (adds_op2Literals _ hspare) _

end Reading

section Tests

local instance : ZendEngine where
  zendHashFunc s := (s.map UInt8.toNat).sum
  zendHandleNumeric _ := none
  binaryOp _ _ _ := none
  unaryOp _ _ := none
  convertTo _ v := v
  persistentConstant _ := none

/-- The string `Foo`, and `foo` -/
def mixedCase : LiteralMemory :=
  ⟨fun b => if b = 0 then [70, 111, 111] else [102, 111, 111], [], 0⟩

/-- The names of a static call have no pairs of literals in an allocated buffer, and they have them
as interned strings in lower case. -/
theorem updateConst_pair_iff_mixedCase :
    (¬ (mixedCase.updateOp1Const ⟨.initStaticMethodCall, .none, .none, .none, 0⟩
        (.string 0)).Pair (fun _ => false) 0 [70, 111, 111] ∧
      ¬ (mixedCase.updateOp2Const none ⟨.initStaticMethodCall, .none, .none, .none, 0⟩
        (.string 0)).Pair (fun _ => false) 0 [70, 111, 111]) ∧
    (mixedCase.updateOp1Const ⟨.initStaticMethodCall, .none, .none, .none, 0⟩
        (.string 1)).Pair (fun _ => true) 0 [102, 111, 111] ∧
      (mixedCase.updateOp2Const none ⟨.initStaticMethodCall, .none, .none, .none, 0⟩
        (.string 1)).Pair (fun _ => true) 0 [102, 111, 111] := by
  obtain ⟨h₁, h₂⟩ := updateConst_pair_iff mixedCase 0
    ⟨.initStaticMethodCall, .none, .none, .none, 0⟩ none (fun _ => false) List.nodup_nil
  obtain ⟨h₃, h₄⟩ := updateConst_pair_iff mixedCase 1
    ⟨.initStaticMethodCall, .none, .none, .none, 0⟩ none (fun _ => true) List.nodup_nil
  refine ⟨⟨fun h => ?_, fun h => ?_⟩, (h₃ rfl).mpr (by decide), (h₄ (.inr rfl)).mpr (by decide)⟩
  · exact absurd ((h₁ rfl).mp h).1 (by decide)
  · exact absurd ((h₂ (.inr rfl)).mp h).1 (by decide)

/-- A function `Foo` that is called by a folded name: both literals hold `foo` in one buffer, and
the first one has the hash of `Foo`, so this is no pair. -/
theorem updateOp2Const_mixedCase :
    let m := mixedCase.updateOp2Const none ⟨.initFcallByName, .none, .none, .none, 0⟩ (.string 0)
    ZendOpcode.initFcallByName.pairsOp2 = true ∧
    m.literals = [⟨.string 0, 292, 0⟩, ⟨.string 0, 324, -1⟩] ∧
    m.buffers 0 = [102, 111, 111] ∧ zendHashFunc [102, 111, 111] = 324 ∧
    m.ownedBuffers (fun _ => false) = [0, 0] ∧
    ¬ m.Pair (fun _ => false) 0 [70, 111, 111] := by
  refine ⟨rfl, rfl, rfl, rfl, rfl, ?_⟩
  rintro ⟨-, -, howners⟩
  exact absurd howners (by decide)

end Tests

end LiteralMemory

end ZendOpcache
