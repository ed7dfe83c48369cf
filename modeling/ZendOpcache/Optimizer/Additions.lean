import Mathlib.Logic.Relation
import ZendOpcache.Optimizer.CompoundAssign
import ZendOpcache.Optimizer.Pass1

/-! # Series of additions to a string

The two loops of pass 1 over a series of `ADD_STRING` and `ADD_CHAR`: the first adds up the lengths,
the second copies the bytes into a buffer of that length. They agree for every mix, so
the buffer is filled exactly, and the temporary ends with the same string.
-/

namespace ZendOpcache

namespace ZendOpArray

variable (a : ZendOpArray)

/-- `value.str` of a literal -/
def strVal? (x : Znode) : Option (List UInt8) :=
  match a.literal x with
  | .string s => some s
  | _ => none

/-- `(char)value.lval` of a literal -/
def charVal? (x : Znode) : Option UInt8 :=
  match a.literal x with
  | .long n => some n.toBitVec.toNat.toUInt8
  | _ => none

/-- The first loop: the opline after the series, and the length of what is added. -/
def scanAdditions (var : ℕ) : ℕ → ℕ → ℕ → Option (ℕ × ℕ)
  | 0, _, _ => none
  | n + 1, next, length =>
    match a.opcodes[next]? with
    | none => none
    | some o =>
      if o.opcode.addsConst && o.result.num == var then
        if o.opcode = .addChar then scanAdditions var n (next + 1) (length + 1)
        else (a.strVal? o.op2).bind fun s => scanAdditions var n (next + 1) (length + s.length)
      else some (next, length)

end ZendOpArray

/-- `memcpy` into a block of memory, in which a byte may be unset. It is `none` outside the
block. -/
def storeBytes (buffer : List (Option UInt8)) (ptr : ℕ) (bytes : List UInt8) :
    Option (List (Option UInt8)) :=
  if ptr + bytes.length ≤ buffer.length then
    some (buffer.take ptr ++ bytes.map some ++ buffer.drop (ptr + bytes.length))
  else none

/-- The second loop: the op array, the memory and the position in it. -/
structure CopyState where
  ops : ZendOpArray
  buffer : List (Option UInt8)
  ptr : ℕ

namespace CopyState

def copy (st : CopyState) (bytes : List UInt8) : Option CopyState :=
  (storeBytes st.buffer st.ptr bytes).map fun buffer =>
    { st with buffer := buffer, ptr := st.ptr + bytes.length }

/-- One turn of the second loop. -/
def copyAddition (st : CopyState) (next : ℕ) : Option CopyState :=
  (st.ops.opcodes[next]?).bind fun o =>
    if o.opcode = .addString then
      (st.ops.strVal? o.op2).bind fun s => (st.copy s).map fun st =>
        { st with ops := (st.ops.literalDtor o.op2).modifyOp next .makeNop }
    else
      (st.ops.charVal? o.op2).bind fun c => (st.copy [c]).map fun st =>
        { st with ops := st.ops.modifyOp next .makeNop }

end CopyState

namespace ZendOpArray

variable (a : ZendOpArray)

/-- What the first opline of a series adds itself. -/
def firstBytes? (o : ZendOp) : Option (List UInt8) :=
  if o.opcode = .addChar then (a.charVal? o.op2).map ([·]) else a.strVal? o.op2

/-- `case ZEND_ADD_STRING` and `case ZEND_ADD_CHAR`, with the loops of the source. The result is
`none` where the code leaves the op array or the memory, or takes a literal for what it is not. -/
def mergeSeries (level i : ℕ) (o : ZendOp) : Option ZendOpArray := do
  let (last, length) ← a.scanAdditions o.result.num a.opcodes.length (i + 1) 0
  if length = 0 then
    return a
  let first ← a.firstBytes? o
  let length := length + first.length
  -- emalloc, and the byte at the end
  let st : CopyState := ⟨a.modifyOp i ({ · with opcode := .addString }),
    List.replicate length none ++ [some 0], 0⟩
  let st ← st.copy first
  let st ← (List.range' (i + 1) (last - (i + 1))).foldlM CopyState.copyAddition st
  let str ← (st.buffer.take length).mapM id
  let b := st.ops.setLiteral o.op2 (.string str)
  if !(hasPass level 5 || hasPass level 10) && decide (3 ≤ last - i) then
    return b.modifyOp (i + 1) fun o => { o with opcode := .jmp, op1 := { o.op1 with num := last } }
  return b

/-- A series as the compiler emits it: every opline of it appends a constant of its own to the
temporary, a string or a character by the opcode, and an opline follows. The first one may start
with the empty string. -/
structure Series (i : ℕ) (o : ZendOp) : Prop where
  first : a.opcodes[i]? = some o
  addsConst : o.opcode.addsConst = true
  firstOperand : o.op1.type = .unused ∨ o.op1.num = o.result.num
  operand : ∀ x ∈ a.additions i o, x.op1.type ≠ .unused ∧ x.op1.num = o.result.num
  string : ∀ x ∈ o :: a.additions i o, x.opcode = .addString → (a.strVal? x.op2).isSome
  char : ∀ x ∈ o :: a.additions i o, x.opcode = .addChar → (a.charVal? x.op2).isSome
  const : ∀ x ∈ o :: a.additions i o, x.op2.type = .const
  inRange : ∀ x ∈ o :: a.additions i o, x.op2.num < a.literals.length
  own : ((o :: a.additions i o).map (·.op2.num)).Nodup
  ends : i + 1 + (a.additions i o).length < a.opcodes.length

variable {a} {i j next fuel length : ℕ} {o x : ZendOp} {ys : List ZendOp}

theorem addedBytes_string {s : List UInt8} (h : x.opcode = .addString)
    (hs : a.strVal? x.op2 = some s) : a.addedBytes x = s := by
  unfold strVal? at hs
  unfold addedBytes
  rw [h]
  cases hl : a.literal x.op2 with
  | string s' =>
    rw [hl] at hs
    exact Option.some.inj hs
  | _ =>
    rw [hl] at hs
    cases hs

theorem addedBytes_char {c : UInt8} (h : x.opcode = .addChar)
    (hc : a.charVal? x.op2 = some c) : a.addedBytes x = [c] := by
  unfold charVal? at hc
  unfold addedBytes
  rw [h]
  cases hl : a.literal x.op2 with
  | long n =>
    rw [hl] at hc
    exact congrArg ([·]) (Option.some.inj hc)
  | _ =>
    rw [hl] at hc
    cases hc

theorem addsConst_cases (h : x.opcode.addsConst = true) :
    x.opcode = .addString ∨ x.opcode = .addChar := by
  cases hx : x.opcode <;> simp [hx, ZendOpcode.addsConst] at h <;> simp

/-- The oplines that add to a temporary, from opline `next` on. -/
def additionsFrom (a : ZendOpArray) (var next : ℕ) : List ZendOp :=
  (a.opcodes.drop next).takeWhile fun x => x.opcode.addsConst && x.result.num == var

theorem additionsFrom_cons {var : ℕ} (h : a.additionsFrom var next = x :: ys) :
    a.opcodes[next]? = some x ∧ x.opcode.addsConst = true ∧ x.result.num = var ∧
      a.additionsFrom var (next + 1) = ys := by
  unfold additionsFrom at h
  rcases Nat.lt_or_ge next a.opcodes.length with hlt | hge
  · rw [List.drop_eq_getElem_cons hlt, List.takeWhile_cons] at h
    split_ifs at h with hp
    obtain ⟨rfl, rfl⟩ := List.cons.inj h
    obtain ⟨h₁, h₂⟩ := Bool.and_eq_true_iff.mp hp
    exact ⟨List.getElem?_eq_getElem hlt, h₁, by simpa using h₂, rfl⟩
  · rw [List.drop_eq_nil_of_le hge] at h
    cases h

theorem additionsFrom_nil {var : ℕ} (h : a.additionsFrom var next = [])
    (hx : a.opcodes[next]? = some x) : (x.opcode.addsConst && x.result.num == var) = false := by
  obtain ⟨hlt, rfl⟩ := List.getElem?_eq_some_iff.mp hx
  unfold additionsFrom at h
  rw [List.drop_eq_getElem_cons hlt, List.takeWhile_cons] at h
  split_ifs at h with hp
  exact Bool.not_eq_true _ ▸ hp

/-- The first loop adds up the lengths. -/
theorem scanAdditions_eq {var : ℕ} (hys : a.additionsFrom var next = ys)
    (hstring : ∀ x ∈ ys, x.opcode = .addString → (a.strVal? x.op2).isSome)
    (hends : next + ys.length < a.opcodes.length) (hfuel : ys.length < fuel) :
    a.scanAdditions var fuel next length =
      some (next + ys.length, length + (ys.flatMap a.addedBytes).length) := by
  induction ys generalizing next length fuel with
  | nil =>
    obtain ⟨n, rfl⟩ : ∃ n, fuel = n + 1 := ⟨fuel - 1, by simp at hfuel; omega⟩
    have hx := List.getElem?_eq_getElem (show next < a.opcodes.length by simpa using hends)
    rw [scanAdditions, hx]
    simp [additionsFrom_nil hys hx]
  | cons x ys ih =>
    obtain ⟨n, rfl⟩ : ∃ n, fuel = n + 1 := ⟨fuel - 1, by omega⟩
    obtain ⟨hx, hadds, hvar, hrest⟩ := additionsFrom_cons hys
    rw [List.length_cons] at hends hfuel
    have hrec : ∀ length, a.scanAdditions var n (next + 1) length =
        some (next + 1 + ys.length, length + (ys.flatMap a.addedBytes).length) := fun length =>
      ih hrest (fun y hy => hstring y (List.mem_cons_of_mem x hy)) (by omega) (by omega)
    rw [scanAdditions, hx]
    dsimp only
    rw [if_pos (by simp [hadds, hvar]), List.flatMap_cons, List.length_append]
    rcases addsConst_cases hadds with hop | hop
    · obtain ⟨s, hs⟩ := Option.isSome_iff_exists.mp (hstring x List.mem_cons_self hop)
      rw [if_neg (by simp [hop]), hs, Option.bind_some, hrec, addedBytes_string hop hs,
        List.length_cons]
      simp only [Option.some.injEq, Prod.mk.injEq]
      omega
    · have hlen : (a.addedBytes x).length = 1 := by
        unfold addedBytes
        rw [hop]
        cases a.literal x.op2 <;> rfl
      rw [if_pos hop, hrec, hlen, List.length_cons]
      simp only [Option.some.injEq, Prod.mk.injEq]
      omega

end ZendOpArray

/-! ### The second loop -/

/-- A block of which the front has been filled. -/
def filled (written : List UInt8) (rest : List (Option UInt8)) : List (Option UInt8) :=
  written.map some ++ rest

theorem storeBytes_filled {written bytes : List UInt8} {rest : List (Option UInt8)}
    (h : bytes.length ≤ rest.length) :
    storeBytes (filled written rest) written.length bytes =
      some (filled (written ++ bytes) (rest.drop bytes.length)) := by
  unfold storeBytes filled
  rw [if_pos (by simp; omega), List.take_left' (by simp), List.drop_append, List.length_map,
    List.drop_eq_nil_of_le (by simp), List.map_append, List.nil_append,
    Nat.add_sub_cancel_left]

/-- The bytes that were filled are set. -/
theorem mapM_filled {written : List UInt8} {rest : List (Option UInt8)} {n : ℕ}
    (h : n = written.length) :
    ((filled written rest).take n).mapM id = some written := by
  subst h
  unfold filled
  rw [List.take_left' (by simp)]
  induction written with
  | nil => rfl
  | cons c written ih => simp [List.mapM_cons, ih]

theorem copy_filled {b : ZendOpArray} {written bytes : List UInt8} {rest : List (Option UInt8)}
    (h : bytes.length ≤ rest.length) :
    CopyState.copy ⟨b, filled written rest, written.length⟩ bytes =
      some ⟨b, filled (written ++ bytes) (rest.drop bytes.length), (written ++ bytes).length⟩ := by
  unfold CopyState.copy
  rw [storeBytes_filled h, List.length_append]
  rfl

namespace ZendOpArray

variable {a b : ZendOpArray} {i j next : ℕ} {o x y : ZendOp} {ys : List ZendOp}
  {bytes written : List UInt8} {rest : List (Option UInt8)}

/-- The opline appends the bytes. -/
def Appends (a : ZendOpArray) (x : ZendOp) (bytes : List UInt8) : Prop :=
  x.opcode = .addString ∧ a.strVal? x.op2 = some bytes ∨
    x.opcode = .addChar ∧ (a.charVal? x.op2).map ([·]) = some bytes

theorem Series.appends (h : a.Series i o) (hx : x ∈ o :: a.additions i o) :
    a.Appends x (a.addedBytes x) := by
  have hadds : x.opcode.addsConst = true := by
    rcases List.mem_cons.mp hx with rfl | hx
    · exact h.addsConst
    · have hp := List.mem_takeWhile_imp hx
      exact (Bool.and_eq_true_iff.mp hp).1
  rcases addsConst_cases hadds with hop | hop
  · obtain ⟨s, hs⟩ := Option.isSome_iff_exists.mp (h.string x hx hop)
    exact .inl ⟨hop, by rw [hs, addedBytes_string hop hs]⟩
  · obtain ⟨c, hc⟩ := Option.isSome_iff_exists.mp (h.char x hx hop)
    exact .inr ⟨hop, by rw [hc, addedBytes_char hop hc]; rfl⟩

theorem literal_literalDtor {z w : Znode} (hne : z.num ≠ w.num) :
    (a.literalDtor w).literal z = a.literal z := by
  unfold literalDtor
  split_ifs
  · rw [literal, List.getElem?_modify_ne _ _ (Ne.symm hne)]
    rfl
  · rfl

theorem removeAddition_eq (hx : a.opcodes[next]? = some x) : a.removeAddition next =
    (if x.opcode = .addString then a.literalDtor x.op2 else a).modifyOp next .makeNop := by
  rw [removeAddition, hx]

theorem literal_removeAddition {z : Znode} (hx : a.opcodes[next]? = some x)
    (hne : z.num ≠ x.op2.num) : (a.removeAddition next).literal z = a.literal z := by
  rw [removeAddition_eq hx]
  change literal (if x.opcode = .addString then a.literalDtor x.op2 else a) z = a.literal z
  split_ifs
  · exact literal_literalDtor hne
  · rfl

theorem opcodes_literalDtor (z : Znode) : (a.literalDtor z).opcodes = a.opcodes := by
  unfold literalDtor
  split_ifs <;> rfl

theorem removeAddition_opcodes (a : ZendOpArray) (next : ℕ) :
    (a.removeAddition next).opcodes = a.opcodes.modify next .makeNop := by
  cases hx : a.opcodes[next]? with
  | none =>
    rw [removeAddition, hx, List.modify_eq_self (List.getElem?_eq_none_iff.mp hx)]
  | some x =>
    rw [removeAddition_eq hx]
    change List.modify (if x.opcode = .addString then a.literalDtor x.op2 else a).opcodes _ _ = _
    split_ifs
    · rw [opcodes_literalDtor]
    · rfl

theorem Appends.of_literal (h : a.Appends x bytes) (heq : b.literal x.op2 = a.literal x.op2) :
    b.Appends x bytes := by
  unfold Appends strVal? charVal? at h ⊢
  rwa [heq]

/-- One turn of the second loop fills what the opline appends. -/
theorem copyAddition_eq (hx : b.opcodes[next]? = some x) (h : b.Appends x bytes)
    (hroom : bytes.length ≤ rest.length) :
    CopyState.copyAddition ⟨b, filled written rest, written.length⟩ next =
      some ⟨b.removeAddition next, filled (written ++ bytes) (rest.drop bytes.length),
        (written ++ bytes).length⟩ := by
  unfold CopyState.copyAddition
  rw [removeAddition_eq hx, hx, Option.bind_some]
  rcases h with ⟨hop, hs⟩ | ⟨hop, hc⟩
  · rw [if_pos hop, if_pos hop, hs, Option.bind_some, copy_filled hroom]
    rfl
  · obtain ⟨c, hval, rfl⟩ := Option.map_eq_some_iff.mp hc
    rw [if_neg (by simp [hop]), if_neg (by simp [hop]), hval, Option.bind_some, copy_filled hroom]
    rfl

/-- The second loop turns the oplines into `NOP`s and fills what they append, in order. -/
theorem copyLoop_eq {f : ZendOp → List UInt8}
    (hops : ∀ k < ys.length, b.opcodes[next + k]? = ys[k]?)
    (happends : ∀ y ∈ ys, b.Appends y (f y)) (hown : (ys.map (·.op2.num)).Nodup)
    (hroom : (ys.flatMap f).length ≤ rest.length) :
    ∃ rest', (List.range' next ys.length).foldlM CopyState.copyAddition
        ⟨b, filled written rest, written.length⟩ =
      some ⟨(List.range' next ys.length).foldl removeAddition b,
        filled (written ++ ys.flatMap f) rest', (written ++ ys.flatMap f).length⟩ := by
  induction ys generalizing b next written rest with
  | nil => exact ⟨rest, by simp⟩
  | cons y ys ih =>
    have hy := hops 0 (Nat.succ_pos _)
    rw [Nat.add_zero, List.getElem?_cons_zero] at hy
    rw [List.flatMap_cons, List.length_append] at hroom
    obtain ⟨hnot, hown'⟩ := List.nodup_cons.mp hown
    have hturn : CopyState.copyAddition ⟨b, filled written rest, written.length⟩ next = _ :=
      copyAddition_eq hy (happends y List.mem_cons_self) (by omega)
    have hops' : ∀ k < ys.length, (b.removeAddition next).opcodes[next + 1 + k]? = ys[k]? := by
      intro k hk
      rw [removeAddition_opcodes, List.getElem?_modify_ne _ _ (by omega)]
      have h := hops (k + 1) (Nat.succ_lt_succ hk)
      rwa [List.getElem?_cons_succ, show next + (k + 1) = next + 1 + k by omega] at h
    have happends' : ∀ z ∈ ys, (b.removeAddition next).Appends z (f z) := by
      intro z hz
      refine (happends z (List.mem_cons_of_mem y hz)).of_literal (literal_removeAddition hy ?_)
      intro heq
      exact hnot (List.mem_map.mpr ⟨z, hz, heq⟩)
    have hroom' : (ys.flatMap f).length ≤ (rest.drop (f y).length).length := by
      rw [List.length_drop]
      omega
    rw [List.length_cons, List.range'_succ, List.foldlM_cons, List.foldl_cons, hturn,
      List.flatMap_cons, ← List.append_assoc]
    exact ih hops' happends' hown' hroom'

/-- Writing one literal and freeing the others commute. -/
theorem removeAddition_setLiteral {z : Znode} {val : Zval} (hx : b.opcodes[next]? = some x)
    (hne : z.num ≠ x.op2.num) :
    (b.setLiteral z val).removeAddition next = (b.removeAddition next).setLiteral z val := by
  rw [removeAddition_eq hx, removeAddition_eq (a := b.setLiteral z val) hx]
  unfold literalDtor
  split_ifs
  · simp only [setLiteral, modifyOp]
    rw [List.modify_modify_ne _ _ _ hne]
  · rfl
  · rfl

theorem foldl_removeAddition_setLiteral {z : Znode} {val : Zval}
    (hops : ∀ k < ys.length, b.opcodes[next + k]? = ys[k]?)
    (hne : ∀ y ∈ ys, z.num ≠ y.op2.num) :
    (List.range' next ys.length).foldl removeAddition (b.setLiteral z val) =
      ((List.range' next ys.length).foldl removeAddition b).setLiteral z val := by
  induction ys generalizing b next with
  | nil => rfl
  | cons y ys ih =>
    have hy := hops 0 (Nat.succ_pos _)
    rw [Nat.add_zero, List.getElem?_cons_zero] at hy
    rw [List.length_cons, List.range'_succ, List.foldl_cons, List.foldl_cons,
      removeAddition_setLiteral hy (hne y List.mem_cons_self)]
    refine ih (fun k hk => ?_) fun y' hy' => hne y' (List.mem_cons_of_mem y hy')
    rw [removeAddition_opcodes, List.getElem?_modify_ne _ _ (by omega)]
    have h := hops (k + 1) (Nat.succ_lt_succ hk)
    rwa [List.getElem?_cons_succ, show next + (k + 1) = next + 1 + k by omega] at h

/-- The oplines of the series stand one after the other. -/
theorem getElem?_additions {k : ℕ} (hk : k < (a.additions i o).length) :
    a.opcodes[i + 1 + k]? = (a.additions i o)[k]? := by
  obtain ⟨rest, hrest⟩ : a.additions i o <+: a.opcodes.drop (i + 1) := List.takeWhile_prefix _
  rw [← List.getElem?_drop, ← hrest, List.getElem?_append_left hk]

/-- They still stand there once the opcode of the first one is set. -/
theorem getElem?_setOpcode : ∀ k < (a.additions i o).length,
    (a.modifyOp i ({ · with opcode := .addString })).opcodes[i + 1 + k]? =
      (a.additions i o)[k]? := by
  intro k hk
  rw [getElem?_modifyOp_ne (by omega), getElem?_additions hk]

/-- The memory that the first loop asks for. -/
abbrev block (a : ZendOpArray) (i : ℕ) (o : ZendOp) : List (Option UInt8) :=
  List.replicate (((a.additions i o).flatMap a.addedBytes).length + (a.addedBytes o).length) none ++
    [some 0]

namespace Series

variable (h : a.Series i o) (level : ℕ)
include h

theorem scan_eq : a.scanAdditions o.result.num a.opcodes.length (i + 1) 0 =
    some (i + 1 + (a.additions i o).length,
      ((a.additions i o).flatMap a.addedBytes).length) := by
  have hfuel : (a.additions i o).length < a.opcodes.length := by
    have := h.ends
    omega
  rw [scanAdditions_eq rfl (fun x hx => h.string x (List.mem_cons_of_mem o hx)) h.ends hfuel,
    Nat.zero_add]
  rfl

theorem firstBytes_eq : a.firstBytes? o = some (a.addedBytes o) := by
  unfold firstBytes?
  rcases h.appends List.mem_cons_self with ⟨hop, hs⟩ | ⟨hop, hc⟩
  · rw [if_neg (by simp [hop]), hs]
  · rw [if_pos hop, hc]

theorem own_ne : ∀ y ∈ a.additions i o, o.op2.num ≠ y.op2.num := by
  intro y hy heq
  exact (List.nodup_cons.mp h.own).1 (List.mem_map.mpr ⟨y, hy, heq.symm⟩)

/-- The second loop, with the memory that the first one asked for. -/
theorem copy_eq : ∃ rest, ((⟨a.modifyOp i ({ · with opcode := .addString }), a.block i o, 0⟩ :
      CopyState).copy (a.addedBytes o)).bind
        (fun st => (List.range' (i + 1) (a.additions i o).length).foldlM
          CopyState.copyAddition st) =
      some ⟨(List.range' (i + 1) (a.additions i o).length).foldl removeAddition
          (a.modifyOp i ({ · with opcode := .addString })),
        filled (a.addedBytes o ++ (a.additions i o).flatMap a.addedBytes) rest,
        (a.addedBytes o ++ (a.additions i o).flatMap a.addedBytes).length⟩ := by
  have hroom : (a.addedBytes o).length ≤ (a.block i o).length := by
    simp only [block, List.length_append, List.length_replicate]
    omega
  have hroom' : ((a.additions i o).flatMap a.addedBytes).length ≤
      ((a.block i o).drop (a.addedBytes o).length).length := by
    simp only [block, List.length_drop, List.length_append, List.length_replicate]
    omega
  have hfirst : CopyState.copy ⟨a.modifyOp i ({ · with opcode := .addString }), a.block i o, 0⟩
      (a.addedBytes o) = some ⟨a.modifyOp i ({ · with opcode := .addString }),
        filled (a.addedBytes o) ((a.block i o).drop (a.addedBytes o).length),
        (a.addedBytes o).length⟩ :=
    @copy_filled _ [] _ _ hroom
  have happends : ∀ y ∈ a.additions i o,
      (a.modifyOp i ({ · with opcode := .addString })).Appends y (a.addedBytes y) :=
    fun y hy => (h.appends (List.mem_cons_of_mem o hy)).of_literal rfl
  rw [hfirst, Option.bind_some]
  exact copyLoop_eq getElem?_setOpcode happends (List.nodup_cons.mp h.own).2 hroom'

/-- The loops of the source compute the merged op array. -/
theorem mergeSeries_eq : a.mergeSeries level i o = some (a.mergeAdditions level i o) := by
  obtain ⟨rest, hcopy⟩ := h.copy_eq
  unfold mergeSeries mergeAdditions
  rw [h.scan_eq, h.firstBytes_eq]
  have hjmp : decide (3 ≤ i + 1 + (a.additions i o).length - i) =
      decide (2 ≤ (a.additions i o).length) := decide_eq_decide.mpr (by omega)
  have hlength : ((a.additions i o).flatMap a.addedBytes).length + (a.addedBytes o).length =
      (a.addedBytes o ++ (a.additions i o).flatMap a.addedBytes).length := by
    rw [List.length_append, Nat.add_comm]
  have hliteral : ∀ val, (List.range' (i + 1) (a.additions i o).length).foldl removeAddition
      ((a.modifyOp i ({ · with opcode := .addString })).setLiteral o.op2 val) = _ := fun _ =>
    foldl_removeAddition_setLiteral getElem?_setOpcode h.own_ne
  simp only [Option.bind_eq_bind, Option.bind_some, List.length_eq_zero_iff,
    Nat.add_sub_cancel_left, hjmp]
  by_cases hnil : (a.additions i o).flatMap a.addedBytes = []
  · rw [if_pos hnil, if_pos hnil]
    rfl
  · rw [if_neg hnil, if_neg hnil, ← Option.bind_assoc, hcopy, Option.bind_some, mapM_filled hlength,
      Option.bind_some, ← hliteral]
    split_ifs <;> rfl

end Series

/-- The oplines whose constants were copied are `NOP`s. -/
theorem getElem?_foldl_removeAddition (b : ZendOpArray) (next n j : ℕ) :
    ((List.range' next n).foldl removeAddition b).opcodes[j]? =
      (b.opcodes[j]?).map fun x => if next ≤ j ∧ j < next + n then x.makeNop else x := by
  induction n generalizing b next with
  | zero =>
    have hnot : ¬ (next ≤ j ∧ j < next) := by omega
    simp [hnot]
  | succ n ih =>
    rw [List.range'_succ, List.foldl_cons, ih, removeAddition_opcodes, List.getElem?_modify]
    by_cases hj : next = j
    · subst hj
      cases b.opcodes[next]? <;> simp
    · have hiff : (next + 1 ≤ j ∧ j < next + 1 + n) ↔ (next ≤ j ∧ j < next + (n + 1)) := by omega
      simp only [hiff, if_neg hj, Functor.map, Option.map_id_fun', id_eq]

/-- NOP removal is disabled, and the `NOP`s are jumped over. -/
def jumpsOver (a : ZendOpArray) (level i : ℕ) (o : ZendOp) : Bool :=
  !(hasPass level 5 || hasPass level 10) && decide (2 ≤ (a.additions i o).length)

/-- What merging makes of an opline, by its number. -/
def mergedOp (a : ZendOpArray) (level i : ℕ) (o : ZendOp) (j : ℕ) (x : ZendOp) : ZendOp :=
  if j = i then { x with opcode := .addString }
  else if i < j ∧ j < i + 1 + (a.additions i o).length then
    if j = i + 1 ∧ a.jumpsOver level i o then
      { x.makeNop with
        opcode := .jmp
        op1 := { x.makeNop.op1 with num := i + 1 + (a.additions i o).length } }
    else x.makeNop
  else x

theorem getElem?_mergeAdditions (level i : ℕ) (o : ZendOp) (j : ℕ)
    (hne : (a.additions i o).flatMap a.addedBytes ≠ []) :
    (a.mergeAdditions level i o).opcodes[j]? =
      (a.opcodes[j]?).map (a.mergedOp level i o j) := by
  have hnops : ((List.range' (i + 1) (a.additions i o).length).foldl removeAddition
      ((a.setLiteral o.op2 (.string (a.addedBytes o ++ (a.additions i o).flatMap
        a.addedBytes))).modifyOp i ({ · with opcode := .addString }))).opcodes[j]? =
      (a.opcodes[j]?).map fun x =>
        if j = i then { x with opcode := .addString }
        else if i < j ∧ j < i + 1 + (a.additions i o).length then x.makeNop else x := by
    rw [getElem?_foldl_removeAddition, getElem?_modifyOp, Option.map_map]
    refine congrArg (Option.map · _) (funext fun x => ?_)
    by_cases hj : j = i
    · subst hj
      simp
    · rw [Function.comp_apply, if_neg (Ne.symm hj), if_neg hj]
      rfl
  unfold mergeAdditions
  rw [if_neg hne]
  change (if a.jumpsOver level i o = true then _ else _ : ZendOpArray).opcodes[j]? = _
  cases hjmp : a.jumpsOver level i o with
  | false =>
    rw [if_neg Bool.false_ne_true, hnops]
    refine congrArg (Option.map · _) (funext fun x => ?_)
    simp [mergedOp, hjmp]
  | true =>
    rw [if_pos rfl, getElem?_modifyOp, hnops, Option.map_map]
    refine congrArg (Option.map · _) (funext fun x => ?_)
    have hlen : 2 ≤ (a.additions i o).length := of_decide_eq_true (Bool.and_eq_true_iff.mp hjmp).2
    by_cases hj : j = i + 1
    · subst hj
      have hin : i + 1 < i + 1 + (a.additions i o).length := by omega
      simp [mergedOp, hjmp, hin]
    · simp [mergedOp, hj, Ne.symm hj]

theorem literal_setLiteral {z : Znode} {val : Zval} (hz : z.num < a.literals.length) :
    (a.setLiteral z val).literal z = val := by
  simp [literal, setLiteral, hz]

theorem literals_length_removeAddition (b : ZendOpArray) (next : ℕ) :
    (b.removeAddition next).literals.length = b.literals.length := by
  cases hx : b.opcodes[next]? with
  | none => rw [removeAddition, hx]
  | some x =>
    rw [removeAddition_eq hx]
    change (if x.opcode = .addString then b.literalDtor x.op2 else b).literals.length = _
    unfold literalDtor
    split_ifs <;> simp

theorem literals_length_foldl (b : ZendOpArray) (next n : ℕ) :
    ((List.range' next n).foldl removeAddition b).literals.length = b.literals.length := by
  induction n generalizing b next with
  | zero => rfl
  | succ n ih => rw [List.range'_succ, List.foldl_cons, ih, literals_length_removeAddition]

/-- The literal of the first opline holds all constants. -/
theorem Series.literal_mergeAdditions (h : a.Series i o) (level : ℕ)
    (hne : (a.additions i o).flatMap a.addedBytes ≠ []) :
    (a.mergeAdditions level i o).literal o.op2 =
      .string ((o :: a.additions i o).flatMap a.addedBytes) := by
  have hset : ((List.range' (i + 1) (a.additions i o).length).foldl removeAddition
      ((a.modifyOp i ({ · with opcode := .addString })).setLiteral o.op2 (.string
        (a.addedBytes o ++ (a.additions i o).flatMap a.addedBytes)))).literal o.op2 =
      .string ((o :: a.additions i o).flatMap a.addedBytes) := by
    rw [foldl_removeAddition_setLiteral getElem?_setOpcode h.own_ne, literal_setLiteral]
    · rfl
    · rw [literals_length_foldl]
      exact h.inRange o List.mem_cons_self
  unfold mergeAdditions
  rw [if_neg hne]
  change literal (if a.jumpsOver level i o = true then _ else _) o.op2 = _
  cases a.jumpsOver level i o with
  | false => exact hset
  | true => exact hset

end ZendOpArray

/-! ### The string at run time -/

namespace Machine

/-- The temporary holds a string. -/
def setString (s : Machine) (n : ℕ) (str : List UInt8) : Machine :=
  { s with slots := Function.update s.slots n (.value (.string str)) }

@[simp] theorem slots_setString (s : Machine) (n : ℕ) (str : List UInt8) :
    (s.setString n str).slots n = .value (.string str) := Function.update_self ..

@[simp] theorem setString_setString (s : Machine) (n : ℕ) (str str' : List UInt8) :
    (s.setString n str).setString n str' = s.setString n str' := by
  simp [setString]

/-- `ADD_STRING` and `ADD_CHAR`. Without an operand they start a new string. -/
def appendConst (a : ZendOpArray) (s : Machine) (o : ZendOp) : Option Machine :=
  if o.op1.type = .unused then some (s.setString o.result.num (a.addedBytes o))
  else
    match s.slots o.op1.num with
    | .value (.string str) => some (s.setString o.result.num (str ++ a.addedBytes o))
    | _ => none

/-- One opline of a series, or what pass 1 leaves of one. -/
def seriesStep (a : ZendOpArray) (x : ℕ × Machine) : Option (ℕ × Machine) :=
  (a.opcodes[x.1]?).bind fun o =>
    if o.opcode = .nop then some (x.1 + 1, x.2)
    else if o.opcode = .jmp then some (o.op1.num, x.2)
    else if o.opcode.addsConst then (appendConst a x.2 o).map fun s => (x.1 + 1, s)
    else none

/-- The oplines of a series that are executed from one of them on. -/
def SeriesRun (a : ZendOpArray) : ℕ × Machine → ℕ × Machine → Prop :=
  Relation.ReflTransGen fun x y => seriesStep a x = some y

/-- The string that a series starts with. -/
def Before (s : Machine) (o : ZendOp) (old : List UInt8) : Prop :=
  if o.op1.type = .unused then old = [] else s.slots o.op1.num = .value (.string old)

variable {a : ZendOpArray} {s : Machine} {o x : ZendOp} {i next n : ℕ} {old : List UInt8}
  {ys : List ZendOp}

theorem seriesStep_addition (hx : a.opcodes[next]? = some x) (hadds : x.opcode.addsConst = true)
    (hold : s.Before x old) :
    seriesStep a (next, s) = some (next + 1, s.setString x.result.num (old ++ a.addedBytes x)) := by
  have hne : x.opcode ≠ .nop ∧ x.opcode ≠ .jmp := by
    constructor <;> intro hop <;> simp [hop, ZendOpcode.addsConst] at hadds
  unfold seriesStep appendConst
  unfold Before at hold
  simp only [hx, Option.bind_some]
  rw [if_neg hne.1, if_neg hne.2, if_pos hadds]
  split_ifs at hold ⊢
  · rw [hold]
    rfl
  · rw [hold]
    rfl

/-- The oplines of a series one after the other. -/
theorem seriesRun_additions (hys : a.additionsFrom n next = ys)
    (hoperand : ∀ x ∈ ys, x.op1.type ≠ .unused ∧ x.op1.num = n)
    (hold : s.slots n = .value (.string old)) :
    SeriesRun a (next, s)
      (next + ys.length, s.setString n (old ++ ys.flatMap a.addedBytes)) := by
  induction ys generalizing next s old with
  | nil =>
    have hs : s.setString n old = s := by
      unfold setString
      rw [← hold, Function.update_eq_self]
    rw [List.flatMap_nil, List.append_nil, hs]
    exact .refl
  | cons x ys ih =>
    obtain ⟨hx, hadds, hvar, hrest⟩ := ZendOpArray.additionsFrom_cons hys
    obtain ⟨hused, hnum⟩ := hoperand x List.mem_cons_self
    have hbefore : s.Before x old := by
      unfold Before
      rw [if_neg hused, hnum]
      exact hold
    have hstep := seriesStep_addition hx hadds hbefore
    rw [hvar] at hstep
    have hrun := ih hrest (fun y hy => hoperand y (List.mem_cons_of_mem x hy))
      (slots_setString s n (old ++ a.addedBytes x))
    rw [setString_setString, List.append_assoc, ← List.flatMap_cons, Nat.add_right_comm] at hrun
    exact .head hstep hrun

/-- A series appends all its constants. -/
theorem seriesRun_series (h : a.Series i o) (hold : s.Before o old) :
    SeriesRun a (i, s) (i + 1 + (a.additions i o).length,
      s.setString o.result.num (old ++ (o :: a.additions i o).flatMap a.addedBytes)) := by
  have hys : a.additionsFrom o.result.num (i + 1) = a.additions i o := rfl
  have hrun := seriesRun_additions hys h.operand
    (slots_setString s o.result.num (old ++ a.addedBytes o))
  rw [setString_setString, List.append_assoc] at hrun
  exact .head (seriesStep_addition h.first h.addsConst hold) hrun

/-- `NOP`s in a row. -/
theorem seriesRun_nops {b : ZendOpArray} (n : ℕ)
    (h : ∀ k < n, ∃ x, b.opcodes[next + k]? = some x ∧ x.opcode = .nop) :
    SeriesRun b (next, s) (next + n, s) := by
  induction n generalizing next with
  | zero => exact .refl
  | succ n ih =>
    obtain ⟨x, hx, hop⟩ := h 0 (Nat.succ_pos n)
    have hstep : seriesStep b (next, s) = some (next + 1, s) := by
      rw [Nat.add_zero] at hx
      simp [seriesStep, hx, hop]
    have hnext : ∀ k < n, ∃ x, b.opcodes[next + 1 + k]? = some x ∧ x.opcode = .nop := by
      intro k hk
      have h' := h (k + 1) (Nat.succ_lt_succ hk)
      rwa [show next + (k + 1) = next + 1 + k by omega] at h'
    have hrun := ih hnext
    rw [show next + 1 + n = next + (n + 1) by omega] at hrun
    exact .head hstep hrun

/-- What pass 1 leaves of a series appends the same string. -/
theorem seriesRun_merged (h : a.Series i o) (level : ℕ)
    (hne : (a.additions i o).flatMap a.addedBytes ≠ []) (hold : s.Before o old) :
    SeriesRun (a.mergeAdditions level i o) (i, s) (i + 1 + (a.additions i o).length,
      s.setString o.result.num (old ++ (o :: a.additions i o).flatMap a.addedBytes)) := by
  have hop : ∀ {j x}, a.opcodes[j]? = some x →
      (a.mergeAdditions level i o).opcodes[j]? = some (a.mergedOp level i o j x) := by
    intro j x hx
    rw [ZendOpArray.getElem?_mergeAdditions level i o j hne, hx]
    rfl
  have hfirst := hop h.first
  rw [ZendOpArray.mergedOp, if_pos rfl] at hfirst
  have hbytes : (a.mergeAdditions level i o).addedBytes { o with opcode := .addString } =
      (o :: a.additions i o).flatMap a.addedBytes := by
    refine ZendOpArray.addedBytes_string rfl ?_
    unfold ZendOpArray.strVal?
    rw [h.literal_mergeAdditions level hne]
  have hstep := seriesStep_addition hfirst rfl hold
  rw [hbytes] at hstep
  refine .head hstep ?_
  have hnop : ∀ k < (a.additions i o).length, ¬ (k = 0 ∧ a.jumpsOver level i o = true) →
      ∃ x, (a.mergeAdditions level i o).opcodes[i + 1 + k]? = some x ∧ x.opcode = .nop := by
    intro k hk hj
    have hx := List.getElem?_eq_getElem (show i + 1 + k < a.opcodes.length by
      have := h.ends
      omega)
    refine ⟨_, hop hx, ?_⟩
    unfold ZendOpArray.mergedOp
    rw [if_neg (by omega), if_pos (by omega), if_neg (fun hjmp => hj ⟨by omega, hjmp.2⟩)]
    rfl
  cases hjmp : a.jumpsOver level i o with
  | false => exact seriesRun_nops _ fun k hk => hnop k hk (by simp [hjmp])
  | true =>
    have hlen : 2 ≤ (a.additions i o).length := of_decide_eq_true (Bool.and_eq_true_iff.mp hjmp).2
    have hx := List.getElem?_eq_getElem (show i + 1 < a.opcodes.length by
      have := h.ends
      omega)
    have hover := hop hx
    rw [ZendOpArray.mergedOp, if_neg (by omega), if_pos (by omega), if_pos ⟨rfl, hjmp⟩] at hover
    refine .single ?_
    simp [seriesStep, hover]

end Machine

namespace ZendNamedOpArray

variable [ZendEngine] {A : ZendNamedOpArray} {i : ℕ} {o : ZendOp} {level : ℕ}

theorem pass1Turn_addition (hi : A.opcodes[i]? = some o) (hadds : o.opcode.addsConst = true) :
    (pass1Turn level A i).toZendOpArray = A.mergeAdditions level i o := by
  have hfold : A.foldedConst o = none := by
    rcases ZendOpArray.addsConst_cases hadds with hop | hop <;>
      simp [ZendOpArray.foldedConst, hop, ZendOpcode.isFoldedBinary]
  have hcast : o.opcode ≠ .cast := by
    intro hop
    simp [hop, ZendOpcode.addsConst] at hadds
  unfold pass1Turn
  rw [hi]
  dsimp only
  rw [hfold]
  dsimp only
  rw [if_neg hcast, if_pos hadds]
  rfl

/-- Pass 1 at the first opline of a series, at every level: the loops of the source do what the
model says, control reaches the opline after the series with the same string in the temporary as
before, which is the old one and all constants in order, and the oplines that were merged are
`NOP`s, or a jump over them to that opline. -/
theorem pass1Turn_series (h : A.Series i o) (level : ℕ) :
    A.mergeSeries level i o = some (pass1Turn level A i).toZendOpArray ∧
    (∀ (s : Machine) (old : List UInt8), s.Before o old →
      Machine.SeriesRun A.toZendOpArray (i, s) (i + 1 + (A.additions i o).length,
        s.setString o.result.num (old ++ (o :: A.additions i o).flatMap A.addedBytes)) ∧
      Machine.SeriesRun (pass1Turn level A i).toZendOpArray (i, s)
        (i + 1 + (A.additions i o).length,
          s.setString o.result.num (old ++ (o :: A.additions i o).flatMap A.addedBytes))) ∧
    ((A.additions i o).flatMap A.addedBytes = [] →
      (pass1Turn level A i).toZendOpArray = A.toZendOpArray) ∧
    ((A.additions i o).flatMap A.addedBytes ≠ [] → ∀ j, i < j →
      j < i + 1 + (A.additions i o).length → ∃ x, (pass1Turn level A i).opcodes[j]? = some x ∧
        (x.opcode = .nop ∨
          j = i + 1 ∧ x.opcode = .jmp ∧ x.op1.num = i + 1 + (A.additions i o).length)) ∧
    (∀ j, j < i ∨ i + 1 + (A.additions i o).length ≤ j →
      (pass1Turn level A i).opcodes[j]? = A.opcodes[j]?) := by
  have hturn : (pass1Turn level A i).toZendOpArray = _ := pass1Turn_addition h.first h.addsConst
  have hops : (pass1Turn level A i).opcodes = (A.mergeAdditions level i o).opcodes :=
    congrArg ZendOpArray.opcodes hturn
  rw [hops, hturn]
  by_cases hnil : (A.additions i o).flatMap A.addedBytes = []
  · have hsame : A.mergeAdditions level i o = A.toZendOpArray := if_pos hnil
    rw [hsame]
    refine ⟨(h.mergeSeries_eq level).trans (congrArg some hsame), fun s old hold => ?_,
      fun _ => rfl,
      fun hne => absurd hnil hne, fun _ _ => rfl⟩
    exact ⟨Machine.seriesRun_series h hold, Machine.seriesRun_series h hold⟩
  · refine ⟨h.mergeSeries_eq level, fun s old hold => ?_, fun hnil' => absurd hnil' hnil,
      fun _ j hij hj => ?_, fun j hj => ?_⟩
    · exact ⟨Machine.seriesRun_series h hold, Machine.seriesRun_merged h level hnil hold⟩
    · have := h.ends
      have hx := List.getElem?_eq_getElem (show j < A.opcodes.length by omega)
      rw [ZendOpArray.getElem?_mergeAdditions level i o j hnil, hx]
      refine ⟨_, rfl, ?_⟩
      unfold ZendOpArray.mergedOp
      rw [if_neg (by omega), if_pos ⟨hij, hj⟩]
      split_ifs with hjmp
      · exact .inr ⟨hjmp.1, rfl, rfl⟩
      · exact .inl rfl
    · rw [ZendOpArray.getElem?_mergeAdditions level i o j hnil]
      cases A.opcodes[j]? with
      | none => rfl
      | some x =>
        rw [Option.map_some, ZendOpArray.mergedOp, if_neg (by omega), if_neg (by omega)]

end ZendNamedOpArray

/-- `"x${a}"` with the parts `'x'`, `"yz"` and `'w'` in a row, and a return. -/
def stringParts : ZendOpArray where
  opcodes := [
    ⟨.addChar, .none, ⟨.const, 0, false⟩, ⟨.tmpVar, 0, false⟩, 0⟩,
    ⟨.addString, ⟨.tmpVar, 0, false⟩, ⟨.const, 1, false⟩, ⟨.tmpVar, 0, false⟩, 0⟩,
    ⟨.addChar, ⟨.tmpVar, 0, false⟩, ⟨.const, 2, false⟩, ⟨.tmpVar, 0, false⟩, 0⟩,
    ⟨.ret, ⟨.tmpVar, 0, false⟩, .none, .none, 0⟩]
  literals := [⟨.long 120, 0, -1⟩, ⟨.string [121, 122], 0, -1⟩, ⟨.long 119, 0, -1⟩]
  brkContArray := []
  tryCatchArray := []
  hasFinallyBlock := false
  T := 1
  lastVar := 0
  lastCacheSlot := 0

/-- Without the passes that remove `NOP`s, the series becomes one opline and a jump. -/
theorem ZendNamedOpArray.pass1Turn_series_parts :
    let E : ZendEngine := .ofBinary fun _ _ _ => .null
    let A : ZendNamedOpArray := ⟨⟨stringParts, 0⟩, 2, false, []⟩
    let s : Machine := ⟨id, fun _ => .null, fun _ => .value .null⟩
    Machine.SeriesRun (@pass1Turn E 1 A 0).toZendOpArray (0, s)
      (3, s.setString 0 [120, 121, 122, 119]) := by
  intro E A s
  have h : A.Series 0 ⟨.addChar, .none, ⟨.const, 0, false⟩, ⟨.tmpVar, 0, false⟩, 0⟩ := by
    constructor <;> decide
  exact ((@pass1Turn_series E A 0 _ h 1).2.1 s [] rfl).2

end ZendOpcache
