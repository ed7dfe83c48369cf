import ZendOpcache.Code.PersistOpArray

/-! # Functions keep their code

`zend_persist_op_array_ex` for all functions of a script, one after the other. When functions that
share one of their literals and oplines share both, each one has the code in shared memory that it
had in the process. Only literals of the copy are counted twice, so that the engine never frees one.
-/

namespace ZendOpcache

namespace Code

open ScriptSize (Sizeof)

/-- The kinds of arrays. Oplines point to their literals. -/
inductive Kind where
  | opcodes (literals : Option ℤ) (donePassTwo : Bool)
  | literals
  | argInfo
  | brkCont
  | tryCatch
  | vars
  deriving DecidableEq, Repr

structure ArrayRef where
  kind : Kind
  base : ℤ
  count : ℕ
  deriving DecidableEq, Repr

def optionArray (kind : Kind) (p : Option ℤ) (n : ℕ) : List ArrayRef :=
  p.toList.map fun p => ⟨kind, p, n⟩

/-- The arrays that are copied for a function -/
def OpArray.arrays (op : OpArray) : List ArrayRef :=
  if op.isUser then
    ⟨.opcodes op.literals op.donePassTwo, op.opcodes, op.last⟩ ::
      (optionArray .literals op.literals op.lastLiteral ++
        (optionArray .argInfo op.argInfo op.numArgs ++
          (optionArray .brkCont op.brkContArray op.lastBrkCont ++
            (optionArray .tryCatch op.tryCatchArray op.lastTryCatch ++
              optionArray .vars op.vars op.lastVar))))
  else []

def Kind.size (z : Sizeof) : Kind → ℕ
  | .opcodes _ _ => z.op
  | .literals => z.literal
  | .argInfo => z.argInfo
  | .brkCont => z.brkContElement
  | .tryCatch => z.tryCatchElement
  | .vars => z.compiledVariable

def Kind.needs : Kind → List ℤ
  | .opcodes (some p) _ => [p]
  | _ => []

def ArrayRef.arrayAt (z : Sizeof) (x : ArrayRef) : ArrayAt := ⟨x.base, x.kind.size z, x.count⟩

/-- By how much the literals are moved -/
def literalsMoved (t : ℤ → Option ℤ) : Option ℤ → ℤ
  | none => 0
  | some p => (t p).getD 0 - p

/-- What becomes of an element of an array -/
def ArrayRef.rewrite (z : Sizeof) (t : ℤ → Option ℤ) (x : ArrayRef) : Cell → Cell :=
  match x.kind with
  | .opcodes literals donePassTwo =>
    Cell.mapOpline
      (relocate z donePassTwo (literalsMoved t literals) x.base ((t x.base).getD 0))
  | .literals => zendProtectZval
  | _ => id

/-- The structures of the engine take some memory. -/
structure SizesPos (z : Sizeof) : Prop where
  op : 0 < z.op
  literal : 0 < z.literal
  argInfo : 0 < z.argInfo
  brkContElement : 0 < z.brkContElement
  tryCatchElement : 0 < z.tryCatchElement
  compiledVariable : 0 < z.compiledVariable

theorem SizesPos.size_pos {z : Sizeof} (hz : SizesPos z) (k : Kind) : 0 < k.size z := by
  cases k with
  | opcodes => exact hz.op
  | literals => exact hz.literal
  | argInfo => exact hz.argInfo
  | brkCont => exact hz.brkContElement
  | tryCatch => exact hz.tryCatchElement
  | vars => exact hz.compiledVariable

def plan {z : Sizeof} (hz : SizesPos z) : Plan ArrayRef Cell where
  array := ArrayRef.arrayAt z
  needs x := x.kind.needs
  rewrite := ArrayRef.rewrite z
  size_pos x := hz.size_pos x.kind
  rewrite_congr := by
    rintro t t' ⟨kind, base, count⟩ hbase hneeds
    change t base = t' base at hbase
    cases kind with
    | opcodes literals donePassTwo =>
      have hmoved : literalsMoved t literals = literalsMoved t' literals := by
        cases literals with
        | none => rfl
        | some p => simp only [literalsMoved, hneeds p (by simp [Kind.needs])]
      simp only [ArrayRef.rewrite, hmoved, hbase]
    | _ => rfl

/-- The arrays of a script. No two of them are at one place, and each array of oplines has its own
literals. -/
structure ScriptArrays (z : Sizeof) (dom : ArrayRef → Prop) : Prop where
  apart : ∀ x y, dom x → dom y → y ≠ x → (x.arrayAt z).Apart (y.arrayAt z)
  own : ∀ x y p d d', dom x → dom y → x.kind = .opcodes (some p) d →
    y.kind = .opcodes (some p) d' → x = y
  literals : ∀ x p d, dom x → x.kind = .opcodes (some p) d → ∃ n, dom ⟨.literals, p, n⟩

/-- Literals are not moved without their oplines. -/
def Closed (dom : ArrayRef → Prop) (st : Moving Cell) : Prop :=
  ∀ x p d, dom x → x.kind = .opcodes (some p) d → (st.xlat p).isSome → (st.xlat x.base).isSome

/-- The state between two functions -/
structure Between {z : Sizeof} (hz : SizesPos z) (dom : ArrayRef → Prop) (m : ℤ → Option Cell)
    (st : Moving Cell) : Prop where
  follows : Moving.Follows (plan hz) dom m st
  closed : Closed dom st

/-- A pointer and its translation -/
structure Leads (st : Moving Cell) (p q : Option ℤ) : Prop where
  null : p = none → q = none
  elem : ∀ a, p = some a → ∃ b, q = some b ∧ st.xlat a = some b

theorem Leads.mono {st st' : Moving Cell} {p q : Option ℤ} (h : Leads st p q)
    (hext : Moving.Extends st st') : Leads st' p q := by
  refine ⟨h.null, fun a ha => ?_⟩
  obtain ⟨b, hb, hx⟩ := h.elem a ha
  exact ⟨b, hb, hext _ _ hx⟩

section Steps

variable {z : Sizeof} {hz : SizesPos z} {dom : ArrayRef → Prop} {m : ℤ → Option Cell}
  {st st' st'' : Moving Cell} {x y : ArrayRef}

/-- A pointer to literals is no other array. -/
theorem ScriptArrays.ne_base (hs : ScriptArrays z dom) {p : ℤ} {d : Bool} (hy : dom y)
    (hyk : y.kind = .opcodes (some p) d) (hx : dom x) (hk : x.kind ≠ .literals) : p ≠ x.base := by
  obtain ⟨n, hn⟩ := hs.literals y p d hy hyk
  have hne : (⟨.literals, p, n⟩ : ArrayRef) ≠ x := by
    rintro rfl
    exact hk rfl
  exact (hs.apart x _ hx hn hne).1.symm

theorem Closed.move (hc : Closed dom st) (hs : ScriptArrays z dom) (hx : dom x)
    (hk : x.kind ≠ .literals) (hmove : Moving.Moves (plan hz) x st st') : Closed dom st' := by
  intro y p d hy hyk hsome
  have hxlat : st'.xlat p = st.xlat p := by
    rw [hmove.xlat]
    exact Function.update_of_ne (hs.ne_base hy hyk hx hk) _ _
  rw [hxlat] at hsome
  have hold := hc y p d hy hyk hsome
  rwa [hmove.extends.isSome hold]

theorem Between.move (h : Between hz dom m st) (hs : ScriptArrays z dom) (hx : dom x)
    (hk : x.kind ≠ .literals) (hmove : Moving.Moves (plan hz) x st st') : Between hz dom m st' :=
  ⟨h.follows.move hx hmove fun y hy hne => hs.apart x y hx hy hne, h.closed.move hs hx hk hmove⟩

/-- An array of a kind that is copied as it is -/
theorem persistArray_spec (h : Between hz dom m st) (hs : ScriptArrays z dom) {k : Kind}
    {p : Option ℤ} {n : ℕ} (hdom : ∀ x ∈ optionArray k p n, dom x) (hneeds : k.needs = [])
    (hk : k ≠ .literals) (hid : ∀ t b c, ArrayRef.rewrite z t ⟨k, b, c⟩ = id) :
    ∃ st' q, persistArray (k.size z) st p n = (st', q) ∧ Between hz dom m st' ∧
      Moving.Extends st st' ∧ Leads st' p q := by
  cases p with
  | none => exact ⟨st, none, rfl, h, .refl, ⟨fun _ => rfl, by simp⟩⟩
  | some p =>
    have hx : dom ⟨k, p, n⟩ := hdom _ (by simp [optionArray])
    cases hxlat : st.xlat p with
    | some q =>
      refine ⟨st, some q, by simp [persistArray, zendSharedMemdup, hxlat], h, .refl, by simp, ?_⟩
      rintro a ha
      obtain rfl := Option.some.inj ha
      exact ⟨q, rfl, hxlat⟩
    | none =>
      have hmove : Moving.Moves (plan hz) ⟨k, p, n⟩ st
          ((st.memdup p (k.size z * n)).efree p (k.size z * n)) :=
        (Moving.moves_memdup (P := plan hz) st ⟨k, p, n⟩ hxlat (by simp [plan, hneeds])
          fun t => hid t p n).efree
      refine ⟨_, some st.next, by simp [persistArray, zendSharedMemdup, hxlat],
        h.move hs hx hk hmove, hmove.extends, by simp, ?_⟩
      rintro a ha
      obtain rfl := Option.some.inj ha
      exact ⟨st.next, rfl, hmove.xlat_base⟩

variable (hz) in
/-- The oplines are copied when the place of the literals is known. -/
theorem persistOpcodes_moves (hs : ScriptArrays z dom) {op : OpArray}
    (hops : dom ⟨.opcodes op.literals op.donePassTwo, op.opcodes, op.last⟩)
    (hxlat : st.xlat op.opcodes = none) (hready : ∀ p, op.literals = some p → (st.xlat p).isSome)
    (lits orig : Option ℤ)
    (hmoved : literalsMoved st.xlat op.literals = lits.getD 0 - orig.getD 0) :
    Moving.Moves (plan hz) ⟨.opcodes op.literals op.donePassTwo, op.opcodes, op.last⟩ st
        (persistOpcodes z st op lits orig).1 ∧
      (persistOpcodes z st op lits orig).2 = st.next := by
  have hrewrite : ArrayRef.rewrite z (Function.update st.xlat op.opcodes (some st.next))
      ⟨.opcodes op.literals op.donePassTwo, op.opcodes, op.last⟩ =
      Cell.mapOpline (relocate z op.donePassTwo (lits.getD 0 - orig.getD 0) op.opcodes
        st.next) := by
    have hlits : literalsMoved (Function.update st.xlat op.opcodes (some st.next)) op.literals =
        literalsMoved st.xlat op.literals := by
      cases hl : op.literals with
      | none => rfl
      | some p =>
        rw [hl] at hops
        have hne : p ≠ op.opcodes := hs.ne_base hops rfl hops (by simp)
        rw [literalsMoved, Function.update_of_ne hne, literalsMoved]
    simp only [ArrayRef.rewrite, hlits, hmoved, Function.update_self, Option.getD_some]
  have hmove := (Moving.moves_rewriteEach (P := plan hz) st
    ⟨.opcodes op.literals op.donePassTwo, op.opcodes, op.last⟩ hxlat
    (by
      intro p hp
      cases hl : op.literals with
      | none => simp [plan, Kind.needs, hl] at hp
      | some p' =>
        obtain rfl : p = p' := by simpa [plan, Kind.needs, hl] using hp
        exact hready p hl)
    hrewrite).efree
  unfold persistOpcodes
  simp only [hxlat, zendSharedMemdup]
  exact ⟨hmove, trivial⟩

theorem leads_none : Leads st none none := ⟨fun _ => rfl, by simp⟩

theorem leads_some {p q : ℤ} (h : st.xlat p = some q) : Leads st (some p) (some q) := by
  refine ⟨by simp, fun a ha => ?_⟩
  obtain rfl := Option.some.inj ha
  exact ⟨q, rfl, h⟩

variable (hz) in
/-- Literals that are copied now -/
theorem persistLiterals_moves {op : OpArray} {p : ℤ} (hp : op.literals = some p)
    (hxlat : st.xlat p = none) :
    Moving.Moves (plan hz) ⟨.literals, p, op.lastLiteral⟩ st (persistLiterals z st op).1 ∧
      (persistLiterals z st op).2 = (some st.next, some p) := by
  have hmove := (Moving.moves_rewriteEach (P := plan hz) st ⟨.literals, p, op.lastLiteral⟩ hxlat
    (by simp [plan, Kind.needs]) (f := zendProtectZval) rfl).efree
  unfold persistLiterals
  simp only [hp, hxlat, zendSharedMemdup]
  exact ⟨hmove, trivial⟩

theorem Closed.move_both (hc : Closed dom st) (hs : ScriptArrays z dom) {op : OpArray} {p : ℤ}
    (hp : op.literals = some p) (hlit : dom ⟨.literals, p, op.lastLiteral⟩)
    (hops : dom ⟨.opcodes op.literals op.donePassTwo, op.opcodes, op.last⟩)
    (hmove : Moving.Moves (plan hz) ⟨.literals, p, op.lastLiteral⟩ st st')
    (hmove' : Moving.Moves (plan hz)
      ⟨.opcodes op.literals op.donePassTwo, op.opcodes, op.last⟩ st' st'') : Closed dom st'' := by
  intro y p' d hy hyk hsome
  by_cases hpp : p' = p
  · -- the oplines that have just been copied
    subst hpp
    rw [hp] at hops
    obtain rfl := hs.own y _ p' d op.donePassTwo hy hops hyk rfl
    exact Option.isSome_iff_exists.mpr ⟨_, hmove'.xlat_base⟩
  · have hne : p' ≠ op.opcodes := hs.ne_base hy hyk hops (by simp)
    have hxlat : st''.xlat p' = st.xlat p' := by
      rw [hmove'.xlat, hmove.xlat]
      exact (Function.update_of_ne hne _ _).trans (Function.update_of_ne hpp _ _)
    rw [hxlat] at hsome
    have hold := hc y p' d hy hyk hsome
    rwa [(hmove.extends.trans hmove'.extends).isSome hold]

/-- The literals and the oplines of a function. Where only the literals have been copied, the
oplines would keep the pointers to the old ones, but then other oplines have these literals. -/
theorem persistOpcodes_spec (h : Between hz dom m st) (hs : ScriptArrays z dom) {op : OpArray}
    (hops : dom ⟨.opcodes op.literals op.donePassTwo, op.opcodes, op.last⟩)
    (hlits : ∀ x ∈ optionArray .literals op.literals op.lastLiteral, dom x) :
    ∃ st₁ lits orig st' ops, persistLiterals z st op = (st₁, lits, orig) ∧
      persistOpcodes z st₁ op lits orig = (st', ops) ∧ Between hz dom m st' ∧
      Moving.Extends st st' ∧ Leads st' op.literals lits ∧
      Leads st' (some op.opcodes) (some ops) := by
  cases hl : op.literals with
  | none =>
    have hrun : persistLiterals z st op = (st, none, none) := by simp [persistLiterals, hl]
    cases hxlat : st.xlat op.opcodes with
    | some q =>
      have hsame : persistOpcodes z st op none none = (st, q) := by simp [persistOpcodes, hxlat]
      exact ⟨st, none, none, st, q, hrun, hsame, h, .refl, leads_none, leads_some hxlat⟩
    | none =>
      obtain ⟨hmove, hplace⟩ := persistOpcodes_moves hz hs hops hxlat (by simp [hl]) none none
        (by simp [literalsMoved, hl])
      exact ⟨st, none, none, (persistOpcodes z st op none none).1, st.next, hrun,
        Prod.ext rfl hplace, h.move hs hops (by simp) hmove, hmove.extends, leads_none,
        leads_some hmove.xlat_base⟩
  | some p =>
    have hlit : dom ⟨.literals, p, op.lastLiteral⟩ := hlits _ (by simp [optionArray, hl])
    rw [hl] at hops
    cases hxlat : st.xlat p with
    | some q =>
      have hsome := h.closed _ p op.donePassTwo hops rfl (by simp [hxlat])
      obtain ⟨q', hq'⟩ := Option.isSome_iff_exists.mp hsome
      have hrun : persistLiterals z st op = (st, some q, some q) := by
        simp [persistLiterals, hl, hxlat]
      have hsame : persistOpcodes z st op (some q) (some q) = (st, q') := by
        simp only [persistOpcodes, hq']
      exact ⟨st, _, _, st, q', hrun, hsame, h, .refl, leads_some hxlat, leads_some hq'⟩
    | none =>
      obtain ⟨hmove₁, hplace₁⟩ := persistLiterals_moves hz hl hxlat
      have hnone : st.xlat op.opcodes = none := by
        by_contra hne
        have hready := h.follows.ready _ hops (Option.isSome_iff_ne_none.mpr hne) p
          (by simp [plan, Kind.needs])
        simp [hxlat] at hready
      have hnep : p ≠ op.opcodes := hs.ne_base hops rfl hops (by simp)
      have hnone₁ : (persistLiterals z st op).1.xlat op.opcodes = none := by
        rw [hmove₁.xlat]
        exact (Function.update_of_ne hnep.symm _ _).trans hnone
      have hp₁ : (persistLiterals z st op).1.xlat p = some st.next := hmove₁.xlat_base
      rw [← hl] at hops
      obtain ⟨hmove₂, hplace₂⟩ := persistOpcodes_moves hz hs hops hnone₁
        (fun p' hp' => by
          obtain rfl := Option.some.inj (hl.symm.trans hp')
          rw [hp₁]
          rfl)
        (some st.next) (some p) (by simp [literalsMoved, hl, hp₁])
      have hfollows := (h.follows.move hlit hmove₁ fun y hy hne => hs.apart _ y hlit hy hne).move
        hops hmove₂ fun y hy hne => hs.apart _ y hops hy hne
      have hclosed := h.closed.move_both hs hl hlit hops hmove₁ hmove₂
      exact ⟨(persistLiterals z st op).1, some st.next, some p,
        (persistOpcodes z (persistLiterals z st op).1 op (some st.next) (some p)).1,
        (persistLiterals z st op).1.next, Prod.ext rfl hplace₁, Prod.ext rfl hplace₂,
        ⟨hfollows, hclosed⟩, hmove₁.extends.trans hmove₂.extends,
        (leads_some hp₁).mono hmove₂.extends, leads_some hmove₂.xlat_base⟩

/-- The op array of the copy: its pointers are the translated ones. -/
structure Copied (st : Moving Cell) (op op' : OpArray) : Prop where
  isUser : op'.isUser = op.isUser
  donePassTwo : op'.donePassTwo = op.donePassTwo
  lastLiteral : op'.lastLiteral = op.lastLiteral
  last : op'.last = op.last
  numArgs : op'.numArgs = op.numArgs
  lastBrkCont : op'.lastBrkCont = op.lastBrkCont
  lastTryCatch : op'.lastTryCatch = op.lastTryCatch
  lastVar : op'.lastVar = op.lastVar
  literals : Leads st op.literals op'.literals
  opcodes : Leads st (some op.opcodes) (some op'.opcodes)
  argInfo : Leads st op.argInfo op'.argInfo
  brkContArray : Leads st op.brkContArray op'.brkContArray
  tryCatchArray : Leads st op.tryCatchArray op'.tryCatchArray
  vars : Leads st op.vars op'.vars

theorem Copied.mono {op op' : OpArray} (h : Copied st op op') (hext : Moving.Extends st st') :
    Copied st' op op' :=
  { h with
    literals := h.literals.mono hext
    opcodes := h.opcodes.mono hext
    argInfo := h.argInfo.mono hext
    brkContArray := h.brkContArray.mono hext
    tryCatchArray := h.tryCatchArray.mono hext
    vars := h.vars.mono hext }

/-- One function -/
theorem zendPersistOpArrayEx_spec (h : Between hz dom m st) (hs : ScriptArrays z dom)
    {op : OpArray} (hdom : ∀ x ∈ op.arrays, dom x) :
    ∃ st' op', zendPersistOpArrayEx z st op = (st', op') ∧ Between hz dom m st' ∧
      Moving.Extends st st' ∧ (op.isUser = true → Copied st' op op') ∧
      (op.isUser = false → op' = op) := by
  cases hu : op.isUser with
  | false => exact ⟨st, op, by simp [zendPersistOpArrayEx, hu], h, .refl, by simp, by simp⟩
  | true =>
    simp only [OpArray.arrays, hu, if_true, List.mem_cons, List.mem_append] at hdom
    obtain ⟨st₁, lits, orig, st₂, ops, hrun₁, hrun₂, h₂, hext₂, hlits, hops⟩ :=
      persistOpcodes_spec h hs (hdom _ (.inl rfl)) fun x hx => hdom x (.inr (.inl hx))
    obtain ⟨st₃, argInfo, hrun₃, h₃, hext₃, hargs⟩ := persistArray_spec h₂ hs (k := .argInfo)
      (fun x hx => hdom x (.inr (.inr (.inl hx)))) rfl (by simp) fun _ _ _ => rfl
    obtain ⟨st₄, brkCont, hrun₄, h₄, hext₄, hbrk⟩ := persistArray_spec h₃ hs (k := .brkCont)
      (fun x hx => hdom x (.inr (.inr (.inr (.inl hx))))) rfl (by simp) fun _ _ _ => rfl
    obtain ⟨st₅, tryCatch, hrun₅, h₅, hext₅, htry⟩ := persistArray_spec h₄ hs (k := .tryCatch)
      (fun x hx => hdom x (.inr (.inr (.inr (.inr (.inl hx)))))) rfl (by simp) fun _ _ _ => rfl
    obtain ⟨st₆, vars, hrun₆, h₆, hext₆, hvars⟩ := persistArray_spec h₅ hs (k := .vars)
      (fun x hx => hdom x (.inr (.inr (.inr (.inr (.inr hx)))))) rfl (by simp) fun _ _ _ => rfl
    have hext₂₆ := hext₃.trans (hext₄.trans (hext₅.trans hext₆))
    simp only [Kind.size] at hrun₃ hrun₄ hrun₅ hrun₆
    have hrun : zendPersistOpArrayEx z st op = (st₆, { op with
        literals := lits, opcodes := ops, argInfo := argInfo, brkContArray := brkCont,
        tryCatchArray := tryCatch, vars := vars }) := by
      unfold zendPersistOpArrayEx
      simp only [hu, if_true, hrun₁, hrun₂, hrun₃, hrun₄, hrun₅, hrun₆]
    refine ⟨st₆, _, hrun, h₆, hext₂.trans hext₂₆, fun _ => ?_, by simp⟩
    exact ⟨rfl, rfl, rfl, rfl, rfl, rfl, rfl, rfl, hlits.mono hext₂₆, hops.mono hext₂₆,
      hargs.mono (hext₄.trans (hext₅.trans hext₆)), hbrk.mono (hext₅.trans hext₆),
      htry.mono hext₆, hvars⟩

/-- All functions, by induction on the rest of them -/
theorem persistOpArrays_spec (hs : ScriptArrays z dom) (ops : List OpArray) :
    ∀ st, Between hz dom m st → (∀ op ∈ ops, ∀ x ∈ op.arrays, dom x) →
      ∃ st' ops', persistOpArrays z st ops = (st', ops') ∧ Between hz dom m st' ∧
        Moving.Extends st st' ∧ List.Forall₂ (fun op op' =>
          (op.isUser = true → Copied st' op op') ∧ (op.isUser = false → op' = op)) ops ops' := by
  induction ops with
  | nil => exact fun st h _ => ⟨st, [], rfl, h, .refl, .nil⟩
  | cons op ops ih =>
    intro st h hdom
    obtain ⟨st₁, op', hrun, h₁, hext₁, hcopied, hsame⟩ :=
      zendPersistOpArrayEx_spec h hs fun x hx => hdom op (by simp) x hx
    obtain ⟨st₂, ops', hruns, h₂, hext₂, hall⟩ :=
      ih st₁ h₁ fun op'' hop'' x hx => hdom op'' (by simp [hop'']) x hx
    refine ⟨st₂, op' :: ops', ?_, h₂, hext₁.trans hext₂, .cons ⟨fun hu => ?_, hsame⟩ hall⟩
    · simp only [persistOpArrays, hrun, hruns]
    · exact (hcopied hu).mono hext₂

/-! ### The copies -/

/-- An array that has been moved holds what it held, if its elements are rewritten accordingly. -/
theorem HoldsArray.moved {X : Type} (h : Moving.Follows (plan hz) dom m st) {k : Kind}
    {p q : Option ℤ} {n : ℕ} {R R' : X → Cell → Prop} {xs : List X}
    (hold : HoldsArray m (k.size z) p n R xs)
    (hdom : ∀ x ∈ optionArray k p n, dom x) (hq : Leads st p q)
    (hR : ∀ a b c, p = some a → st.xlat a = some b → ∀ x ∈ xs, R x c →
      R' x (ArrayRef.rewrite z st.xlat ⟨k, a, n⟩ c)) :
    HoldsArray st.target (k.size z) q n R' xs where
  length := hold.length
  null hnone := by
    cases p with
    | none => exact hold.null rfl
    | some a =>
      obtain ⟨b, hb, -⟩ := hq.elem a rfl
      simp [hnone] at hb
  elem b hb i x hx := by
    cases p with
    | none => simp [hq.null rfl] at hb
    | some a =>
      obtain ⟨b', hb', hxlat⟩ := hq.elem a rfl
      obtain rfl := Option.some.inj (hb.symm.trans hb')
      obtain ⟨c, hc, hxc⟩ := hold.elem a rfl i x hx
      have hi : i < n := by
        rw [hold.length]
        exact (List.getElem?_eq_some_iff.mp hx).1
      have hmem : dom ⟨k, a, n⟩ := hdom _ (by simp [optionArray])
      have hmoved := h.moved ⟨k, a, n⟩ hmem b hxlat i hi
      refine ⟨ArrayRef.rewrite z st.xlat ⟨k, a, n⟩ c, hmoved.trans ?_,
        hR a b c rfl hxlat x (List.mem_of_getElem? hx) hxc⟩
      have hm : m ((ArrayAt.elem ((plan hz).array ⟨k, a, n⟩) i)) = some c := hc
      rw [hm]
      rfl

theorem Leads.literalsMoved_eq {p q : Option ℤ} (h : Leads st p q) :
    literalsMoved st.xlat p = q.getD 0 - p.getD 0 := by
  cases p with
  | none => simp [literalsMoved, h.null rfl]
  | some a =>
    obtain ⟨b, rfl, hxlat⟩ := h.elem a rfl
    simp [literalsMoved, hxlat]

/-- All literals of an op array are counted twice and are references. -/
def LiteralsProtected (z : Sizeof) (m : ℤ → Option Cell) (op : OpArray) (code : FunctionCode) :
    Prop :=
  HoldsArray m z.literal op.literals op.lastLiteral (fun l c => c = .literal l 2 true) code.literals

/-- The copy of a function has the code of the function. -/
theorem Represents.moved (h : Moving.Follows (plan hz) dom m st) {op op' : OpArray}
    {code : FunctionCode} (hold : Represents z m op code) (hw : code.WellFormed)
    (hu : op.isUser = true) (hdom : ∀ x ∈ op.arrays, dom x) (hc : Copied st op op') :
    Represents z st.target op' code ∧ LiteralsProtected z st.target op' code := by
  simp only [OpArray.arrays, hu, if_true, List.mem_cons, List.mem_append] at hdom
  have hlits : LiteralsProtected z st.target op' code := by
    unfold LiteralsProtected
    rw [hc.lastLiteral]
    refine hold.literals.moved h (k := .literals) (fun x hx => hdom x (.inr (.inl hx)))
      hc.literals ?_
    rintro a b _ - - l - ⟨refcount, isRef, rfl⟩
    rfl
  refine ⟨⟨?_, ?_, ?_, ?_, ?_, ?_⟩, hlits⟩
  · rw [hc.last]
    refine hold.opcodes.moved h (k := .opcodes op.literals op.donePassTwo)
      (fun x hx => hdom x (.inl (by simpa [optionArray] using hx))) hc.opcodes ?_
    rintro a b _ ha hb o ho rfl
    obtain rfl := Option.some.inj ha
    obtain ⟨b', hb', hxlat⟩ := hc.opcodes.elem _ rfl
    obtain rfl := Option.some.inj hb'
    simp only [ArrayRef.rewrite, Cell.mapOpline, hxlat, Option.getD_some,
      hc.literals.literalsMoved_eq, hc.donePassTwo]
    rw [relocate_memOp hz.op (hw o ho).1 (hw o ho).2]
  · exact ⟨hlits.length, hlits.null, fun q hq i l hl => by
      obtain ⟨c, hcell, hval⟩ := hlits.elem q hq i l hl
      exact ⟨c, hcell, 2, true, hval⟩⟩
  · rw [hc.numArgs]
    exact hold.argInfo.moved h (k := .argInfo) (fun x hx => hdom x (.inr (.inr (.inl hx))))
      hc.argInfo fun _ _ _ _ _ _ _ hx => hx
  · rw [hc.lastBrkCont]
    exact hold.brkContArray.moved h (k := .brkCont)
      (fun x hx => hdom x (.inr (.inr (.inr (.inl hx))))) hc.brkContArray
      fun _ _ _ _ _ _ _ hx => hx
  · rw [hc.lastTryCatch]
    exact hold.tryCatchArray.moved h (k := .tryCatch)
      (fun x hx => hdom x (.inr (.inr (.inr (.inr (.inl hx)))))) hc.tryCatchArray
      fun _ _ _ _ _ _ _ hx => hx
  · rw [hc.lastVar]
    exact hold.vars.moved h (k := .vars)
      (fun x hx => hdom x (.inr (.inr (.inr (.inr (.inr hx)))))) hc.vars
      fun _ _ _ _ _ _ _ hx => hx

end Steps

/-- The arrays of the functions in memory. Arrays at one place are one array, others do not
overlap; so functions with the same oplines have the same literals. The other way round, no other
oplines have the same literals, as a method is inherited with both. -/
structure CodeHeap (z : Sizeof) (ops : List OpArray) : Prop where
  apart : ∀ x ∈ ops.flatMap OpArray.arrays, ∀ y ∈ ops.flatMap OpArray.arrays, y ≠ x →
    (x.arrayAt z).Apart (y.arrayAt z)
  own : ∀ x ∈ ops.flatMap OpArray.arrays, ∀ y ∈ ops.flatMap OpArray.arrays, ∀ p d d',
    x.kind = .opcodes (some p) d → y.kind = .opcodes (some p) d' → x = y

variable {z : Sizeof}

theorem OpArray.mem_literals {op : OpArray} {x : ArrayRef} {p : ℤ} {d : Bool} (hx : x ∈ op.arrays)
    (hk : x.kind = .opcodes (some p) d) : ⟨.literals, p, op.lastLiteral⟩ ∈ op.arrays := by
  cases hu : op.isUser with
  | false => simp [OpArray.arrays, hu] at hx
  | true =>
    simp only [OpArray.arrays, hu, if_true, List.mem_cons, List.mem_append, optionArray,
      List.mem_map] at hx ⊢
    rcases hx with rfl | ⟨_, -, rfl⟩ | ⟨_, -, rfl⟩ | ⟨_, -, rfl⟩ | ⟨_, -, rfl⟩ | ⟨_, -, rfl⟩
    · obtain ⟨hp, -⟩ := Kind.opcodes.inj hk
      exact .inr (.inl ⟨p, by simp [hp], rfl⟩)
    all_goals cases hk

theorem CodeHeap.scriptArrays {ops : List OpArray} (h : CodeHeap z ops) :
    ScriptArrays z (· ∈ ops.flatMap OpArray.arrays) where
  apart x y hx hy := h.apart x hx y hy
  own x y p d d' hx hy := h.own x hx y hy p d d'
  literals x p d hx hk := by
    obtain ⟨op, hop, hmem⟩ := List.mem_flatMap.mp hx
    exact ⟨op.lastLiteral, List.mem_flatMap.mpr ⟨op, hop, OpArray.mem_literals hmem hk⟩⟩

/-- Every function of a script has its code in shared memory, whatever arrays it shares with others,
and no other literals are counted there than twice. The translation table is cleared first. -/
theorem persistOpArrays_sameCode (hz : SizesPos z) (st : Moving Cell)
    (fs : List (OpArray × FunctionCode)) (hheap : CodeHeap z (fs.map Prod.fst))
    (hcode : ∀ f ∈ fs, f.1.isUser = true → f.2.WellFormed ∧ Represents z st.source f.1 f.2) :
    let r := persistOpArrays z { st with xlat := fun _ => none } (fs.map Prod.fst)
    List.Forall₂ (fun f op => (f.1.isUser = true →
      Represents z r.1.target op f.2 ∧ LiteralsProtected z r.1.target op f.2) ∧
      (f.1.isUser = false → op = f.1)) fs r.2 := by
  have hstart : Between hz (· ∈ (fs.map Prod.fst).flatMap OpArray.arrays) st.source
      { st with xlat := fun _ => none } :=
    ⟨.start rfl rfl, fun _ _ _ _ _ hsome => by simp at hsome⟩
  obtain ⟨st', ops, hrun, h', -, hall⟩ := persistOpArrays_spec hheap.scriptArrays (fs.map Prod.fst)
    _ hstart fun op hop x hx => List.mem_flatMap.mpr ⟨op, hop, hx⟩
  intro r
  have hr : r = (st', ops) := hrun
  rw [hr]
  have hmem := (List.forall₂_and_left (p := fun f => f ∈ fs) fs ops).mpr
    ⟨fun _ hf => hf, List.forall₂_map_left_iff.mp hall⟩
  refine hmem.imp fun f op hf => ⟨fun hu => ?_, hf.2.2⟩
  obtain ⟨hw, hrep⟩ := hcode f hf.1 hu
  refine hrep.moved h'.follows hw hu (fun x hx => ?_) (hf.2.1 hu)
  exact List.mem_flatMap.mpr ⟨f.1, List.mem_map_of_mem hf.1, hx⟩

/-- A conditional jump over an opline, and the return of a literal -/
def branchCode : FunctionCode where
  opcodes := [⟨.jmpz, ⟨.cv, 0, false⟩, ⟨.unused, 1, false⟩, .none, 0⟩,
    ⟨.ret, ⟨.const, 0, false⟩, .none, .none, 0⟩]
  literals := [⟨.long 5, 0, 0⟩]
  argInfo := []
  brkContArray := []
  tryCatchArray := []
  vars := []

def branchMethod : OpArray where
  isUser := true
  donePassTwo := true
  literals := some 2000
  lastLiteral := 1
  opcodes := 1000
  last := 2
  argInfo := none
  numArgs := 0
  brkContArray := none
  lastBrkCont := 0
  tryCatchArray := none
  lastTryCatch := 0
  vars := none
  lastVar := 0

def branchMemory (a : ℤ) : Option Cell :=
  if a = 1000 then some (.opline ⟨.jmpz, .cv, 0, .unused, 1048, .none, 0⟩)
  else if a = 1048 then some (.opline ⟨.ret, .const, 2000, .unused, 0, .none, 0⟩)
  else if a = 2000 then some (.literal ⟨.long 5, 0, 0⟩ 1 false)
  else none

theorem holdsArray_none {X : Type} {m : ℤ → Option Cell} {size : ℕ} {R : X → Cell → Prop} :
    HoldsArray m size none 0 R [] := ⟨rfl, fun _ => rfl, by simp⟩

theorem represents_branchMethod :
    Represents ScriptSize.amd64 branchMemory branchMethod branchCode := by
  refine ⟨⟨rfl, by simp, ?_⟩, ⟨rfl, by simp [branchMethod], ?_⟩, holdsArray_none, holdsArray_none,
    holdsArray_none, holdsArray_none⟩
  · rintro q hq i o ho
    obtain rfl := Option.some.inj hq
    match i with
    | 0 =>
      obtain rfl := Option.some.inj ho
      exact ⟨_, rfl, rfl⟩
    | 1 =>
      obtain rfl := Option.some.inj ho
      exact ⟨_, rfl, rfl⟩
    | i + 2 => simp [branchCode] at ho
  · rintro q hq i l hl
    obtain rfl := Option.some.inj hq
    match i with
    | 0 =>
      obtain rfl := Option.some.inj hl
      exact ⟨_, rfl, 1, false, rfl⟩
    | i + 1 => simp [branchCode] at hl

theorem codeHeap_branchMethod : CodeHeap ScriptSize.amd64
    [branchMethod, branchMethod, { branchMethod with isUser := false }] := by
  have hmem (x : ArrayRef) (hx : x ∈ [branchMethod, branchMethod,
      { branchMethod with isUser := false }].flatMap OpArray.arrays) :
      x = ⟨.opcodes (some 2000) true, 1000, 2⟩ ∨ x = ⟨.literals, 2000, 1⟩ := by
    simp [OpArray.arrays, branchMethod, optionArray] at hx
    tauto
  constructor
  · intro x hx y hy hne
    rcases hmem x hx with rfl | rfl <;> rcases hmem y hy with rfl | rfl
    · exact absurd rfl hne
    · refine ⟨by decide, fun a h => ?_⟩
      simp [ArrayAt.Spans, ArrayAt.bytes, ArrayRef.arrayAt, Kind.size, ScriptSize.amd64] at h
      omega
    · refine ⟨by decide, fun a h => ?_⟩
      simp [ArrayAt.Spans, ArrayAt.bytes, ArrayRef.arrayAt, Kind.size, ScriptSize.amd64] at h
      omega
    · exact absurd rfl hne
  · intro x hx y hy p d d' hxk hyk
    rcases hmem x hx with rfl | rfl <;> rcases hmem y hy with rfl | rfl
    · rfl
    · cases hyk
    · cases hxk
    · rfl

theorem persistOpArrays_sameCode_branchMethod :
    let fs := [(branchMethod, branchCode), (branchMethod, branchCode),
      ({ branchMethod with isUser := false }, branchCode)]
    let r := persistOpArrays ScriptSize.amd64 ⟨branchMemory, fun _ => none, fun _ => none, 8192⟩
      (fs.map Prod.fst)
    List.Forall₂ (fun f op => (f.1.isUser = true →
      Represents ScriptSize.amd64 r.1.target op f.2 ∧
        LiteralsProtected ScriptSize.amd64 r.1.target op f.2) ∧
      (f.1.isUser = false → op = f.1)) fs r.2 :=
  persistOpArrays_sameCode ⟨by decide, by decide, by decide, by decide, by decide, by decide⟩
    ⟨branchMemory, fun _ => none, fun _ => none, 8192⟩ _ codeHeap_branchMethod
    (by
      intro f hf hu
      have hrep : f = (branchMethod, branchCode) := by
        simp only [List.mem_cons, List.not_mem_nil, or_false] at hf
        rcases hf with rfl | rfl | rfl
        · rfl
        · rfl
        · cases hu
      subst hrep
      refine ⟨fun o ho => ?_, represents_branchMethod⟩
      simp only [branchCode, List.mem_cons, List.not_mem_nil, or_false] at ho
      rcases ho with rfl | rfl
      · decide
      · decide)

end Code

end ZendOpcache
