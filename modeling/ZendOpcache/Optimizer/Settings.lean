import ZendOpcache.Optimizer.Passes
import ZendOpcache.Transition.Logged

/-! # Numeric settings

The engine reads the locale and the `precision` directive where it makes a string of a double. One
step of a pass does the same under two settings that give the doubles which it prints the same
strings.
-/

namespace ZendOpcache

namespace ZendConversions

variable (E : ZendConversions) (s t : NumericSettings)

/-- A value that is made a string of, where it is a double -/
def printed (val : Zval) : Zval :=
  match val with
  | .double d => .string (E.doubleToString s d)
  | _ => val

/-- The engine while settings are in force. They matter for the operands of `CONCAT` and for
`convert_to_string`. -/
@[reducible] def under : ZendConversions :=
  { E with
    binaryOp := fun c x y =>
      if c = .concat then E.binaryOp c (E.printed s x) (E.printed s y) else E.binaryOp c x y
    convertTo := fun type val =>
      if type = isString then E.convertTo type (E.printed s val) else E.convertTo type val }

/-- Both settings give the doubles among the values the same strings. -/
def SamePrint (vals : List Zval) : Prop := ∀ val ∈ vals, E.printed s val = E.printed t val

variable {E s t} {vals : List Zval} {val x y : Zval}

theorem under_convertTo (type : ℕ) : (E.under s).convertTo type val =
    if type = isString then E.convertTo type (E.printed s val) else E.convertTo type val := rfl

theorem under_binaryOp (c : ZendOpcode) : (E.under s).binaryOp c x y =
    if c = .concat then E.binaryOp c (E.printed s x) (E.printed s y) else E.binaryOp c x y := rfl

theorem printed_of_not_double (h : val.isDouble = false) : E.printed s val = E.printed t val := by
  cases val <;> first | rfl | simp [Zval.isDouble] at h

theorem SamePrint.mono {vals' : List Zval} (h : E.SamePrint s t vals)
    (hsub : ∀ v ∈ vals', v ∈ vals) : E.SamePrint s t vals' := fun v hv => h v (hsub v hv)

theorem convertTo_under_of_ne {type : ℕ} (h : type ≠ isString) :
    (E.under s).convertTo type val = (E.under t).convertTo type val := by
  rw [under_convertTo, under_convertTo, if_neg h, if_neg h]

theorem SamePrint.convertTo_eq (h : E.SamePrint s t vals) (hv : val ∈ vals) :
    (E.under s).convertTo isString val = (E.under t).convertTo isString val := by
  rw [under_convertTo, under_convertTo, h _ hv]

theorem binaryOp_under_of_ne {c : ZendOpcode} (h : c ≠ .concat) :
    (E.under s).binaryOp c x y = (E.under t).binaryOp c x y := by
  rw [under_binaryOp, under_binaryOp, if_neg h, if_neg h]

theorem SamePrint.binaryOp_eq (h : E.SamePrint s t vals) (hx : x ∈ vals) (hy : y ∈ vals) :
    (E.under s).binaryOp .concat x y = (E.under t).binaryOp .concat x y := by
  rw [under_binaryOp, under_binaryOp, h _ hx, h _ hy]

end ZendConversions

open ZendConversions

variable {E : ZendConversions} {s t : NumericSettings}

namespace ZendOpArray

variable {a : ZendOpArray} {o : ZendOp} {val : Zval} {var i : ℕ}

/-! ## Pass 1 -/

theorem replaceCases_under : ∀ (n m : ℕ) (a : ZendOpArray),
    @replaceCases (E.under s).toZendEngine var val n m a =
      @replaceCases (E.under t).toZendEngine var val n m a := by
  intro n
  induction n with
  | zero => intro m a; rfl
  | succ n ih => intro m a; exact ih (m + 1) _

theorem replaceAt_under : @replaceAt (E.under s).toZendEngine a var val i o =
    @replaceAt (E.under t).toZendEngine a var val i o := by
  unfold replaceAt
  split
  · split
    · split
      · rfl
      · apply replaceCases_under
    · rfl
  · rfl

theorem replaceFrom_under : ∀ n i, @replaceFrom (E.under s).toZendEngine a var val n i =
    @replaceFrom (E.under t).toZendEngine a var val n i := by
  intro n
  induction n with
  | zero => intro i; rfl
  | succ n ih =>
    intro i
    unfold replaceFrom
    cases a.opcodes[i]? with
    | none => rfl
    | some o =>
      dsimp only
      rw [replaceAt_under (s := s) (t := t), ih]

theorem fold_under : @fold (E.under s).toZendEngine a i o val =
    @fold (E.under t).toZendEngine a i o val :=
  replaceFrom_under _ _

/-- The constants that pass 1 prints to fold an opline -/
def foldPrints (a : ZendOpArray) (o : ZendOp) : List Zval :=
  match o.opcode with
  | .concat =>
    match a.constant? o.op1, a.constant? o.op2 with
    | some x, some y => [x, y]
    | _, _ => []
  | .cast => if o.extendedValue = isString then (a.constant? o.op1).toList else []
  | _ => []

theorem foldedConst_binary (h : E.SamePrint s t (a.foldPrints o)) {x y : Zval}
    (hx : a.constant? o.op1 = some x) (hy : a.constant? o.op2 = some y) :
    (E.under s).binaryOp o.opcode x y = (E.under t).binaryOp o.opcode x y := by
  by_cases hc : o.opcode = .concat
  · rw [foldPrints, hc] at h
    simp only [hx, hy] at h
    rw [hc]
    exact h.binaryOp_eq (by simp) (by simp)
  · exact binaryOp_under_of_ne hc

theorem foldedConst_cast (h : E.SamePrint s t (a.foldPrints o)) (hc : o.opcode = .cast) {x : Zval}
    (hx : a.constant? o.op1 = some x) : (E.under s).convertTo o.extendedValue x =
      (E.under t).convertTo o.extendedValue x := by
  by_cases hs : o.extendedValue = isString
  · rw [foldPrints, hc] at h
    simp only [hs, hx, if_true] at h
    rw [hs]
    exact h.convertTo_eq (by simp)
  · exact convertTo_under_of_ne hs

theorem foldedConst_under (h : E.SamePrint s t (a.foldPrints o)) :
    @foldedConst (E.under s).toZendEngine a o = @foldedConst (E.under t).toZendEngine a o := by
  unfold foldedConst
  split_ifs with hb hu hc hcomp
  · cases hx : a.constant? o.op1 with
    | none => rfl
    | some x =>
      cases hy : a.constant? o.op2 with
      | none => rfl
      | some y => simp only [foldedConst_binary h hx hy]
  · rfl
  · rfl
  · cases hx : a.constant? o.op1 with
    | none => rfl
    | some x => exact congrArg some (foldedConst_cast h hc hx)
  · rfl
  · rfl

/-! ## Pass 2 -/

/-- The constant that pass 2 prints to convert an operand -/
def operandPrints (a : ZendOpArray) (kind : Option ConstantKind) (x : Znode) : List Zval :=
  if kind = some .string ∧ x.type = .const then [a.literal x] else []

/-- The constants that pass 2 prints at an opline -/
def convertPrints [ZendConversions] (a : ZendOpArray) (o : ZendOp) : List Zval :=
  a.operandPrints o.opcode.firstKind o.op1 ++
    if o.extendedValue ≠ 0 then []
    else (a.convertOperand o.opcode.firstKind o.op1).operandPrints o.opcode.secondKind o.op2

theorem convertOperand_under {kind : Option ConstantKind} {x : Znode}
    (h : E.SamePrint s t (a.operandPrints kind x)) :
    @convertOperand a (E.under s) kind x = @convertOperand a (E.under t) kind x := by
  unfold convertOperand
  cases kind with
  | none => rfl
  | some kind =>
    dsimp only
    split_ifs with hx
    · cases kind with
      | number => rfl
      | long => rfl
      | string =>
        rw [operandPrints, if_pos ⟨rfl, hx⟩] at h
        simp only [ConstantKind.convert, h.convertTo_eq (List.mem_singleton_self _)]
    · rfl

theorem convertOperands_under (h : E.SamePrint s t (@convertPrints (E.under s) a o)) :
    @convertOperands a (E.under s) o = @convertOperands a (E.under t) o := by
  have h₁ := convertOperand_under (h.mono fun v hv => List.mem_append_left _ hv)
  unfold convertOperands
  rw [← h₁]
  by_cases he : o.extendedValue = 0
  · rw [if_neg (not_not.mpr he), if_neg (not_not.mpr he)]
    apply convertOperand_under
    apply h.mono
    intro v hv
    unfold convertPrints
    rw [if_neg (not_not.mpr he)]
    exact List.mem_append_right _ hv
  · rw [if_pos he, if_pos he]

end ZendOpArray

/-! ## The block pass -/

namespace BlockState

variable {st : BlockState} {k p : ℕ} {o src : ZendOp} {usedExt : ℕ → Bool}

/-- The constants that the rewrites of an opline print: those of a `CONCAT`, or of two that are
compressed. The `ECHO`s that are compressed have no double. -/
def chainPrints (st : BlockState) (o : ZendOp) : List Zval :=
  if o.opcode = .concat ∧ o.op2.type = .const then
    if o.op1.type = .const then [st.literal o.op1, st.literal o.op2]
    else
      match st.tmpSource o.op1 with
      | some (_, src) =>
        if (src.opcode = .concat ∨ src.opcode = .addString) ∧ src.op2.type = .const ∧
            src.result.num = o.op1.num then
          [st.literal src.op2, st.literal o.op2]
        else []
      | none => []
  else []

theorem convertToStringSafe_under {val : Zval} (h : E.printed s val = E.printed t val) :
    @convertToStringSafe (E.under s).toZendEngine val =
      @convertToStringSafe (E.under t).toZendEngine val := by
  have hc : (E.under s).convertTo isString val = (E.under t).convertTo isString val := by
    rw [under_convertTo, under_convertTo, h]
  unfold convertToStringSafe
  rw [hc]

/-- The guard of compressed `ECHO`s is enough. -/
theorem mergeEcho_under {l : ℕ} {last : ZendOp} (ho : (st.literal o.op1).isDouble = false)
    (hl : (st.literal last.op1).isDouble = false) :
    @mergeEcho (E.under s).toZendEngine st o l last =
      @mergeEcho (E.under t).toZendEngine st o l last := by
  unfold mergeEcho
  rw [convertToStringSafe_under (printed_of_not_double ho (t := t)),
    convertToStringSafe_under (printed_of_not_double hl (t := t))]

theorem mergeConcat_under (h : E.SamePrint s t [st.literal src.op2, st.literal o.op2]) :
    @mergeConcat (E.under s).toZendEngine st k o p src =
      @mergeConcat (E.under t).toZendEngine st k o p src := by
  unfold mergeConcat
  rw [convertToStringSafe_under (h (st.literal src.op2) (by simp)),
    convertToStringSafe_under (h (st.literal o.op2) (by simp))]

theorem foldBinary_under
    (h : o.opcode = .concat → E.SamePrint s t [st.literal o.op1, st.literal o.op2]) :
    @foldBinary (E.under s).toZendEngine st k o = @foldBinary (E.under t).toZendEngine st k o := by
  have hb : (E.under s).binaryOp o.opcode (st.literal o.op1) (st.literal o.op2) =
      (E.under t).binaryOp o.opcode (st.literal o.op1) (st.literal o.op2) := by
    by_cases hc : o.opcode = .concat
    · rw [hc]
      exact (h hc).binaryOp_eq (by simp) (by simp)
    · exact binaryOp_under_of_ne hc
  unfold foldBinary
  rw [hb]
  rfl

theorem constRewrite'_under (hop : o.op1.type = .const) (h : E.SamePrint s t (st.chainPrints o)) :
    @constRewrite.constRewrite' (E.under s).toZendEngine st k o =
      @constRewrite.constRewrite' (E.under t).toZendEngine st k o := by
  unfold constRewrite.constRewrite'
  split_ifs with h₁ h₂ h₃ h₄ h₅
  · rfl
  · rfl
  · rfl
  · apply congrArg fun st => some (st, Next.advance)
    apply foldBinary_under
    intro hc
    rwa [chainPrints, if_pos ⟨hc, h₃.2⟩, if_pos hop] at h
  · rfl
  · rfl

theorem constRewrite_under (hop : o.op1.type = .const) (h : E.SamePrint s t (st.chainPrints o)) :
    @constRewrite (E.under s).toZendEngine st k o =
      @constRewrite (E.under t).toZendEngine st k o := by
  unfold constRewrite
  split
  · split_ifs with hecho
    · rw [mergeEcho_under hecho.2.2.1 hecho.2.2.2.2 (t := t)]
    · exact constRewrite'_under hop h
  · exact constRewrite'_under hop h

theorem sourceRewrite_under (hop : o.op1.type ≠ .const) (hsrc : st.tmpSource o.op1 = some (p, src))
    (h : E.SamePrint s t (st.chainPrints o)) :
    @sourceRewrite (E.under s).toZendEngine st k o usedExt p src =
      @sourceRewrite (E.under t).toZendEngine st k o usedExt p src := by
  unfold sourceRewrite
  split_ifs with h₁ h₂ h₃
  · rfl
  · rfl
  · apply congrArg fun st => (st, Next.advance)
    apply mergeConcat_under
    rw [chainPrints, if_pos ⟨h₃.1, h₃.2.1⟩, if_neg hop, hsrc] at h
    dsimp only at h
    rwa [if_pos h₃.2.2] at h
  all_goals rfl

theorem chainRewrite_under (h : E.SamePrint s t (st.chainPrints o)) :
    @chainRewrite (E.under s).toZendEngine st k o usedExt =
      @chainRewrite (E.under t).toZendEngine st k o usedExt := by
  unfold chainRewrite
  split_ifs with hop hq
  · exact constRewrite_under hop h
  · rfl
  · cases hsrc : st.tmpSource o.op1 with
    | none => rfl
    | some q =>
      obtain ⟨p, src⟩ := q
      exact congrArg some (sourceRewrite_under hop hsrc h)

end BlockState

end ZendOpcache
