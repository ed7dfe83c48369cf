import ZendOpcache.Optimizer.Settings

/-! # Optimizing under numeric settings

The constants that a whole run of the optimizer prints, turn by turn. Two settings that give the
doubles among them the same strings give the same op array. Pass 1, pass 2 and the block pass print
doubles; only the compressed `ECHO`s are guarded.
-/

namespace ZendOpcache

open ZendConversions

variable {E : ZendConversions} {s t : NumericSettings}

/-! ## The block pass -/

namespace BlockState

variable {usedExt : ℕ → Bool}

section Log

variable [ZendEngine]

/-- The constants that one turn of the loop prints -/
def stepPrints (st : BlockState) (k : ℕ) : List Zval :=
  match (st.simpleRewrites k).ops[k]? with
  | none => []
  | some o => (st.simpleRewrites k).chainPrints o

def loopPrints (usedExt : ℕ → Bool) : ℕ → ℕ → BlockState → List Zval
  | 0, _, _ => []
  | n + 1, k, st =>
    if k < st.ops.length then
      st.stepPrints k ++ match st.step k usedExt with
        | none => []
        | some (st, k) => loopPrints usedExt n k st
    else []

/-- The block before the first turn -/
def start (c : ZendCfg) (b : ℕ) (ops : List ZendOp) : BlockState where
  ops := ops
  literals := c.literals
  lastCacheSlot := c.lastCacheSlot
  Tsource := fun _ => none
  lastOp := none
  op2To := (c.blocks b).op2To
  extTo := (c.blocks b).extTo

end Log

variable {i j : ZendEngine} {P : Zval → Prop}

theorem step_congr {st : BlockState} {k : ℕ}
    (hsimple : @simpleRewrites i st k = @simpleRewrites j st k)
    (hchain : ∀ o, (@simpleRewrites i st k).ops[k]? = some o →
      @chainRewrite i (@simpleRewrites i st k) k o usedExt =
        @chainRewrite j (@simpleRewrites i st k) k o usedExt) :
    @step i st k usedExt = @step j st k usedExt := by
  simp only [step, Option.bind_eq_bind, ← hsimple]
  cases ho : (@simpleRewrites i st k).ops[k]? with
  | none => simp only [Option.bind_none]
  | some o => simp only [Option.bind_some, hchain o ho]

theorem loop_congr (h : ∀ st k, (∀ v ∈ @stepPrints i st k, P v) →
    @step i st k usedExt = @step j st k usedExt) : ∀ (n k : ℕ) (st : BlockState),
    (∀ v ∈ @loopPrints i usedExt n k st, P v) →
      @loop i usedExt n k st = @loop j usedExt n k st := by
  intro n
  induction n with
  | zero => intro k st _; rfl
  | succ n ih =>
    intro k st hP
    unfold loopPrints at hP
    unfold loop
    split_ifs with hk
    · rw [if_pos hk] at hP
      rw [← h st k fun v hv => hP v (List.mem_append_left _ hv)]
      cases hs : @step i st k usedExt with
      | none => simp only [Option.bind_eq_bind, Option.bind_none]
      | some x =>
        obtain ⟨st', k'⟩ := x
        apply ih
        intro v hv
        apply hP v
        rw [hs]
        exact List.mem_append_right _ hv
    · rfl

theorem stripQmAssign1_under : @stripQmAssign1 (E.under s).toZendEngine =
    @stripQmAssign1 (E.under t).toZendEngine := rfl

theorem stripQmAssign2_under : @stripQmAssign2 (E.under s).toZendEngine =
    @stripQmAssign2 (E.under t).toZendEngine := rfl

theorem simpleRewrites_under {st : BlockState} {k : ℕ} :
    @simpleRewrites (E.under s).toZendEngine st k =
      @simpleRewrites (E.under t).toZendEngine st k := by
  unfold simpleRewrites
  rw [stripQmAssign1_under (t := t), stripQmAssign2_under (t := t)]

end BlockState

namespace ZendCfg

variable {T lastVar : ℕ} {used : ℕ → Bool} {del : DelSource}

section Log

variable [ZendEngine]

/-- The constants that `zend_optimize_block` prints -/
def optimizeBlockPrints (T : ℕ) (used : ℕ → Bool) (c : ZendCfg) (b : ℕ) : List Zval :=
  match (c.blocks b).oplines with
  | none => []
  | some ops =>
    if (ops ≠ [] ∧ allNops ops) ∨ T = 0 then []
    else
      let ops := ops.dropWhile (·.opcode == .nop)
      BlockState.loopPrints used (3 * ops.length + 1) 0 (BlockState.start c b ops)

/-- One block of a round -/
def optimizeAccessible (T : ℕ) (used : ℕ → Bool) (c : ZendCfg) (b : ℕ) : Option ZendCfg :=
  if (c.blocks b).access then zendOptimizeBlock T used c b else some c

def accessiblePrints (T : ℕ) (used : ℕ → Bool) (c : ZendCfg) (b : ℕ) : List Zval :=
  if (c.blocks b).access then optimizeBlockPrints T used c b else []

def roundPrints (T : ℕ) (c : ZendCfg) : List Zval :=
  match c.zendTUsage T with
  | none => []
  | some (used, c) => foldLog (optimizeAccessible T used) (accessiblePrints T used) c.order c

def roundsPrints (del : DelSource) (T lastVar : ℕ) : ℕ → ZendCfg → List Zval
  | 0, c => c.roundPrints T
  | n + 1, c =>
    c.roundPrints T ++ match (blockRound del T lastVar c).bind (·.rebuildAccessPath true) with
      | none => []
      | some c => roundsPrints del T lastVar n c

end Log

variable {i j : ZendEngine} {P : Zval → Prop}

theorem zendOptimizeBlock_congr {c : ZendCfg} {b : ℕ} (h : ∀ st k,
    (∀ v ∈ @BlockState.stepPrints i st k, P v) →
      @BlockState.step i st k used = @BlockState.step j st k used)
    (hP : ∀ v ∈ @optimizeBlockPrints i T used c b, P v) :
    @zendOptimizeBlock i T used c b = @zendOptimizeBlock j T used c b := by
  unfold optimizeBlockPrints at hP
  unfold zendOptimizeBlock
  cases hops : (c.blocks b).oplines with
  | none => simp only [Option.bind_eq_bind, Option.bind_none]
  | some ops =>
    rw [hops] at hP
    simp only [Option.bind_eq_bind, Option.bind_some]
    split_ifs with hn hT
    · rfl
    · rfl
    · dsimp only at hP
      rw [if_neg (not_or.mpr ⟨hn, hT⟩)] at hP
      have hloop := BlockState.loop_congr h _ _ _ hP
      unfold BlockState.start at hloop
      rw [hloop]

theorem optimizeAccessible_congr {c : ZendCfg} {b : ℕ} (h : ∀ st k,
    (∀ v ∈ @BlockState.stepPrints i st k, P v) →
      @BlockState.step i st k used = @BlockState.step j st k used)
    (hP : ∀ v ∈ @accessiblePrints i T used c b, P v) :
    @optimizeAccessible i T used c b = @optimizeAccessible j T used c b := by
  unfold accessiblePrints at hP
  unfold optimizeAccessible
  split_ifs with ha
  · rw [if_pos ha] at hP
    exact zendOptimizeBlock_congr h hP
  · rfl

/-- Two engines whose turns of the loop over a block agree where the printed constants have a
property, and that agree on jumps -/
structure AgreeOn (i j : ZendEngine) (P : Zval → Prop) : Prop where
  step : ∀ (used : ℕ → Bool) (st : BlockState) (k : ℕ),
    (∀ v ∈ @BlockState.stepPrints i st k, P v) →
      @BlockState.step i st k used = @BlockState.step j st k used
  jmp : ∀ (del : DelSource) (T lastVar : ℕ) (c : ZendCfg) (b : ℕ),
    @zendJmpOptimization del i T lastVar c b = @zendJmpOptimization del j T lastVar c b

theorem AgreeOn.blockRound {c : ZendCfg} (h : AgreeOn i j P)
    (hP : ∀ v ∈ @roundPrints i T c, P v) :
    @blockRound i del T lastVar c = @blockRound j del T lastVar c := by
  unfold roundPrints at hP
  unfold ZendCfg.blockRound
  cases hu : c.zendTUsage T with
  | none => simp only [Option.bind_eq_bind, Option.bind_none]
  | some x =>
    obtain ⟨used, c'⟩ := x
    rw [hu] at hP
    have hfold := foldlM_eq_of_log (f := @optimizeAccessible i T used)
      (g := @optimizeAccessible j T used)
      (fun c b hb => optimizeAccessible_congr (h.step used) hb) c'.order c' hP
    unfold optimizeAccessible at hfold
    simp only [Option.bind_eq_bind, Option.bind_some, hfold, h.jmp del]

theorem AgreeOn.blockRounds (h : AgreeOn i j P) : ∀ (n : ℕ) (c : ZendCfg),
    (∀ v ∈ @roundsPrints i del T lastVar n c, P v) →
      @blockRounds i del T lastVar n c = @blockRounds j del T lastVar n c := by
  intro n
  induction n with
  | zero => intro c hP; exact h.blockRound hP
  | succ n ih =>
    intro c hP
    unfold roundsPrints at hP
    unfold ZendCfg.blockRounds
    rw [← h.blockRound fun v hv => hP v (List.mem_append_left _ hv)]
    cases hc : @ZendCfg.blockRound i del T lastVar c with
    | none => simp only [Option.bind_eq_bind, Option.bind_none]
    | some c₁ =>
      simp only [Option.bind_eq_bind, Option.bind_some]
      cases hc' : c₁.rebuildAccessPath true with
      | none => simp only [Option.bind_none]
      | some c₂ =>
        apply ih
        intro v hv
        apply hP v
        rw [hc, Option.bind_some, hc']
        exact List.mem_append_right _ hv

/-- A turn agrees under two settings that give its constants the same strings. -/
theorem agreeOn_under : AgreeOn (E.under s).toZendEngine (E.under t).toZendEngine
    fun v => E.printed s v = E.printed t v := by
  constructor
  · intro used st k hP
    apply BlockState.step_congr BlockState.simpleRewrites_under
    intro o ho
    apply BlockState.chainRewrite_under
    unfold BlockState.stepPrints at hP
    rw [ho] at hP
    exact hP
  · intro del T lastVar c b
    rfl

end ZendCfg

/-! ## The whole run -/

namespace ZendOpArray

/-- The constants that the block pass prints -/
def optimizationPrints [ZendEngine] (a : ZendOpArray) : List Zval :=
  if a.hasFinallyBlock then []
  else
    match a.findCodeBlocks.bind (·.rebuildAccessPath false) with
    | none => []
    | some c => c.roundsPrints delSource a.T a.lastVar (passes - 1)

/-- The constants that one turn of pass 2 prints -/
def pass2Prints [ZendConversions] (a : ZendOpArray) (i : ℕ) : List Zval :=
  match a.opcodes[i]? with
  | none => []
  | some o => a.convertPrints o

variable {a : ZendOpArray} {i : ℕ}

theorem zendBlockOptimization_congr {i j : ZendEngine} {P : Zval → Prop}
    (h : ZendCfg.AgreeOn i j P) (hP : ∀ v ∈ @optimizationPrints i a, P v) :
    @zendBlockOptimization i delSource a = @zendBlockOptimization j delSource a := by
  unfold optimizationPrints at hP
  unfold zendBlockOptimization
  split_ifs with hf
  · rfl
  · rw [if_neg hf] at hP
    cases hc : a.findCodeBlocks with
    | none => rfl
    | some c =>
      simp only [Option.bind_eq_bind]
      refine congrArg _ (funext fun _ => ?_)
      cases hc' : c.rebuildAccessPath false with
      | none => simp only [Option.bind_none]
      | some c' =>
        rw [hc, Option.bind_some, hc'] at hP
        simp only [Option.bind_some, h.blockRounds _ _ hP]

theorem pass2Turn_under (h : E.SamePrint s t (@pass2Prints (E.under s) a i)) :
    @pass2Turn a (E.under s) i = @pass2Turn a (E.under t) i := by
  unfold pass2Prints at h
  unfold pass2Turn
  cases ho : a.opcodes[i]? with
  | none => rfl
  | some o =>
    rw [ho] at h
    dsimp only at h ⊢
    split
    case h_8 => exact convertOperands_under h
    all_goals rfl

theorem pass2_under (h : ∀ v ∈ foldLog (fun a i => some (@pass2Turn a (E.under s) i))
    (fun a i => @pass2Prints (E.under s) a i) (List.range a.opcodes.length) a,
      E.printed s v = E.printed t v) :
    @pass2 a (E.under s) = @pass2 a (E.under t) := by
  unfold pass2
  exact foldl_eq_of_log (fun a i hP => pass2Turn_under hP) _ _ h

end ZendOpArray

namespace ZendBoundOpArray

theorem blockOptimization_congr {i j : ZendEngine} {P : Zval → Prop} {a : ZendBoundOpArray}
    (h : ZendCfg.AgreeOn i j P)
    (hP : ∀ v ∈ @ZendOpArray.optimizationPrints i a.toZendOpArray, P v) :
    @blockOptimization i a = @blockOptimization j a := by
  unfold blockOptimization
  rw [ZendOpArray.zendBlockOptimization_congr h hP]

end ZendBoundOpArray

namespace ZendNamedOpArray

/-- The constants that one turn of pass 1 prints -/
def pass1Prints (a : ZendNamedOpArray) (i : ℕ) : List Zval :=
  match a.opcodes[i]? with
  | none => []
  | some o => a.foldPrints o

section Log

variable [ExTmpVars] [ZendConversions] (fuel level : ℕ) (a : ZendNamedOpArray)

def firstPrints : List Zval :=
  foldLog (fun a i => some (pass1Turn level a i)) pass1Prints (List.range a.opcodes.length) a

def secondPrints : List Zval :=
  foldLog (fun a i => some (a.pass2Turn i)) (fun a i => a.pass2Prints i)
    (List.range a.opcodes.length) a.toZendOpArray

/-- The constants that a run of the optimizer prints: those of every turn of pass 1, of pass 2 and
of the loop of the block pass -/
def zendOptimizerPrints : List Zval :=
  if a.type = zendEvalCode ∨ a.interactive then []
  else
    (if hasPass level 1 then a.firstPrints level else []) ++
    (if hasPass level 2 then (if hasPass level 1 then a.pass1 level else a).secondPrints else []) ++
    if hasPass level 5 then
      match a.passesBefore fuel level with
      | none => []
      | some b => b.optimizationPrints
    else []

end Log

variable {a : ZendNamedOpArray} {i fuel level : ℕ} {outside : ℤ → ℕ}

theorem pass1Turn_under (h : E.SamePrint s t (a.pass1Prints i)) :
    @pass1Turn (E.under s).toZendEngine level a i =
      @pass1Turn (E.under t).toZendEngine level a i := by
  unfold pass1Prints at h
  unfold pass1Turn
  cases ho : a.opcodes[i]? with
  | none => rfl
  | some o =>
    rw [ho] at h
    dsimp only
    rw [← ZendOpArray.foldedConst_under h]
    cases @ZendOpArray.foldedConst (E.under s).toZendEngine a.toZendOpArray o with
    | some val => exact congrArg a.mapOps (funext fun a => ZendOpArray.fold_under)
    | none => rfl

theorem pass1_under (h : E.SamePrint s t (@firstPrints (E.under s) level a)) :
    @pass1 a (E.under s).toZendEngine level = @pass1 a (E.under t).toZendEngine level := by
  unfold pass1
  exact foldl_eq_of_log (fun a i hP => pass1Turn_under hP) _ _ h

section Passes

variable [ExTmpVars]

theorem passesBefore_under
    (h₁ : hasPass level 1 = true → E.SamePrint s t (@firstPrints (E.under s) level a))
    (h₂ : hasPass level 2 = true → E.SamePrint s t (@secondPrints (E.under s)
      (if hasPass level 1 then @pass1 a (E.under s).toZendEngine level else a))) :
    @passesBefore _ (E.under s) fuel level a = @passesBefore _ (E.under t) fuel level a := by
  have hpass1 : (if hasPass level 1 then @pass1 a (E.under s).toZendEngine level else a) =
      if hasPass level 1 then @pass1 a (E.under t).toZendEngine level else a := by
    split_ifs with h
    · exact pass1_under (h₁ h)
    · rfl
  unfold passesBefore
  rw [← hpass1]
  generalize (if hasPass level 1 then @pass1 a (E.under s).toZendEngine level else a) = b at h₂
  have hpass2 : (if hasPass level 2 then b.mapOps (@ZendOpArray.pass2 · (E.under s)) else b) =
      if hasPass level 2 then b.mapOps (@ZendOpArray.pass2 · (E.under t)) else b := by
    split_ifs with h
    · simp only [mapOps, ZendOpArray.pass2_under (h₂ h)]
    · rfl
  dsimp only
  rw [hpass2]

/-- Two settings under which the doubles that the optimizer prints have the same strings give the
same op array. -/
theorem zendOptimizer_under
    (h : E.SamePrint s t (@zendOptimizerPrints _ (E.under s) fuel level a)) :
    @zendOptimizer _ (E.under s) outside fuel level a =
      @zendOptimizer _ (E.under t) outside fuel level a := by
  unfold zendOptimizerPrints at h
  unfold zendOptimizer
  by_cases hskip : a.type = zendEvalCode ∨ a.interactive = true
  · rw [if_pos hskip, if_pos hskip]
  · rw [if_neg hskip] at h
    rw [if_neg hskip, if_neg hskip]
    have hbefore : @passesBefore _ (E.under s) fuel level a =
        @passesBefore _ (E.under t) fuel level a := by
      apply passesBefore_under
      · intro h₁
        apply h.mono
        intro v hv
        rw [if_pos h₁]
        exact List.mem_append_left _ (List.mem_append_left _ hv)
      · intro h₂
        apply h.mono
        intro v hv
        rw [if_pos h₂]
        exact List.mem_append_left _ (List.mem_append_right _ hv)
    rw [← hbefore]
    cases hb : @passesBefore _ (E.under s) fuel level a with
    | none => simp only [Option.bind_eq_bind, Option.bind_none]
    | some b =>
      simp only [Option.bind_eq_bind, Option.bind_some]
      split_ifs with h₅
      · rw [ZendBoundOpArray.blockOptimization_congr ZendCfg.agreeOn_under]
        intro v hv
        apply h
        rw [if_pos h₅, hb]
        exact List.mem_append_right _ hv
      · rfl

end Passes

section Tests

local instance tmpVarsOfSettings : ExTmpVars := .below

/-- An engine that prints `1.5` with the decimal point of the settings -/
@[reducible] def decimalEngine : ZendConversions where
  zendHashFunc _ := 0
  zendHandleNumeric _ := none
  binaryOp c x y :=
    match c, x, y with
    | .concat, .string x, .string y => some (.string (x ++ y))
    | _, _, _ => none
  unaryOp _ _ := none
  convertTo _ v := v
  persistentConstant _ := none
  convertScalarToNumber v := v
  doubleToString s d := if d = 0x3ff8000000000000 then [49, s.decimalPoint, 53] else []

/-- `precision = 14` with a decimal point and with a decimal comma -/
def pointSettings : NumericSettings := ⟨46, 14⟩
def commaSettings : NumericSettings := ⟨44, 14⟩

/-- `echo 1.5; echo $x . c;` with a constant `c` -/
def echoConcat (c : Zval) : ZendNamedOpArray where
  opcodes := [⟨.echo, ⟨.const, 0, false⟩, .none, .none, 0⟩,
    ⟨.concat, ⟨.cv, 0, false⟩, ⟨.const, 1, false⟩, ⟨.tmpVar, 0, false⟩, 0⟩,
    ⟨.echo, ⟨.tmpVar, 0, false⟩, .none, .none, 0⟩,
    ⟨.ret, ⟨.const, 2, false⟩, .none, .none, 0⟩]
  literals := [⟨.double 0x3ff8000000000000, 0, -1⟩, ⟨c, 0, -1⟩, ⟨.null, 0, -1⟩]
  brkContArray := []
  tryCatchArray := []
  hasFinallyBlock := false
  T := 1
  lastVar := 1
  lastCacheSlot := 0
  earlyBinding := noOpline
  type := 2
  interactive := false
  vars := [[120]]

/-- `ZEND_OPTIMIZER_ALL_PASSES` -/
def allPasses : ℕ := 0xffffffff

/-- An `ECHO` of a double keeps it, and the optimized code is the same. -/
theorem zendOptimizer_under_echo :
    @zendOptimizer _ (decimalEngine.under pointSettings) (fun _ => 0) 5 allPasses
      (echoConcat (.string [97])) =
    @zendOptimizer _ (decimalEngine.under commaSettings) (fun _ => 0) 5 allPasses
      (echoConcat (.string [97])) := by
  have hprints : @zendOptimizerPrints _ (decimalEngine.under pointSettings) 5 allPasses
      (echoConcat (.string [97])) = [.string [97]] := by
    decide +kernel
  apply zendOptimizer_under
  rw [hprints]
  intro v hv
  rw [List.mem_singleton.mp hv]
  rfl

/-- The constant of `$x . 1.5` is a string in the optimized code, with the decimal point of the
process that optimized it. -/
theorem zendOptimizer_prints :
    ¬ ∀ (E : ZendConversions) (s t : NumericSettings) (outside : ℤ → ℕ) (fuel level : ℕ)
      (a : ZendNamedOpArray), @zendOptimizer _ (E.under s) outside fuel level a =
        @zendOptimizer _ (E.under t) outside fuel level a := by
  intro h
  have hpoint : (@zendOptimizer _ (decimalEngine.under pointSettings) (fun _ => 0) 5 allPasses
      (echoConcat (.double 0x3ff8000000000000))).map (·.literals.map (·.constant)) =
      some [.double 0x3ff8000000000000, .string [49, 46, 53], .null] := by
    decide +kernel
  have hcomma : (@zendOptimizer _ (decimalEngine.under commaSettings) (fun _ => 0) 5 allPasses
      (echoConcat (.double 0x3ff8000000000000))).map (·.literals.map (·.constant)) =
      some [.double 0x3ff8000000000000, .string [49, 44, 53], .null] := by
    decide +kernel
  rw [h, hcomma] at hpoint
  revert hpoint
  decide

end Tests

end ZendNamedOpArray

end ZendOpcache
