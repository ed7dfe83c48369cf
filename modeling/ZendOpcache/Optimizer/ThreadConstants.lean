import ZendOpcache.Optimizer.ThreadJmpzEx

/-! # Conditions that are constants

A jump with a constant condition becomes a `JMP` or goes. `JMPZ`, `JMPNZ` and `JMPZNZ` free the
literal of the condition, whoever else uses it; the walk finds the same exactly if it does so when
the condition gets a literal of its own before.
-/

namespace ZendOpcache

/-- The first operand is another literal. -/
def ZendOp.ownLiteral (o : ZendOp) (n : ℕ) : ZendOp := { o with op1 := { o.op1 with num := n } }

namespace ZendCfg

variable {c c' c₀ c₁ : ZendCfg} {A : Set ℕ} {b k x X : ℕ} {f g : ZendOp → ZendOp}
  {last o : ZendOp} {ops : List ZendOp} {T lastVar : ℕ}

/-- The constants of all oplines are in the table. -/
def InRange (c : ZendCfg) : Prop :=
  ∀ x ops, (c.blocks x).oplines = some ops → ∀ o ∈ ops, ∀ z ∈ [o.op1, o.op2], z.type = .const →
    z.num < c.literals.length

/-- The condition at the end of the block has a literal of its own, and the one that it had is
freed. -/
def freed (c : ZendCfg) (b : ℕ) (last : ZendOp) : ZendCfg :=
  { c.setLast b (·.ownLiteral c.literals.length) with
    literals := (c.literalDtor last.op1).literals ++ [⟨c.literal last.op1, 0, -1⟩] }

/-- The literal that is freed is not that of another opline. -/
theorem sameConstants_literalDtor {z : Znode} {o : ZendOp}
    (h : ∀ y ∈ [o.op1, o.op2], y.type = .const → y.num ≠ z.num) :
    SameConstants c (c.literalDtor z) o := by
  have hsame : ∀ y ∈ [o.op1, o.op2], (c.literalDtor z).constant y = c.constant y := by
    intro y hy
    by_cases hconst : y.type = .const
    · have hne := (h y hy hconst).symm
      simp [ZendCfg.constant, hconst, literal, literalDtor, hne]
    · simp [ZendCfg.constant, hconst]
  exact ⟨hsame _ (by simp), hsame _ (by simp)⟩

section Freed

variable (h : c.Threads A b k) (hops : (c.blocks b).oplines = some ops)
  (hlast : ops[k]? = some last)

theorem freed_edges : ((c.freed b last).blocks x).edges = (c.blocks x).edges := setLast_edges

theorem freed_blocks_of_ne (hx : x ≠ b) : (c.freed b last).blocks x = c.blocks x := by
  simp [freed, setLast, hx]

theorem rewired_freed : Rewired b (c.freed b last) (c.literalDtor last.op1) := by
  have hsources : ∀ x, ((c.freed b last).blocks x).sources = (c.blocks x).sources := fun x => by
    by_cases hx : x = b
    · subst hx
      simp [freed, setLast]
    · rw [freed_blocks_of_ne hx]
  constructor
  · rfl
  · rfl
  · rfl
  · exact fun x => (setLast_access (c := c)).symm
  · intro x hx
    rw [freed_blocks_of_ne hx]
    rfl
  · intro x hx
    rw [freed_blocks_of_ne hx]
    rfl
  · exact fun x => (rewired_setLast (c := c).isProtected x).symm
  · exact fun x y hy => hsources x ▸ hy
  · exact fun x hx => (hsources x ▸ hx : (c.blocks x).sources.Nodup)

include h hops

theorem freed_oplines : ((c.freed b last).blocks b).oplines =
    some (ops.modify k (·.ownLiteral c.literals.length)) := by
  have hk := h.last ops hops
  simp [freed, setLast, hops, hk]

theorem Threads.freed : (c.freed b last).Threads A b k := by
  refine h.newEnd (f := (·.ownLiteral c.literals.length)) ⟨?_, fun t ht => ?_, fun t ht => ?_⟩
    (fun x hx => ?_) (fun x _ t ht => ?_) fun x => ?_
  · rw [freed_oplines h hops, hops]
    rfl
  · rw [successors_eq_of_edges freed_edges] at ht
    exact h.edge b h.mem t ht
  · rw [followTo_eq_of_edges freed_edges] at ht
    exact h.follow b t ht
  · exact ⟨by rw [freed_blocks_of_ne hx], by rw [freed_blocks_of_ne hx]⟩
  · exact (rewired_setLast (c := c)).sources t ht
  · exact (rewired_setLast (c := c)).nodup x (h.nodup x)

omit h hops in
theorem freed_constant {z : Znode} (hz : z.type = .const → z.num < c.literals.length)
    (hlit : c₀.literals = (c.literalDtor last.op1).literals) :
    c₀.constant z = (c.freed b last).constant z := by
  by_cases hconst : z.type = .const
  · have hlen : z.num < (c.literalDtor last.op1).literals.length := by
      simpa [literalDtor] using hz hconst
    simp [ZendCfg.constant, hconst, literal, hlit, freed, List.getElem?_append_left hlen]
  · simp [ZendCfg.constant, hconst]

/-- The other oplines have the constants that the code leaves them. -/
theorem freed_sameConstants (hrange : c.InRange)
    (hlit : c₀.literals = (c.literalDtor last.op1).literals) :
    ∀ x l i o, ((c.freed b last).blocks x).oplines = some l → l[i]? = some o → (x, i) ≠ (b, k) →
      SameConstants (c.freed b last) c₀ o := by
  intro x l i o hl ho hne
  have hold : ∃ l', (c.blocks x).oplines = some l' ∧ l'[i]? = some o := by
    by_cases hx : x = b
    · subst hx
      rw [freed_oplines h hops] at hl
      obtain rfl := Option.some.inj hl
      have hki : k ≠ i := fun hki => hne (by rw [hki])
      exact ⟨ops, hops, by simpa [hki] using ho⟩
    · rw [freed_blocks_of_ne hx] at hl
      exact ⟨l, hl, ho⟩
  obtain ⟨l', hl', ho'⟩ := hold
  have hin := hrange x l' hl' o (List.mem_of_getElem? ho')
  exact ⟨freed_constant (hin _ (by simp)) hlit, freed_constant (hin _ (by simp)) hlit⟩

end Freed

variable [ZendEngine]

theorem isTrue_of_const {z : Znode} {truth : ZnodeType × ℕ → Bool} (h : z.type = .const) :
    c.isTrue truth z = zendIsTrue (c.literal z) := by
  simp [isTrue, ZendCfg.constant, h]

/-- The condition keeps its value. -/
theorem freed_isTrue {truth : ZnodeType × ℕ → Bool} (hconst : last.op1.type = .const) :
    (c.freed b last).isTrue truth (last.ownLiteral c.literals.length).op1 =
      zendIsTrue (c.literal last.op1) := by
  rw [isTrue_of_const (z := (last.ownLiteral c.literals.length).op1) hconst]
  simp [literal, freed, ZendOp.ownLiteral, literalDtor]

/-- Nothing else is found if no other opline uses the literal of the condition. -/
theorem Threads.agrees_freed (h : c.Threads A b k) (hops : (c.blocks b).oplines = some ops)
    (hlast : ops[k]? = some last) (hjump : last.opcode.jumps = true) (hrange : c.InRange)
    (hconst : last.op1.type = .const)
    (hown : ∀ x l i o, (c.blocks x).oplines = some l → l[i]? = some o → (x, i) ≠ (b, k) →
      ∀ y ∈ [o.op1, o.op2], y.type = .const → y.num ≠ last.op1.num) :
    c.Agrees (c.freed b last) b k := by
  have hk := h.last ops hops
  have hedges : ((c.freed b last).blocks b).edges = (c.blocks b).edges := freed_edges
  intro truth is found
  refine (tracks_of_sameExit (fun x hx => ?_) (fun x l i o hl ho hne => ?_) (fun i hi => ?_)
    fun truth => ?_).trace_iff ⟨rfl, fun _ => le_rfl⟩
  · exact ⟨by rw [freed_blocks_of_ne hx], by rw [freed_blocks_of_ne hx]⟩
  · have hin := hrange x l hl o (List.mem_of_getElem? ho)
    have hsame := sameConstants_literalDtor (c := c) (hown x l i o hl ho hne)
    exact ⟨(freed_constant (hin _ (by simp)) rfl).symm.trans hsame.1,
      (freed_constant (hin _ (by simp)) rfl).symm.trans hsame.2⟩
  · obtain ⟨o, ho⟩ : ∃ o, ops[i]? = some o := ⟨_, List.getElem?_eq_getElem (by omega)⟩
    refine ⟨ops, _, o, hops, freed_oplines h hops, ho, ?_, h.plain ops i o hops hi ho⟩
    have hki : k ≠ i := hi.ne'
    simpa [hki] using ho
  · have hold := exits_jump truth hops hlast hjump
    have hlast' : (ops.modify k (·.ownLiteral c.literals.length))[k]? =
        some (last.ownLiteral c.literals.length) := by simp [hlast]
    have hnew := exits_jump (c := c.freed b last) truth (freed_oplines h hops) hlast' hjump
    have hvalue : (c.freed b last).isTrue truth (last.ownLiteral c.literals.length).op1 =
        c.isTrue truth last.op1 := by
      rw [freed_isTrue hconst, isTrue_of_const hconst]
    have heffect : (c.freed b last).effect (last.ownLiteral c.literals.length) truth =
        c.effect last truth := by
      unfold ZendCfg.effect
      rw [hvalue]
      rfl
    have hto : ((c.freed b last).blocks b).jumpTo (last.ownLiteral c.literals.length).opcode
        (c.isTrue truth last.op1) = (c.blocks b).jumpTo last.opcode (c.isTrue truth last.op1) := by
      obtain ⟨h₁, h₂, h₃, h₄⟩ := edges_eq_iff.mp hedges
      simp only [ZendCodeBlock.jumpTo, h₁, h₂, h₃, h₄]
      rfl
    rw [hvalue, heffect, hto] at hnew
    exact hold.sameExit hnew

section Constant

variable (h : c.Threads A b k) (hops : (c.blocks b).oplines = some ops)
  (hlast : ops[k]? = some last) (hjump : last.opcode.jumps = true) (hr₀ : Rewired b c c₀)
  (hops₀ : (c₀.blocks b).oplines = some (ops.modify k f))
  (hconst : ∀ x ops i o, (c.blocks x).oplines = some ops → ops[i]? = some o →
    (x, i) ≠ (b, k) → SameConstants c c₀ o)
include h hops hlast hjump hr₀ hops₀ hconst

/-- A conditional jump that never jumps is replaced. -/
theorem Threads.neverJumps (hf : (f last).opcode = .nop ∨ (f last).opcode = .qmAssign)
    (hedges₀ : (c₀.blocks b).edges = (c.blocks b).edges)
    (heffect : ∀ truth, c₀.effect (f last) truth = c.effect last truth)
    (hfollow : ∀ truth, (c.blocks b).jumpTo last.opcode (c.isTrue truth last.op1) =
      (c.blocks b).followTo)
    (hdel : carefulDel c₀ b X [(c.blocks b).op1To, (c.blocks b).extTo, (c.blocks b).followTo] [] =
      some c₁) : c.Agrees (c₁.setOp2To b none) b k := by
  have hk := h.last ops hops
  obtain ⟨hsame, -, hlit₁⟩ := h.del hr₀ hdel
  have hb₁ := edges_eq_iff.mp (hsame.edges.trans hedges₀)
  have hops' : ((c₁.setOp2To b none).blocks b).oplines = some (ops.modify k f) := by
    simp only [setOp2To, modify_blocks_self, hsame.oplines, hops₀]
  have he : ((c₁.setOp2To b none).blocks b).op2To = none ∧
      ((c₁.setOp2To b none).blocks b).op1To = (c.blocks b).op1To ∧
      ((c₁.setOp2To b none).blocks b).extTo = (c.blocks b).extTo ∧
      ((c₁.setOp2To b none).blocks b).followTo = (c.blocks b).followTo := by
    simp [setOp2To, hb₁]
  suffices hkeep : c.Agrees (c₁.setOp2To b none) b k ∧ ∃ A' ⊆ A,
      (c₁.setOp2To b none).Threads A' b k from hkeep.1
  refine h.rewrite hr₀ hdel (rewired_setOp2To none) rfl (by rw [hops', hops]; rfl) (fun z hz => ?_)
    (fun z hz => ?_) hconst fun truth => ?_
  · rw [mem_edges, he.1, he.2.1, he.2.2.1, he.2.2.2] at hz
    rcases hz with hz | hz | hz | hz
    · exact ⟨h.edge_mem h.mem (mem_edges.mpr (.inl hz)), by simp [hz]⟩
    · cases hz
    · exact ⟨h.edge_mem h.mem (mem_edges.mpr (.inr (.inr (.inl hz)))), by simp [hz]⟩
    · exact ⟨h.edge_mem h.mem (mem_edges.mpr (.inr (.inr (.inr hz)))), by simp [hz]⟩
  · exact h.follow b z (he.2.2.2 ▸ hz)
  · have hold := exits_jump truth hops hlast hjump
    have hlast' : (ops.modify k f)[k]? = some (f last) := by simp [hlast]
    have hnew := exits_passed (c := c.graft (c₁.setOp2To b none) b) truth
      (by rw [graft_blocks_self, hops']) hlast' (by simpa using hk) hf
    rw [graft_blocks_self, he.2.2.2] at hnew
    rw [hfollow truth, ← heffect] at hold
    have hsameConstants : SameConstants c₀ (c.graft (c₁.setOp2To b none) b) (f last) :=
      .of_literals hlit₁
    rw [hsameConstants.effect] at hnew
    exact hold.sameExit hnew

/-- A conditional jump that always jumps becomes a `JMP`. -/
theorem Threads.alwaysJumps (hf : (f last).opcode = .jmp) (hsets : last.opcode.setsTruth = false)
    (he₀ : (c₀.blocks b).op1To = (c.blocks b).op2To ∧ (c₀.blocks b).extTo = (c.blocks b).extTo)
    (htakes : ∀ truth, takesOp2 last.opcode (c.isTrue truth last.op1) = true)
    (hdel : carefulDel c₀ b X [(c.blocks b).op2To, (c.blocks b).extTo] [] = some c₁) :
    c.Agrees ((c₁.setOp2To b none).setFollowTo b none) b k := by
  have hk := h.last ops hops
  obtain ⟨hsame, -, hlit₁⟩ := h.del hr₀ hdel
  have hb₁ := edges_eq_iff.mp hsame.edges
  generalize hc' : (c₁.setOp2To b none).setFollowTo b none = c'
  have hr : Rewired b c₁ c' := by
    rw [← hc']
    exact (rewired_setOp2To _).trans (rewired_setFollowTo _)
  have he : (c'.blocks b).op1To = (c.blocks b).op2To ∧ (c'.blocks b).op2To = none ∧
      (c'.blocks b).extTo = (c.blocks b).extTo ∧ (c'.blocks b).followTo = none ∧
      (c'.blocks b).oplines = some (ops.modify k f) := by
    rw [← hc']
    simp [setOp2To, setFollowTo, hb₁, he₀, hsame.oplines, hops₀]
  suffices hkeep : c.Agrees c' b k ∧ ∃ A' ⊆ A, c'.Threads A' b k from hkeep.1
  refine h.rewrite hr₀ hdel hr (by rw [← hc']; rfl) (by rw [he.2.2.2.2, hops]; rfl) (fun z hz => ?_)
    (fun z hz => ?_) hconst fun truth => ?_
  · rw [mem_edges, he.1, he.2.1, he.2.2.1, he.2.2.2.1] at hz
    rcases hz with hz | hz | hz | hz
    · exact ⟨h.edge_mem h.mem (mem_edges.mpr (.inr (.inl hz))), by simp [hz]⟩
    · cases hz
    · exact ⟨h.edge_mem h.mem (mem_edges.mpr (.inr (.inr (.inl hz)))), by simp [hz]⟩
    · cases hz
  · rw [he.2.2.2.1] at hz
    cases hz
  · have hold := exits_jump truth hops hlast hjump
    have hnew := exits_graft (c := c) truth he.2.2.2.2
      (by rw [List.getElem?_modify_eq, hlast]; rfl : _ = some (f last)) (by rw [hf]; rfl)
    have hto : (c'.blocks b).jumpTo (f last).opcode (c'.isTrue truth (f last).op1) =
        (c.blocks b).op2To := by
      rw [hf, ← he.1]
      rfl
    rw [effect_of_not (by rw [hf]; rfl), hto] at hnew
    rw [jumpTo_of_takesOp2 (htakes truth), effect_of_not hsets] at hold
    exact hold.sameExit hnew

/-- `JMPZNZ` with a constant becomes a `JMP`. -/
theorem Threads.constJmpznz {target : Option ℕ} (hf : (f last).opcode = .jmp)
    (hsets : last.opcode.setsTruth = false)
    (he₀ : (c₀.blocks b).edges = [target, none, none, (c.blocks b).followTo])
    (hedge : target ∈ (c.blocks b).edges)
    (hto : ∀ truth, (c.blocks b).jumpTo last.opcode (c.isTrue truth last.op1) = target)
    (hdel : carefulDel c₀ b X [target, (c.blocks b).followTo] [] = some c') : c.Agrees c' b k := by
  have hk := h.last ops hops
  obtain ⟨hsame, -, hlit₁⟩ := h.del hr₀ hdel
  have he : (c'.blocks b).edges = [target, none, none, (c.blocks b).followTo] :=
    hsame.edges.trans he₀
  have hops' : (c'.blocks b).oplines = some (ops.modify k f) := hsame.oplines.trans hops₀
  suffices hkeep : c.Agrees c' b k ∧ ∃ A' ⊆ A, c'.Threads A' b k from hkeep.1
  simp only [ZendCodeBlock.edges, List.cons.injEq, and_true] at he
  refine h.rewrite hr₀ hdel (.refl b c') rfl (by rw [hops', hops]; rfl) (fun z hz => ?_)
    (fun z hz => ?_) hconst fun truth => ?_
  · rw [mem_edges, he.1, he.2.1, he.2.2.1, he.2.2.2] at hz
    rcases hz with hz | hz | hz | hz
    · exact ⟨h.edge_mem h.mem (hz ▸ hedge), by simp [hz]⟩
    · cases hz
    · cases hz
    · exact ⟨h.edge_mem h.mem (mem_edges.mpr (.inr (.inr (.inr hz)))), by simp [hz]⟩
  · exact h.follow b z (he.2.2.2 ▸ hz)
  · have hold := exits_jump truth hops hlast hjump
    have hnew := exits_graft (c := c) truth hops'
      (by rw [List.getElem?_modify_eq, hlast]; rfl : _ = some (f last)) (by rw [hf]; rfl)
    have hto' : (c'.blocks b).jumpTo (f last).opcode (c'.isTrue truth (f last).op1) = target := by
      rw [hf, ← he.1]
      rfl
    rw [effect_of_not (by rw [hf]; rfl), hto'] at hnew
    rw [hto, effect_of_not hsets] at hold
    exact hold.sameExit hnew

end Constant

/-- What the code gets wrong cannot be told from what is found: the test that it mistakes, and the
literal that it frees. -/
structure FaultsHarmless (c : ZendCfg) (b k T lastVar : ℕ) (last : ZendOp) : Prop where
  mistakes : c.MistakesHarmless b k T lastVar last
  frees : last.opcode = .jmpz ∨ last.opcode = .jmpnz ∨ last.opcode = .jmpznz →
    last.op1.type = .const → c.Agrees (c.freed b last) b k

theorem FaultsHarmless.of_opcode (h : last.opcode ≠ .jmpz ∧ last.opcode ≠ .jmpnz ∧
    last.opcode ≠ .jmpznz ∧ last.opcode ≠ .jmpzEx ∧ last.opcode ≠ .jmpnzEx) :
    c.FaultsHarmless b k T lastVar last := by
  obtain ⟨hz, hnz, hznz, hzEx, hnzEx⟩ := h
  constructor
  · refine .of_none fun t target o hm => ?_
    cases hm with
    | number hop => exact hznz hop
    | result hop => exact hop.elim hz hnz
    | kinds hop => exact hop.elim hzEx hnzEx
  · rintro (hop | hop | hop) _
    · exact absurd hop hz
    · exact absurd hop hnz
    · exact absurd hop hznz

omit [ZendEngine] in
theorem modify_modify_of_getElem? (hlast : ops[k]? = some last) :
    (ops.modify k f).modify k (fun _ => g last) = ops.modify k g := by
  ext1 i
  by_cases hi : k = i
  · subst hi
    simp [hlast]
  · simp [hi]

/-- With a constant condition it is the freed literal only that can be told. -/
theorem faultsHarmless_of_const (hconst : last.op1.type = .const)
    (hop : last.opcode = .jmpz ∨ last.opcode = .jmpnz ∨ last.opcode = .jmpznz)
    (hagree : (c.freed b last).Agrees c' b k) :
    c.Agrees c' b k ↔ c.FaultsHarmless b k T lastVar last := by
  rw [hagree.iff_of_right]
  refine ⟨fun h => ⟨.of_none fun t target o hm => hm.ne_const hconst, fun _ _ => h⟩, ?_⟩
  exact fun h => h.frees hop hconst

theorem faultsHarmless_of_ne (hconst : last.op1.type ≠ .const) :
    c.FaultsHarmless b k T lastVar last ↔ c.MistakesHarmless b k T lastVar last :=
  ⟨fun h => h.mistakes, fun h => ⟨h, fun _ hc => absurd hc hconst⟩⟩

omit [ZendEngine] in
theorem becomesJmp_oplines {e : Option ℕ} (hops : (c.blocks b).oplines = some ops)
    (hk : ops.length = k + 1) : ((c.becomesJmp b e).blocks b).oplines = some (ops.modify k fun o =>
      { o with opcode := .jmp, op1 := o.op1.setUnused, op2 := o.op2.setUnused }) := by
  simp [becomesJmp, setOp1To, setOp2To, setExtTo, setLast, hops, hk]

section Literal

variable (h : c.Threads A b k) (hops : (c.blocks b).oplines = some ops)
  (hlast : ops[k]? = some last) (hrange : c.InRange) (hconst : last.op1.type = .const)
include h hops hlast hrange hconst

omit [ZendEngine] h hops hrange hconst in
theorem getElem?_ownLiteral : (ops.modify k (·.ownLiteral c.literals.length))[k]? =
    some (last.ownLiteral c.literals.length) := by simp [hlast]

/-- `JMPZ` or `JMPNZ` with a constant that always jumps -/
theorem Threads.freed_alwaysJumps (hop : last.opcode = .jmpz ∨ last.opcode = .jmpnz)
    (hv : (zendIsTrue (c.literal last.op1) != (last.opcode == .jmpz)) = true)
    (hstep : ZendCfg.alwaysJumps carefulDel c b last = some c') :
    (c.freed b last).Agrees c' b k := by
  have hk := h.last ops hops
  have hjump : last.opcode.jumps = true ∧ last.opcode.setsTruth = false := by
    rcases hop with hop | hop <;> simp [hop, ZendOpcode.jumps, ZendOpcode.setsTruth]
  have hedges : ((c.freed b last).blocks b).edges = (c.blocks b).edges := freed_edges
  have he := edges_eq_iff.mp hedges
  simp only [ZendCfg.alwaysJumps, Option.bind_eq_bind, Option.bind_eq_some_iff] at hstep
  obtain ⟨X, hX, c₁, hdel, hstep⟩ := hstep
  obtain rfl := Option.some.inj hstep
  generalize hc₀ : ((c.literalDtor last.op1).setLast b _).setOp1To b _ = c₀ at hdel
  rw [← he.2.1, ← he.2.2.1] at hdel
  have hr₀ : Rewired b (c.freed b last) c₀ := by
    rw [← hc₀]
    exact (rewired_freed.trans rewired_setLast).trans (rewired_setOp1To _)
  refine (h.freed hops).alwaysJumps (f := fun _ => { last with opcode := .jmp, op1 := last.op2 })
    (freed_oplines h hops) (getElem?_ownLiteral hlast) hjump.1 hr₀ ?_
    (freed_sameConstants h hops hrange (by rw [← hc₀]; rfl)) rfl hjump.2 ?_ (fun truth => ?_) hdel
  · rw [modify_modify_of_getElem? (g := fun o => { o with opcode := .jmp, op1 := o.op2 }) hlast]
    simp [← hc₀, setOp1To, setLast, literalDtor, hops, hk]
  · simp [← hc₀, setOp1To, setLast, literalDtor, he]
  · rw [freed_isTrue hconst]
    have hne : (ZendOpcode.jmpnz == .jmpz) = false := rfl
    rcases hop with hop | hop <;> simpa [hop, takesOp2, hne, ZendOp.ownLiteral] using hv

/-- `JMPZ` or `JMPNZ` with a constant that never jumps -/
theorem Threads.freed_neverJumps (hop : last.opcode = .jmpz ∨ last.opcode = .jmpnz)
    (hv : ¬(zendIsTrue (c.literal last.op1) != (last.opcode == .jmpz)) = true)
    (hstep : ZendCfg.neverJumps carefulDel (c.literalDtor last.op1) b .makeNop = some c') :
    (c.freed b last).Agrees c' b k := by
  have hk := h.last ops hops
  have hjump : last.opcode.jumps = true ∧ last.opcode.setsTruth = false := by
    rcases hop with hop | hop <;> simp [hop, ZendOpcode.jumps, ZendOpcode.setsTruth]
  have hedges : ((c.freed b last).blocks b).edges = (c.blocks b).edges := freed_edges
  have he := edges_eq_iff.mp hedges
  simp only [ZendCfg.neverJumps, Option.bind_eq_bind, Option.bind_eq_some_iff] at hstep
  obtain ⟨X, hX, c₁, hdel, hstep⟩ := hstep
  obtain rfl := Option.some.inj hstep
  generalize hc₀ : (c.literalDtor last.op1).setLast b _ = c₀ at hdel
  have hdel' : carefulDel c₀ b X [((c.freed b last).blocks b).op1To,
      ((c.freed b last).blocks b).extTo, ((c.freed b last).blocks b).followTo] [] = some c₁ := by
    rw [he.1, he.2.2.1, he.2.2.2]
    exact hdel
  have hr₀ : Rewired b (c.freed b last) c₀ := by
    rw [← hc₀]
    exact rewired_freed.trans rewired_setLast
  refine (h.freed hops).neverJumps (f := fun _ => last.makeNop) (freed_oplines h hops)
    (getElem?_ownLiteral hlast) hjump.1 hr₀ ?_
    (freed_sameConstants h hops hrange (by rw [← hc₀]; rfl)) (.inl rfl) ?_ (fun truth => ?_)
    (fun truth => ?_) hdel'
  · rw [modify_modify_of_getElem? (g := ZendOp.makeNop) hlast]
    simp [← hc₀, setLast, literalDtor, hops, hk]
  · rw [← hc₀, setLast_edges, freed_edges]
    rfl
  · rw [effect_of_not rfl, effect_of_not (o := last.ownLiteral c.literals.length) hjump.2]
  · rw [freed_isTrue hconst]
    rcases hop with hop | hop <;> simp [hop] at hv <;>
      simp [hop, hv, ZendCodeBlock.jumpTo, ZendOp.ownLiteral]

/-- `JMPZNZ` with a constant -/
theorem Threads.freed_constJmpznz {target : Option ℕ} (hop : last.opcode = .jmpznz)
    (hedge : target ∈ (c.blocks b).edges)
    (hto : (c.blocks b).jumpTo .jmpznz (zendIsTrue (c.literal last.op1)) = target)
    (hdel : carefulDel ((c.literalDtor last.op1).becomesJmp b target) b X
      [target, (c.blocks b).followTo] [] = some c') : (c.freed b last).Agrees c' b k := by
  have hjump : last.opcode.jumps = true ∧ last.opcode.setsTruth = false := by
    simp [hop, ZendOpcode.jumps, ZendOpcode.setsTruth]
  have hedges : ((c.freed b last).blocks b).edges = (c.blocks b).edges := freed_edges
  have he := edges_eq_iff.mp hedges
  let g : ZendOp → ZendOp := fun o =>
    { o with opcode := .jmp, op1 := o.op1.setUnused, op2 := o.op2.setUnused }
  refine (h.freed hops).constJmpznz (f := fun _ => g last) (freed_oplines h hops)
    (getElem?_ownLiteral hlast) hjump.1 (rewired_freed.trans (rewired_becomesJmp _ _)) ?_
    (freed_sameConstants h hops hrange rfl) rfl hjump.2 ?_ (freed_edges ▸ hedge)
    (fun truth => ?_) (he.2.2.2 ▸ hdel)
  · rw [modify_modify_of_getElem? (g := g) hlast]
    exact becomesJmp_oplines (c := c.literalDtor last.op1) hops (h.last ops hops)
  · rw [becomesJmp_edges, he.2.2.2]
    rfl
  · rw [freed_isTrue hconst, ← hto]
    have hop' : (last.ownLiteral c.literals.length).opcode = .jmpznz := hop
    simp only [hop', ZendCodeBlock.jumpTo, he]

end Literal

section Conditional

variable (h : c.Threads A b k) (hops : (c.blocks b).oplines = some ops)
  (hlast : ops[k]? = some last) (hrange : c.InRange)
  (hedges : ∀ v, (c.blocks b).jumpTo last.opcode v ≠ none)
include h hops hlast hrange hedges

/-- `JMPZ` and `JMPNZ` -/
theorem Threads.optimizeJmpz (hop : last.opcode = .jmpz ∨ last.opcode = .jmpnz)
    (hstep : ZendCfg.optimizeJmpz carefulDel c b last = some c') :
    c.Agrees c' b k ↔ c.FaultsHarmless b k T lastVar last := by
  unfold ZendCfg.optimizeJmpz at hstep
  by_cases hconst : last.op1.type = .const
  · rw [if_pos hconst] at hstep
    refine faultsHarmless_of_const hconst (hop.imp_right .inl) ?_
    split_ifs at hstep with hv
    · exact h.freed_alwaysJumps hops hlast hrange hconst hop hv hstep
    · exact h.freed_neverJumps hops hlast hrange hconst hop hv hstep
  · rw [if_neg hconst] at hstep
    rw [faultsHarmless_of_ne hconst]
    obtain ⟨⟨c₁, op⟩, hthread, hstep⟩ := Option.bind_eq_some_iff.mp hstep
    by_cases hm : ∃ t target o, c.Mistaken b T lastVar last t target o
    · obtain ⟨t, target, o, hm⟩ := hm
      obtain ⟨rfl, hagree⟩ := h.threadJmpz_mistaken hops hlast hop hm hedges hthread
      rw [← hagree]
      have hcond : ¬(last.opcode.withResult = .jmpz ∨ last.opcode.withResult = .jmpnz) := by
        rcases hop with hop | hop <;> simp [hop, ZendOpcode.withResult]
      simp only [ZendCfg.followJmpz, hcond, and_false, if_false, Option.some.injEq] at hstep
      rw [hstep]
    · have hnone : ∀ t target o, ¬c.Mistaken b T lastVar last t target o :=
        fun t target o hm' => hm ⟨t, target, o, hm'⟩
      refine iff_of_true ?_ (.of_none hnone)
      obtain ⟨hagree, ⟨A₁, -, h₁⟩, ops₁, last₁, hops₁, hlast₁, hop₁⟩ :=
        h.threadJmpz hops hlast hop hnone hthread
      refine hagree.trans ?_
      by_cases hcond : op = .jmpz ∨ op = .jmpnz
      · subst hop₁
        exact h₁.followJmpz hops₁ hlast₁ hcond hstep
      · simp only [ZendCfg.followJmpz, hcond, and_false, if_false, Option.some.injEq] at hstep
        exact hstep ▸ .refl _ _ _

omit hrange in
/-- `JMPZ_EX` and `JMPNZ_EX` -/
theorem Threads.optimizeJmpzEx (hop : last.opcode = .jmpzEx ∨ last.opcode = .jmpnzEx)
    (hstep : ZendCfg.optimizeJmpzEx carefulDel T lastVar c b last = some c') :
    c.Agrees c' b k ↔ c.FaultsHarmless b k T lastVar last := by
  have hlastJump : last.opcode.jumps = true ∧ last.opcode.setsTruth = true := by
    rcases hop with hop | hop <;> simp [hop, ZendOpcode.jumps, ZendOpcode.setsTruth]
  by_cases hconst : last.op1.type = .const
  · unfold ZendCfg.optimizeJmpzEx at hstep
    have hnone : c.FaultsHarmless b k T lastVar last := by
      refine ⟨.of_none fun t target o hm => hm.ne_const hconst, fun hop' => ?_⟩
      rcases hop with hop | hop <;> simp [hop] at hop'
    refine iff_of_true ?_ hnone
    rw [if_pos hconst] at hstep
    split_ifs at hstep with hv
    · exact Option.some.inj hstep ▸ .refl _ _ _
    · have hk := h.last ops hops
      simp only [ZendCfg.neverJumps, Option.bind_eq_bind, Option.bind_eq_some_iff] at hstep
      obtain ⟨X, hX, c₁, hdel, hstep⟩ := hstep
      obtain rfl := Option.some.inj hstep
      refine h.neverJumps (f := fun o => { o with opcode := .qmAssign, op2 := o.op2.setUnused })
        hops hlast hlastJump.1 rewired_setLast ?_ (fun _ _ _ _ _ _ _ => .of_literals rfl) (.inr rfl)
        setLast_edges (fun truth => ?_) (fun truth => ?_) hdel
      · simp [setLast, hops, hk]
      · exact (effect_of_sets rfl).trans (effect_of_sets hlastJump.2).symm
      · rw [isTrue_of_const hconst]
        have hne : (ZendOpcode.jmpnzEx == .jmpzEx) = false := rfl
        rcases hop with hop | hop <;> simp [hop, hne] at hv <;> simp [hop, hv, ZendCodeBlock.jumpTo]
  · rw [faultsHarmless_of_ne hconst]
    exact h.threadJmpzEx hops hlast hedges hop hconst hstep

omit hrange hedges in
/-- The last opline of the block is rewritten without a deletion. -/
theorem Threads.agrees_of_edges (hjump : last.opcode.jumps = true)
    (hcode : ∀ x ≠ b, SameCode c c' x) (hlit : c'.literals = c.literals)
    (hops' : (c'.blocks b).oplines = some (ops.modify k g)) (hg : (g last).opcode.jumps = true)
    (hto : ∀ truth, (c'.blocks b).jumpTo (g last).opcode (c.isTrue truth (g last).op1) =
      (c.blocks b).jumpTo last.opcode (c.isTrue truth last.op1))
    (heffect : ∀ truth, c.effect (g last) truth = c.effect last truth) : c.Agrees c' b k := by
  refine h.agrees (f := g) hcode (by rw [hops', hops]; rfl)
    (fun x ops i o _ _ _ => .of_literals hlit) fun truth => ?_
  have hold := exits_jump truth hops hlast hjump
  have hnew := exits_jump (c := c') truth hops'
    (by rw [List.getElem?_modify_eq, hlast]; rfl : _ = some (g last)) hg
  have hsame : SameConstants c c' (g last) := .of_literals hlit
  rw [hsame.isTrue, hsame.effect, hto, heffect] at hnew
  exact hold.sameExit hnew

/-- `JMPZNZ` -/
theorem Threads.optimizeJmpznz (hop : last.opcode = .jmpznz)
    (hstep : ZendCfg.optimizeJmpznz carefulDel c b last = some c') :
    c.Agrees c' b k ↔ c.FaultsHarmless b k T lastVar last := by
  have hlastJump : last.opcode.jumps = true := by simp [hop, ZendOpcode.jumps]
  have hsets : last.opcode.setsTruth = false := by simp [hop, ZendOpcode.setsTruth]
  have heffect : ∀ o : ZendOp, o.opcode.setsTruth = false → ∀ truth,
      c.effect o truth = c.effect last truth := fun o ho truth => by
    rw [effect_of_not ho, effect_of_not hsets]
  have hk := h.last ops hops
  unfold ZendCfg.optimizeJmpznz at hstep
  by_cases hconst : last.op1.type = .const
  · simp only [hconst, if_true] at hstep
    refine faultsHarmless_of_const hconst (.inr (.inr hop)) ?_
    cases hv : zendIsTrue (c.literal last.op1) <;>
      simp only [hv, if_true, if_false, Bool.false_eq_true, Option.bind_eq_bind,
        Option.bind_eq_some_iff] at hstep <;> obtain ⟨X, hX, hdel⟩ := hstep
    · refine h.freed_constJmpznz hops hlast hrange hconst hop ?_ (by rw [hv]; rfl) hdel
      simp [ZendCodeBlock.edges]
    · refine h.freed_constJmpznz hops hlast hrange hconst hop ?_ (by rw [hv]; rfl) hdel
      simp [ZendCodeBlock.edges]
  rw [faultsHarmless_of_ne hconst]
  simp only [hconst, if_false] at hstep
  have hnone : (c.blocks b).op2To = (c.blocks b).extTo ∨ (c.blocks b).op2To = c.nextAccess b ∨
      (c.blocks b).extTo = c.nextAccess b → c.MistakesHarmless b k T lastVar last := by
    intro hnext
    refine .of_none fun t target o hm => ?_
    cases hm with
    | number _ hext hnext₂ hnext₃ =>
      rcases hnext with heq | heq | heq
      · exact hext heq
      · exact hnext₂ heq
      · exact hnext₃ heq
    | result hop' => simp [hop] at hop'
    | kinds hop' => simp [hop] at hop'
  split_ifs at hstep with hext hnext₂ hnext₃
  · -- the same target in both cases
    obtain rfl := Option.some.inj hstep
    refine iff_of_true ?_ (hnone (.inl hext))
    refine h.agrees_of_edges hops hlast hlastJump (fun x hx => (rewired_becomesJmp c _).sameCode hx)
      rfl (becomesJmp_oplines hops hk) rfl (fun truth => ?_) (heffect _ rfl)
    rw [hop]
    cases c.isTrue truth last.op1 <;>
      simp [becomesJmp, setOp1To, setOp2To, setExtTo, ZendCodeBlock.jumpTo, hext]
  · -- on false to the next block
    obtain rfl := Option.some.inj hstep
    refine iff_of_true ?_ (hnone (.inr (.inl hnext₂)))
    refine h.agrees_of_edges (g := ({ · with opcode := .jmpnz })) hops hlast hlastJump
      (fun x hx => ?_) rfl ?_ rfl (fun truth => ?_) (heffect _ rfl)
    · exact (((rewired_setLast.trans (rewired_setOp2To _)).trans (rewired_setFollowTo _)).trans
        (rewired_setExtTo _)).sameCode hx
    · simp [setOp2To, setFollowTo, setExtTo, setLast, hops, hk]
    · rw [hop]
      cases c.isTrue truth last.op1 <;>
        simp [setOp2To, setFollowTo, setExtTo, setLast, ZendCodeBlock.jumpTo, hnext₂]
  · -- on true to the next block
    obtain rfl := Option.some.inj hstep
    refine iff_of_true ?_ (hnone (.inr (.inr hnext₃)))
    refine h.agrees_of_edges (g := ({ · with opcode := .jmpz })) hops hlast hlastJump
      (fun x hx => ?_) rfl ?_ rfl (fun truth => ?_) (heffect _ rfl)
    · exact ((rewired_setLast.trans (rewired_setFollowTo _)).trans (rewired_setExtTo _)).sameCode hx
    · simp [setFollowTo, setExtTo, setLast, hops, hk]
    · rw [hop]
      cases c.isTrue truth last.op1 <;>
        simp [setFollowTo, setExtTo, setLast, ZendCodeBlock.jumpTo, hnext₃]
  · exact h.threadJmpznz hops hlast hedges hop hext hnext₂ hnext₃ hstep

end Conditional

end ZendCfg

end ZendOpcache
