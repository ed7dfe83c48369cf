import ZendOpcache.Optimizer.ThreadConstants

/-! # Threading a jump

A `JMP` to a jump takes over that jump with its edges, and a `JMP` to an opline that leaves the code
takes over the opline. A `JMP` to the next block goes.
-/

namespace ZendOpcache

namespace ZendCfg

variable {c c' c₁ c₂ : ZendCfg} {A : Set ℕ} {b k t X : ℕ} {last target : ZendOp}
  {ops : List ZendOp} {T lastVar : ℕ} [ZendEngine]

section Jmp

omit [ZendEngine] in
theorem takeEdge_op2To_frame (c : ZendCfg) (b t : ℕ) :
    Rewired b c (c.takeEdge b t (·.op2To) setOp2To) ∧
      (c.takeEdge b t (·.op2To) setOp2To).literals = c.literals ∧
      ((c.takeEdge b t (·.op2To) setOp2To).blocks b).oplines = (c.blocks b).oplines ∧
      ((c.takeEdge b t (·.op2To) setOp2To).blocks b).edges = [(c.blocks b).op1To,
        (c.blocks t).op2To <|> (c.blocks b).op2To, (c.blocks b).extTo, (c.blocks b).followTo] := by
  cases ht : (c.blocks t).op2To with
  | none =>
    rw [show c.takeEdge b t (·.op2To) setOp2To = c by simp [takeEdge, ht]]
    exact ⟨.refl b c, rfl, rfl, by simp [ZendCodeBlock.edges]⟩
  | some e =>
    rw [show c.takeEdge b t (·.op2To) setOp2To = (c.setOp2To b (some e)).addSource b e by
      simp [takeEdge, ht]]
    refine ⟨(rewired_setOp2To _).trans (Rewired.addSource b e _), rfl, ?_, ?_⟩
    · rw [addSource_oplines]
      simp [setOp2To]
    · rw [addSource_edges]
      simp [setOp2To, ZendCodeBlock.edges]

omit [ZendEngine] in
theorem takeEdge_extTo_frame (c : ZendCfg) (b t : ℕ) :
    Rewired b c (c.takeEdge b t (·.extTo) setExtTo) ∧
      (c.takeEdge b t (·.extTo) setExtTo).literals = c.literals ∧
      ((c.takeEdge b t (·.extTo) setExtTo).blocks b).oplines = (c.blocks b).oplines ∧
      ((c.takeEdge b t (·.extTo) setExtTo).blocks b).edges = [(c.blocks b).op1To,
        (c.blocks b).op2To, (c.blocks t).extTo <|> (c.blocks b).extTo, (c.blocks b).followTo] := by
  cases ht : (c.blocks t).extTo with
  | none =>
    rw [show c.takeEdge b t (·.extTo) setExtTo = c by simp [takeEdge, ht]]
    exact ⟨.refl b c, rfl, rfl, by simp [ZendCodeBlock.edges]⟩
  | some e =>
    rw [show c.takeEdge b t (·.extTo) setExtTo = (c.setExtTo b (some e)).addSource b e by
      simp [takeEdge, ht]]
    refine ⟨(rewired_setExtTo _).trans (Rewired.addSource b e _), rfl, ?_, ?_⟩
    · rw [addSource_oplines]
      simp [setExtTo]
    · rw [addSource_edges]
      simp [setExtTo, ZendCodeBlock.edges]

omit [ZendEngine] in
/-- The edges that a jump to a jump takes over -/
theorem takeEdges_frame (hXb : X ≠ b)
    (hc₂ : c₂ = (c₁.takeEdge b X (·.op2To) setOp2To).takeEdge b X (·.extTo) setExtTo)
    (hc' : Rewired b c₂ c' ∧ c'.literals = c₂.literals ∧
      (c'.blocks b).oplines = (c₂.blocks b).oplines ∧ (c'.blocks b).edges = [(c₂.blocks X).op1To,
        (c₂.blocks b).op2To, (c₂.blocks b).extTo, (c₂.blocks b).followTo]) :
    Rewired b c₁ c' ∧ c'.literals = c₁.literals ∧ (c'.blocks b).oplines = (c₁.blocks b).oplines ∧
      (c'.blocks b).edges = [(c₁.blocks X).op1To, (c₁.blocks X).op2To <|> (c₁.blocks b).op2To,
        (c₁.blocks X).extTo <|> (c₁.blocks b).extTo, (c₁.blocks b).followTo] := by
  obtain ⟨hr₁, hlit₂, hops₂, he₂⟩ := takeEdge_op2To_frame c₁ b X
  obtain ⟨hr₂, hlit₃, hops₃, he₃⟩ := takeEdge_extTo_frame (c₁.takeEdge b X (·.op2To) setOp2To) b X
  rw [← hc₂] at hr₂ hlit₃ hops₃ he₃
  obtain ⟨hr₃, hlit₄, hops₄, he₄⟩ := hc'
  have hX₂ := hr₁.edges X hXb
  have hX₃ := (hr₂.edges X hXb).trans hX₂
  simp only [ZendCodeBlock.edges, List.cons.injEq, and_true] at he₂ he₃ he₄ hX₂ hX₃
  refine ⟨(hr₁.trans hr₂).trans hr₃, by rw [hlit₄, hlit₃, hlit₂], by rw [hops₄, hops₃, hops₂], ?_⟩
  simp only [ZendCodeBlock.edges, List.cons.injEq, and_true]
  refine ⟨he₄.1.trans hX₃.1, ?_, ?_, ?_⟩
  · rw [he₄.2.1, he₃.2.1, he₂.2.1]
  · rw [he₄.2.2.1, he₃.2.2.1, he₂.2.2.1, hX₂.2.2.1]
  · rw [he₄.2.2.2, he₃.2.2.2, he₂.2.2.2]

/-- A copied operand has the truth value of the operand. -/
theorem isTrue_copy {z z' : Znode} {truth : ZnodeType × ℕ → Bool} (htype : z'.type = z.type)
    (hvar : z'.type ≠ .const → z'.var = z.var) (hcopy : c'.constant z' = c.constant z) :
    c'.isTrue truth z' = c.isTrue truth z := by
  rw [isTrue, isTrue, hcopy]
  by_cases hconst : z'.type = .const
  · simp [ZendCfg.constant, htype ▸ hconst]
  · rw [hvar hconst]

omit [ZendEngine] in
/-- The copy of an opline has the constants of the opline, and the others keep theirs. -/
theorem copyLast_frame (hrange : c.InRange) (hops : (c.blocks b).oplines = some ops)
    (hk : ops.length = k + 1) {l : List ZendOp} (hl : (c.blocks t).oplines = some l)
    (ht : target ∈ l) : ∃ o, Rewired b c (c.copyLast b target) ∧
      ((c.copyLast b target).blocks b).oplines = some (ops.modify k fun _ => o) ∧
      (∀ x, ((c.copyLast b target).blocks x).edges = (c.blocks x).edges) ∧
      (∀ x l' i o', (c.blocks x).oplines = some l' → l'[i]? = some o' → (x, i) ≠ (b, k) →
        SameConstants c (c.copyLast b target) o') ∧
      o.opcode = target.opcode ∧ o.op1.type = target.op1.type ∧
      (o.op1.type ≠ .const → o.op1.var = target.op1.var) ∧
      (c.copyLast b target).constant o.op1 = c.constant target.op1 ∧
      (c.copyLast b target).found o = c.found target := by
  have hlit : ∀ (z : Znode) (v : ZendLiteral), (z.type = .const → z.num < c.literals.length) →
      ({ c with literals := c.literals ++ [v] } : ZendCfg).constant z = c.constant z := by
    intro z v hz
    by_cases hconst : z.type = .const
    · simp [ZendCfg.constant, hconst, literal, List.getElem?_append_left (hz hconst)]
    · simp [ZendCfg.constant, hconst]
  unfold copyLast
  split_ifs with hconst
  · refine ⟨{ target with op1 := { target.op1 with num := c.literals.length } },
      rewired_setLast.trans (Rewired.literals b _ _), ?_, fun x => setLast_edges,
      fun x l' i o' hl' ho' _ => ?_, rfl, rfl, fun hne => absurd hconst hne, ?_, ?_⟩
    · simp [setLast, hops, hk]
    · have hin := hrange x l' hl' o' (List.mem_of_getElem? ho')
      exact ⟨hlit _ _ (hin _ (by simp)), hlit _ _ (hin _ (by simp))⟩
    · simp [ZendCfg.constant, hconst, literal]
    · have hin := hlit target.op2 ⟨c.literal target.op1, 0, -1⟩
        (hrange t l hl target ht _ (by simp))
      have hop2 : ∀ ls, ({ (c.setLast b fun _ => { target with
          op1 := { target.op1 with num := c.literals.length } }) with literals := ls } :
          ZendCfg).constant target.op2 = ({ c with literals := ls } :
            ZendCfg).constant target.op2 :=
        fun _ => rfl
      simp only [found, Option.some.injEq, Prod.mk.injEq]
      refine ⟨by simp [Znode.blank, hconst], by simp [ZendCfg.constant, hconst, literal], ?_⟩
      rw [hop2, hin]
  · refine ⟨target, rewired_setLast, ?_, fun x => setLast_edges,
      fun _ _ _ _ _ _ _ => .of_literals rfl, rfl, rfl, fun _ => rfl, rfl, rfl⟩
    simp [setLast, hops, hk]

omit [ZendEngine] in
/-- The opline that a block starts with -/
theorem skipNops_startOp (hstart : c.startOp t = some target) (hnop : target.opcode ≠ .nop) :
    c.skipNops 1 t = some (t, target) ∧
      ∃ l, (c.blocks t).oplines = some l ∧ l[0]? = some target := by
  obtain ⟨l, hl, rfl⟩ := Option.map_eq_some_iff.mp hstart
  cases l with
  | nil => exact absurd rfl hnop
  | cons o l =>
    refine ⟨?_, o :: l, hl, rfl⟩
    have hfind : (o :: l).find? (·.opcode != .nop) = some o :=
      List.find?_cons_of_pos (by simpa using hnop)
    simp only [skipNops, hl, hfind]
    rfl

omit [ZendEngine] in
theorem redirect_foldl_literals : ∀ (l : List ℕ) (c : ZendCfg),
    (l.foldl (fun d s => d.redirect b X s) c).literals = c.literals := by
  intro l
  induction l with
  | nil => exact fun _ => rfl
  | cons s l ih =>
    intro c
    rw [List.foldl_cons, ih]
    unfold redirect
    dsimp only
    split_ifs <;> rfl

/-- An empty block that falls to the next one is skipped. -/
theorem agrees_deleteCodeBlock (hempty : (c.blocks b).oplines = some [])
    (hfollow : (c.blocks b).followTo = some X) (hXb : X ≠ b) :
    c.Agrees (c.deleteCodeBlock b) b k := by
  unfold ZendCfg.deleteCodeBlock
  split_ifs
  · exact .refl _ _ _
  simp only [hfollow]
  have hred := redirect_foldl_spec hXb (c.blocks b).sources c
  have hlit := redirect_foldl_literals (b := b) (X := X) (c.blocks b).sources c
  generalize (c.blocks b).sources.foldl _ c = c₁ at hred hlit
  have hshape : ∀ x, (((c₁.modify b ({ · with access := false })).blocks x).oplines =
      (c₁.blocks x).oplines) ∧ ((c₁.modify b ({ · with access := false })).blocks x).edges =
      (c₁.blocks x).edges := fun x => by
    rw [modify_blocks]
    split_ifs <;> exact ⟨rfl, rfl⟩
  have hskip : SkippedCode c (c₁.modify b ({ · with access := false })) b X := by
    constructor
    · exact hempty
    · exact hfollow
    · exact fun x => (hshape x).1.trans (hred.oplines x)
    · intro x
      rw [(hshape x).2, hred.edges]
      split_ifs
      · exact .inr rfl
      · exact .inl rfl
    · exact hlit
  exact fun truth is found => hskip.tracks.trace_iff rfl

variable (h : c.Threads A b k) (hops : (c.blocks b).oplines = some ops)
  (hlast : ops[k]? = some last) (hop : last.opcode = .jmp) (hrange : c.InRange)
  (hX : (c.blocks b).op1To = some X) (hstart : c.startOp X = some target)
include h hops hlast hop hrange hX hstart

/-- A jump to a jump, which is copied with its edges. -/
theorem Threads.jmpCopy (hXb : X ≠ b) (htarget : target.opcode = .jmp ∨ target.opcode = .jmpznz)
    (hedges : target.opcode = .jmpznz → (c.blocks X).op2To.isSome = true ∧
      (c.blocks X).extTo.isSome = true)
    (hdel : carefulDel (c.copyLast b target) b X
      [(c.blocks b).op2To, (c.blocks b).extTo, (c.blocks b).followTo]
      [(c.blocks X).op2To, (c.blocks X).extTo, (c.blocks X).op1To] = some c₁)
    (hc₂ : c₂ = (c₁.takeEdge b X (·.op2To) setOp2To).takeEdge b X (·.extTo) setExtTo)
    (hc' : Rewired b c₂ c' ∧ c'.literals = c₂.literals ∧
      (c'.blocks b).oplines = (c₂.blocks b).oplines ∧ (c'.blocks b).edges = [(c₂.blocks X).op1To,
        (c₂.blocks b).op2To, (c₂.blocks b).extTo, (c₂.blocks b).followTo]) :
    c.Agrees c' b k := by
  have hjump : target.opcode.jumps = true ∧ target.opcode.setsTruth = false := by
    rcases htarget with htarget | htarget <;>
      simp [htarget, ZendOpcode.jumps, ZendOpcode.setsTruth]
  have hnop : target.opcode ≠ .nop := fun hnop => by simp [hnop, ZendOpcode.jumps] at hjump
  have hk := h.last ops hops
  obtain ⟨hskip, l, hl, hl0⟩ := skipNops_startOp hstart hnop
  obtain ⟨o, hr₀, hops₀, hedges₀, hconst, hopo, htype, hvar, hcopy, -⟩ :=
    copyLast_frame hrange hops hk hl (List.mem_of_getElem? hl0)
  obtain ⟨hsame, hlater, hlit₁⟩ := h.del hr₀ hdel
  obtain ⟨hr, hlit', hops', he'⟩ := takeEdges_frame hXb hc₂ hc'
  rw [hsame.oplines, hops₀] at hops'
  have hX₁ := edges_eq_iff.mp ((hlater X le_rfl).trans (hedges₀ X))
  have hb₁ := edges_eq_iff.mp (hsame.edges.trans (hedges₀ b))
  have he : (c'.blocks b).op1To = (c.blocks X).op1To ∧
      (c'.blocks b).op2To = ((c.blocks X).op2To <|> (c.blocks b).op2To) ∧
      (c'.blocks b).extTo = ((c.blocks X).extTo <|> (c.blocks b).extTo) ∧
      (c'.blocks b).followTo = (c.blocks b).followTo := by
    simpa only [ZendCodeBlock.edges, List.cons.injEq, and_true, hX₁, hb₁] using he'
  have hXA : X ∈ A := h.edge_mem h.mem (mem_edges.mpr (.inl hX))
  suffices hkeep : c.Agrees c' b k ∧ ∃ A' ⊆ A, c'.Threads A' b k from hkeep.1
  refine h.rewrite hr₀ hdel hr hlit' (by rw [hops', hops]; rfl)
    (fun z hz => ?_) (fun z hz => ?_) hconst fun truth => ?_
  · rw [mem_edges, he.1, he.2.1, he.2.2.1, he.2.2.2] at hz
    simp only [Option.orElse_eq_orElse, Option.orElse_eq_or, Option.or_eq_some_iff] at hz
    rcases hz with hz | (hz | ⟨-, hz⟩) | (hz | ⟨-, hz⟩) | hz
    · exact ⟨h.edge_mem hXA (mem_edges.mpr (.inl hz)), by simp [hz]⟩
    · exact ⟨h.edge_mem hXA (mem_edges.mpr (.inr (.inl hz))), by simp [hz]⟩
    · exact ⟨h.edge_mem h.mem (mem_edges.mpr (.inr (.inl hz))), by simp [hz]⟩
    · exact ⟨h.edge_mem hXA (mem_edges.mpr (.inr (.inr (.inl hz)))), by simp [hz]⟩
    · exact ⟨h.edge_mem h.mem (mem_edges.mpr (.inr (.inr (.inl hz)))), by simp [hz]⟩
    · exact ⟨h.edge_mem h.mem (mem_edges.mpr (.inr (.inr (.inr hz)))), by simp [hz]⟩
  · exact h.follow b z (he.2.2.2 ▸ hz)
  · have hold := exits_jump truth hops hlast (by simp [hop, ZendOpcode.jumps])
    rw [hop, show (c.blocks b).jumpTo .jmp _ = (c.blocks b).op1To from rfl, hX,
      effect_of_jmpz (.inr (.inr (.inr hop)))] at hold
    have hthread := hold.thread hskip hjump.1
    rw [effect_of_not hjump.2] at hthread
    have hnew := exits_graft (c := c) truth hops'
      (by rw [List.getElem?_modify_eq, hlast]; rfl : _ = some o) (by rw [hopo]; exact hjump.1)
    have htest : c'.isTrue truth o.op1 = c.isTrue truth target.op1 := by
      refine isTrue_copy htype hvar ?_
      rw [← hcopy]
      simp only [ZendCfg.constant, literal, hlit', hlit₁]
    rw [effect_of_not (hopo ▸ hjump.2), htest, hopo] at hnew
    have hto : ∀ v, (c'.blocks b).jumpTo target.opcode v = (c.blocks X).jumpTo target.opcode v := by
      intro v
      rcases htarget with htarget | htarget
      · simp [htarget, ZendCodeBlock.jumpTo, he.1]
      · obtain ⟨h₂, h₃⟩ := hedges htarget
        obtain ⟨y, hy⟩ := Option.isSome_iff_exists.mp h₂
        obtain ⟨z, hz⟩ := Option.isSome_iff_exists.mp h₃
        simp [htarget, ZendCodeBlock.jumpTo, he.2.1, he.2.2.1, hy, hz]
    rw [hto] at hnew
    exact hthread.sameExit hnew

/-- A jump to an opline that leaves the code, which is copied. -/
theorem Threads.jmpReturn (htarget : target.opcode = .ret ∨ target.opcode = .returnByRef ∨
      target.opcode = .fastRet ∨ target.opcode = .exit)
    (hdel : carefulDel (c.copyLast b target) b X
      [(c.blocks b).op2To, (c.blocks b).extTo, (c.blocks b).followTo] [] = some c₁) :
    c.Agrees (c₁.setOp1To b none) b k := by
  have hplain : target.opcode.jumps = false ∧ target.opcode ≠ .nop ∧ target.opcode ≠ .qmAssign := by
    rcases htarget with htarget | htarget | htarget | htarget <;>
      simp [htarget, ZendOpcode.jumps]
  have hk := h.last ops hops
  obtain ⟨-, l, hl, hl0⟩ := skipNops_startOp hstart hplain.2.1
  obtain ⟨o, hr₀, hops₀, hedges₀, hconst, hopo, -, -, -, hfound⟩ :=
    copyLast_frame hrange hops hk hl (List.mem_of_getElem? hl0)
  obtain ⟨hsame, -, hlit₁⟩ := h.del hr₀ hdel
  have hb₁ := edges_eq_iff.mp (hsame.edges.trans (hedges₀ b))
  have hops' : ((c₁.setOp1To b none).blocks b).oplines = some (ops.modify k fun _ => o) := by
    simp [setOp1To, hsame.oplines, hops₀]
  have he : ((c₁.setOp1To b none).blocks b).op1To = none ∧
      ((c₁.setOp1To b none).blocks b).op2To = (c.blocks b).op2To ∧
      ((c₁.setOp1To b none).blocks b).extTo = (c.blocks b).extTo ∧
      ((c₁.setOp1To b none).blocks b).followTo = (c.blocks b).followTo := by
    simp [setOp1To, hb₁]
  suffices hkeep : c.Agrees (c₁.setOp1To b none) b k ∧ ∃ A' ⊆ A,
      (c₁.setOp1To b none).Threads A' b k from hkeep.1
  refine h.rewrite hr₀ hdel (rewired_setOp1To none) rfl (by rw [hops', hops]; rfl) (fun z hz => ?_)
    (fun z hz => ?_) hconst fun truth => ?_
  · rw [mem_edges, he.1, he.2.1, he.2.2.1, he.2.2.2] at hz
    rcases hz with hz | hz | hz | hz
    · cases hz
    · exact ⟨h.edge_mem h.mem (mem_edges.mpr (.inr (.inl hz))), by simp [hz]⟩
    · exact ⟨h.edge_mem h.mem (mem_edges.mpr (.inr (.inr (.inl hz)))), by simp [hz]⟩
    · exact ⟨h.edge_mem h.mem (mem_edges.mpr (.inr (.inr (.inr hz)))), by simp [hz]⟩
  · exact h.follow b z (he.2.2.2 ▸ hz)
  · -- the opline is found at the target, and where the jump was
    have hmove : c.walk b k ⟨b, k, truth⟩ = .silent ⟨X, 0, truth⟩ := by
      rw [walk_jump hops hlast (by simp [hop, ZendOpcode.jumps]), hop,
        effect_of_jmpz (.inr (.inr (.inr hop))),
        show (c.blocks b).jumpTo .jmp _ = (c.blocks b).op1To from rfl, hX]
      rfl
    have hshows : c.walk b k ⟨X, 0, truth⟩ = .shows (c.found target) fun _ => none := by
      simp [walk, hl, hl0, hplain]
    have hshows' : (c.graft (c₁.setOp1To b none) b).walk b k ⟨b, k, truth⟩ =
        .shows (c.found target) fun _ => none := by
      have hi : (ops.modify k fun _ => o)[k]? = some o := by
        rw [List.getElem?_modify_eq, hlast]
        rfl
      have hlits : SameConstants (c.copyLast b target) (c.graft (c₁.setOp1To b none) b) o :=
        .of_literals hlit₁
      simp [walk, hops', hi, hopo, hplain, hlits.found, hfound]
    refine ⟨1, 0, _, _, .one hmove, .refl _, hshows'.trans hshows.symm, fun p hp => ?_⟩
    rw [hshows] at hp
    cases hp

omit hrange hstart in
/-- A jump to the next block goes. -/
theorem Threads.jmpNext (hnext : c.nextAccess b = some X)
    (hc₁ : c₁ = c.modify b fun x =>
      { x with followTo := x.op1To, op1To := none, oplines := x.oplines.map (·.dropLast) })
    (hc' : c' = if (c₁.blocks b).oplines = some [] then c₁.deleteCodeBlock b else c₁) :
    c.Agrees c' b k := by
  have hk := h.last ops hops
  have hb : (c₁.blocks b).oplines = some ops.dropLast ∧ (c₁.blocks b).followTo = some X := by
    rw [hc₁]
    simp [hops, hX]
  have hdrop : ops.dropLast[k]? = none := List.getElem?_eq_none (by simp [hk])
  have hagree : c.Agrees c₁ b k := by
    intro truth is found
    refine (tracks_of_sameExit (fun x hx => ?_)
      (fun x l i o _ _ _ => .of_literals (by rw [hc₁]; rfl))
        (fun i hi => ?_) fun truth => ?_).trace_iff ⟨rfl, fun _ => le_rfl⟩
    · rw [hc₁]
      exact ⟨by rw [modify_blocks_of_ne hx], by rw [modify_blocks_of_ne hx]⟩
    · obtain ⟨o, ho⟩ : ∃ o, ops[i]? = some o := ⟨_, List.getElem?_eq_getElem (by omega)⟩
      refine ⟨ops, ops.dropLast, o, hops, hb.1, ho, ?_, h.plain ops i o hops hi ho⟩
      rw [List.getElem?_dropLast, if_pos (by omega), ho]
    · have hold := exits_jump truth hops hlast (by simp [hop, ZendOpcode.jumps])
      rw [hop, show (c.blocks b).jumpTo .jmp _ = (c.blocks b).op1To from rfl, hX,
        effect_of_jmpz (.inr (.inr (.inr hop)))] at hold
      have hnew : c₁.Exits b k truth (some X) truth := by
        refine ⟨0, _, .refl _, ?_⟩
        rw [walk_end hb.1 hdrop, hb.2]
      exact hold.sameExit hnew
  refine hagree.trans ?_
  rw [hc']
  split_ifs with hempty
  · have hXb : X ≠ b := by
      have := List.find?_some hnext
      simp only [Bool.and_eq_true, decide_eq_true_eq] at this
      omega
    exact agrees_deleteCodeBlock hempty hb.2 hXb
  · exact .refl _ _ _

end Jmp

theorem Threads.optimizeJmp (h : c.Threads A b k) (hops : (c.blocks b).oplines = some ops)
    (hlast : ops[k]? = some last) (hop : last.opcode = .jmp) (hrange : c.InRange)
    (hznz : ∀ X, (c.blocks b).op1To = some X → ∀ target, c.startOp X = some target →
      target.opcode = .jmpznz →
        X ≠ b ∧ (c.blocks X).op2To.isSome = true ∧ (c.blocks X).extTo.isSome = true)
    (hstep : ZendCfg.optimizeJmp carefulDel c b = some c') : c.Agrees c' b k := by
  unfold ZendCfg.optimizeJmp at hstep
  obtain ⟨X, hX, hstep⟩ := Option.bind_eq_some_iff.mp hstep
  by_cases hnext : c.nextAccess b = some X
  · rw [if_pos hnext] at hstep
    exact h.jmpNext hops hlast hop hX hnext rfl (Option.some.inj hstep).symm
  rw [if_neg hnext] at hstep
  obtain ⟨target, hstart, hstep⟩ := Option.bind_eq_some_iff.mp hstep
  dsimp only at hstep
  split at hstep
  · rename_i hcond
    obtain ⟨c₁, hdel, hstep⟩ := Option.bind_eq_some_iff.mp hstep
    obtain rfl := Option.some.inj hstep
    have hXb : X ≠ b := by
      rcases hcond.1 with ⟨-, hself⟩ | hjmpznz
      · rintro rfl
        exact hself hX
      · exact (hznz X hX target hstart hjmpznz).1
    have hedges₀ := (copyLast_spec c b target).2 X
    obtain ⟨h₁, h₂, h₃, -⟩ := edges_eq_iff.mp hedges₀
    rw [h₁, h₂, h₃] at hdel
    refine h.jmpCopy hops hlast hop hrange hX hstart hXb (hcond.1.imp_left And.left)
      (fun hjmpznz => (hznz X hX target hstart hjmpznz).2) hdel rfl ?_
    -- the last edge
    generalize (c₁.takeEdge b X (·.op2To) setOp2To).takeEdge b X (·.extTo) setExtTo = c₂
    cases hop1 : (c₂.blocks X).op1To with
    | none => exact ⟨rewired_setOp1To none, rfl, by simp [setOp1To], by
        simp [setOp1To, ZendCodeBlock.edges]⟩
    | some e =>
      refine ⟨(rewired_setOp1To _).trans (Rewired.addSource b e _), rfl, ?_, ?_⟩
      · rw [addSource_oplines]
        simp [setOp1To]
      · rw [addSource_edges]
        simp [setOp1To, ZendCodeBlock.edges]
  · split at hstep
    · rename_i htarget
      obtain ⟨c₁, hdel, hstep⟩ := Option.bind_eq_some_iff.mp hstep
      obtain rfl := Option.some.inj hstep
      exact h.jmpReturn hops hlast hop hrange hX hstart htarget hdel
    · exact Option.some.inj hstep ▸ .refl _ _ _

/-- `zend_jmp_optimization` of a block -/
theorem Threads.jmpOptimization (h : c.Threads A b k) (hops : (c.blocks b).oplines = some ops)
    (hlast : ops[k]? = some last) (hrange : c.InRange)
    (hedges : ∀ v, (c.blocks b).jumpTo last.opcode v ≠ none)
    (hznz : last.opcode = .jmp → ∀ X, (c.blocks b).op1To = some X → ∀ target,
      c.startOp X = some target → target.opcode = .jmpznz →
        X ≠ b ∧ (c.blocks X).op2To.isSome = true ∧ (c.blocks X).extTo.isSome = true)
    (hstep : zendJmpOptimization carefulDel T lastVar c b = some c') :
    c.Agrees c' b k ↔ c.FaultsHarmless b k T lastVar last := by
  unfold zendJmpOptimization at hstep
  have hk := h.last ops hops
  have hgetLast : ops.getLast? = some last := by
    rw [List.getLast?_eq_getElem?, hk, Nat.add_sub_cancel, hlast]
  simp only [hops, Option.bind_eq_bind, Option.bind_some, hgetLast] at hstep
  split at hstep
  · rename_i hop
    have hagree := h.optimizeJmp hops hlast hop hrange (hznz hop) hstep
    exact iff_of_true hagree (.of_opcode (by simp [hop]))
  · exact h.optimizeJmpz hops hlast hrange hedges (.inl ‹_›) hstep
  · exact h.optimizeJmpz hops hlast hrange hedges (.inr ‹_›) hstep
  · exact h.optimizeJmpzEx hops hlast hedges (.inl ‹_›) hstep
  · exact h.optimizeJmpzEx hops hlast hedges (.inr ‹_›) hstep
  · exact h.optimizeJmpznz hops hlast hrange hedges ‹_› hstep
  · obtain rfl := Option.some.inj hstep
    refine iff_of_true (.refl _ _ _) (.of_opcode ?_)
    simp_all

end ZendCfg

end ZendOpcache
