import ZendOpcache.Optimizer.ThreadJmp

/-! # Joins with the block itself

`del_source` joins a block with its only source. If the edges of the rewritten block still lead to
the block that is joined, or it is the rewritten one, the jump leads to a block without code.
-/

namespace ZendOpcache

/-- The second computation gives what the first does, or something with `P`. -/
def Unless {α : Type*} (P : α → Prop) (x y : Option α) : Prop :=
  ∀ r, y = some r → x = some r ∨ P r

namespace Unless

variable {α β : Type*} {P : α → Prop} {Q : β → Prop} {x x' y y' : Option α} {f g : α → Option β}

theorem refl (x : Option α) : Unless P x x := fun _ h => .inl h

theorem bind (h : Unless P x y) (hf : ∀ a, x = some a → Unless Q (f a) (g a))
    (hP : ∀ a r, P a → g a = some r → Q r) : Unless Q (x.bind f) (y.bind g) := by
  intro r hr
  obtain ⟨a, ha, hr⟩ := Option.bind_eq_some_iff.mp hr
  rcases h a ha with hx | hPa
  · rw [hx]
    exact hf a hx r hr
  · exact .inr (hP a r hPa hr)

end Unless

namespace ZendCfg

variable {c c' c₀ c₁ : ZendCfg} {A : Set ℕ} {b k n s t x X : ℕ} {kept new : List (Option ℕ)}
  {last target o : ZendOp} {ops : List ZendOp} {op : ZendOpcode} {T lastVar : ℕ}

/-- Sources are listed once, and a block follows to a later one. -/
structure Orderly (c : ZendCfg) : Prop where
  nodup : ∀ x, (c.blocks x).sources.Nodup
  follow : ∀ x t, (c.blocks x).followTo = some t → x < t

theorem Threads.orderly (h : c.Threads A b k) : c.Orderly := ⟨h.nodup, h.follow⟩

/-- The end of the block is rewritten. -/
theorem Orderly.rewired (h : c.Orderly) (hr : Rewired b c c')
    (hfollow : ∀ t, (c'.blocks b).followTo = some t → b < t) : c'.Orderly := by
  refine ⟨fun x => hr.nodup x (h.nodup x), fun x t ht => ?_⟩
  by_cases hx : x = b
  · subst hx
    exact hfollow t ht
  · exact h.follow x t ((hr.sameCode hx).followTo ▸ ht)

section DelSource

variable (h : c.Orderly) (hdel : c.delSource b X = some c')
include h hdel

theorem Orderly.delSource : c'.Orderly ∧
    (∀ x, (c.blocks x).oplines = none → (c'.blocks x).oplines = none) ∧
    (c.joins b X = true → (c'.blocks X).oplines = none) := by
  cases delSource_spec (h.nodup X) hdel with
  | lists hjoins hcode _ _ hnodup =>
    refine ⟨⟨hnodup h.nodup, fun x t ht => h.follow x t ((hcode x).followTo ▸ ht)⟩,
      fun x hx => (hcode x).oplines.trans hx, fun hj => ?_⟩
    simp [hjoins] at hj
  | join s _ hsb _ hj hjoin =>
    have hsX : (c.blocks s).followTo = some X := by
      simp only [joinable, Bool.and_eq_true, beq_iff_eq] at hj
      exact hj.1.1.1.2
    have hlt := h.follow s X hsX
    obtain ⟨-, hother, hempty, ops, ops', hs, hX, -⟩ := join_oplines hlt.ne hjoin
    have hjoined := join_spec hlt.ne (joinable_modify_sources.trans hj) hjoin
    refine ⟨⟨hjoined.nodup fun x => ?_, fun x t ht => ?_⟩, fun x hx => ?_, fun _ => hempty⟩
    · rw [modify_blocks]
      split_ifs with hx
      · exact (hx ▸ h.nodup x).erase b
      · exact h.nodup x
    · by_cases hxs : x = s
      · subst hxs
        rw [followTo_eq_of_edges hjoined.edges_self, modify_blocks_self] at ht
        exact hlt.trans (h.follow X t ht)
      · rw [followTo_eq_of_edges (hjoined.edges x hxs), modify_blocks] at ht
        split_ifs at ht with hx
        · exact hx ▸ h.follow x t (hx ▸ ht)
        · exact h.follow x t ht
    · by_cases hxX : x = X
      · exact hxX ▸ hempty
      by_cases hxs : x = s
      · subst hxs
        rw [modify_blocks_of_ne hlt.ne, hx] at hs
        cases hs
      · rw [hother x hxs hxX, modify_blocks_of_ne hxX, hx]

theorem Orderly.same (hX : X ≠ b) : SameCode c c' b ∧
    ∀ t, X ≤ t → (c'.blocks t).edges = (c.blocks t).edges := by
  obtain ⟨hsame, hlater, -⟩ := (delSource_spec (h.nodup X) hdel).same (fun _ => hX)
    fun x _ t ht => h.follow x t ht
  exact ⟨hsame, hlater⟩

end DelSource

/-- A join that the guard refuses -/
structure Refused (c c' : ZendCfg) (b X : ℕ) (kept new : List (Option ℕ)) : Prop where
  step : c.delSource b X = some c'
  joins : c.joins b X = true
  reason : X = b ∨ some X ∈ kept ++ new

theorem unless_del : Unless (fun c' => c.Refused c' b X kept new)
    (carefulDel c b X kept new) (ZendOpcache.delSource c b X kept new) := by
  intro c' hdel
  unfold carefulDel
  split_ifs with hguard
  · simp only [Bool.and_eq_true, Bool.or_eq_true, beq_iff_eq, List.contains_eq_mem,
      decide_eq_true_eq] at hguard
    exact .inr ⟨hdel, hguard.1, hguard.2⟩
  · exact .inl hdel

/-- The block, or one that its edges lead to, has no code. -/
def Doomed (c : ZendCfg) (b : ℕ) : Prop :=
  (c.blocks b).oplines = none ∨ ∃ X, (c.blocks X).oplines = none ∧ some X ∈ (c.blocks b).edges

/-- The block is the one before a deletion, with these edges, unless it has been joined itself. -/
def StillEnds (c c' : ZendCfg) (b : ℕ) (es : List (Option ℕ)) : Prop :=
  (c'.blocks b).oplines = none ∨
    (c'.blocks b).oplines = (c.blocks b).oplines ∧ (c'.blocks b).edges = es

section MoveOp2

variable {edge : ZendCodeBlock → Option ℕ} (h : c.Orderly) (hedge : IsEdge edge)
  (hle : ∀ X, (c.blocks b).op2To = some X → X ≤ t)
include h hedge hle

theorem Orderly.moveOp2 (hmove : ZendCfg.moveOp2 ZendOpcache.delSource c b t edge = some c') :
    c'.Orderly ∧ c.StillEnds c' b [(c.blocks b).op1To, edge (c.blocks t), (c.blocks b).extTo,
      (c.blocks b).followTo] := by
  simp only [ZendCfg.moveOp2, Option.bind_eq_bind, Option.bind_eq_some_iff] at hmove
  obtain ⟨X, hX, c₁, hdel, hadd⟩ := hmove
  obtain ⟨y, hy, rfl⟩ := addSourceOf_spec hadd
  obtain ⟨horderly, -, hempty⟩ := h.delSource hdel
  have hr : Rewired b c₁ ((c₁.setOp2To b (edge (c₁.blocks t))).addSource b y) :=
    (rewired_setOp2To _).trans (Rewired.addSource b y _)
  have hops : (((c₁.setOp2To b (edge (c₁.blocks t))).addSource b y).blocks b).oplines =
      (c₁.blocks b).oplines := by
    rw [addSource_oplines, setOp2To, modify_blocks_self]
  refine ⟨horderly.rewired hr fun t ht => horderly.follow b t ?_, ?_⟩
  · rw [← ht, addSource_followTo]
    simp [setOp2To]
  by_cases hjoined : c.joins b X = true ∧ X = b
  · obtain ⟨hjoins, rfl⟩ := hjoined
    exact .inl (hops.trans (hempty hjoins))
  obtain ⟨hsame, hlater, -⟩ := (delSource_spec (h.nodup X) hdel).same
    (fun hjoins hXb => hjoined ⟨hjoins, hXb⟩) fun x _ t ht => h.follow x t ht
  refine .inr ⟨hops.trans hsame.oplines, ?_⟩
  have hb₁ := edges_eq_iff.mp hsame.edges
  rw [addSource_edges, ← hedge.1 _ _ (hlater t (hle X hX))]
  simp [setOp2To, ZendCodeBlock.edges, hb₁]

end MoveOp2

section Lost

variable [ZendEngine]

/-- The walk from the end of the block comes to the null pointer. -/
def Lost (c : ZendCfg) (b k : ℕ) : Prop :=
  ∃ truth, Trace (c.walk b k) ⟨b, k, truth⟩ [()] [none]

theorem walk_null {truth : ZnodeType × ℕ → Bool} (h : (c.blocks x).oplines = none) :
    c.walk b k ⟨x, n, truth⟩ = .shows none fun _ => none := by
  simp only [walk, h]

theorem lost_of_null (h : (c.blocks b).oplines = none) : c.Lost b k :=
  ⟨fun _ => false, .last (walk_null h) rfl⟩

theorem Exits.lost {truth truth' : ZnodeType × ℕ → Bool}
    (h : c.Exits b k truth (some X) truth') (hX : (c.blocks X).oplines = none) : c.Lost b k := by
  obtain ⟨m, s, hs, hwalk⟩ := h
  exact ⟨truth, (hs.sameTraces _ _).mpr (.silent hwalk (.last (walk_null hX) rfl))⟩

end Lost

/-- The block has no other edges than those of a jump. -/
def OnlyEdges (op : ZendOpcode) (z : ZendCodeBlock) : Prop :=
  match op with
  | .jmp => z.op2To = none ∧ z.extTo = none ∧ z.followTo = none
  | .jmpznz => z.op1To = none ∧ z.followTo = none
  | _ => z.op1To = none ∧ z.extTo = none

/-- The block ends with a jump that tests a variable, unless it has been joined itself. -/
def Tests (c : ZendCfg) (b k : ℕ) (op : ZendOpcode) : Prop :=
  (c.blocks b).oplines = none ∨ ∃ ops o, (c.blocks b).oplines = some ops ∧ ops.length = k + 1 ∧
    ops[k]? = some o ∧ o.opcode = op ∧ o.op1.type ≠ .const ∧ OnlyEdges op (c.blocks b)

theorem Tests.onlyEdges (h : c.Tests b k op) :
    (c.blocks b).oplines = none ∨ OnlyEdges op (c.blocks b) := by
  rcases h with hnull | ⟨_, _, _, _, _, _, _, honly⟩
  · exact .inl hnull
  · exact .inr honly

/-- The block still ends with the jump. -/
theorem StillEnds.tests {es : List (Option ℕ)} (h : c.StillEnds c' b es)
    (hops : (c.blocks b).oplines = some ops) (hk : ops.length = k + 1)
    (hlast : ops[k]? = some last) (hconst : last.op1.type ≠ .const)
    (honly : (c'.blocks b).edges = es → OnlyEdges last.opcode (c'.blocks b)) :
    c'.Tests b k last.opcode := by
  rcases h with hnull | ⟨hops', hedges⟩
  · exact .inl hnull
  · exact .inr ⟨ops, last, hops'.trans hops, hk, hlast, rfl, hconst, honly hedges⟩

theorem exists_jumpTo {z : ZendCodeBlock} (hop : op.jumps = true) (h : OnlyEdges op z)
    (ht : some t ∈ z.edges) : ∃ v, z.jumpTo op v = some t := by
  rw [mem_edges] at ht
  unfold ZendOpcode.jumps at hop
  split at hop
  · obtain ⟨h₂, h₃, h₄⟩ : z.op2To = none ∧ z.extTo = none ∧ z.followTo = none := h
    simp only [h₂, h₃, h₄, reduceCtorEq, or_false] at ht
    exact ⟨true, ht⟩
  all_goals first
    | obtain ⟨h₁, h₄⟩ : z.op1To = none ∧ z.followTo = none := h
      simp only [h₁, h₄, reduceCtorEq, false_or, or_false] at ht
      exact ht.elim (fun ht => ⟨false, ht⟩) fun ht => ⟨true, ht⟩
    | obtain ⟨h₁, h₃⟩ : z.op1To = none ∧ z.extTo = none := h
      simp only [h₁, h₃, reduceCtorEq, false_or] at ht
      first
        | exact ht.elim (fun ht => ⟨false, ht⟩) fun ht => ⟨true, ht⟩
        | exact ht.elim (fun ht => ⟨true, ht⟩) fun ht => ⟨false, ht⟩
    | cases hop

theorem Doomed.lost [ZendEngine] (h : c.Doomed b) (hop : op.jumps = true) (htest : c.Tests b k op) :
    c.Lost b k := by
  rcases htest with hnull | ⟨ops, o, hops, -, ho, rfl, hconst, honly⟩
  · exact lost_of_null hnull
  rcases h with hnull | ⟨X, hX, hmem⟩
  · exact lost_of_null hnull
  obtain ⟨v, hv⟩ := exists_jumpTo hop honly hmem
  have hexit := exits_jump (fun _ => v) hops ho hop
  rw [isTrue_of_ne hconst, hv] at hexit
  exact hexit.lost hX

section Follow

/-- The block ends with a conditional jump, between two steps of the code. -/
structure JmpzEnd (c : ZendCfg) (b k : ℕ) (op : ZendOpcode) : Prop where
  orderly : c.Orderly
  tests : c.Tests b k op

/-- `del_source` of the block that the jump follows to -/
theorem JmpzEnd.delSource (h : c.JmpzEnd b k op) (hX : (c.blocks b).followTo = some X)
    (hdel : c.delSource b X = some c₁) : c₁.JmpzEnd b k op ∧ SameCode c c₁ b ∧
      (c₁.blocks X).edges = (c.blocks X).edges ∧
      ∀ x, (c.blocks x).oplines = none → (c₁.blocks x).oplines = none := by
  have hXb : X ≠ b := (h.orderly.follow b X hX).ne'
  obtain ⟨horderly, hnull, -⟩ := h.orderly.delSource hdel
  obtain ⟨hsame, hlater⟩ := h.orderly.same hdel hXb
  refine ⟨⟨horderly, ?_⟩, hsame, hlater X le_rfl, hnull⟩
  have hb := edges_eq_iff.mp hsame.edges
  unfold Tests OnlyEdges
  rw [hsame.oplines, hb.1, hb.2.1, hb.2.2.1, hb.2.2.2]
  exact h.tests

section Nops

variable (hop : op = .jmpz ∨ op = .jmpnz)
include hop

theorem onlyEdges_iff {z : ZendCodeBlock} :
    OnlyEdges op z ↔ z.op1To = none ∧ z.extTo = none := by
  rcases hop with rfl | rfl <;> exact Iff.rfl

/-- The jump follows past a block of `NOP`s. -/
theorem JmpzEnd.followNop (h : c.JmpzEnd b k op) (hX : (c.blocks b).followTo = some X)
    (hdel : c.delSource b X = some c₁)
    (hadd : (c₁.setFollowTo b (c₁.blocks X).followTo).addSourceOf b
      ((c₁.setFollowTo b (c₁.blocks X).followTo).blocks b).followTo = some c') :
    c'.JmpzEnd b k op ∧ (∀ x, (c₁.blocks x).oplines = none → (c'.blocks x).oplines = none) ∧
      (c'.blocks b).edges = [(c.blocks b).op1To, (c.blocks b).op2To, (c.blocks b).extTo,
        (c.blocks X).followTo] := by
  obtain ⟨h₁, hsame, hXedges, -⟩ := h.delSource hX hdel
  obtain ⟨y, hy, rfl⟩ := addSourceOf_spec hadd
  rw [followTo_eq_of_edges hXedges] at hy ⊢
  have hXy : (c.blocks X).followTo = some y := by simpa [setFollowTo] using hy
  have hr : Rewired b c₁ ((c₁.setFollowTo b (c.blocks X).followTo).addSource b y) :=
    (rewired_setFollowTo _).trans (Rewired.addSource b y _)
  have hops : ∀ x, (((c₁.setFollowTo b (c.blocks X).followTo).addSource b y).blocks x).oplines =
      (c₁.blocks x).oplines := fun x => by
    rw [addSource_oplines, setFollowTo, modify_blocks]
    split_ifs <;> rfl
  have hb₁ := edges_eq_iff.mp hsame.edges
  have hedges : (((c₁.setFollowTo b (c.blocks X).followTo).addSource b y).blocks b).edges =
      [(c.blocks b).op1To, (c.blocks b).op2To, (c.blocks b).extTo, (c.blocks X).followTo] := by
    rw [addSource_edges]
    simp [setFollowTo, ZendCodeBlock.edges, hb₁]
  have hedges' := hedges
  simp only [ZendCodeBlock.edges, List.cons.injEq, and_true] at hedges'
  obtain ⟨he₁, -, he₃, he₄⟩ := hedges'
  refine ⟨⟨h₁.orderly.rewired hr fun t ht => ?_, ?_⟩, fun x hx => (hops x).trans hx, hedges⟩
  · obtain rfl : y = t := Option.some.inj (hXy.symm.trans (he₄.symm.trans ht))
    exact (h.orderly.follow b X hX).trans (h.orderly.follow X y hXy)
  · have htests := h.tests
    simp only [Tests, onlyEdges_iff hop, hops, hsame.oplines, he₁, he₃] at htests ⊢
    exact htests

theorem JmpzEnd.followNops : ∀ (n : ℕ) {c : ZendCfg}, c.JmpzEnd b k op →
    ZendCfg.followNops ZendOpcache.delSource b n c = some (c', x, target) →
    c'.JmpzEnd b k op ∧ (c'.blocks b).followTo = some x ∧ (c'.blocks x).oplines ≠ none ∧
      (c.Doomed b ∨ ZendCfg.followNops carefulDel b n c ≠ some (c', x, target) → c'.Doomed b)
  | 0, _, _, hstep => by simp [ZendCfg.followNops] at hstep
  | n + 1, c, h, hstep => by
    simp only [ZendCfg.followNops, Option.bind_eq_bind, Option.bind_eq_some_iff] at hstep
    obtain ⟨X, hX, l, hl, hstep⟩ := hstep
    split at hstep
    · rename_i o hfind
      simp only [Option.some.injEq, Prod.mk.injEq] at hstep
      obtain ⟨rfl, rfl, rfl⟩ := hstep
      refine ⟨h, hX, by simp [hl], fun hbad => hbad.resolve_right fun hne => hne ?_⟩
      simp [ZendCfg.followNops, hX, hl, hfind]
    rename_i hno
    simp only [Option.bind_eq_some_iff] at hstep
    obtain ⟨c₁, hdel, c₂, hadd, hstep⟩ := hstep
    obtain ⟨h₂, hnull₂, hedges₂⟩ := h.followNop hop hX hdel hadd
    obtain ⟨h', hfollow, hne, hdoomed⟩ := JmpzEnd.followNops n h₂ hstep
    refine ⟨h', hfollow, hne, fun hbad => hdoomed ?_⟩
    have hnull₁ := (h.orderly.delSource hdel).2.1
    rcases hbad with (hnull | ⟨Y, hY, hmem⟩) | hne
    · exact .inl (.inl (hnull₂ b (hnull₁ b hnull)))
    · -- the block that the jump follows to has code
      refine .inl (.inr ⟨Y, hnull₂ Y (hnull₁ Y hY), ?_⟩)
      have hYX : some Y ≠ some X := by
        rintro hYX
        rw [Option.some.inj hYX, hl] at hY
        cases hY
      rw [hedges₂]
      simp only [ZendCodeBlock.edges, hX, List.mem_cons, List.not_mem_nil, or_false, hYX] at hmem ⊢
      tauto
    · have hunless : Unless (fun c' => c.Refused c' b X [(c.blocks b).op1To, (c.blocks b).op2To,
        (c.blocks b).extTo] [(c.blocks X).followTo]) _ _ := unless_del
      rcases hunless c₁ hdel with hcare | href
      · refine .inr fun hrest => hne ?_
        simp only [ZendCfg.followNops, Option.bind_eq_bind, hX, hl, hno, Option.bind_some, hcare,
          hadd, hrest]
      · refine .inl (.inr ⟨X, hnull₂ X ((h.orderly.delSource hdel).2.2 href.joins), ?_⟩)
        have hXb : X ≠ b := (h.orderly.follow b X hX).ne'
        have hself : some X ≠ (c.blocks X).followTo := fun hself =>
          (h.orderly.follow X X hself.symm).ne rfl
        have hreason := href.reason.resolve_left hXb
        rw [hedges₂]
        simp only [List.cons_append, List.nil_append, List.mem_cons, List.not_mem_nil, or_false,
          hself] at hreason ⊢
        tauto

/-- The jump becomes a `JMPZNZ`, and one of its targets has no code. -/
theorem JmpzEnd.lost_jmpznz [ZendEngine] (h : c.JmpzEnd b k op)
    (hmid : ∀ x, (c₁.blocks x).oplines = (c.blocks x).oplines)
    (hop1 : (c₁.blocks b).op1To = (c.blocks b).op1To)
    (hhole : (c.blocks b).oplines = none ∨ ∃ Y, (c.blocks Y).oplines = none ∧
      (some Y = (c₁.blocks b).op2To ∨ some Y = (c₁.blocks b).extTo)) :
    (((c₁.addSource b n).setFollowTo b none).setLast b
      ({ · with opcode := .jmpznz })).Lost b k := by
  obtain ⟨c', hc'⟩ : ∃ c', c' = ((c₁.addSource b n).setFollowTo b none).setLast b
    ({ · with opcode := .jmpznz }) := ⟨_, rfl⟩
  rw [← hc']
  have hself : (c'.blocks b).oplines = (c.blocks b).oplines.map fun l =>
      l.modify (l.length - 1) ({ · with opcode := .jmpznz }) := by
    rw [hc', ← hmid]
    simp [setLast, setFollowTo, addSource_oplines]
  rcases hhole with hnull | ⟨Y, hY, hmem⟩
  · exact lost_of_null (by rw [hself, hnull]; rfl)
  rcases h.tests with hnull | ⟨ops, o, hb, hlen, ho, -, hconst, honly⟩
  · exact lost_of_null (by rw [hself, hnull]; rfl)
  have hYb : Y ≠ b := by
    rintro rfl
    simp [hb] at hY
  have hedges : (c'.blocks b).op1To = (c₁.blocks b).op1To ∧
      (c'.blocks b).op2To = (c₁.blocks b).op2To ∧ (c'.blocks b).extTo = (c₁.blocks b).extTo ∧
      (c'.blocks b).followTo = none := by
    rw [hc']
    simp [setLast, setFollowTo]
  have hdoomed : c'.Doomed b := by
    refine .inr ⟨Y, ?_, ?_⟩
    · rw [hc']
      simp [setLast, setFollowTo, hYb, addSource_oplines, hmid, hY]
    · rw [mem_edges, hedges.2.1, hedges.2.2.1]
      exact hmem.elim (fun h => .inr (.inl h.symm)) fun h => .inr (.inr (.inl h.symm))
  have htests : c'.Tests b k .jmpznz := by
    refine .inr ⟨ops.modify k ({ · with opcode := .jmpznz }), { o with opcode := .jmpznz }, ?_,
      by simpa using hlen, by simp [ho], rfl, hconst, ?_⟩
    · rw [hself, hb, Option.map_some, hlen, Nat.add_sub_cancel]
    · exact ⟨hedges.1.trans (hop1.trans ((onlyEdges_iff hop).mp honly).1), hedges.2.2.2⟩
  exact hdoomed.lost rfl htests

/-- The block that the jump follows to is joined, or the block had no code to lead to before. -/
theorem JmpzEnd.hole (h : c.JmpzEnd b k op) (hX : (c.blocks b).followTo = some X)
    (hXops : (c.blocks X).oplines ≠ none) (hdel : c.delSource b X = some c')
    (hbad : c.Doomed b ∨ c.Refused c' b X [(c.blocks b).op1To, (c.blocks b).op2To]
      [(c.blocks X).op1To]) :
    (c'.blocks b).oplines = none ∨ ∃ Y, (c'.blocks Y).oplines = none ∧
      (some Y = (c.blocks b).op2To ∨ some Y = (c.blocks X).op1To) := by
  obtain ⟨h', hsame, -, hnull⟩ := h.delSource hX hdel
  obtain ⟨hb₁, -, hb₃, -⟩ := edges_eq_iff.mp hsame.edges
  rcases hbad with (hnull₁ | ⟨Y, hY, hmem⟩) | href
  · exact .inl (hnull b hnull₁)
  · refine h'.tests.onlyEdges.imp_right fun honly => ⟨Y, hnull Y hY, .inl ?_⟩
    obtain ⟨hop1, hext⟩ := (onlyEdges_iff hop).mp honly
    have hYX : some Y ≠ some X := by
      rintro hYX
      exact hXops (Option.some.inj hYX ▸ hY)
    simpa [ZendCodeBlock.edges, hX, hYX, ← hb₁, ← hb₃, hop1, hext] using hmem
  · refine h'.tests.onlyEdges.imp_right fun honly =>
      ⟨X, (h.orderly.delSource hdel).2.2 href.joins, ?_⟩
    obtain ⟨hop1, -⟩ := (onlyEdges_iff hop).mp honly
    have hXb : X ≠ b := (h.orderly.follow b X hX).ne'
    simpa [← hb₁, hop1] using href.reason.resolve_left hXb

/-- `JMPZ` and a `JMP` make a `JMPZNZ`. -/
theorem JmpzEnd.followJmpz [ZendEngine] (h : c.JmpzEnd b k op)
    (hbad : c.Doomed b ∨ ZendCfg.followJmpz carefulDel c b op ≠ some c')
    (hstep : ZendCfg.followJmpz ZendOpcache.delSource c b op = some c') : c'.Lost b k := by
  have hjump : op.jumps = true := by rcases hop with rfl | rfl <;> rfl
  by_cases hcond : (c.blocks b).followTo.isSome ∧ (op = .jmpz ∨ op = .jmpnz)
  swap
  · rw [ZendCfg.followJmpz, if_neg hcond] at hstep hbad
    obtain rfl := Option.some.inj hstep
    exact (hbad.resolve_right fun hne => hne rfl).lost hjump h.tests
  rw [ZendCfg.followJmpz, if_pos hcond] at hstep hbad
  obtain ⟨⟨c₁, X, target⟩, hnops, hstep⟩ := Option.bind_eq_some_iff.mp hstep
  obtain ⟨h₁, hX, hXops, hdoomed⟩ := h.followNops hop c.size hnops
  -- either the guard has refused a join before, or it does now
  have hbad₁ : c₁.Doomed b ∨
      ZendCfg.followNops carefulDel b c.size c = some (c₁, X, target) ∧ ¬c.Doomed b := by
    by_cases hcare : ZendCfg.followNops carefulDel b c.size c = some (c₁, X, target)
    · by_cases hd : c.Doomed b
      · exact .inl (hdoomed (.inl hd))
      · exact .inr ⟨hcare, hd⟩
    · exact .inl (hdoomed (.inr hcare))
  dsimp only at hstep
  by_cases hjmp : target.opcode = .jmp ∧ (c₁.blocks X).op1To.isSome = true ∧
      (c₁.blocks X).isProtected = false
  swap
  · rw [if_neg hjmp] at hstep
    obtain rfl := Option.some.inj hstep
    rcases hbad₁ with hd₁ | ⟨hcare, hd⟩
    · exact hd₁.lost hjump h₁.tests
    · refine absurd ?_ (hbad.resolve_left hd)
      simp only [hcare, Option.bind_eq_bind, Option.bind_some, if_neg hjmp]
  rw [if_pos hjmp] at hstep
  obtain ⟨c₂, hdel, hstep⟩ := Option.bind_eq_some_iff.mp hstep
  obtain ⟨c₃, hadd, hstep⟩ := Option.bind_eq_some_iff.mp hstep
  obtain ⟨h₂, hsame, hXedges, -⟩ := h₁.delSource hX hdel
  have hbad₂ : c₁.Doomed b ∨ c₁.Refused c₂ b X [(c₁.blocks b).op1To, (c₁.blocks b).op2To]
      [(c₁.blocks X).op1To] := by
    refine hbad₁.imp_right fun hcare => (unless_del c₂ hdel).resolve_left fun hcare' => ?_
    refine hbad.resolve_left hcare.2 ?_
    simp only [hcare.1, Option.bind_eq_bind, Option.bind_some, if_pos hjmp, hcare', hadd]
    exact hstep
  have hhole := h₁.hole hop hX hXops hdel hbad₂
  obtain ⟨y, hy, rfl⟩ := addSourceOf_spec hadd
  have hXy : (c₁.blocks X).op1To = some y := (edges_eq_iff.mp hXedges).1 ▸ hy
  obtain ⟨-, hb₂, -, -⟩ := edges_eq_iff.mp hsame.edges
  obtain rfl := Option.some.inj hstep
  rw [← hb₂, hXy, ← hy] at hhole
  refine h₂.lost_jmpznz hop (fun x => ?_) ?_ (hhole.imp_right fun hlost => ?_)
  · split_ifs <;> simp only [setExtTo, setOp2To, modify_blocks] <;> split_ifs <;> rfl
  · split_ifs <;> simp [setExtTo, setOp2To]
  · obtain ⟨Y, hY, hmem⟩ := hlost
    refine ⟨Y, hY, ?_⟩
    split_ifs
    · simpa [setExtTo] using hmem
    · simpa [setExtTo, setOp2To] using hmem.symm

end Nops

end Follow

section ThreadJmpz

variable (h : c.Threads A b k)
include h

variable (hops : (c.blocks b).oplines = some ops) (hlast : ops[k]? = some last)
  (hop : last.opcode = .jmpz ∨ last.opcode = .jmpnz) (hconst : last.op1.type ≠ .const)
  (honly : OnlyEdges last.opcode (c.blocks b))
include hops hlast hop hconst honly

end ThreadJmpz

section Refuse

variable [ZendEngine] (h : c.Threads A b k) (hops : (c.blocks b).oplines = some ops)
  (hlast : ops[k]? = some last)
include h hops hlast

end Refuse

end ZendCfg

end ZendOpcache
