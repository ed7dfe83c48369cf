import ZendOpcache.Optimizer.Walk

/-! # Rewriting the end of a block

While `zend_jmp_optimization` rewrites the last opline of a block and its edges, the blocks that may
be walked through are known, and listed as sources. If the new end has the exits of the old one, the
walk from there finds the same, unless `del_source` joins a block that the edges still lead to.
-/

namespace ZendOpcache

namespace ZendCfg

variable {c c' c₀ c₁ c₂ : ZendCfg} {A : Set ℕ} {b k n s t x y X : ℕ} {kept new : List (Option ℕ)}
  {f : ZendOp → ZendOp} {last target : ZendOp} {ops : List ZendOp}

/-- `del_source` joins the block with the one source that is left. -/
def joins (c : ZendCfg) (fromb tob : ℕ) : Bool :=
  !(c.blocks tob).sources.isEmpty &&
    match (c.blocks tob).sources.erase fromb with
    | [s] => c.joinable s tob
    | _ => false

/-- `del_source`, but for a join of a block that the edges of `fromb` still lead to. -/
def carefulDel : DelSource := fun c fromb tob kept new =>
  if c.joins fromb tob && (tob == fromb || (kept ++ new).contains (some tob)) then none
  else c.delSource fromb tob

theorem addSource_oplines : ((c.addSource b t).blocks x).oplines = (c.blocks x).oplines := by
  rw [← ZendCodeBlock.shape_oplines, addSource_shape, ZendCodeBlock.shape_oplines]

section Join

theorem foldlM_replaceSourceOf {old new : ℕ} : ∀ {l : List (Option ℕ)} {c c' : ZendCfg},
    l.foldlM (replaceSourceOf old new) c = some c' →
      c'.literals = c.literals ∧ ∀ x, (c'.blocks x).oplines = (c.blocks x).oplines
  | [], c, c', h => by
    obtain rfl : c = c' := Option.some.inj h
    exact ⟨rfl, fun _ => rfl⟩
  | e :: l, c, c', h => by
    rw [List.foldlM_cons] at h
    obtain ⟨c₁, h₁, h⟩ := Option.bind_eq_some_iff.mp h
    obtain ⟨hlit, hops⟩ := foldlM_replaceSourceOf h
    have hstep : c₁.literals = c.literals ∧ ∀ x, (c₁.blocks x).oplines = (c.blocks x).oplines := by
      cases e with
      | none =>
        obtain rfl : c = c₁ := Option.some.inj h₁
        exact ⟨rfl, fun _ => rfl⟩
      | some t =>
        obtain ⟨ss, -, rfl⟩ := Option.map_eq_some_iff.mp h₁
        refine ⟨rfl, fun x => ?_⟩
        rw [modify_blocks]
        split_ifs <;> rfl
    exact ⟨hlit.trans hstep.1, fun x => (hops x).trans (hstep.2 x)⟩

/-- The oplines of the joined block come after those of its predecessor. -/
theorem join_oplines (hsX : s ≠ X) (h : c.join s X = some c') :
    c'.literals = c.literals ∧ (∀ x, x ≠ s → x ≠ X → (c'.blocks x).oplines = (c.blocks x).oplines) ∧
      (c'.blocks X).oplines = none ∧
      ∃ ops ops', (c.blocks s).oplines = some ops ∧ (c.blocks X).oplines = some ops' ∧
        (c'.blocks s).oplines = some (ops ++ ops') := by
  simp only [join, Option.bind_eq_bind, Option.bind_eq_some_iff] at h
  obtain ⟨ops', hops', ops, hops, h⟩ := h
  obtain ⟨hlit, hsame⟩ := foldlM_replaceSourceOf h
  refine ⟨hlit, fun x hxs hxX => ?_, ?_, ops, ops', hops, hops', ?_⟩
  · rw [hsame, modify_blocks_of_ne hxs, modify_blocks_of_ne hxX]
  · rw [hsame, modify_blocks_of_ne hsX.symm, modify_blocks_self]
  · rw [hsame, modify_blocks_self]

end Join

/-- Block `b` ends with opline `k`. The blocks of `A` may be walked through; they are listed as
sources but for `b`, and the edges of a block belong to the jump that it ends with. -/
structure Threads (c : ZendCfg) (A : Set ℕ) (b k : ℕ) : Prop where
  mem : b ∈ A
  code : ∀ x ∈ A, ∃ ops, (c.blocks x).oplines = some ops
  last : ∀ ops, (c.blocks b).oplines = some ops → ops.length = k + 1
  plain : ∀ ops i o, (c.blocks b).oplines = some ops → i < k → ops[i]? = some o →
    o.opcode.jumps = false
  jump : ∀ x ≠ b, ∀ ops, (c.blocks x).oplines = some ops → ∀ o ∈ ops, o.opcode.jumps = true →
    (c.blocks x).op1To ≠ none ∨ (c.blocks x).op2To ≠ none ∨ (c.blocks x).extTo ≠ none
  edge : ∀ x ∈ A, ∀ t ∈ (c.blocks x).successors, t ∈ A
  held : ∀ x ∈ A, x ≠ b → ∀ t ∈ (c.blocks x).successors, x ∈ (c.blocks t).sources
  follow : ∀ x t, (c.blocks x).followTo = some t → x < t
  nodup : ∀ x, (c.blocks x).sources.Nodup

/-- The graph after `del_source`, which has changed lists of sources or has joined a block. -/
inductive Deletion (b X : ℕ) (c c' : ZendCfg) : Prop
  | lists (hjoins : c.joins b X = false) (code : ∀ x, SameCode c c' x)
      (literals : c'.literals = c.literals)
      (sources : ∀ x, ∀ y ∈ (c.blocks x).sources, y ≠ b → y ∈ (c'.blocks x).sources)
      (nodup : (∀ x, (c.blocks x).sources.Nodup) → ∀ x, (c'.blocks x).sources.Nodup)
  | join (s : ℕ) (hjoins : c.joins b X = true) (hsb : s ≠ b)
      (hsrc : ∀ y ∈ (c.blocks X).sources, y ≠ b → y = s) (hj : c.joinable s X = true)
      (h : (c.modify X ({ · with sources := (c.blocks X).sources.erase b })).join s X = some c')

theorem joinable_modify_sources {l : List ℕ} :
    (c.modify X ({ · with sources := l })).joinable s X = c.joinable s X := by
  unfold joinable
  by_cases hs : s = X
  · subst hs; simp
  · simp [hs]

theorem delSource_spec (hnodup : (c.blocks X).sources.Nodup) (hdel : c.delSource b X = some c') :
    Deletion b X c c' := by
  unfold delSource at hdel
  have hshape : ∀ g : ZendCodeBlock → ZendCodeBlock, c.joins b X = false →
      (∀ z, (g z).shape = z.shape) →
      (∀ y ∈ (c.blocks X).sources, y ≠ b → y ∈ (g (c.blocks X)).sources) →
      (g (c.blocks X)).sources.Nodup → Deletion b X c (c.modify X g) := by
    intro g hjoins hg hsrc hn
    have hsame : ∀ x, ((c.modify X g).blocks x).shape = (c.blocks x).shape := fun x => by
      rw [modify_blocks]
      split_ifs
      · exact hg _
      · rfl
    refine .lists hjoins (fun x => ⟨?_, ?_⟩) rfl (fun x y hy hyb => ?_) fun hall x => ?_
    · simpa using congrArg ZendCodeBlock.oplines (hsame x)
    · simpa using congrArg ZendCodeBlock.edges (hsame x)
    · by_cases hx : x = X
      · subst hx
        simpa using hsrc y hy hyb
      · simpa [hx] using hy
    · by_cases hx : x = X
      · subst hx
        simpa using hn
      · simpa [hx] using hall x
  split_ifs at hdel with hnil
  · obtain rfl := Option.some.inj hdel
    exact hshape ({ · with access := false }) (by simp [joins, hnil]) (fun _ => rfl)
      (fun y hy _ => hy) hnodup
  · have herase : ∀ y ∈ (c.blocks X).sources, y ≠ b → y ∈ (c.blocks X).sources.erase b :=
      fun y hy hyb => (List.mem_erase_of_ne hyb).mpr hy
    have hn := hnodup.erase b
    have hjoins : c.joins b X = match (c.blocks X).sources.erase b with
        | [s] => c.joinable s X
        | _ => false := by
      simp [joins, hnil]
    generalize hl : (c.blocks X).sources.erase b = l at hdel hjoins herase hn
    have hlists := fun hj => hshape ({ · with sources := l }) hj (fun _ => rfl) herase hn
    match l with
    | [] =>
      obtain rfl := Option.some.inj hdel
      have := hshape ({ · with sources := [], access := false }) hjoins (fun _ => rfl) herase hn
      simpa [modify, Function.update_idem] using this
    | [s] =>
      simp only [joinable_modify_sources] at hdel
      split_ifs at hdel with hj
      · have hsb : s ≠ b := by
          rintro rfl
          have hmem : s ∈ (c.blocks X).sources.erase s := by simp [hl]
          exact (hnodup.mem_erase_iff.mp hmem).1 rfl
        refine .join s (hjoins.trans hj) hsb (fun y hy hyb => ?_) hj (by rw [hl]; exact hdel)
        exact List.mem_singleton.mp (herase y hy hyb)
      · obtain rfl := Option.some.inj hdel
        exact hlists (hjoins.trans (by simpa using hj))
    | _ :: _ :: _ =>
      obtain rfl := Option.some.inj hdel
      exact hlists hjoins

/-- A call of `del_source` that the guard lets through. -/
theorem carefulDel_spec (hnodup : (c.blocks X).sources.Nodup)
    (hdel : carefulDel c b X kept new = some c') :
    Deletion b X c c' ∧ (c.joins b X = true → X ≠ b ∧ some X ∉ kept ++ new) := by
  unfold carefulDel at hdel
  split_ifs at hdel with hguard
  refine ⟨delSource_spec hnodup hdel, fun hjoins => ?_⟩
  simpa [hjoins, not_or] using hguard

/-- The block itself, and the edges of later blocks, stay as they are. -/
theorem Deletion.same (h : Deletion b X c c') (hXb : c.joins b X = true → X ≠ b)
    (hfollow : ∀ x ≠ b, ∀ t, (c.blocks x).followTo = some t → x < t) :
    SameCode c c' b ∧ (∀ t, X ≤ t → (c'.blocks t).edges = (c.blocks t).edges) ∧
      c'.literals = c.literals := by
  cases h with
  | lists _ hcode hlit => exact ⟨hcode b, fun t _ => (hcode t).edges, hlit⟩
  | join s hjoins hsb _ hj hjoin =>
    have hXb := hXb hjoins
    have hsX : (c.blocks s).followTo = some X := by
      simp only [joinable, Bool.and_eq_true, beq_iff_eq] at hj
      exact hj.1.1.1.2
    have hlt := hfollow s hsb X hsX
    obtain ⟨hlit, hother, -⟩ := join_oplines hlt.ne hjoin
    have hjoined := join_spec hlt.ne (joinable_modify_sources.trans hj) hjoin
    have hedges : ∀ t, t ≠ s → (c'.blocks t).edges = (c.blocks t).edges := fun t ht => by
      rw [hjoined.edges t ht, modify_blocks]
      split_ifs <;> rfl
    refine ⟨⟨?_, hedges b hsb.symm⟩, fun t ht => hedges t (hlt.trans_le ht).ne', hlit⟩
    rw [hother b hsb.symm hXb.symm, modify_blocks_of_ne hXb.symm]

theorem Rewired.sameCode (h : Rewired b c c') (hx : x ≠ b) : SameCode c c' x :=
  ⟨h.oplines x hx, h.edges x hx⟩

theorem SameCode.trans (h : SameCode c c₁ x) (h' : SameCode c₁ c₂ x) : SameCode c c₂ x :=
  ⟨h'.oplines.trans h.oplines, h'.edges.trans h.edges⟩

theorem SameCode.symm (h : SameCode c c₁ x) : SameCode c₁ c x := ⟨h.oplines.symm, h.edges.symm⟩

theorem SameCode.successors (h : SameCode c c' x) :
    (c'.blocks x).successors = (c.blocks x).successors := successors_eq_of_edges h.edges

theorem SameCode.followTo (h : SameCode c c' x) : (c'.blocks x).followTo = (c.blocks x).followTo :=
  followTo_eq_of_edges h.edges

/-- The graph with block `b` as in another one. -/
def graft (c c' : ZendCfg) (b : ℕ) : ZendCfg :=
  { c' with blocks := Function.update c.blocks b (c'.blocks b) }

@[simp] theorem graft_blocks_self : (c.graft c' b).blocks b = c'.blocks b := by simp [graft]

theorem graft_blocks_of_ne (h : x ≠ b) : (c.graft c' b).blocks x = c.blocks x := by simp [graft, h]

@[simp] theorem graft_literals : (c.graft c' b).literals = c'.literals := rfl

theorem Rewired.graft (hcode : ∀ x ≠ b, SameCode c c' x) (x : ℕ) :
    SameCode (c.graft c' b) c' x := by
  by_cases hx : x = b
  · subst hx
    exact ⟨by simp, by simp⟩
  · exact ⟨by rw [graft_blocks_of_ne hx, (hcode x hx).oplines],
      by rw [graft_blocks_of_ne hx, (hcode x hx).edges]⟩

section Agrees

variable [ZendEngine]

/-- The walk from the end of the block finds the same. -/
def Agrees (c c' : ZendCfg) (b k : ℕ) : Prop :=
  ∀ truth is found, Trace (c.walk b k) ⟨b, k, truth⟩ is found ↔
    Trace (c'.walk b k) ⟨b, k, truth⟩ is found

theorem Agrees.refl (c : ZendCfg) (b k : ℕ) : c.Agrees c b k := fun _ _ _ => Iff.rfl

theorem Agrees.trans (h : c.Agrees c₁ b k) (h' : c₁.Agrees c₂ b k) : c.Agrees c₂ b k :=
  fun truth is found => (h truth is found).trans (h' truth is found)

theorem Agrees.symm (h : c.Agrees c₁ b k) : c₁.Agrees c b k :=
  fun truth is found => (h truth is found).symm

theorem Agrees.iff_of_right (h : c₁.Agrees c₂ b k) : c.Agrees c₂ b k ↔ c.Agrees c₁ b k :=
  ⟨fun hagree => hagree.trans h.symm, fun hagree => hagree.trans h⟩

theorem agrees_of_sameCode (hcode : ∀ x, SameCode c c' x) (hlit : c'.literals = c.literals) :
    c.Agrees c' b k := by
  intro truth is found
  rw [show c'.walk b k = c.walk b k from funext fun s =>
    walk_congr (hcode s.block) fun _ _ _ _ => .of_literals hlit]

/-- The end of the block is rewritten. -/
theorem Threads.agrees (h : c.Threads A b k) (hcode : ∀ x ≠ b, SameCode c c' x)
    (hops : (c'.blocks b).oplines = (c.blocks b).oplines.map (·.modify k f))
    (hconst : ∀ x ops i o, (c.blocks x).oplines = some ops → ops[i]? = some o →
      (x, i) ≠ (b, k) → SameConstants c c' o)
    (hexit : ∀ truth, SameExit c c' b k truth) : c.Agrees c' b k := by
  intro truth is found
  refine (tracks_of_sameExit hcode hconst (fun i hi => ?_) hexit).trace_iff ⟨rfl, fun _ => le_rfl⟩
  obtain ⟨ops, hb⟩ := h.code b h.mem
  have hlen := h.last ops hb
  obtain ⟨o, ho⟩ : ∃ o, ops[i]? = some o := ⟨_, List.getElem?_eq_getElem (by omega)⟩
  refine ⟨ops, ops.modify k f, o, hb, by rw [hops, hb]; rfl, ho, ?_, h.plain ops i o hb hi ho⟩
  have hki : k ≠ i := by omega
  simp [ho, hki]

theorem Threads.agrees_graft (h : c.Threads A b k)
    (hops : (c'.blocks b).oplines = (c.blocks b).oplines.map (·.modify k f))
    (hconst : ∀ x ops i o, (c.blocks x).oplines = some ops → ops[i]? = some o →
      (x, i) ≠ (b, k) → SameConstants c (c.graft c' b) o)
    (hexit : ∀ truth, SameExit c (c.graft c' b) b k truth) : c.Agrees (c.graft c' b) b k := by
  refine h.agrees (f := f) (fun x hx => ⟨?_, ?_⟩) ?_ hconst hexit
  · rw [graft_blocks_of_ne hx]
  · rw [graft_blocks_of_ne hx]
  · rw [graft_blocks_self, hops]

end Agrees

section Rewrite

/-- What the walk needs to know of the joined blocks. -/
theorem Threads.joined (h : c.Threads A b k) (hr : Rewired b c c₀) (hsb : s ≠ b)
    (hj : c₀.joinable s X = true)
    (hsrc : ∀ y ∈ (c₀.blocks X).sources, y ≠ b → y = s) :
    (c.blocks s).followTo = some X ∧ (c.blocks s).op1To = none ∧ (c.blocks s).op2To = none ∧
      (c.blocks s).extTo = none ∧ s < X ∧
      (∀ ops, (c.blocks s).oplines = some ops → ∀ o ∈ ops, o.opcode.jumps = false) ∧
      ∀ x ∈ A, x ≠ b → X ∈ (c.blocks x).successors → x = s := by
  simp only [joinable, Bool.and_eq_true, beq_iff_eq] at hj
  obtain ⟨⟨⟨⟨⟨-, -⟩, hfollow⟩, hop1⟩, hop2⟩, hext⟩ := hj
  obtain ⟨h₁, h₂, h₃, h₄⟩ := edges_eq_iff.mp (hr.edges s hsb)
  rw [h₁] at hop1
  rw [h₂] at hop2
  rw [h₃] at hext
  rw [h₄] at hfollow
  refine ⟨hfollow, hop1, hop2, hext, h.follow s X hfollow, fun ops hops o ho => ?_,
    fun x hx hxb hX => ?_⟩
  · by_contra hjump
    have := h.jump s hsb ops hops o ho (by simpa using hjump)
    simp [hop1, hop2, hext] at this
  · exact hsrc x (hr.sources X (h.held x hx hxb X hX)) hxb

theorem Threads.del (h : c.Threads A b k) (hr₀ : Rewired b c c₀)
    (hdel : carefulDel c₀ b X kept new = some c₁) : SameCode c₀ c₁ b ∧
      (∀ t, X ≤ t → (c₁.blocks t).edges = (c₀.blocks t).edges) ∧ c₁.literals = c₀.literals :=
  let ⟨hdel, hguard⟩ := carefulDel_spec (hr₀.nodup X (h.nodup X)) hdel
  hdel.same (fun hjoins => (hguard hjoins).1) fun x hx z hz =>
    h.follow x z ((hr₀.sameCode hx).followTo ▸ hz)

theorem Threads.edge_mem (h : c.Threads A b k) (hx : x ∈ A) (ht : some t ∈ (c.blocks x).edges) :
    t ∈ A :=
  h.edge x hx t (ZendCodeBlock.mem_successors.mpr ht)

/-- The last opline of the block is rewritten, and its edges lead to blocks that may be walked
through. -/
structure NewEnd (c c' : ZendCfg) (A : Set ℕ) (b k : ℕ) (f : ZendOp → ZendOp) : Prop where
  oplines : (c'.blocks b).oplines = (c.blocks b).oplines.map (·.modify k f)
  edge : ∀ t ∈ (c'.blocks b).successors, t ∈ A
  follow : ∀ t, (c'.blocks b).followTo = some t → b < t

theorem NewEnd.code (he : NewEnd c c' A b k f) (h : c.Threads A b k) :
    ∃ ops, (c'.blocks b).oplines = some ops := by
  obtain ⟨ops, hb⟩ := h.code b h.mem
  exact ⟨_, by rw [he.oplines, hb]; rfl⟩

theorem NewEnd.length_eq (he : NewEnd c c' A b k f) (h : c.Threads A b k) (ops : List ZendOp)
    (hb : (c'.blocks b).oplines = some ops) : ops.length = k + 1 := by
  obtain ⟨ops', hops', rfl⟩ := Option.map_eq_some_iff.mp (he.oplines.symm.trans hb)
  simpa using h.last ops' hops'

theorem NewEnd.plain (he : NewEnd c c' A b k f) (h : c.Threads A b k) (ops : List ZendOp) (i : ℕ)
    (o : ZendOp) (hb : (c'.blocks b).oplines = some ops) (hi : i < k) (ho : ops[i]? = some o) :
    o.opcode.jumps = false := by
  obtain ⟨ops', hops', rfl⟩ := Option.map_eq_some_iff.mp (he.oplines.symm.trans hb)
  have hki : k ≠ i := by omega
  refine h.plain ops' i o hops' hi ?_
  simpa [List.getElem?_modify, hki] using ho

/-- Nothing else is rewritten, but lists of sources may lose the block. -/
theorem Threads.newEnd (h : c.Threads A b k) (he : NewEnd c c' A b k f)
    (hsame : ∀ x ≠ b, SameCode c c' x)
    (hsrc : ∀ x ≠ b, ∀ t, x ∈ (c.blocks t).sources → x ∈ (c'.blocks t).sources)
    (hnodup : ∀ x, (c'.blocks x).sources.Nodup) : c'.Threads A b k := by
  constructor
  · exact h.mem
  · intro x hx
    by_cases hxb : x = b
    · subst hxb
      exact he.code h
    · rw [(hsame x hxb).oplines]
      exact h.code x hx
  · exact he.length_eq h
  · exact he.plain h
  · intro x hx ops hb o ho hjump
    obtain ⟨h₁, h₂, h₃, -⟩ := edges_eq_iff.mp (hsame x hx).edges
    rw [(hsame x hx).oplines] at hb
    rw [h₁, h₂, h₃]
    exact h.jump x hx ops hb o ho hjump
  · intro x hx t ht
    by_cases hxb : x = b
    · subst hxb
      exact he.edge t ht
    · exact h.edge x hx t ((hsame x hxb).successors ▸ ht)
  · intro x hx hxb t ht
    exact hsrc x hxb t (h.held x hx hxb t ((hsame x hxb).successors ▸ ht))
  · intro x t ht
    by_cases hxb : x = b
    · subst hxb
      exact he.follow t ht
    · exact h.follow x t ((hsame x hxb).followTo ▸ ht)
  · exact hnodup

/-- Block `X` is joined to the one block `s` that leads to it, while block `b` is rewritten. -/
structure Merged (c c' : ZendCfg) (A : Set ℕ) (b s X : ℕ) (ops ops' : List ZendOp) : Prop where
  ne : s ≠ b
  ne' : X ≠ b
  lt : s < X
  before : (c.blocks s).oplines = some ops
  before' : (c.blocks X).oplines = some ops'
  falls : (c.blocks s).followTo = some X
  plain : ∀ o ∈ ops, o.opcode.jumps = false
  alone : ∀ x ∈ A, x ≠ b → X ∈ (c.blocks x).successors → x = s
  oplines : (c'.blocks s).oplines = some (ops ++ ops')
  edges : (c'.blocks s).edges = (c.blocks X).edges
  empty : (c'.blocks X).oplines = none
  edges' : (c'.blocks X).edges = (c.blocks X).edges
  other : ∀ x, x ≠ b → x ≠ s → x ≠ X → SameCode c c' x
  /-- The edges that `s` takes over are listed with it. -/
  taken : ∀ t ∈ (c.blocks X).successors, t ≠ X → X ∈ (c.blocks t).sources →
    s ∈ (c'.blocks t).sources
  kept : ∀ t, t ≠ X → ∀ x, x ≠ b → x ≠ X → x ∈ (c.blocks t).sources → x ∈ (c'.blocks t).sources

theorem Merged.agrees [ZendEngine] (hm : Merged c c' A b s X ops ops') (h : c.Threads A b k)
    (he : NewEnd c c' A b k f) (hbX : X ∉ (c'.blocks b).successors) :
    (c.graft c' b).Agrees c' b k := by
  have hcode : JoinedCode (c.graft c' b) c' s X ops ops' := by
    constructor
    · rw [graft_blocks_of_ne hm.ne, hm.before]
    · rw [graft_blocks_of_ne hm.ne', hm.before']
    · exact hm.oplines
    · exact hm.plain
    · rw [graft_blocks_of_ne hm.ne, hm.falls]
    · rw [graft_blocks_of_ne hm.ne', hm.edges]
    · intro x hxs hxX
      by_cases hxb : x = b
      · subst hxb
        exact ⟨by simp, by simp⟩
      · have := hm.other x hxb hxs hxX
        exact ⟨by rw [graft_blocks_of_ne hxb, this.oplines],
          by rw [graft_blocks_of_ne hxb, this.edges]⟩
    · rfl
  have hedge : ∀ x ∈ A, ∀ t ∈ ((c.graft c' b).blocks x).successors, t ∈ A := by
    intro x hx t ht
    by_cases hxb : x = b
    · subst hxb
      rw [graft_blocks_self] at ht
      exact he.edge t ht
    · rw [graft_blocks_of_ne hxb] at ht
      exact h.edge x hx t ht
  have halone : ∀ x ∈ A, X ∈ ((c.graft c' b).blocks x).successors → x = s := by
    intro x hx ht
    by_cases hxb : x = b
    · subst hxb
      rw [graft_blocks_self] at ht
      exact absurd ht hbX
    · rw [graft_blocks_of_ne hxb] at ht
      exact hm.alone x hx hxb ht
  intro truth is found
  refine (hcode.tracks (A := A) (k := k) hm.lt.ne hm.ne hm.ne' hedge halone).trace_iff ?_
  exact .inl ⟨rfl, h.mem, hm.ne'.symm, fun hbs => absurd hbs.symm hm.ne⟩

/-- The edges of the new graph were edges of the old one, and are listed. -/
theorem Merged.held (hm : Merged c c' A b s X ops ops') (h : c.Threads A b k) (hx : x ∈ A)
    (hxX : x ≠ X) (hxb : x ≠ b) (ht : t ∈ (c'.blocks x).successors) :
    t ∈ A ∧ t ≠ X ∧ x ∈ (c'.blocks t).sources := by
  by_cases hxs : x = s
  · subst hxs
    have hXA : X ∈ A := h.edge x hx X (followTo_mem_successors hm.falls)
    rw [successors_eq_of_edges hm.edges] at ht
    have htX : t ≠ X := by
      rintro rfl
      exact hm.lt.ne' (hm.alone t hXA hm.ne' ht)
    exact ⟨h.edge X hXA t ht, htX, hm.taken t ht htX (h.held X hXA hm.ne' t ht)⟩
  · rw [(hm.other x hxb hxs hxX).successors] at ht
    have htX : t ≠ X := by
      rintro rfl
      exact hxs (hm.alone x hx hxb ht)
    exact ⟨h.edge x hx t ht, htX, hm.kept t htX x hxb hxX (h.held x hx hxb t ht)⟩

theorem Merged.threads (hm : Merged c c' A b s X ops ops') (h : c.Threads A b k)
    (he : NewEnd c c' A b k f) (hbX : X ∉ (c'.blocks b).successors)
    (hnodup : ∀ x, (c'.blocks x).sources.Nodup) : c'.Threads (A \ {X}) b k := by
  constructor
  · exact ⟨h.mem, hm.ne'.symm⟩
  · intro x hx
    by_cases hxb : x = b
    · subst hxb
      exact he.code h
    by_cases hxs : x = s
    · exact ⟨_, hxs ▸ hm.oplines⟩
    · rw [(hm.other x hxb hxs hx.2).oplines]
      exact h.code x hx.1
  · exact he.length_eq h
  · exact he.plain h
  · intro x hxb l hl o ho hjump
    by_cases hxX : x = X
    · subst hxX
      simp [hm.empty] at hl
    by_cases hxs : x = s
    · subst hxs
      obtain rfl : ops ++ ops' = l := Option.some.inj (hm.oplines.symm.trans hl)
      obtain ⟨h₁, h₂, h₃, -⟩ := edges_eq_iff.mp hm.edges
      rw [h₁, h₂, h₃]
      refine h.jump X hm.ne' ops' hm.before' o ((List.mem_append.mp ho).resolve_left fun ho => ?_)
        hjump
      simp [hm.plain o ho] at hjump
    · obtain ⟨h₁, h₂, h₃, -⟩ := edges_eq_iff.mp (hm.other x hxb hxs hxX).edges
      rw [(hm.other x hxb hxs hxX).oplines] at hl
      rw [h₁, h₂, h₃]
      exact h.jump x hxb l hl o ho hjump
  · intro x hx t ht
    by_cases hxb : x = b
    · subst hxb
      refine ⟨he.edge t ht, ?_⟩
      rintro rfl
      exact hbX ht
    · obtain ⟨htA, htX, -⟩ := hm.held h hx.1 hx.2 hxb ht
      exact ⟨htA, htX⟩
  · intro x hx hxb t ht
    exact (hm.held h hx.1 hx.2 hxb ht).2.2
  · intro x t ht
    by_cases hxb : x = b
    · subst hxb
      exact he.follow t ht
    by_cases hxs : x = s
    · subst hxs
      rw [followTo_eq_of_edges hm.edges] at ht
      exact hm.lt.trans (h.follow X t ht)
    by_cases hxX : x = X
    · subst hxX
      exact h.follow x t (followTo_eq_of_edges hm.edges' ▸ ht)
    · exact h.follow x t ((hm.other x hxb hxs hxX).followTo ▸ ht)
  · exact hnodup

/-- What `del_source` does when it joins a block, between rewrites of block `b`. -/
theorem Threads.merged (h : c.Threads A b k) (hr₀ : Rewired b c c₀) (hr : Rewired b c₁ c₂)
    (hsb : s ≠ b) (hXb : X ≠ b) (hsrc : ∀ y ∈ (c₀.blocks X).sources, y ≠ b → y = s)
    (hj : c₀.joinable s X = true)
    (hjoin : (c₀.modify X ({ · with sources := (c₀.blocks X).sources.erase b })).join s X =
      some c₁) :
    c₁.literals = c₀.literals ∧ (∀ x, (c₁.blocks x).sources.Nodup) ∧
      ∃ ops ops', Merged c c₂ A b s X ops ops' := by
  obtain ⟨hfalls, -, -, -, hlt, hplain, halone⟩ := h.joined hr₀ hsb hj hsrc
  obtain ⟨hlit, hother, hempty, ops, ops', hs, hX, hself⟩ := join_oplines hlt.ne hjoin
  have hjoined := join_spec hlt.ne (joinable_modify_sources.trans hj) hjoin
  -- before the join only the sources of the block change
  have hXops : ∀ l, ((c₀.modify X ({ · with sources := l })).blocks X).oplines =
      (c₀.blocks X).oplines := fun l => by simp
  have hXedges : ∀ l, ((c₀.modify X ({ · with sources := l })).blocks X).edges =
      (c₀.blocks X).edges := fun l => by simp [ZendCodeBlock.edges]
  rw [modify_blocks_of_ne hlt.ne, hr₀.oplines s hsb] at hs
  rw [hXops, hr₀.oplines X hXb] at hX
  refine ⟨hlit, hjoined.nodup fun x => ?_, ops, ops', ?_⟩
  · have hn := hr₀.nodup x (h.nodup x)
    by_cases hxX : x = X
    · subst hxX
      simpa using hn.erase b
    · rwa [modify_blocks_of_ne hxX]
  constructor
  · exact hsb
  · exact hXb
  · exact hlt
  · exact hs
  · exact hX
  · exact hfalls
  · exact hplain ops hs
  · exact halone
  · exact (hr.oplines s hsb).trans hself
  · rw [hr.edges s hsb, hjoined.edges_self, hXedges, hr₀.edges X hXb]
  · exact (hr.oplines X hXb).trans hempty
  · rw [hr.edges X hXb, hjoined.edges X hlt.ne', hXedges, hr₀.edges X hXb]
  · intro x hxb hxs hxX
    refine ((hr₀.sameCode hxb).trans ⟨?_, ?_⟩).trans (hr.sameCode hxb)
    · rw [hother x hxs hxX, modify_blocks_of_ne hxX]
    · rw [hjoined.edges x hxs, modify_blocks_of_ne hxX]
  · intro t ht htX hmem
    refine hr.sources t (hjoined.listed t ?_ htX ?_)
    · rwa [successors_eq_of_edges (hXedges _), (hr₀.sameCode hXb).successors]
    · rw [modify_blocks_of_ne htX]
      exact hr₀.sources t hmem
  · intro t htX x hxb hxX hmem
    refine hr.sources t (hjoined.sources t htX x ?_ hxX)
    rw [modify_blocks_of_ne htX]
    exact hr₀.sources t hmem

variable [ZendEngine]

/-- The end of the block is rewritten, and its edge to `X` is deleted. Of this the walk sees the new
end of the block. -/
theorem Threads.graft_agrees (h : c.Threads A b k) (hr₀ : Rewired b c c₀)
    (hdel : carefulDel c₀ b X kept new = some c₁) (hr : Rewired b c₁ c₂)
    (hops : (c₂.blocks b).oplines = (c.blocks b).oplines.map (·.modify k f))
    (hedges : ∀ t, some t ∈ (c₂.blocks b).edges → t ∈ A ∧ some t ∈ kept ++ new)
    (hfollow : ∀ t, (c₂.blocks b).followTo = some t → b < t) :
    (c.graft c₂ b).Agrees c₂ b k ∧ ∃ A' ⊆ A, c₂.Threads A' b k := by
  have hn₀ : ∀ x, (c₀.blocks x).sources.Nodup := fun x => hr₀.nodup x (h.nodup x)
  have he : NewEnd c c₂ A b k f :=
    ⟨hops, fun t ht => (hedges t (ZendCodeBlock.mem_successors.mp ht)).1, hfollow⟩
  obtain ⟨hdeletion, hguard⟩ := carefulDel_spec (hn₀ X) hdel
  cases hdeletion with
  | lists _ hcode hlit₁ hsrc hnodup =>
    have hsame : ∀ x ≠ b, SameCode c c₂ x := fun x hx =>
      ((hr₀.sameCode hx).trans (hcode x)).trans (hr.sameCode hx)
    refine ⟨agrees_of_sameCode (Rewired.graft hsame) rfl, A, subset_rfl, ?_⟩
    exact h.newEnd he hsame (fun x hxb t hmem =>
      hr.sources t (hsrc t x (hr₀.sources t hmem) hxb)) fun x => hr.nodup x (hnodup hn₀ x)
  | join s hjoins hsb hsrc hj hjoin =>
    obtain ⟨hXb, hnot⟩ := hguard hjoins
    obtain ⟨-, hnodup, ops, ops', hm⟩ := h.merged hr₀ hr hsb hXb hsrc hj hjoin
    have hbX : X ∉ (c₂.blocks b).successors := fun ht =>
      hnot (hedges X (ZendCodeBlock.mem_successors.mp ht)).2
    exact ⟨hm.agrees h he hbX, A \ {X}, Set.sdiff_subset,
      hm.threads h he hbX fun x => hr.nodup x (hnodup x)⟩

/-- The new end of the block has the exits of the old one. -/
theorem Threads.rewrite (h : c.Threads A b k) (hr₀ : Rewired b c c₀)
    (hdel : carefulDel c₀ b X kept new = some c₁) (hr : Rewired b c₁ c₂)
    (hlit : c₂.literals = c₁.literals)
    (hops : (c₂.blocks b).oplines = (c.blocks b).oplines.map (·.modify k f))
    (hedges : ∀ t, some t ∈ (c₂.blocks b).edges → t ∈ A ∧ some t ∈ kept ++ new)
    (hfollow : ∀ t, (c₂.blocks b).followTo = some t → b < t)
    (hconst : ∀ x ops i o, (c.blocks x).oplines = some ops → ops[i]? = some o →
      (x, i) ≠ (b, k) → SameConstants c c₀ o)
    (hexit : ∀ truth, SameExit c (c.graft c₂ b) b k truth) :
    c.Agrees c₂ b k ∧ ∃ A' ⊆ A, c₂.Threads A' b k := by
  obtain ⟨hagree, hthreads⟩ := h.graft_agrees hr₀ hdel hr hops hedges hfollow
  obtain ⟨-, -, hlit₁⟩ := h.del hr₀ hdel
  refine ⟨(h.agrees_graft hops (fun x ops i o hx hi hne => ?_) hexit).trans hagree, hthreads⟩
  have := hconst x ops i o hx hi hne
  simpa [SameConstants, constant, literal, hlit, hlit₁] using this

end Rewrite

section Thread

/-- The jump goes to `op2_to` if its operand has this truth value. -/
def takesOp2 (op : ZendOpcode) (v : Bool) : Bool :=
  match op with
  | .jmpz | .jmpzEx | .jmpznz => !v
  | .jmpnz | .jmpnzEx => v
  | _ => false

theorem jumpTo_of_takesOp2 {op : ZendOpcode} {v : Bool} {z : ZendCodeBlock}
    (h : takesOp2 op v = true) : z.jumpTo op v = z.op2To := by
  cases op <;> cases v <;> simp_all [takesOp2, ZendCodeBlock.jumpTo]

/-- Another target at `op2_to` -/
theorem jumpTo_of_not_takesOp2 {op : ZendOpcode} {v : Bool} {z z' : ZendCodeBlock}
    (h : takesOp2 op v = false) (h₁ : z'.op1To = z.op1To) (h₃ : z'.extTo = z.extTo)
    (h₄ : z'.followTo = z.followTo) : z'.jumpTo op v = z.jumpTo op v := by
  cases op <;> cases v <;> simp_all [takesOp2, ZendCodeBlock.jumpTo]

theorem Threads.skipNops (h : c.Threads A b k) : ∀ (n : ℕ) {x : ℕ}, x ∈ A →
    c.skipNops n x = some (t, target) → t ∈ A ∧ x ≤ t
  | 0, _, _, hskip => by simp [ZendCfg.skipNops] at hskip
  | n + 1, x, hx, hskip => by
    unfold ZendCfg.skipNops at hskip
    split at hskip
    · cases hskip
    split at hskip
    · obtain ⟨rfl, -⟩ := Prod.mk.inj (Option.some.inj hskip)
      exact ⟨hx, le_rfl⟩
    · obtain ⟨y, hy, hskip⟩ := Option.bind_eq_some_iff.mp hskip
      obtain ⟨ht, hle⟩ := h.skipNops n (h.edge x hx y (followTo_mem_successors hy)) hskip
      exact ⟨ht, (h.follow x y hy).le.trans hle⟩

variable [ZendEngine]

/-- The rewritten end of the block -/
theorem exits_graft (truth : ZnodeType × ℕ → Bool) (hops : (c'.blocks b).oplines = some ops)
    (hi : ops[k]? = some target) (htarget : target.opcode.jumps = true) :
    (c.graft c' b).Exits b k truth
      ((c'.blocks b).jumpTo target.opcode (c'.isTrue truth target.op1))
      (c'.effect target truth) := by
  have := exits_jump (c := c.graft c' b) truth (by rw [graft_blocks_self, hops]) hi htarget
  rwa [graft_blocks_self] at this

/-- The target of `op2_to` has moved along an edge, and the last opline is rewritten. -/
structure Moved (c c' : ZendCfg) (A : Set ℕ) (b k : ℕ) (f : ZendOp → ZendOp) (e : Option ℕ) :
    Prop where
  agrees : (c.graft c' b).Agrees c' b k
  threads : ∃ A' ⊆ A, c'.Threads A' b k
  oplines : (c'.blocks b).oplines = (c.blocks b).oplines.map (·.modify k f)
  literals : c'.literals = c.literals
  op1To : (c'.blocks b).op1To = (c.blocks b).op1To
  op2To : (c'.blocks b).op2To = e
  extTo : (c'.blocks b).extTo = (c.blocks b).extTo
  followTo : (c'.blocks b).followTo = (c.blocks b).followTo
  ne : e ≠ none

omit [ZendEngine] in
theorem map_modify_id {l : Option (List ZendOp)} : l.map (·.modify k id) = l := by
  cases l <;> simp

/-- `del_source` of the block that `op2_to` is, and a new target that the walk comes to -/
theorem Threads.moveOp2 (h : c.Threads A b k) {edge : ZendCodeBlock → Option ℕ}
    (hedge : IsEdge edge) (hX : (c.blocks b).op2To = some X)
    (hskip : c.skipNops n X = some (t, target))
    (hr₀ : Rewired b c c₀) (hedges₀ : ∀ x, (c₀.blocks x).edges = (c.blocks x).edges)
    (hops₀ : (c₀.blocks b).oplines = (c.blocks b).oplines.map (·.modify k f))
    (hlit₀ : c₀.literals = c.literals)
    (hmove : ZendCfg.moveOp2 carefulDel c₀ b t edge = some c₂) :
    c.Moved c₂ A b k f (edge (c.blocks t)) := by
  simp only [ZendCfg.moveOp2, Option.bind_eq_bind, Option.bind_eq_some_iff] at hmove
  obtain ⟨X', hX', c₁, hdel, hmove⟩ := hmove
  obtain ⟨y, hy, rfl⟩ := addSourceOf_spec hmove
  have hb₀ := edges_eq_iff.mp (hedges₀ b)
  obtain rfl : X = X' := by
    rw [hb₀.2.1, hX] at hX'
    exact Option.some.inj hX'
  have hsucc : ∀ z, some z ∈ (c.blocks b).edges → z ∈ A := fun z => h.edge_mem h.mem
  obtain ⟨htA, hle⟩ := h.skipNops n (hsucc X (mem_edges.mpr (by simp [hX]))) hskip
  obtain ⟨hsame, hlater, hlit₁⟩ := h.del hr₀ hdel
  have htEdge : edge (c₁.blocks t) = edge (c.blocks t) :=
    hedge.1 _ _ ((hlater t hle).trans (hedges₀ t))
  have hyEdge : edge (c.blocks t) = some y := by
    rw [← htEdge, ← hy]
    simp [setOp2To]
  have hyA : y ∈ A := by
    refine h.edge_mem htA ?_
    rcases hedge.2 (c.blocks t) with hnone | hmem
    · simp [hyEdge] at hnone
    · rwa [hyEdge] at hmem
  have hb₁ := edges_eq_iff.mp (hsame.edges.trans (hedges₀ b))
  generalize hc₂ : (c₁.setOp2To b (edge (c₁.blocks t))).addSource b y = c₂
  have hr : Rewired b c₁ c₂ := by
    rw [← hc₂]
    exact (rewired_setOp2To _).trans (Rewired.addSource b y _)
  have he : (c₂.blocks b).op1To = (c.blocks b).op1To ∧ (c₂.blocks b).op2To = some y ∧
      (c₂.blocks b).extTo = (c.blocks b).extTo ∧
      (c₂.blocks b).followTo = (c.blocks b).followTo := by
    rw [← hc₂, addSource_op1To, addSource_op2To, addSource_extTo, addSource_followTo]
    simp only [setOp2To, modify_blocks_self, htEdge, hyEdge, hb₁, and_self]
  have hops₂ : (c₂.blocks b).oplines = (c.blocks b).oplines.map (·.modify k f) := by
    rw [← hops₀, ← hsame.oplines, ← hc₂, addSource_oplines]
    simp [setOp2To]
  have hlit₂ : c₂.literals = c₁.literals := by rw [← hc₂]; rfl
  obtain ⟨hagree, hthreads⟩ := h.graft_agrees hr₀ hdel hr hops₂ (fun z hz => by
    rw [mem_edges, he.1, he.2.1, he.2.2.1, he.2.2.2] at hz
    simp only [hb₀, hedge.1 _ _ (hedges₀ t), hyEdge, List.cons_append, List.nil_append,
      List.mem_cons, List.not_mem_nil, or_false]
    rcases hz with hz | hz | hz | hz
    · exact ⟨hsucc z (mem_edges.mpr (.inl hz)), .inl hz.symm⟩
    · exact ⟨Option.some.inj hz ▸ hyA, .inr (.inr (.inr hz.symm))⟩
    · exact ⟨hsucc z (mem_edges.mpr (.inr (.inr (.inl hz)))), .inr (.inl hz.symm)⟩
    · exact ⟨hsucc z (mem_edges.mpr (.inr (.inr (.inr hz)))), .inr (.inr (.inl hz.symm))⟩)
    fun z hz => h.follow b z (he.2.2.2 ▸ hz)
  exact ⟨hagree, hthreads, hops₂, hlit₂.trans (hlit₁.trans hlit₀), he.1, he.2.1.trans hyEdge.symm,
    he.2.2.1, he.2.2.2, by simp [hyEdge]⟩

/-- The target of `op2_to` moves, and the jump stays as it is. -/
theorem Threads.moveOp2_same (h : c.Threads A b k) {edge : ZendCodeBlock → Option ℕ}
    (hedge : IsEdge edge) (hX : (c.blocks b).op2To = some X)
    (hskip : c.skipNops n X = some (t, target))
    (hmove : ZendCfg.moveOp2 carefulDel c b t edge = some c₂) :
    c.Moved c₂ A b k id (edge (c.blocks t)) :=
  h.moveOp2 hedge hX hskip (.refl b c) (fun _ => rfl) map_modify_id.symm rfl hmove

section Moved

variable {e : Option ℕ} (hm : c.Moved c' A b k f e) (hops : (c.blocks b).oplines = some ops)
  (hlast : ops[k]? = some last) (hfjump : (f last).opcode.jumps = true)
  (hfop1 : (f last).op1 = last.op1)
  (hfto : ∀ (z : ZendCodeBlock) v, z.jumpTo (f last).opcode v = z.jumpTo last.opcode v)
include hm hops hlast hfjump hfop1 hfto

/-- What the rewritten jump does -/
theorem Moved.walk (truth : ZnodeType × ℕ → Bool) :
    (c.graft c' b).walk b k ⟨b, k, truth⟩ =
      enter (if takesOp2 last.opcode (c.isTrue truth last.op1) then e
        else (c.blocks b).jumpTo last.opcode (c.isTrue truth last.op1))
        (c.effect (f last) truth) := by
  have hsame : SameConstants c (c.graft c' b) (f last) := .of_literals hm.literals
  have hops' : ((c.graft c' b).blocks b).oplines = some (ops.modify k f) := by
    rw [graft_blocks_self, hm.oplines, hops]
    rfl
  rw [walk_jump hops' (by simp [hlast]) hfjump, hsame.effect, hsame.isTrue, hfop1, hfto,
    graft_blocks_self]
  split_ifs with htakes
  · rw [jumpTo_of_takesOp2 htakes, hm.op2To]
  · rw [jumpTo_of_not_takesOp2 (by simpa using htakes) hm.op1To hm.extTo hm.followTo]

/-- The jump at the target takes the edge that the target of `op2_to` has moved along. -/
theorem Moved.agrees_of_thread (h : c.Threads A b k) (hjump : last.opcode.jumps = true)
    (hX : (c.blocks b).op2To = some X) (hskip : c.skipNops n X = some (t, target))
    (htarget : target.opcode.jumps = true)
    (harm : ∀ truth, takesOp2 last.opcode (c.isTrue truth last.op1) = true →
      (c.blocks t).jumpTo target.opcode (c.isTrue (c.effect last truth) target.op1) = e ∧
        c.effect target (c.effect last truth) = c.effect (f last) truth)
    (hother : ∀ truth, takesOp2 last.opcode (c.isTrue truth last.op1) = false →
      c.effect (f last) truth = c.effect last truth) : c.Agrees c' b k := by
  refine (h.agrees_graft hm.oplines (fun _ _ _ _ _ _ _ => .of_literals hm.literals)
    fun truth => ?_).trans hm.agrees
  have hold := exits_jump truth hops hlast hjump
  have hnew : (c.graft c' b).Exits b k truth _ _ :=
    ⟨0, _, .refl _, hm.walk hops hlast hfjump hfop1 hfto truth⟩
  cases htakes : takesOp2 last.opcode (c.isTrue truth last.op1) with
  | true =>
    rw [jumpTo_of_takesOp2 htakes, hX] at hold
    rw [if_pos htakes] at hnew
    obtain ⟨hto, heffect⟩ := harm truth htakes
    have hthread := hold.thread hskip htarget
    rw [hto, heffect] at hthread
    exact hthread.sameExit hnew
  | false =>
    rw [if_neg (by simp [htakes]), hother truth htakes] at hnew
    exact hold.sameExit hnew

/-- Whether the new target can be told is a question about the old graph. -/
theorem Moved.agrees_iff (h : c.Threads A b k) (hjump : last.opcode.jumps = true)
    (hedges : ∀ v, (c.blocks b).jumpTo last.opcode v ≠ none)
    {exit : (ZnodeType × ℕ → Bool) → Move Place Unit Found}
    (hexit : ∀ truth, exit truth =
      enter (if takesOp2 last.opcode (c.isTrue truth last.op1) then e
        else (c.blocks b).jumpTo last.opcode (c.isTrue truth last.op1))
        (c.effect (f last) truth)) : c.Agrees c' b k ↔ c.Harmless b k exit := by
  have hsilent : ∀ e truth, e ≠ none → ∃ s, enter e truth = .silent s := by
    intro e truth he
    obtain ⟨t, rfl⟩ := Option.ne_none_iff_exists'.mp he
    exact ⟨_, rfl⟩
  have hwalk : (c.graft c' b).walk b k = c.walkBy b k exit := by
    funext ⟨x, i, truth⟩
    by_cases hs : x = b ∧ i = k
    · obtain ⟨rfl, rfl⟩ := hs
      rw [walkBy_self, hm.walk hops hlast hfjump hfop1 hfto, hexit]
    rw [walkBy, if_neg hs]
    by_cases hx : x = b
    · subst hx
      have hi : k ≠ i := fun hi => hs ⟨rfl, hi.symm⟩
      have hops' : ((c.graft c' x).blocks x).oplines = some (ops.modify k f) := by
        rw [graft_blocks_self, hm.oplines, hops]
        rfl
      have hget : (ops.modify k f)[i]? = ops[i]? := by simp [hi]
      cases ho : ops[i]? with
      | none =>
        rw [walk_end hops ho, walk_end hops' (hget.trans ho), graft_blocks_self, hm.followTo]
      | some o =>
        have hlen := h.last ops hops
        have hlt : i < ops.length := (List.getElem?_eq_some_iff.mp ho).1
        have hplain := h.plain ops i o hops (by omega) ho
        have hsame : SameConstants c (c.graft c' x) o := .of_literals hm.literals
        simp only [ZendCfg.walk, hops, hops', hget, ho, hplain, hsame.effect, hsame.found,
          Bool.false_eq_true, if_false]
    · refine walk_congr ⟨?_, ?_⟩ fun _ _ _ _ => .of_literals hm.literals
      · rw [graft_blocks_of_ne hx]
      · rw [graft_blocks_of_ne hx]
  have hharmless : c.Harmless b k exit ↔ c.Agrees (c.graft c' b) b k := by
    rw [harmless_iff fun truth => ⟨?_, ?_⟩, ← hwalk]
    · rfl
    · rw [walk_jump hops hlast hjump]
      exact hsilent _ _ (hedges _)
    · rw [hexit]
      refine hsilent _ _ ?_
      split_ifs
      · exact hm.ne
      · exact hedges _
  rw [hharmless]
  exact hm.agrees.iff_of_right

end Moved

end Thread

end ZendCfg

end ZendOpcache
