import ZendOpcache.Persist.Image

/-! # The graph of the image

The image of a script in shared memory is the graph of a script again: parents come first, and the
pointers of a class lead to itself and its ancestors. Loading starts from this graph.
-/

namespace ZendOpcache

namespace Persist

open Relation

variable {M : ScriptMemory} {script script' : ZendPersistentScript} {st : CopyState} {n : ℕ}
  {a b s : Addr}

theorem forall₂_split {α β : Type*} {R : α → β → Prop} {b : β} {l₂' : List β} :
    ∀ {l₁' : List β} {l : List α}, List.Forall₂ R l (l₁' ++ b :: l₂') →
      ∃ l₁ a l₂, l = l₁ ++ a :: l₂ ∧ List.Forall₂ R l₁ l₁' ∧ R a b := by
  intro l₁'
  induction l₁' with
  | nil =>
    intro l h
    cases h with
    | cons hab _ => exact ⟨[], _, _, rfl, .nil, hab⟩
  | cons b' l₁' ih =>
    intro l h
    cases h with
    | cons hab htail =>
      obtain ⟨l₁, a, l₂, rfl, hl, ha⟩ := ih htail
      exact ⟨_ :: l₁, a, l₂, rfl, .cons hab hl, ha⟩

/-- The class at a bucket of the script, with its image -/
theorem ImageOf.cls (hi : ImageOf M script st script') {e : HashKey × Addr}
    (hmem : e ∈ script.classTable) {c : ZendClassEntry} (hc : M.classes e.2 = some c) :
    ∃ e' ∈ script'.classTable, EntryRel (fun a b => st.cl.classXlat a = some b) e e' ∧
      ∃ c', st.cl.classes e'.2 = some c' ∧ LinkedClass M st c c' := by
  obtain ⟨e', hmem', hx, d, c', hd, hc', hl⟩ := forall₂_left hi.classes hmem
  obtain rfl : d = c := Option.some.inj (hd.symm.trans hc)
  exact ⟨e', hmem', hx, c', hc', hl⟩

theorem ImageOf.parent (hi : ImageOf M script st script') {e : HashKey × Addr}
    (hmem : e ∈ script.classTable) (hp : ParentOf M e.2 s) (hb : st.cl.classXlat e.2 = some b) :
    ∃ q, st.cl.classXlat s = some q ∧ ParentOf st.memory b q := by
  obtain ⟨c, hc, hparent⟩ := hp
  obtain ⟨e', -, ⟨-, hx⟩, c', hc', hl⟩ := hi.cls hmem hc
  obtain rfl : e'.2 = b := Option.some.inj (hx.symm.trans hb)
  have hrel := hl.parent
  rw [hparent] at hrel
  obtain ⟨q, hq, hsq⟩ := rel_some_left hrel
  exact ⟨q, hsq, c', hc', hq⟩

theorem ImageOf.ancestor (hg : ScriptGraph InProcess n M script) (hi : ImageOf M script st script')
    (h : ReflTransGen (ParentOf M) a s) : ∀ {e : HashKey × Addr} {b : Addr},
      e ∈ script.classTable → e.2 = a → st.cl.classXlat a = some b →
        ∃ t, st.cl.classXlat s = some t ∧ ReflTransGen (ParentOf st.memory) b t := by
  induction h using ReflTransGen.head_induction_on with
  | refl => exact fun _ _ hb => ⟨_, hb, .refl⟩
  | head hap _ ih =>
    rintro e b hmem rfl hb
    obtain ⟨e₁, he₁, hp⟩ := hg.ancestor_in hmem (.single hap)
    obtain ⟨q, hq, hparent⟩ := hi.parent hmem hap hb
    obtain ⟨t, ht, hanc⟩ := ih he₁ hp hq
    exact ⟨t, ht, .head hparent hanc⟩

theorem ImageOf.properAncestor (hg : ScriptGraph InProcess n M script)
    (hi : ImageOf M script st script') {e : HashKey × Addr} (hmem : e ∈ script.classTable)
    (h : TransGen (ParentOf M) e.2 s) (hb : st.cl.classXlat e.2 = some b) :
    ∃ t, st.cl.classXlat s = some t ∧ TransGen (ParentOf st.memory) b t := by
  obtain ⟨p, hap, hps⟩ := TransGen.head'_iff.mp h
  obtain ⟨e₁, he₁, hp⟩ := hg.ancestor_in hmem (.single hap)
  obtain ⟨q, hq, hparent⟩ := hi.parent hmem hap hb
  obtain ⟨t, ht, hanc⟩ := hi.ancestor hg hps he₁ hp hq
  exact ⟨t, ht, .head' hparent hanc⟩

/-- A method has its image in the image of its class. -/
theorem ImageOf.method (hi : ImageOf M script st script') {e : HashKey × Addr} {f g : Addr}
    (hmem : e ∈ script.classTable) (hf : IsMethod M e.2 f) (hb : st.cl.classXlat e.2 = some b)
    (hg : st.cl.functionXlat f = some g) : IsMethod st.memory b g := by
  obtain ⟨c, k, hc, hm⟩ := hf
  obtain ⟨e', -, ⟨-, hx⟩, c', hc', hl⟩ := hi.cls hmem hc
  obtain rfl : e'.2 = b := Option.some.inj (hx.symm.trans hb)
  obtain ⟨⟨k', g'⟩, hm', ⟨-, hg'⟩, -⟩ := forall₂_left hl.methods hm
  obtain rfl : g' = g := Option.some.inj (hg'.symm.trans hg)
  exact ⟨c', k', hc', hm'⟩

/-- The methods of an image are images of methods. -/
theorem ImageOf.method_right (hi : ImageOf M script st script') {e' : HashKey × Addr} {g : Addr}
    (hmem : e' ∈ script'.classTable) (hg : IsMethod st.memory e'.2 g) :
    ∃ e ∈ script.classTable, st.cl.classXlat e.2 = some e'.2 ∧
      ∃ f, IsMethod M e.2 f ∧ st.cl.functionXlat f = some g := by
  obtain ⟨d, k, hd, hm'⟩ := hg
  obtain ⟨e, hmem, ⟨-, hx⟩, c, c', hc, hc', hl⟩ := forall₂_right hi.classes hmem
  obtain rfl : c' = d := Option.some.inj (hc'.symm.trans hd)
  obtain ⟨m, hm, ⟨-, hmg⟩, -⟩ := forall₂_right hl.methods hm'
  exact ⟨e, hmem, hx, m.2, ⟨c, m.1, hc, hm⟩, hmg⟩

theorem ImageOf.within (hi : ImageOf M script st script') (hab : st.zv.xlat a = some b)
    (ha : Within InProcess M.zvals n a) : Within InShared st.zv.zvals n b :=
  (hi.values.sameValue hi.done hab ha).2

theorem ImageOf.functionValues (hi : ImageOf M script st script') {f f' : ZendFunction}
    (hf : FunctionValues InProcess n M f) (hs : SameZvals st.zv f f') :
    FunctionValues InShared n st.memory f' where
  literals b hb := by
    obtain ⟨a, ha, hab⟩ := forall₂_right hs.literals hb
    exact hi.within hab (hf.literals a ha)
  statics e' he' := by
    obtain ⟨e, he, hee⟩ := forall₂_right hs.statics he'
    exact hi.within hee.2 (hf.statics e he)

theorem ImageOf.classValues (hi : ImageOf M script st script') {c c' : ZendClassEntry}
    (hc : ClassValues InProcess n M c) (hs : SameClassZvals st.zv c c') :
    ClassValues InShared n st.memory c' where
  properties slot' hmem' b hb := by
    obtain ⟨slot, hmem, hrel⟩ := forall₂_right hs.properties hmem'
    obtain rfl : slot' = some b := hb
    obtain ⟨a, rfl, hab⟩ := rel_some_right hrel
    exact hi.within hab (hc.properties _ hmem a rfl)
  statics slot' hmem' b hb := by
    obtain ⟨slot, hmem, hrel⟩ := forall₂_right hs.statics hmem'
    obtain rfl : slot' = some b := hb
    obtain ⟨a, rfl, hab⟩ := rel_some_right hrel
    exact hi.within hab (hc.statics _ hmem a rfl)
  constants e' he' := by
    obtain ⟨e, he, hee⟩ := forall₂_right hs.constants he'
    exact hi.within hee.2 (hc.constants e he)

theorem unlinked_image {f f' : ZendFunction} (hf : Unlinked f) (h : FunctionImage st f f') :
    Unlinked f' := by
  have hs := h.scope
  have hp := h.prototype
  rw [hf.scope] at hs
  rw [hf.prototype] at hp
  constructor
  · cases hs' : f'.scope with
    | none => rfl
    | some s => rw [hs'] at hs; cases hs
  · cases hp' : f'.prototype with
    | none => rfl
    | some p => rw [hp'] at hp; cases hp

/-- The image of a class -/
theorem ImageOf.classBlock (hg : ScriptGraph InProcess n M script)
    (hi : ImageOf M script st script')
    {e e' : HashKey × Addr} (hmem : e ∈ script.classTable)
    (hx : st.cl.classXlat e.2 = some e'.2) {c c' : ZendClassEntry}
    (hc : ClassBlock InProcess n M e.2 c)
    (hc' : st.cl.classes e'.2 = some c') (hl : LinkedClass M st c c') :
    ClassBlock InShared n st.memory e'.2 c' where
  block := hc'
  refcount := hc.refcount.trans hl.refcount
  values := hi.classValues hc.values hl.zvals
  links := by
    constructor
    · intro i g hgi
      have hrel := hl.handler i
      rw [hgi] at hrel
      obtain ⟨f, hf, hfg⟩ := rel_some_right hrel
      obtain ⟨s, hs, hm⟩ := hc.links.handler i f hf
      obtain ⟨e₁, he₁, rfl⟩ := hg.ancestor_in hmem hs
      obtain ⟨t, ht, hanc⟩ := hi.ancestor hg hs hmem rfl hx
      exact ⟨t, hanc, hi.method he₁ hm ht hfg⟩
    · intro p' hp'
      obtain ⟨p, hp, -, hrel⟩ := forall₂_right hl.info hp'
      obtain ⟨s, hs, hanc⟩ := hc.links.owner p hp
      rw [hs] at hrel
      obtain ⟨t, ht, hst⟩ := rel_some_left hrel
      obtain ⟨t', ht', hanc'⟩ := hi.ancestor hg hanc hmem rfl hx
      obtain rfl : t = t' := Option.some.inj (hst.symm.trans ht')
      exact ⟨t, ht, hanc'⟩
  buckets := by
    have hvalues := forall₂_values (hl.methods.imp fun _ _ hm => hm.1)
    exact forall₂_nodup hi.blocks.functionXlat.inj hvalues.2 hc.buckets
  method := by
    intro m' hm'
    obtain ⟨m, hm, ⟨-, hxm⟩, f, f', hf, hf', himage⟩ := forall₂_right hl.methods hm'
    obtain ⟨-, f₀, hf₀, hv, hlinks⟩ := hc.method m hm
    obtain rfl : f = f₀ := Option.some.inj (hf.symm.trans hf₀)
    obtain ⟨k, -, hk⟩ := hi.blocks.functionXlat.target _ _ hxm
    refine ⟨⟨k, hk⟩, f', hf', hi.functionValues hv himage.zvals, ?_, ?_⟩
    · obtain ⟨s, hs, hanc⟩ := hlinks.scope
      have hrel := himage.scope
      rw [hs] at hrel
      obtain ⟨t, ht, hst⟩ := rel_some_left hrel
      obtain ⟨t', ht', hanc'⟩ := hi.ancestor hg hanc hmem rfl hx
      obtain rfl : t = t' := Option.some.inj (hst.symm.trans ht')
      exact ⟨t, ht, hanc'⟩
    · intro q hq
      have hrel := himage.prototype
      rw [hq] at hrel
      obtain ⟨p, hp, hpq⟩ := rel_some_right hrel
      obtain ⟨s, hs, hm⟩ := hlinks.prototype p hp
      obtain ⟨e₁, he₁, rfl⟩ := hg.ancestor_in hmem hs.to_reflTransGen
      obtain ⟨t, ht, hanc⟩ := hi.properAncestor hg hmem hs hx
      exact ⟨t, hanc, hi.method he₁ hm ht hpq⟩

/-- The image is the graph of a script in shared memory. -/
theorem ImageOf.scriptGraph (hg : ScriptGraph InProcess n M script)
    (hi : ImageOf M script st script') : ScriptGraph InShared n st.memory script' := by
  have hclasses := forall₂_values (hi.classes.imp fun _ _ he => he.1)
  have hfunctions := forall₂_values (hi.functions.imp fun _ _ he => he.1)
  constructor
  · rw [← hclasses.1]
    exact hg.classKeys
  · exact forall₂_nodup hi.blocks.classXlat.inj hclasses.2 hg.classBuckets
  · rw [← hfunctions.1]
    exact hg.functionKeys
  · exact forall₂_nodup hi.blocks.functionXlat.inj hfunctions.2 hg.functionBuckets
  · intro e' hmem'
    obtain ⟨e, hmem, ⟨-, hx⟩, c, c', hc, hc', hl⟩ := forall₂_right hi.classes hmem'
    obtain ⟨-, d, hd⟩ := hg.cls e hmem
    obtain rfl : c = d := Option.some.inj (hc.symm.trans hd.block)
    obtain ⟨k, -, hk⟩ := hi.blocks.classXlat.target _ _ hx
    exact ⟨⟨k, hk⟩, c', hi.classBlock hg hmem hx hd hc' hl⟩
  · intro e' hmem'
    obtain ⟨e, hmem, ⟨-, hx⟩, f, f', hf, hf', himage⟩ := forall₂_right hi.functions hmem'
    obtain ⟨-, g, hg', hv, hu⟩ := hg.function e hmem
    obtain rfl : f = g := Option.some.inj (hf.symm.trans hg')
    obtain ⟨k, -, hk⟩ := hi.blocks.functionXlat.target _ _ hx
    exact ⟨⟨k, hk⟩, f', hf', hi.functionValues hv himage.zvals, unlinked_image hu himage⟩
  · exact ⟨hi.functionValues hg.main.1 hi.main.zvals, unlinked_image hg.main.2 hi.main⟩
  · intro e₁' he₁' e₂' he₂' g hg₁ hg₂
    obtain ⟨e₁, he₁, hx₁, f₁, hf₁, hfg₁⟩ := hi.method_right he₁' hg₁
    obtain ⟨e₂, he₂, hx₂, f₂, hf₂, hfg₂⟩ := hi.method_right he₂' hg₂
    obtain rfl := hi.blocks.functionXlat.inj f₁ f₂ g hfg₁ hfg₂
    have hsame := hg.oneClass e₁ he₁ e₂ he₂ f₁ hf₁ hf₂
    rw [hsame] at hx₁
    exact Option.some.inj (hx₁.symm.trans hx₂)
  · intro e' he' e₁' he₁' hm
    obtain ⟨e₁, he₁, -, f, hf, hfg⟩ := hi.method_right he₁' hm
    obtain ⟨e, he, ⟨-, hx⟩, -⟩ := forall₂_right hi.functions he'
    obtain rfl := hi.blocks.functionXlat.inj _ _ _ hx hfg
    exact hg.notMethod e he e₁ he₁ hf
  · rintro l₁' e' l₂' hl' q ⟨c', hc', hq⟩
    have hsplit := hi.classes
    rw [hl'] at hsplit
    obtain ⟨l₁, e, l₂, hl, hbefore, hx, c, d, hc, hd, hlink⟩ := forall₂_split hsplit
    obtain rfl : d = c' := Option.some.inj (hd.symm.trans hc')
    have hrel := hlink.parent
    rw [hq] at hrel
    obtain ⟨p, hp, hpq⟩ := rel_some_right hrel
    obtain ⟨e₁, he₁, rfl⟩ := List.mem_map.mp (hg.parentFirst l₁ e l₂ hl p ⟨c, hc, hp⟩)
    obtain ⟨e₁', he₁', ⟨-, hx₁⟩, -⟩ := forall₂_left hbefore he₁
    obtain rfl : e₁'.2 = q := Option.some.inj (hx₁.symm.trans hpq)
    exact List.mem_map_of_mem he₁'

end Persist

end ZendOpcache
