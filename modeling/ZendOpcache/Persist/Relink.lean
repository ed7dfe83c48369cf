import ZendOpcache.Persist.StoreMethods

/-! # The pointers of classes

`zend_update_parent_ce` for every class in shared memory. Parents and the methods that classes point
to are counted, and these counts are the marks that loading looks at.
-/

namespace ZendOpcache

namespace Persist

/-- The class with a higher reference count -/
def RefUp (c c' : ZendClassEntry) : Prop := ∃ k, c' = { c with refcount := c.refcount + k }

theorem RefUp.refl (c : ZendClassEntry) : RefUp c c := ⟨0, rfl⟩

theorem RefUp.trans {c c' c'' : ZendClassEntry} (h : RefUp c c') (h' : RefUp c' c'') :
    RefUp c c'' := by
  obtain ⟨k, rfl⟩ := h
  obtain ⟨k', rfl⟩ := h'
  exact ⟨k + k', by rw [← Nat.add_assoc]⟩

/-- The class with the pointers that the translation tables have for its pointers -/
def relink (cl : ClassState) (c : ZendClassEntry) : ZendClassEntry :=
  { c with
    parent := c.parent.bind cl.classXlat
    handler := fun h => (c.handler h).bind cl.functionXlat
    propertiesInfo := c.propertiesInfo.map fun p => (p.1, p.2.bind cl.classXlat) }

theorem RefUp.relink {c c' : ZendClassEntry} (h : RefUp c c') (cl : ClassState) :
    RefUp (relink cl c) (relink cl c') := by
  obtain ⟨k, rfl⟩ := h
  exact ⟨k, rfl⟩

variable {M : ScriptMemory} {cl cl' cl'' : ClassState} {a b x : Addr} {c c' : ZendClassEntry}
  {l : List Addr} {k : ℕ}

theorem relink_congr (hclass : cl'.classXlat = cl.classXlat)
    (hfunction : cl'.functionXlat = cl.functionXlat) (c : ZendClassEntry) :
    relink cl' c = relink cl c := by
  simp only [relink, hclass, hfunction]

theorem writeClass_self (h : cl.classes b = some c) : cl.writeClass b c = cl := by
  have hupdate : Function.update cl.classes b (some c) = cl.classes := by
    rw [← h, Function.update_eq_self]
  simp only [ClassState.writeClass, hupdate]

theorem CountedTo.trans (h : CountedTo M cl cl') (h' : CountedTo M cl' cl'') :
    CountedTo M cl cl'' where
  inv := h'.inv
  classes := h'.classes.trans h.classes
  classXlat := h'.classXlat.trans h.classXlat
  functionXlat := h'.functionXlat.trans h.functionXlat
  nextClass := h'.nextClass.trans h.nextClass
  nextFunction := h'.nextFunction.trans h.nextFunction
  functions y f hf := by
    obtain ⟨f', hf', hc⟩ := h.functions y f hf
    obtain ⟨f'', hf'', hc'⟩ := h'.functions y f' hf'
    exact ⟨f'', hf'', hc.trans hc'⟩

/-- Another write of the same class -/
theorem CountedTo.writeClass (h : CountedTo M (cl.writeClass (.shared k) c) cl')
    (c' : ZendClassEntry) :
    CountedTo M (cl.writeClass (.shared k) c') (cl'.writeClass (.shared k) c') where
  inv := h.inv.writeClass k c'
  classes := by simp [ClassState.writeClass, h.classes]
  classXlat := h.classXlat
  functionXlat := h.functionXlat
  nextClass := h.nextClass
  nextFunction := h.nextFunction
  functions := h.functions

/-! ## Methods that the class points to -/

theorem updateHandler_spec (hcl : StoringClasses M cl) (hc : cl.classes (.shared k) = some c)
    (h : Handler) (hready : ∀ f, c.handler h = some f → ∃ g, cl.functionXlat f = some g) :
    ∃ cl', updateHandler (.shared k) cl h = .ok cl' ∧
      CountedTo M (cl.writeClass (.shared k) { c with
        handler := Function.update c.handler h ((c.handler h).bind cl.functionXlat) }) cl' ∧
      ∀ g, (c.handler h).bind cl.functionXlat = some g →
        ∃ f, cl'.functions g = some f ∧ f.refcount ≠ 0 := by
  unfold updateHandler
  simp only [hc, deref_some, bind, Except.bind]
  cases hf : c.handler h with
  | none =>
    have hsame : Function.update c.handler h none = c.handler := by
      rw [← hf, Function.update_eq_self]
    refine ⟨cl, rfl, ?_, by simp⟩
    rw [Option.bind_none, hsame, writeClass_self hc]
    exact .refl hcl
  | some f =>
    obtain ⟨g, hg⟩ := hready f hf
    obtain ⟨cl', hcount, hto, hmark⟩ := countFunction_spec
      (hcl.writeClass k { c with handler := Function.update c.handler h (some g) }) hg
    refine ⟨cl', ?_, ?_, ?_⟩
    · simp only [hg, deref_some]
      exact hcount
    · rw [Option.bind_some, hg]
      exact hto
    · intro g' hg'
      rw [Option.bind_some, hg] at hg'
      obtain rfl := Option.some.inj hg'
      exact hmark

/-- The methods of some kinds replaced by those that the table has for them -/
def handlersOf (cl : ClassState) (c : ZendClassEntry) (hs : List Handler) (h : Handler) :
    Option Addr :=
  if h ∈ hs then (c.handler h).bind cl.functionXlat else c.handler h

theorem updateHandlers_spec : ∀ (hs : List Handler) (cl : ClassState) (c : ZendClassEntry),
    StoringClasses M cl → cl.classes (.shared k) = some c → hs.Nodup →
      (∀ h ∈ hs, ∀ f, c.handler h = some f → ∃ g, cl.functionXlat f = some g) →
      ∃ cl', hs.foldlM (updateHandler (.shared k)) cl = .ok cl' ∧
        CountedTo M (cl.writeClass (.shared k) { c with handler := handlersOf cl c hs }) cl' ∧
        ∀ h ∈ hs, ∀ g, (c.handler h).bind cl.functionXlat = some g →
          ∃ f, cl'.functions g = some f ∧ f.refcount ≠ 0 := by
  intro hs
  induction hs with
  | nil =>
    intro cl c hcl hc _ _
    have hsame : handlersOf cl c [] = c.handler := by
      funext h
      simp [handlersOf]
    refine ⟨cl, rfl, ?_, by simp⟩
    rw [hsame, writeClass_self hc]
    exact .refl hcl
  | cons h hs ih =>
    intro cl c hcl hc hnodup hready
    obtain ⟨hnew, hnodup⟩ := List.nodup_cons.mp hnodup
    obtain ⟨cl₁, hupdate, hto, hmark⟩ :=
      updateHandler_spec hcl hc h (hready h List.mem_cons_self)
    let c₁ : ZendClassEntry := { c with
      handler := Function.update c.handler h ((c.handler h).bind cl.functionXlat) }
    have hc₁ : cl₁.classes (.shared k) = some c₁ := by
      rw [hto.classes]
      simp [ClassState.writeClass, c₁]
    have hxlat : cl₁.functionXlat = cl.functionXlat := hto.functionXlat
    have hother : ∀ h' ∈ hs, c₁.handler h' = c.handler h' := by
      intro h' hmem
      have hne : h' ≠ h := fun he => hnew (he ▸ hmem)
      simp [c₁, hne]
    obtain ⟨cl₂, hfold, hto₂, hmark₂⟩ := ih cl₁ c₁ hto.inv hc₁ hnodup (by
      intro h' hmem f hf
      rw [hother h' hmem] at hf
      rw [hxlat]
      exact hready h' (List.mem_cons_of_mem _ hmem) f hf)
    have hhandlers : handlersOf cl₁ c₁ hs = handlersOf cl c (h :: hs) := by
      funext h'
      by_cases hmem : h' ∈ hs
      · simp [handlersOf, hmem, hxlat, hother h' hmem]
      · by_cases hh : h' = h
        · subst hh
          simp [handlersOf, hmem, c₁]
        · simp [handlersOf, hmem, hh, c₁]
    refine ⟨cl₂, ?_, ?_, ?_⟩
    · rw [List.foldlM_cons, hupdate]
      exact hfold
    · rw [hhandlers] at hto₂
      exact (hto.writeClass _).trans hto₂
    · intro h' hmem g hg
      rcases List.mem_cons.mp hmem with rfl | hmem
      · obtain ⟨f, hf, hne⟩ := hmark g hg
        obtain ⟨f', hf', hup⟩ := hto₂.functions g f hf
        exact ⟨f', hf', hup.ne_zero hne⟩
      · apply hmark₂ h' hmem
        rw [hother h' hmem, hxlat, hg]

/-! ## Classes one after the other -/

/-- What `zend_update_parent_ce` does for the classes at the addresses `l` -/
structure RelinkedTo (M : ScriptMemory) (cl : ClassState) (l : List Addr) (cl' : ClassState) :
    Prop where
  inv : StoringClasses M cl'
  classXlat : cl'.classXlat = cl.classXlat
  functionXlat : cl'.functionXlat = cl.functionXlat
  functions : ∀ x f, cl.functions x = some f → ∃ f', cl'.functions x = some f' ∧ CountedUp f f'
  block : ∀ x ∈ l, ∀ c, cl.classes x = some c →
    ∃ c', cl'.classes x = some c' ∧ RefUp (relink cl c) c'
  others : ∀ x ∉ l, ∀ c, cl.classes x = some c → ∃ c', cl'.classes x = some c' ∧ RefUp c c'
  parent : ∀ x ∈ l, ∀ c q, cl.classes x = some c → c.parent.bind cl.classXlat = some q →
    ∃ d', cl'.classes q = some d' ∧ ∀ d, cl.classes q = some d → d.refcount < d'.refcount
  handler : ∀ x ∈ l, ∀ c h g, cl.classes x = some c → (c.handler h).bind cl.functionXlat = some g →
    ∃ f, cl'.functions g = some f ∧ f.refcount ≠ 0

/-- The pointers of a class in shared memory lead to blocks that are in the tables. -/
structure ReadyToRelink (cl : ClassState) (b : Addr) (c : ZendClassEntry) : Prop where
  entered : ∃ a, cl.classXlat a = some b
  parent : ∀ p, c.parent = some p → ∃ q, cl.classXlat p = some q ∧ q ≠ b
  handler : ∀ h f, c.handler h = some f → ∃ g, cl.functionXlat f = some g

/-- The counts of classes are only counted up. -/
theorem RelinkedTo.refcount (h : RelinkedTo M cl l cl') (hc : cl.classes x = some c) :
    ∃ c', cl'.classes x = some c' ∧ c.refcount ≤ c'.refcount := by
  by_cases hx : x ∈ l
  · obtain ⟨c', hc', k, rfl⟩ := h.block x hx c hc
    exact ⟨_, hc', Nat.le_add_right _ _⟩
  · obtain ⟨c', hc', k, rfl⟩ := h.others x hx c hc
    exact ⟨_, hc', Nat.le_add_right _ _⟩

theorem RelinkedTo.refl (h : StoringClasses M cl) : RelinkedTo M cl [] cl :=
  ⟨h, rfl, rfl, fun _ f hf => ⟨f, hf, .refl f⟩, by simp, fun _ _ c hc => ⟨c, hc, .refl c⟩, by simp,
    by simp⟩

theorem RelinkedTo.cons (h : RelinkedTo M cl [b] cl') (h' : RelinkedTo M cl' l cl'') (hb : b ∉ l) :
    RelinkedTo M cl (b :: l) cl'' := by
  have hlink : ∀ c, relink cl' c = relink cl c := relink_congr h.classXlat h.functionXlat
  have hfirst : ∀ {x c}, x ∈ l → cl.classes x = some c →
      ∃ c', cl'.classes x = some c' ∧ RefUp c c' := by
    intro x c hx hc
    have hne : x ∉ [b] := by
      rw [List.mem_singleton]
      rintro rfl
      exact hb hx
    exact h.others x hne c hc
  constructor
  · exact h'.inv
  · exact h'.classXlat.trans h.classXlat
  · exact h'.functionXlat.trans h.functionXlat
  · intro x f hf
    obtain ⟨f', hf', hc⟩ := h.functions x f hf
    obtain ⟨f'', hf'', hc'⟩ := h'.functions x f' hf'
    exact ⟨f'', hf'', hc.trans hc'⟩
  · intro x hx c hc
    rcases List.mem_cons.mp hx with rfl | hx
    · obtain ⟨c', hc', hup⟩ := h.block x (List.mem_singleton_self x) c hc
      obtain ⟨c'', hc'', hup'⟩ := h'.others x hb c' hc'
      exact ⟨c'', hc'', hup.trans hup'⟩
    · obtain ⟨c', hc', hup⟩ := hfirst hx hc
      obtain ⟨c'', hc'', hup'⟩ := h'.block x hx c' hc'
      rw [hlink] at hup'
      exact ⟨c'', hc'', (hup.relink cl).trans hup'⟩
  · intro x hx c hc
    rw [List.mem_cons, not_or] at hx
    obtain ⟨c', hc', hup⟩ := h.others x (by simpa using hx.1) c hc
    obtain ⟨c'', hc'', hup'⟩ := h'.others x hx.2 c' hc'
    exact ⟨c'', hc'', hup.trans hup'⟩
  · intro x hx c q hc hq
    rcases List.mem_cons.mp hx with rfl | hx
    · obtain ⟨d', hd', hlt⟩ := h.parent x (List.mem_singleton_self x) c q hc hq
      obtain ⟨d'', hd'', hle⟩ := h'.refcount hd'
      exact ⟨d'', hd'', fun d hd => Nat.lt_of_lt_of_le (hlt d hd) hle⟩
    · obtain ⟨c', hc', k, rfl⟩ := hfirst hx hc
      have hq' : c.parent.bind cl'.classXlat = some q := by rw [h.classXlat, hq]
      obtain ⟨d'', hd'', hlt⟩ := h'.parent x hx _ q hc' hq'
      refine ⟨d'', hd'', fun d hd => ?_⟩
      obtain ⟨d', hd', hle⟩ := h.refcount hd
      exact Nat.lt_of_le_of_lt hle (hlt d' hd')
  · intro x hx c i g hc hg
    rcases List.mem_cons.mp hx with rfl | hx
    · obtain ⟨f, hf, hne⟩ := h.handler x (List.mem_singleton_self x) c i g hc hg
      obtain ⟨f', hf', hup⟩ := h'.functions g f hf
      exact ⟨f', hf', hup.ne_zero hne⟩
    · obtain ⟨c', hc', k, rfl⟩ := hfirst hx hc
      apply h'.handler x hx _ i g hc'
      rw [h.functionXlat]
      exact hg

theorem ReadyToRelink.step (h : RelinkedTo M cl l cl') (hready : ReadyToRelink cl b c)
    (hup : RefUp c c') : ReadyToRelink cl' b c' := by
  obtain ⟨k, rfl⟩ := hup
  obtain ⟨entered, parent, handler⟩ := hready
  rw [← h.classXlat] at entered parent
  rw [← h.functionXlat] at handler
  exact ⟨entered, parent, handler⟩

/-- The parent gets a higher count, and the class points to it. -/
theorem updateParent_spec (hcl : StoringClasses M cl) (hb : b = .shared k)
    (hc : cl.classes b = some c) (hready : ReadyToRelink cl b c) : ∃ cl',
      updateParent b cl = .ok cl' ∧ StoringClasses M cl' ∧ cl'.classXlat = cl.classXlat ∧
        cl'.functionXlat = cl.functionXlat ∧ cl'.functions = cl.functions ∧
        cl'.classes b = some { c with parent := c.parent.bind cl.classXlat } ∧
        (∀ x ≠ b, ∀ d, cl.classes x = some d → ∃ d', cl'.classes x = some d' ∧ RefUp d d') ∧
        ∀ q, c.parent.bind cl.classXlat = some q → ∃ d', cl'.classes q = some d' ∧
          ∀ d, cl.classes q = some d → d.refcount < d'.refcount := by
  subst hb
  unfold updateParent
  simp only [hc, deref_some, bind, Except.bind]
  cases hp : c.parent with
  | none =>
    refine ⟨cl, rfl, hcl, rfl, rfl, rfl, ?_, fun x _ d hd => ⟨d, hd, .refl d⟩, by simp⟩
    rw [hc, Option.bind_none, ← hp]
  | some p =>
    obtain ⟨q, hq, hne⟩ := hready.parent p hp
    obtain ⟨j, -, rfl⟩ := hcl.classXlat.target p q hq
    obtain ⟨d, hd⟩ := hcl.classBlock p _ hq
    let c₁ : ZendClassEntry := { c with parent := some (.shared j) }
    let d₁ : ZendClassEntry := { d with refcount := d.refcount + 1 }
    have hd₁ : (cl.writeClass (.shared k) c₁).classes (.shared j) = some d := by
      simp [ClassState.writeClass, hne, hd]
    refine ⟨(cl.writeClass (.shared k) c₁).writeClass (.shared j) d₁, ?_,
      (hcl.writeClass k c₁).writeClass j d₁, rfl, rfl, rfl, ?_, ?_, ?_⟩
    · simp only [hq, deref_some]
      unfold c₁ at hd₁
      rw [hd₁]
      rfl
    · simp [ClassState.writeClass, hne.symm, hq, c₁]
    · intro x hx y hy
      by_cases hxj : x = .shared j
      · subst hxj
        obtain rfl : y = d := Option.some.inj (hy.symm.trans hd)
        exact ⟨d₁, by simp [ClassState.writeClass], 1, rfl⟩
      · exact ⟨y, by simp [ClassState.writeClass, hx, hxj, hy], .refl y⟩
    · intro q' hq'
      rw [Option.bind_some, hq] at hq'
      obtain rfl := Option.some.inj hq'
      refine ⟨d₁, by simp [ClassState.writeClass], ?_⟩
      intro d' hd'
      obtain rfl : d' = d := Option.some.inj (hd'.symm.trans hd)
      exact Nat.lt_succ_self _

theorem updateParentCe_spec {e : HashKey × Addr} (hcl : StoringClasses M cl)
    (hc : cl.classes e.2 = some c) (hready : ReadyToRelink cl e.2 c) : ∃ cl',
      updateParentCe cl e = .ok cl' ∧ RelinkedTo M cl [e.2] cl' := by
  obtain ⟨key, b⟩ := e
  dsimp only at hc hready ⊢
  obtain ⟨a, ha⟩ := hready.entered
  obtain ⟨k, -, hb⟩ := hcl.classXlat.target a b ha
  obtain ⟨cl₁, hparent, hcl₁, hclass, hfun, hfs, hblock, hothers, hmark⟩ :=
    updateParent_spec hcl hb hc hready
  subst hb
  obtain ⟨cl₂, hfold, hto, hmark₂⟩ :=
    updateHandlers_spec Handler.all cl₁ _ hcl₁ hblock (by decide) (by
    intro h _ f hf
    rw [hfun]
    exact hready.handler h f hf)
  let c₂ := relink cl c
  have hc₂ : cl₂.classes (.shared k) = some { c with
      parent := c.parent.bind cl.classXlat
      handler := fun h => (c.handler h).bind cl.functionXlat } := by
    rw [hto.classes]
    simp only [ClassState.writeClass, Function.update_self, Option.some.injEq,
      ZendClassEntry.mk.injEq, true_and]
    funext h
    simp [handlersOf, Handler.mem_all, hfun]
  have hxlat₂ : cl₂.classXlat = cl.classXlat := hto.classXlat.trans hclass
  have hother₂ : ∀ x ≠ .shared k, cl₂.classes x = cl₁.classes x := by
    intro x hx
    rw [hto.classes]
    simp [ClassState.writeClass, hx]
  refine ⟨cl₂.writeClass (.shared k) c₂, ?_, ?_⟩
  · simp only [updateParentCe, hparent, hfold, hc₂, deref_some, bind, Except.bind]
    rw [hxlat₂]
    rfl
  constructor
  · exact hto.inv.writeClass k c₂
  · exact hxlat₂
  · exact hto.functionXlat.trans hfun
  · intro x f hf
    rw [← hfs] at hf
    exact hto.functions x f hf
  · intro x hx d hd
    rw [List.mem_singleton] at hx
    subst hx
    obtain rfl : c = d := Option.some.inj (hc.symm.trans hd)
    exact ⟨c₂, by simp [ClassState.writeClass], .refl _⟩
  · intro x hx d hd
    rw [List.mem_singleton] at hx
    obtain ⟨d', hd', hup⟩ := hothers x hx d hd
    refine ⟨d', ?_, hup⟩
    simp [ClassState.writeClass, hx, hother₂ x hx, hd']
  · intro x hx d q hd hq
    rw [List.mem_singleton] at hx
    subst hx
    obtain rfl : c = d := Option.some.inj (hc.symm.trans hd)
    obtain ⟨d', hd', hlt⟩ := hmark q hq
    have hne : q ≠ .shared k := by
      cases hp : c.parent with
      | none => simp [hp] at hq
      | some p =>
        obtain ⟨q', hq', hne⟩ := hready.parent p hp
        rw [hp, Option.bind_some, hq'] at hq
        exact Option.some.inj hq ▸ hne
    refine ⟨d', ?_, hlt⟩
    simp [ClassState.writeClass, hne, hother₂ q hne, hd']
  · intro x hx d h g hd hg
    rw [List.mem_singleton] at hx
    subst hx
    obtain rfl : c = d := Option.some.inj (hc.symm.trans hd)
    apply hmark₂ h (Handler.mem_all h) g
    rw [hfun]
    exact hg

/-- `zend_update_parent_ce` succeeds for all classes in shared memory. -/
theorem updateParentCes_spec : ∀ (es : List (HashKey × Addr)) (cl : ClassState),
    StoringClasses M cl → (es.map Prod.snd).Nodup →
      (∀ e ∈ es, ∃ c, cl.classes e.2 = some c ∧ ReadyToRelink cl e.2 c) →
        ∃ cl', es.foldlM updateParentCe cl = .ok cl' ∧ RelinkedTo M cl (es.map Prod.snd) cl' := by
  intro es
  induction es with
  | nil => exact fun cl hcl _ _ => ⟨cl, rfl, .refl hcl⟩
  | cons e es ih =>
    intro cl hcl hnodup hready
    rw [List.map_cons] at hnodup
    obtain ⟨hnew, hnodup⟩ := List.nodup_cons.mp hnodup
    obtain ⟨c, hc, hc'⟩ := hready e List.mem_cons_self
    obtain ⟨cl₁, hupdate, hto⟩ := updateParentCe_spec hcl hc hc'
    obtain ⟨cl₂, hfold, hto₂⟩ := ih cl₁ hto.inv hnodup (by
      intro e' hmem
      obtain ⟨d, hd, hd'⟩ := hready e' (List.mem_cons_of_mem _ hmem)
      have hne : e'.2 ∉ [e.2] := by
        rw [List.mem_singleton]
        intro he
        exact hnew (he ▸ List.mem_map_of_mem hmem)
      obtain ⟨d', hd'', hup⟩ := hto.others e'.2 hne d hd
      exact ⟨d', hd'', hd'.step hto hup⟩)
    refine ⟨cl₂, ?_, hto.cons hto₂ hnew⟩
    rw [List.foldlM_cons, hupdate]
    exact hfold

end Persist

end ZendOpcache
