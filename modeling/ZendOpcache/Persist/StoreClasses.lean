import ZendOpcache.Persist.ScriptGraph

/-! # Functions and classes in shared memory

What `zend_persist_op_array` and `zend_persist_class_entry` do to the translation tables: they take
the buckets of their functions and classes, which are free before, and count prototypes. The parent
and the other pointers of a class are not changed yet.
-/

namespace ZendOpcache

namespace Persist

open Relation

/-- A translation table into blocks of shared memory with numbers below `next`, one to one -/
structure XlatTo (xlat : Addr → Option Addr) (next : ℕ) : Prop where
  target : ∀ a b, xlat a = some b → ∃ k < next, b = .shared k
  inj : ∀ a a' b, xlat a = some b → xlat a' = some b → a = a'

theorem XlatTo.update {xlat : Addr → Option Addr} {next : ℕ} (h : XlatTo xlat next) (a : Addr) :
    XlatTo (Function.update xlat a (some (.shared next))) (next + 1) := by
  have hcases : ∀ {x y}, Function.update xlat a (some (.shared next)) x = some y →
      (x = a ∧ y = .shared next) ∨ xlat x = some y := by
    intro x y hxy
    by_cases hx : x = a
    · subst hx
      simp only [Function.update_self, Option.some.injEq] at hxy
      exact .inl ⟨rfl, hxy.symm⟩
    · rw [Function.update_of_ne hx] at hxy
      exact .inr hxy
  have hnew : ∀ x, xlat x ≠ some (.shared next) := by
    intro x hx
    obtain ⟨k, hk, hk'⟩ := h.target x _ hx
    exact hk.ne (Addr.shared.inj hk').symm
  constructor
  · intro x y hxy
    rcases hcases hxy with ⟨-, rfl⟩ | hxy
    · exact ⟨next, Nat.lt_succ_self _, rfl⟩
    · obtain ⟨k, hk, rfl⟩ := h.target x y hxy
      exact ⟨k, Nat.lt_succ_of_lt hk, rfl⟩
  · intro x x' y hxy hxy'
    rcases hcases hxy with ⟨hx, hy⟩ | hold <;> rcases hcases hxy' with ⟨hx', hy'⟩ | hold'
    · exact hx.trans hx'.symm
    · exact absurd (hy ▸ hold') (hnew x')
    · exact absurd (hy' ▸ hold) (hnew x)
    · exact h.inj x x' y hold hold'

/-- The buckets that get an entry in a translation table -/
inductive Bucket where
  | cls (a : Addr)
  | fn (a : Addr)

def ClassState.lookup (cl : ClassState) : Bucket → Option Addr
  | .cls a => cl.classXlat a
  | .fn a => cl.functionXlat a

/-- The function with a higher count -/
def CountedUp (f f' : ZendFunction) : Prop := ∃ c, f' = { f with refcount := f.refcount + c }

theorem CountedUp.refl (f : ZendFunction) : CountedUp f f := ⟨0, rfl⟩

theorem CountedUp.trans {f f' f'' : ZendFunction} (h : CountedUp f f') (h' : CountedUp f' f'') :
    CountedUp f f'' := by
  obtain ⟨c, rfl⟩ := h
  obtain ⟨c', rfl⟩ := h'
  exact ⟨c + c', by rw [← Nat.add_assoc]⟩

theorem CountedUp.ne_zero {f f' : ZendFunction} (h : CountedUp f f') (hf : f.refcount ≠ 0) :
    f'.refcount ≠ 0 := by
  obtain ⟨c, rfl⟩ := h
  exact (Nat.add_pos_left (Nat.pos_of_ne_zero hf) c).ne'

/-- The classes and functions while a script with the blocks `M` is copied -/
structure StoringClasses (M : ScriptMemory) (cl : ClassState) : Prop where
  classSource : ∀ a, InProcess a → cl.classes a = M.classes a
  functionSource : ∀ a, InProcess a → cl.functions a = M.functions a
  classXlat : XlatTo cl.classXlat cl.nextClass
  functionXlat : XlatTo cl.functionXlat cl.nextFunction
  classBlock : ∀ a b, cl.classXlat a = some b → ∃ c, cl.classes b = some c
  functionBlock : ∀ a b, cl.functionXlat a = some b → ∃ f, cl.functions b = some f

/-- What a step does to the classes and functions: the buckets of `A` may get an entry, blocks that
are there stay, and functions are counted up. -/
structure ClassGrow (cl : ClassState) (A : Bucket → Prop) (cl' : ClassState) : Prop where
  nextClass : cl.nextClass ≤ cl'.nextClass
  nextFunction : cl.nextFunction ≤ cl'.nextFunction
  lookup : ∀ k b, cl.lookup k = some b → cl'.lookup k = some b
  only : ∀ k, ¬ A k → cl.lookup k = none → cl'.lookup k = none
  classFrame : ∀ k < cl.nextClass, cl'.classes (.shared k) = cl.classes (.shared k)
  functionFrame : ∀ k < cl.nextFunction, ∀ f, cl.functions (.shared k) = some f →
    ∃ f', cl'.functions (.shared k) = some f' ∧ CountedUp f f'

variable {M : ScriptMemory} {cl cl' cl'' : ClassState} {A B : Bucket → Prop} {n k : ℕ}

theorem ClassGrow.refl (cl : ClassState) : ClassGrow cl (fun _ => False) cl where
  nextClass := le_rfl
  nextFunction := le_rfl
  lookup _ _ h := h
  only _ _ h := h
  classFrame _ _ := rfl
  functionFrame _ _ f hf := ⟨f, hf, .refl f⟩

theorem ClassGrow.trans (h : ClassGrow cl A cl') (h' : ClassGrow cl' B cl'') :
    ClassGrow cl (fun k => A k ∨ B k) cl'' where
  nextClass := h.nextClass.trans h'.nextClass
  nextFunction := h.nextFunction.trans h'.nextFunction
  lookup k b hb := h'.lookup k b (h.lookup k b hb)
  only k hk hnone := h'.only k (fun hB => hk (.inr hB)) (h.only k (fun hA => hk (.inl hA)) hnone)
  classFrame k hk := by
    rw [h'.classFrame k (Nat.lt_of_lt_of_le hk h.nextClass), h.classFrame k hk]
  functionFrame k hk f hf := by
    obtain ⟨f', hf', hc⟩ := h.functionFrame k hk f hf
    obtain ⟨f'', hf'', hc'⟩ := h'.functionFrame k (Nat.lt_of_lt_of_le hk h.nextFunction) f' hf'
    exact ⟨f'', hf'', hc.trans hc'⟩

theorem ClassGrow.mono (h : ClassGrow cl A cl') (hAB : ∀ k, A k → B k) : ClassGrow cl B cl' where
  nextClass := h.nextClass
  nextFunction := h.nextFunction
  lookup := h.lookup
  only k hk := h.only k fun hA => hk (hAB k hA)
  classFrame := h.classFrame
  functionFrame := h.functionFrame

/-- A write to a function that is new leaves the old blocks. -/
theorem ClassGrow.writeFunction (h : ClassGrow cl A cl') (hk : cl.nextFunction ≤ k)
    (f : ZendFunction) : ClassGrow cl A (cl'.writeFunction (.shared k) f) where
  nextClass := h.nextClass
  nextFunction := h.nextFunction
  lookup := h.lookup
  only := h.only
  classFrame := h.classFrame
  functionFrame j hj g hg := by
    obtain ⟨g', hg', hc⟩ := h.functionFrame j hj g hg
    refine ⟨g', ?_, hc⟩
    have hne : j ≠ k := (Nat.lt_of_lt_of_le hj hk).ne
    simp [ClassState.writeFunction, hne, hg']

theorem ClassGrow.writeClass (h : ClassGrow cl A cl') (hk : cl.nextClass ≤ k)
    (c : ZendClassEntry) : ClassGrow cl A (cl'.writeClass (.shared k) c) where
  nextClass := h.nextClass
  nextFunction := h.nextFunction
  lookup := h.lookup
  only := h.only
  classFrame j hj := by
    have hne : j ≠ k := (Nat.lt_of_lt_of_le hj hk).ne
    simp [ClassState.writeClass, hne, h.classFrame j hj]
  functionFrame := h.functionFrame

theorem StoringClasses.writeFunction (h : StoringClasses M cl) (k : ℕ) (f : ZendFunction) :
    StoringClasses M (cl.writeFunction (.shared k) f) where
  classSource := h.classSource
  functionSource a ha := by
    obtain ⟨j, rfl⟩ := ha
    rw [← h.functionSource _ ⟨j, rfl⟩]
    simp [ClassState.writeFunction]
  classXlat := h.classXlat
  functionXlat := h.functionXlat
  classBlock := h.classBlock
  functionBlock a b hab := by
    by_cases hb : b = .shared k
    · exact ⟨f, by simp [ClassState.writeFunction, hb]⟩
    · obtain ⟨g, hg⟩ := h.functionBlock a b hab
      exact ⟨g, by simp [ClassState.writeFunction, hb, hg]⟩

theorem StoringClasses.writeClass (h : StoringClasses M cl) (k : ℕ) (c : ZendClassEntry) :
    StoringClasses M (cl.writeClass (.shared k) c) where
  classSource a ha := by
    obtain ⟨j, rfl⟩ := ha
    rw [← h.classSource _ ⟨j, rfl⟩]
    simp [ClassState.writeClass]
  functionSource := h.functionSource
  classXlat := h.classXlat
  functionXlat := h.functionXlat
  classBlock a b hab := by
    by_cases hb : b = .shared k
    · exact ⟨c, by simp [ClassState.writeClass, hb]⟩
    · obtain ⟨d, hd⟩ := h.classBlock a b hab
      exact ⟨d, by simp [ClassState.writeClass, hb, hd]⟩
  functionBlock := h.functionBlock

/-- The state with a new block for a function that is entered in the table -/
def enterFunction (cl : ClassState) (a : Addr) (f : ZendFunction) : ClassState :=
  { (cl.writeFunction (.shared cl.nextFunction) f).registerFunction a (.shared cl.nextFunction) with
    nextFunction := cl.nextFunction + 1 }

/-- The state with a new block for a class that is entered in the table -/
def enterClass (cl : ClassState) (a : Addr) (c : ZendClassEntry) : ClassState :=
  { (cl.writeClass (.shared cl.nextClass) c).registerClass a (.shared cl.nextClass) with
    nextClass := cl.nextClass + 1 }

theorem enterFunction_lookup {a : Addr} {f : ZendFunction} :
    (enterFunction cl a f).lookup (.fn a) = some (.shared cl.nextFunction) := by
  simp [enterFunction, ClassState.lookup, ClassState.registerFunction]

theorem enterClass_lookup {a : Addr} {c : ZendClassEntry} :
    (enterClass cl a c).lookup (.cls a) = some (.shared cl.nextClass) := by
  simp [enterClass, ClassState.lookup, ClassState.registerClass]

theorem enterFunction_lookup_of_ne {a : Addr} {f : ZendFunction} {b : Bucket} (hb : b ≠ .fn a) :
    (enterFunction cl a f).lookup b = cl.lookup b := by
  cases b with
  | cls x => rfl
  | fn x =>
    have hx : x ≠ a := fun h => hb (h ▸ rfl)
    simp [enterFunction, ClassState.lookup, ClassState.registerFunction,
      ClassState.writeFunction, hx]

theorem enterClass_lookup_of_ne {a : Addr} {c : ZendClassEntry} {b : Bucket} (hb : b ≠ .cls a) :
    (enterClass cl a c).lookup b = cl.lookup b := by
  cases b with
  | fn x => rfl
  | cls x =>
    have hx : x ≠ a := fun h => hb (h ▸ rfl)
    simp [enterClass, ClassState.lookup, ClassState.registerClass, ClassState.writeClass, hx]

theorem ClassGrow.enterFunction {a : Addr} (hfree : cl.lookup (.fn a) = none) (f : ZendFunction) :
    ClassGrow cl (· = .fn a) (enterFunction cl a f) where
  nextClass := le_rfl
  nextFunction := Nat.le_succ _
  lookup b x hx := by
    have hne : b ≠ .fn a := by
      rintro rfl
      simp [hfree] at hx
    rw [enterFunction_lookup_of_ne hne, hx]
  only b hb hnone := by rw [enterFunction_lookup_of_ne hb, hnone]
  classFrame _ _ := rfl
  functionFrame k hk g hg := by
    refine ⟨g, ?_, .refl g⟩
    simp [Persist.enterFunction, ClassState.registerFunction, ClassState.writeFunction, hk.ne, hg]

theorem ClassGrow.enterClass {a : Addr} (hfree : cl.lookup (.cls a) = none) (c : ZendClassEntry) :
    ClassGrow cl (· = .cls a) (enterClass cl a c) where
  nextClass := Nat.le_succ _
  nextFunction := le_rfl
  lookup b x hx := by
    have hne : b ≠ .cls a := by
      rintro rfl
      simp [hfree] at hx
    rw [enterClass_lookup_of_ne hne, hx]
  only b hb hnone := by rw [enterClass_lookup_of_ne hb, hnone]
  classFrame k hk := by
    simp [Persist.enterClass, ClassState.registerClass, ClassState.writeClass, hk.ne]
  functionFrame _ _ f hf := ⟨f, hf, .refl f⟩

theorem StoringClasses.enterFunction (h : StoringClasses M cl) (a : Addr) (f : ZendFunction) :
    StoringClasses M (enterFunction cl a f) := by
  have hw := h.writeFunction cl.nextFunction f
  constructor
  · exact hw.classSource
  · exact hw.functionSource
  · exact h.classXlat
  · exact h.functionXlat.update a
  · exact h.classBlock
  · intro x y hxy
    by_cases hx : x = a
    · subst hx
      obtain rfl : Addr.shared cl.nextFunction = y := by
        simpa [Persist.enterFunction, ClassState.registerFunction] using hxy
      exact ⟨f, by simp [Persist.enterFunction, ClassState.registerFunction,
        ClassState.writeFunction]⟩
    · apply hw.functionBlock x y
      simpa [Persist.enterFunction, ClassState.registerFunction, hx] using hxy

theorem StoringClasses.enterClass (h : StoringClasses M cl) (a : Addr) (c : ZendClassEntry) :
    StoringClasses M (enterClass cl a c) := by
  have hw := h.writeClass cl.nextClass c
  constructor
  · exact hw.classSource
  · exact hw.functionSource
  · exact h.classXlat.update a
  · exact h.functionXlat
  · intro x y hxy
    by_cases hx : x = a
    · subst hx
      obtain rfl : Addr.shared cl.nextClass = y := by
        simpa [Persist.enterClass, ClassState.registerClass] using hxy
      exact ⟨c, by simp [Persist.enterClass, ClassState.registerClass, ClassState.writeClass]⟩
    · apply hw.classBlock x y
      simpa [Persist.enterClass, ClassState.registerClass, hx] using hxy
  · exact h.functionBlock

/-- Functions are counted up, and nothing else is changed. -/
structure CountedTo (M : ScriptMemory) (cl cl' : ClassState) : Prop where
  inv : StoringClasses M cl'
  classes : cl'.classes = cl.classes
  classXlat : cl'.classXlat = cl.classXlat
  functionXlat : cl'.functionXlat = cl.functionXlat
  nextClass : cl'.nextClass = cl.nextClass
  nextFunction : cl'.nextFunction = cl.nextFunction
  functions : ∀ x f, cl.functions x = some f → ∃ f', cl'.functions x = some f' ∧ CountedUp f f'

theorem CountedTo.refl (h : StoringClasses M cl) : CountedTo M cl cl :=
  ⟨h, rfl, rfl, rfl, rfl, rfl, fun _ f hf => ⟨f, hf, .refl f⟩⟩

theorem CountedTo.lookup (h : CountedTo M cl cl') (b : Bucket) : cl'.lookup b = cl.lookup b := by
  cases b with
  | cls a => simp [ClassState.lookup, h.classXlat]
  | fn a => simp [ClassState.lookup, h.functionXlat]

theorem ClassGrow.counted (h : ClassGrow cl A cl') (hc : CountedTo M cl' cl'') :
    ClassGrow cl A cl'' where
  nextClass := h.nextClass.trans hc.nextClass.ge
  nextFunction := h.nextFunction.trans hc.nextFunction.ge
  lookup k b hb := by rw [hc.lookup, h.lookup k b hb]
  only k hk hnone := by rw [hc.lookup, h.only k hk hnone]
  classFrame k hk := by rw [hc.classes, h.classFrame k hk]
  functionFrame k hk f hf := by
    obtain ⟨f', hf', hup⟩ := h.functionFrame k hk f hf
    obtain ⟨f'', hf'', hup'⟩ := hc.functions _ f' hf'
    exact ⟨f'', hf'', hup.trans hup'⟩

/-- `countFunction` of a function in the table -/
theorem countFunction_spec (hcl : StoringClasses M cl) {a b : Addr}
    (hab : cl.functionXlat a = some b) : ∃ cl', countFunction cl b = .ok cl' ∧ CountedTo M cl cl' ∧
      ∃ g, cl'.functions b = some g ∧ g.refcount ≠ 0 := by
  obtain ⟨k, -, rfl⟩ := hcl.functionXlat.target a b hab
  obtain ⟨f, hf⟩ := hcl.functionBlock a _ hab
  refine ⟨cl.writeFunction (.shared k) { f with refcount := f.refcount + 1 }, ?_, ?_,
    { f with refcount := f.refcount + 1 }, by simp [ClassState.writeFunction], by simp⟩
  · simp [countFunction, hf, bind, Except.bind]
  · refine ⟨hcl.writeFunction k _, rfl, rfl, rfl, rfl, rfl, ?_⟩
    intro x g hg
    by_cases hx : x = .shared k
    · subst hx
      obtain rfl : g = f := Option.some.inj (hg.symm.trans hf)
      exact ⟨_, by simp [ClassState.writeFunction], 1, rfl⟩
    · exact ⟨g, by simp [ClassState.writeFunction, hx, hg], .refl g⟩

end Persist

end ZendOpcache
