import ZendOpcache.Persist.ImageGraph

/-! # Methods in the process

The copies of classes and methods that were made so far are two relations `C` and `F`, and the
translation tables only find such copies. A method is copied when its class and its prototype are
found, and its bucket is entered if it has a mark.
-/

namespace ZendOpcache

namespace Persist

variable {M : ScriptMemory} {C C' F F' : Addr → Addr → Prop} {n : ℕ} {st st' : CopyState}
  {cl cl' cl'' : ClassState} {zv zv' : ZvalState} {a b old new : Addr}

/-- The classes and functions while the script with the blocks `M` is loaded -/
structure LoadingClasses (M : ScriptMemory) (C F : Addr → Addr → Prop) (cl : ClassState) :
    Prop where
  classShared : ∀ a, InShared a → cl.classes a = M.classes a
  functionShared : ∀ a, InShared a → cl.functions a = M.functions a
  cls : ∀ a b, cl.classXlat a = some b → C a b
  fn : ∀ a b, cl.functionXlat a = some b → F a b

/-- What is entered in the tables stays there, and blocks of the process stay as they are. -/
structure ClassLoad (cl cl' : ClassState) : Prop where
  nextClass : cl.nextClass ≤ cl'.nextClass
  nextFunction : cl.nextFunction ≤ cl'.nextFunction
  cls : ∀ a b, cl.classXlat a = some b → ∃ b', cl'.classXlat a = some b'
  fn : ∀ a b, cl.functionXlat a = some b → ∃ b', cl'.functionXlat a = some b'
  classFrame : ∀ k < cl.nextClass, cl'.classes (.process k) = cl.classes (.process k)
  functionFrame : ∀ k < cl.nextFunction, cl'.functions (.process k) = cl.functions (.process k)

theorem ClassLoad.refl (cl : ClassState) : ClassLoad cl cl where
  nextClass := le_rfl
  nextFunction := le_rfl
  cls _ b h := ⟨b, h⟩
  fn _ b h := ⟨b, h⟩
  classFrame _ _ := rfl
  functionFrame _ _ := rfl

theorem ClassLoad.trans (h : ClassLoad cl cl') (h' : ClassLoad cl' cl'') : ClassLoad cl cl'' where
  nextClass := h.nextClass.trans h'.nextClass
  nextFunction := h.nextFunction.trans h'.nextFunction
  cls a b hab := by
    obtain ⟨b', hb'⟩ := h.cls a b hab
    exact h'.cls a b' hb'
  fn a b hab := by
    obtain ⟨b', hb'⟩ := h.fn a b hab
    exact h'.fn a b' hb'
  classFrame k hk := by
    rw [h'.classFrame k (Nat.lt_of_lt_of_le hk h.nextClass), h.classFrame k hk]
  functionFrame k hk := by
    rw [h'.functionFrame k (Nat.lt_of_lt_of_le hk h.nextFunction), h.functionFrame k hk]

/-- More copies -/
theorem LoadingClasses.mono (h : LoadingClasses M C F cl) (hC : ∀ a b, C a b → C' a b)
    (hF : ∀ a b, F a b → F' a b) : LoadingClasses M C' F' cl where
  classShared := h.classShared
  functionShared := h.functionShared
  cls a b hab := hC a b (h.cls a b hab)
  fn a b hab := hF a b (h.fn a b hab)

/-! ## Pointers -/

theorem copyOwner_spec (hcl : LoadingClasses M C F cl) (name : List UInt8) (hnew : C old new)
    {owner : Option Addr} {s : Addr} (hs : owner = some s)
    (hfound : s = old ∨ ∃ x, cl.classXlat s = some x) :
    ∃ t, copyOwner cl name old new owner = .ok (some t) ∧ C s t := by
  subst hs
  unfold copyOwner
  by_cases hold : s = old
  · subst hold
    exact ⟨new, by simp, hnew⟩
  · obtain ⟨t, ht⟩ := hfound.resolve_left hold
    refine ⟨t, ?_, hcl.cls s t ht⟩
    simp [hold, ht]

theorem copyPointer_spec {R : Addr → Addr → Prop} {xlat : Addr → Option Addr}
    (hxlat : ∀ a b, xlat a = some b → R a b) (name : List UInt8) {p : Option Addr}
    (hp : ∀ a, p = some a → ∃ b, xlat a = some b) :
    ∃ q, copyPointer xlat name p = .ok q ∧ Option.Rel R p q := by
  cases p with
  | none => exact ⟨none, rfl, .none⟩
  | some a =>
    obtain ⟨b, hb⟩ := hp a rfl
    exact ⟨some b, by simp [copyPointer, hb], .some (hxlat a b hb)⟩

/-- The only error of a lookup -/
theorem copyOwner_cases (cl : ClassState) (name : List UInt8) (old new : Addr)
    (owner : Option Addr) :
    (∃ t, copyOwner cl name old new owner = .ok t) ∨
      copyOwner cl name old new owner = .error (.classLoadingError name) := by
  unfold copyOwner
  by_cases hold : owner = some old
  · exact .inl ⟨some new, if_pos hold⟩
  · rw [if_neg hold]
    cases owner.bind cl.classXlat with
    | none => exact .inr rfl
    | some s => exact .inl ⟨some s, rfl⟩

theorem copyPointer_cases (xlat : Addr → Option Addr) (name : List UInt8) (p : Option Addr) :
    (∃ q, copyPointer xlat name p = .ok q) ∨
      copyPointer xlat name p = .error (.classLoadingError name) := by
  unfold copyPointer
  cases p with
  | none => exact .inl ⟨none, rfl⟩
  | some p =>
    dsimp only
    cases xlat p with
    | none => exact .inr rfl
    | some q => exact .inl ⟨some q, rfl⟩

/-! ## Values that are not bound -/

/-- A slot that is copied to slots with the same value behind them -/
def SlotCopy (M : ZvalHeap) (n : ℕ) (zv : ZvalState) (slot slot' : Option Addr) : Prop :=
  Option.Rel (Copy M 0 zv n) slot slot'

def EntryCopy (M : ZvalHeap) (n : ℕ) (zv : ZvalState) (e e' : HashKey × Addr) : Prop :=
  EntryRel (Copy M 0 zv n) e e'

/-- Copies stay when blocks are only added. -/
structure ZvalsKept (zv zv' : ZvalState) : Prop where
  next : zv.next ≤ zv'.next
  frame : ∀ k < zv.next, zv'.zvals (.process k) = zv.zvals (.process k)

theorem ClonedTo.kept {H : ZvalHeap} (h : ClonedTo H zv zv') : ZvalsKept zv zv' := ⟨h.next, h.frame⟩

theorem LoadedTo.kept {H : ZvalHeap} (h : LoadedTo H n zv zv') :
    ZvalsKept zv zv' := ⟨h.next, h.frame⟩

theorem ZvalsKept.trans {zv'' : ZvalState} (h : ZvalsKept zv zv') (h' : ZvalsKept zv' zv'') :
    ZvalsKept zv zv'' where
  next := h.next.trans h'.next
  frame k hk := by rw [h'.frame k (Nat.lt_of_lt_of_le hk h.next), h.frame k hk]

theorem Copy.kept {H : ZvalHeap} (h : Copy H 0 zv n a b) (hzv : ZvalsKept zv zv') :
    Copy H 0 zv' n a b := by
  apply h.frame hzv.next
  rintro x ⟨k, -, hk, rfl⟩
  exact hzv.frame k hk

theorem cloneSlots_spec {H : ZvalHeap} (hzv : SharedIs H zv) {slots : List (Option Addr)}
    (h : ∀ slot ∈ slots, ∀ a ∈ slot, Within InShared H n a) : ∃ zv' slots',
      mapAccum (cloneSlot n false) slots zv = .ok (zv', slots') ∧ ClonedTo H zv zv' ∧
        List.Forall₂ (SlotCopy H n zv') slots slots' := by
  apply mapAccum_rule (clonedTo_stepRel H) (Q := SlotCopy H n)
  · exact fun _ hto hQ => rel_mono (fun _ _ hc => hc.kept hto.kept) hQ
  · exact hzv
  · intro slot hmem t ht _
    cases slot with
    | none => exact ⟨t, none, rfl, (clonedTo_stepRel H).refl ht, .none⟩
    | some a =>
      obtain ⟨u, b, hclone, hto, hcopy, -⟩ := clonesUnbound n a t ht (h _ hmem a rfl)
      refine ⟨u, some b, ?_, hto, .some (hcopy.mono (Nat.zero_le _))⟩
      simp [cloneSlot, hclone, bind, Except.bind]

theorem cloneEntries_spec {H : ZvalHeap} (hzv : SharedIs H zv) {es : List (HashKey × Addr)}
    (h : ∀ e ∈ es, Within InShared H n e.2) : ∃ zv' es',
      mapAccum (cloneEntry n false) es zv = .ok (zv', es') ∧ ClonedTo H zv zv' ∧
        List.Forall₂ (EntryCopy H n zv') es es' := by
  apply mapAccum_rule (clonedTo_stepRel H) (Q := EntryCopy H n)
  · exact fun _ hto hQ => ⟨hQ.1, hQ.2.kept hto.kept⟩
  · exact hzv
  · intro e hmem t ht _
    obtain ⟨u, b, hclone, hto, hcopy, -⟩ := clonesUnbound n e.2 t ht (h e hmem)
    refine ⟨u, (e.1, b), ?_, hto, rfl, hcopy.mono (Nat.zero_le _)⟩
    simp [cloneEntry, hclone, bind, Except.bind]

/-! ## Methods -/

/-- A function of the process that is a copy, with copies of its static variables -/
structure FunctionCopy (M : ScriptMemory) (n : ℕ) (C F : Addr → Addr → Prop) (zv : ZvalState)
    (f f' : ZendFunction) : Prop where
  name : f'.functionName = f.functionName
  literals : f'.literals = f.literals
  statics : List.Forall₂ (EntryCopy M.zvals n zv) f.staticVariables f'.staticVariables
  scope : Option.Rel C f.scope f'.scope
  prototype : Option.Rel F f.prototype f'.prototype

theorem FunctionCopy.step {f f' : ZendFunction} (h : FunctionCopy M n C F zv f f')
    (hzv : ZvalsKept zv zv') (hC : ∀ a b, C a b → C' a b) (hF : ∀ a b, F a b → F' a b) :
    FunctionCopy M n C' F' zv' f f' where
  name := h.name
  literals := h.literals
  statics := h.statics.imp fun _ _ he => ⟨he.1, he.2.kept hzv⟩
  scope := rel_mono hC h.scope
  prototype := rel_mono hF h.prototype

theorem prepareFunction_spec (hzv : SharedIs M.zvals zv) {f : ZendFunction}
    (hf : FunctionValues InShared n M f) : ∃ zv' statics, prepareFunction n zv f =
      .ok (zv', { f with refcount := protectedRefcount, staticVariables := statics }) ∧
      ClonedTo M.zvals zv zv' ∧
        List.Forall₂ (EntryCopy M.zvals n zv') f.staticVariables statics := by
  obtain ⟨zv', statics, hmap, hto, hall⟩ := cloneEntries_spec hzv hf.statics
  exact ⟨zv', statics, by simp [prepareFunction, hmap, bind, Except.bind], hto, hall⟩

/-- The copies with one more pair -/
def withPair (R : Addr → Addr → Prop) (a b : Addr) (x y : Addr) : Prop := R x y ∨ (x = a ∧ y = b)

/-- The state with a new block for a copy of a function, which is entered if it has a mark -/
def allocateFunction (cl : ClassState) (a : Addr) (f : ZendFunction) : ClassState :=
  let cl' := { cl.writeFunction
    (.process cl.nextFunction) f with nextFunction := cl.nextFunction + 1 }
  if f.refcount ≠ 0 then cl'.registerFunction a (.process cl.nextFunction) else cl'

structure Allocated (M : ScriptMemory) (C F : Addr → Addr → Prop) (cl : ClassState) (a : Addr)
    (f : ZendFunction) (cl' : ClassState) : Prop where
  load : ClassLoad cl cl'
  loading : LoadingClasses M C (withPair F a (.process cl.nextFunction)) cl'
  classes : cl'.classes = cl.classes
  classXlat : cl'.classXlat = cl.classXlat
  nextClass : cl'.nextClass = cl.nextClass
  nextFunction : cl'.nextFunction = cl.nextFunction + 1
  marked : f.refcount ≠ 0 → ∃ b, cl'.functionXlat a = some b

theorem allocateFunction_spec (hcl : LoadingClasses M C F cl) (a : Addr) (f : ZendFunction) :
    Allocated M C F cl a f (allocateFunction cl a f) := by
  have hshared : ∀ x, InShared x →
      (cl.writeFunction (.process cl.nextFunction) f).functions x = M.functions x := by
    rintro x ⟨k, rfl⟩
    rw [← hcl.functionShared _ ⟨k, rfl⟩]
    simp [ClassState.writeFunction]
  have hframe : ∀ k < cl.nextFunction, (cl.writeFunction (.process cl.nextFunction) f).functions
      (.process k) = cl.functions (.process k) := by
    intro k hk
    simp [ClassState.writeFunction, hk.ne]
  unfold allocateFunction
  by_cases hf : f.refcount ≠ 0
  · simp only [if_pos hf]
    refine ⟨⟨le_rfl, Nat.le_succ _, fun _ b h => ⟨b, h⟩, ?_, fun _ _ => rfl, hframe⟩,
      ⟨hcl.classShared, hshared, hcl.cls, ?_⟩, rfl, rfl, rfl, rfl, ?_⟩
    · intro x y hxy
      by_cases hx : x = a
      · exact ⟨.process cl.nextFunction, by simp [ClassState.registerFunction, hx]⟩
      · exact ⟨y, by simp [ClassState.registerFunction, ClassState.writeFunction, hx, hxy]⟩
    · intro x y hxy
      by_cases hx : x = a
      · subst hx
        simp only [ClassState.registerFunction, Function.update_self, Option.some.injEq] at hxy
        exact .inr ⟨rfl, hxy.symm⟩
      · left
        apply hcl.fn
        simpa [ClassState.registerFunction, ClassState.writeFunction, hx] using hxy
    · exact fun _ => ⟨.process cl.nextFunction, by simp [ClassState.registerFunction]⟩
  · simp only [if_neg hf]
    exact ⟨⟨le_rfl, Nat.le_succ _, fun _ b h => ⟨b, h⟩, fun _ b h => ⟨b, h⟩, fun _ _ => rfl,
      hframe⟩,
      ⟨hcl.classShared, hshared, hcl.cls, fun x y hxy => .inl (hcl.fn x y hxy)⟩, rfl, rfl, rfl, rfl,
      fun h => absurd h hf⟩

/-- What the links of a method need to be found -/
structure LinksFound (cl : ClassState) (old : Addr) (f : ZendFunction) : Prop where
  scope : ∃ s, f.scope = some s ∧ (s = old ∨ ∃ x, cl.classXlat s = some x)
  prototype : ∀ p, f.prototype = some p → ∃ q, cl.functionXlat p = some q

theorem LinksFound.step {f : ZendFunction} (h : ClassLoad cl cl') (hl : LinksFound cl old f) :
    LinksFound cl' old f where
  scope := by
    obtain ⟨s, hs, hfound⟩ := hl.scope
    refine ⟨s, hs, hfound.imp_right ?_⟩
    rintro ⟨x, hx⟩
    exact h.cls s x hx
  prototype p hp := by
    obtain ⟨q, hq⟩ := hl.prototype p hp
    exact h.fn p q hq

/-- What the copying of methods does: new functions, and nothing for classes -/
structure MethodsCopied (M : ScriptMemory) (C F F' : Addr → Addr → Prop) (st st' : CopyState) :
    Prop where
  zvals : ClonedTo M.zvals st.zv st'.zv
  load : ClassLoad st.cl st'.cl
  loading : LoadingClasses M C F' st'.cl
  more : ∀ a b, F a b → F' a b
  classes : st'.cl.classes = st.cl.classes
  classXlat : st'.cl.classXlat = st.cl.classXlat
  nextClass : st'.cl.nextClass = st.cl.nextClass

/-- A bucket of a method and its copy -/
def MethodCopy (M : ScriptMemory) (n : ℕ) (C F : Addr → Addr → Prop) (lo : ℕ) (st : CopyState)
    (e e' : HashKey × Addr) : Prop :=
  e.1 = e'.1 ∧ ProcessIn lo st.cl.nextFunction e'.2 ∧ ∃ f f', M.functions e.2 = some f ∧
    st.cl.functions e'.2 = some f' ∧ FunctionCopy M n C F st.zv f f' ∧
    (f.refcount ≠ 0 → ∃ b, st.cl.functionXlat e.2 = some b)

theorem MethodCopy.step {lo lo' : ℕ} {e e' : HashKey × Addr} (h : MethodCopy M n C F lo st e e')
    (hzv : ZvalsKept st.zv st'.zv) (hcl : ClassLoad st.cl st'.cl) (hlo : lo' ≤ lo)
    (hC : ∀ a b, C a b → C' a b) (hF : ∀ a b, F a b → F' a b) :
    MethodCopy M n C' F' lo' st' e e' := by
  obtain ⟨hk, hin, f, f', hf, hf', hcopy, hmark⟩ := h
  refine ⟨hk, hin.mono hlo hcl.nextFunction, f, f', hf, ?_, hcopy.step hzv hC hF, ?_⟩
  · obtain ⟨k, -, hk, he⟩ := hin
    rw [he] at hf' ⊢
    rw [hcl.functionFrame k hk, hf']
  · intro hne
    obtain ⟨b, hb⟩ := hmark hne
    exact hcl.fn _ b hb

/-- The copy of a method up to its links -/
theorem cloneMethod_eq {e : HashKey × Addr} {f : ZendFunction} (name : List UInt8) (old new : Addr)
    (hzv : SharedIs M.zvals st.zv) (hcl : LoadingClasses M C F st.cl) (ha : InShared e.2)
    (hf : M.functions e.2 = some f) (hv : FunctionValues InShared n M f) : ∃ zv statics,
      ClonedTo M.zvals st.zv zv ∧
      List.Forall₂ (EntryCopy M.zvals n zv) f.staticVariables statics ∧
      cloneMethod n name old new st e = (do
        let scope ← copyOwner (allocateFunction st.cl e.2 f) name old new f.scope
        let prototype ←
          copyPointer (allocateFunction st.cl e.2 f).functionXlat name f.prototype
        .ok (⟨zv, (allocateFunction st.cl e.2 f).writeFunction
          (.process st.cl.nextFunction) { f with
          refcount := protectedRefcount, staticVariables := statics
          scope := scope, prototype := prototype }⟩, (e.1, .process st.cl.nextFunction))) := by
  have hread : st.cl.functions e.2 = some f := by rw [hcl.functionShared _ ha, hf]
  obtain ⟨zv, statics, hprepare, hto, hall⟩ := prepareFunction_spec hzv hv
  refine ⟨zv, statics, hto, hall, ?_⟩
  simp only [cloneMethod, hread, deref_some, bind, Except.bind, hprepare]
  rfl

/-- The state after the copy of a method was written -/
theorem methodsCopied_write (hcl : LoadingClasses M C F st.cl) (hto : ClonedTo M.zvals st.zv zv)
    (a : Addr) (f f' : ZendFunction) :
    MethodsCopied M C F (withPair F a (.process st.cl.nextFunction)) st
      ⟨zv, (allocateFunction st.cl a f).writeFunction (.process st.cl.nextFunction) f'⟩ := by
  have halloc : Allocated M C F st.cl a f (allocateFunction st.cl a f) :=
    allocateFunction_spec hcl a f
  have hother : ∀ x, x ≠ .process st.cl.nextFunction →
      ((allocateFunction st.cl a f).writeFunction (.process st.cl.nextFunction) f').functions x =
        (allocateFunction st.cl a f).functions x := by
    intro x hx
    simp [ClassState.writeFunction, hx]
  refine ⟨hto, ⟨halloc.load.nextClass, halloc.load.nextFunction, halloc.load.cls, halloc.load.fn,
      halloc.load.classFrame, ?_⟩, ⟨halloc.loading.classShared, ?_, halloc.loading.cls,
      halloc.loading.fn⟩, fun _ _ h => .inl h, halloc.classes, halloc.classXlat, halloc.nextClass⟩
  · intro k hk
    rw [← halloc.load.functionFrame k hk]
    exact hother _ fun h => hk.ne (Addr.process.inj h)
  · rintro x ⟨k, rfl⟩
    rw [← halloc.loading.functionShared _ ⟨k, rfl⟩]
    exact hother _ (by simp)

theorem cloneMethod_spec {e : HashKey × Addr} {f : ZendFunction} (name : List UInt8)
    (hzv : SharedIs M.zvals st.zv) (hcl : LoadingClasses M C F st.cl) (hnew : C old new)
    (ha : InShared e.2) (hf : M.functions e.2 = some f) (hv : FunctionValues InShared n M f)
    (hl : LinksFound st.cl old f) : ∃ st' b, cloneMethod n name old new st e = .ok (st', (e.1, b)) ∧
      MethodsCopied M C F (withPair F e.2 b) st st' ∧
      MethodCopy M n C (withPair F e.2 b) st.cl.nextFunction st' e (e.1, b) := by
  have halloc : Allocated M C F st.cl e.2 f (allocateFunction st.cl e.2 f) :=
    allocateFunction_spec hcl e.2 f
  have hl' := hl.step halloc.load
  obtain ⟨zv, statics, hto, hall, heq⟩ := cloneMethod_eq name old new hzv hcl ha hf hv
  obtain ⟨s, hs, hfound⟩ := hl'.scope
  obtain ⟨t, ht, hst⟩ := copyOwner_spec halloc.loading name hnew hs hfound
  obtain ⟨q, hq, hpq⟩ := copyPointer_spec halloc.loading.fn name hl'.prototype
  simp only [ht, hq, bind, Except.bind] at heq
  let f' : ZendFunction := { f with
    refcount := protectedRefcount, staticVariables := statics, scope := some t, prototype := q }
  refine ⟨_, _, heq, methodsCopied_write hcl hto e.2 f f', rfl, ⟨_, le_rfl, ?_, rfl⟩, f, f', hf,
    by simp [ClassState.writeFunction, f'], ⟨rfl, rfl, hall, ?_, hpq⟩, halloc.marked⟩
  · exact halloc.nextFunction.symm ▸ Nat.lt_succ_self _
  · rw [hs]
    exact .some hst

/-- A method is copied, or its links are not found. -/
theorem cloneMethod_cases {e : HashKey × Addr} {f : ZendFunction} (name : List UInt8)
    (old new : Addr) (hzv : SharedIs M.zvals st.zv) (hcl : LoadingClasses M C F st.cl)
    (ha : InShared e.2) (hf : M.functions e.2 = some f) (hv : FunctionValues InShared n M f) :
    cloneMethod n name old new st e = .error (.classLoadingError name) ∨
      ∃ st' b, cloneMethod n name old new st e = .ok (st', (e.1, b)) ∧
        MethodsCopied M C F (withPair F e.2 b) st st' := by
  obtain ⟨zv, statics, hto, -, heq⟩ := cloneMethod_eq name old new hzv hcl ha hf hv
  rw [heq]
  rcases copyOwner_cases (allocateFunction st.cl e.2 f) name old new f.scope with ⟨t, ht⟩ | ht
  · rcases copyPointer_cases (allocateFunction st.cl e.2 f).functionXlat name f.prototype with
      ⟨q, hq⟩ | hq
    · right
      simp only [ht, hq, bind, Except.bind]
      exact ⟨_, _, rfl, methodsCopied_write hcl hto e.2 f _⟩
    · left
      simp [ht, hq, bind, Except.bind]
  · left
    simp [ht, bind, Except.bind]

/-- The pairs of buckets in two tables -/
def Zipped (ms ms' : List (HashKey × Addr)) (x y : Addr) : Prop :=
  ∃ e e', (e, e') ∈ ms.zip ms' ∧ e.2 = x ∧ e'.2 = y

/-- The copies with the pairs of two tables -/
def withPairs (R : Addr → Addr → Prop) (ms ms' : List (HashKey × Addr)) (x y : Addr) : Prop :=
  R x y ∨ Zipped ms ms' x y

theorem withPairs_nil {R : Addr → Addr → Prop} {x y : Addr} (h : R x y) : withPairs R [] [] x y :=
  .inl h

theorem withPairs_cons {R : Addr → Addr → Prop} {e e' : HashKey × Addr}
    {ms ms' : List (HashKey × Addr)} {x y : Addr}
    (h : withPairs (withPair R e.2 e'.2) ms ms' x y) : withPairs R (e :: ms) (e' :: ms') x y := by
  rcases h with (h | ⟨rfl, rfl⟩) | ⟨d, d', hmem, hd, hd'⟩
  · exact .inl h
  · exact .inr ⟨e, e', by simp, rfl, rfl⟩
  · exact .inr ⟨d, d', by simp [hmem], hd, hd'⟩

theorem MethodsCopied.trans {F'' : Addr → Addr → Prop} {st'' : CopyState}
    (hzv : SharedIs M.zvals st.zv) (h : MethodsCopied M C F F' st st')
    (h' : MethodsCopied M C F' F'' st' st'') :
    MethodsCopied M C F F'' st st'' where
  zvals := (clonedTo_stepRel _).trans hzv h.zvals h'.zvals
  load := h.load.trans h'.load
  loading := h'.loading
  more a b hab := h'.more a b (h.more a b hab)
  classes := h'.classes.trans h.classes
  classXlat := h'.classXlat.trans h.classXlat
  nextClass := h'.nextClass.trans h.nextClass

theorem MethodsCopied.mono (h : MethodsCopied M C F F' st st') {F'' : Addr → Addr → Prop}
    (hF : ∀ a b, F' a b → F'' a b) : MethodsCopied M C F F'' st st' where
  zvals := h.zvals
  load := h.load
  loading := h.loading.mono (fun _ _ hab => hab) hF
  more a b hab := hF a b (h.more a b hab)
  classes := h.classes
  classXlat := h.classXlat
  nextClass := h.nextClass

/-- `zend_hash_clone_methods` of a class at `old` that is copied to `new` -/
theorem cloneMethods_spec (name : List UInt8) (hnew : C old new) :
    ∀ (ms : List (HashKey × Addr)) (st : CopyState) (F : Addr → Addr → Prop),
      SharedIs M.zvals st.zv → LoadingClasses M C F st.cl →
      (∀ e ∈ ms, InShared e.2 ∧ ∃ f, M.functions e.2 = some f ∧ FunctionValues InShared n M f ∧
        LinksFound st.cl old f) →
      ∃ st' ms', mapAccum (cloneMethod n name old new) ms st = .ok (st', ms') ∧
        MethodsCopied M C F (withPairs F ms ms') st st' ∧
        List.Forall₂ (MethodCopy M n C (withPairs F ms ms') st.cl.nextFunction st') ms ms' := by
  intro ms
  induction ms with
  | nil =>
    intro st F hzv hcl _
    exact ⟨st, [], rfl, ⟨(clonedTo_stepRel _).refl hzv, .refl _,
      hcl.mono (fun _ _ h => h) fun _ _ => withPairs_nil, fun _ _ =>
        withPairs_nil, rfl, rfl, rfl⟩, .nil⟩
  | cons e ms ih =>
    intro st F hzv hcl hall
    obtain ⟨ha, f, hf, hv, hl⟩ := hall e List.mem_cons_self
    obtain ⟨st₁, b, hclone, hto, hcopy⟩ := cloneMethod_spec name hzv hcl hnew ha hf hv hl
    obtain ⟨st₂, ms', hmap, hto', hcopies⟩ := ih st₁ _ hto.zvals.shared hto.loading (by
      intro e' hmem
      obtain ⟨ha', f', hf', hv', hl'⟩ := hall e' (List.mem_cons_of_mem _ hmem)
      exact ⟨ha', f', hf', hv', hl'.step hto.load⟩)
    have hpairs : ∀ x y, withPairs (withPair F e.2 b) ms ms' x y →
        withPairs F (e :: ms) ((e.1, b) :: ms') x y :=
      fun x y h => @withPairs_cons F e (e.1, b) ms ms' x y h
    refine ⟨st₂, (e.1, b) :: ms', mapAccum_cons_ok.mpr ⟨st₁, _, ms', hclone, hmap, rfl⟩,
      (hto.trans hzv hto').mono hpairs, .cons ?_ ?_⟩
    · exact hcopy.step hto'.zvals.kept hto'.load le_rfl (fun _ _ h => h)
        fun x y h => hpairs x y (.inl h)
    · refine hcopies.imp fun d d' hd => ?_
      exact hd.step ⟨le_rfl, fun _ _ => rfl⟩ (.refl _) hto.load.nextFunction (fun _ _ h => h) hpairs

theorem cloneMethods_cases (name : List UInt8) (old new : Addr) :
    ∀ (ms : List (HashKey × Addr)) (st : CopyState) (F : Addr → Addr → Prop),
      SharedIs M.zvals st.zv → LoadingClasses M C F st.cl →
      (∀ e ∈ ms, InShared e.2 ∧ ∃ f, M.functions e.2 = some f ∧ FunctionValues InShared n M f) →
      mapAccum (cloneMethod n name old new) ms st = .error (.classLoadingError name) ∨
        ∃ st' ms' F', mapAccum (cloneMethod n name old new) ms st = .ok (st', ms') ∧
          MethodsCopied M C F F' st st' := by
  intro ms
  induction ms with
  | nil =>
    intro st F hzv hcl _
    exact .inr ⟨st, [], F, rfl, (clonedTo_stepRel _).refl hzv, .refl _, hcl, fun _ _ h => h,
      rfl, rfl,
      rfl⟩
  | cons e ms ih =>
    intro st F hzv hcl hall
    obtain ⟨ha, f, hf, hv⟩ := hall e List.mem_cons_self
    rcases cloneMethod_cases name old new hzv hcl ha hf hv with herr | ⟨st₁, b, hclone, hto⟩
    · left
      simp [mapAccum, herr, bind, Except.bind]
    · rcases ih st₁ _ hto.zvals.shared hto.loading fun e' hmem =>
          hall e' (List.mem_cons_of_mem _ hmem) with herr | ⟨st₂, ms', F', hmap, hto'⟩
      · left
        simp [mapAccum, hclone, herr, bind, Except.bind]
      · exact .inr ⟨st₂, (e.1, b) :: ms', F',
          mapAccum_cons_ok.mpr ⟨st₁, _, ms', hclone, hmap, rfl⟩, hto.trans hzv hto'⟩

end Persist

end ZendOpcache
