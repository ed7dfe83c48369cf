import Mathlib.Data.List.Dedup
import ZendOpcache.Interned.Runs
import ZendOpcache.Transition.MapAccum

/-! # The strings of the engine's tables

`accel_use_shm_interned_strings` replaces the keys and names in the tables of the engine at startup:
all strings with one text get one pointer into the buffer, unless there is no room for the text.
They are saved with the buffer, so whatever is interned later and however often the cache is
restarted, each of them reads as before, and interning its text again gives the same pointer.
-/

namespace ZendOpcache

namespace Interned

/-- A bucket of `properties_info`. A key is there unless `nKeyLength` is 0, and a name unless the
pointer is null. -/
structure PropertyKeys (α : Type*) where
  arKey : Option α
  name : Option α

/-- A bucket of the class table -/
structure ClassKeys (α : Type*) where
  arKey : Option α
  name : Option α
  propertiesInfo : List (PropertyKeys α)
  functionTable : List (Option α)
  constantsTable : List (Option α)

structure AutoGlobal (α : Type*) where
  name : α
  arKey : Option α

/-- The tables that are walked, with their buckets in the order of the lists -/
structure SymbolTables (α : Type*) where
  functionTable : List (Option α)
  classTable : List (ClassKeys α)
  zendConstants : List (Option α)
  autoGlobals : List (AutoGlobal α)

section Map

variable {α β : Type*} (f : α → β)

def PropertyKeys.map (x : PropertyKeys α) : PropertyKeys β := ⟨x.arKey.map f, x.name.map f⟩

def ClassKeys.map (x : ClassKeys α) : ClassKeys β :=
  ⟨x.arKey.map f, x.name.map f, x.propertiesInfo.map (·.map f), x.functionTable.map (·.map f),
    x.constantsTable.map (·.map f)⟩

def AutoGlobal.map (x : AutoGlobal α) : AutoGlobal β := ⟨f x.name, x.arKey.map f⟩

def SymbolTables.map (x : SymbolTables α) : SymbolTables β :=
  ⟨x.functionTable.map (·.map f), x.classTable.map (·.map f), x.zendConstants.map (·.map f),
    x.autoGlobals.map (·.map f)⟩

def PropertyKeys.strings (x : PropertyKeys α) : List α := x.arKey.toList ++ x.name.toList

def ClassKeys.strings (x : ClassKeys α) : List α :=
  x.arKey.toList ++ (x.name.toList ++ (x.propertiesInfo.flatMap (·.strings) ++
    (x.functionTable.flatMap (·.toList) ++ x.constantsTable.flatMap (·.toList))))

def AutoGlobal.strings (x : AutoGlobal α) : List α := [x.name] ++ x.arKey.toList

/-- All strings of the tables -/
def SymbolTables.strings (x : SymbolTables α) : List α :=
  x.functionTable.flatMap (·.toList) ++ (x.classTable.flatMap (·.strings) ++
    (x.zendConstants.flatMap (·.toList) ++ x.autoGlobals.flatMap (·.strings)))

end Map

/-- A string of the process: an address and the bytes that are there -/
abbrev ProcessString := ℕ × List UInt8

namespace CharPtr

def ofProcess (x : ProcessString) : CharPtr := .process x.1 x.2

/-- The place in the buffer that the text of a string has, or the string itself -/
def placed (place : List UInt8 → Option ℕ) (x : ProcessString) : CharPtr :=
  match place x.2 with
  | some p => .shared p
  | none => .ofProcess x

end CharPtr

namespace InternedStrings

variable [ZendInlineHash (List UInt8)]

def intern (s : InternedStrings) (p : CharPtr) : Except Unit (InternedStrings × CharPtr) :=
  match s.accelNewInternedString p with
  | none => .error ()
  | some x => .ok x

def internKey (s : InternedStrings) :
    Option CharPtr → Except Unit (InternedStrings × Option CharPtr)
  | none => .ok (s, none)
  | some p => do
    let (s, p) ← s.intern p
    return (s, some p)

def internProperty (s : InternedStrings) (x : PropertyKeys CharPtr) :
    Except Unit (InternedStrings × PropertyKeys CharPtr) := do
  let (s, arKey) ← s.internKey x.arKey
  let (s, name) ← s.internKey x.name
  return (s, ⟨arKey, name⟩)

def internClass (s : InternedStrings) (x : ClassKeys CharPtr) :
    Except Unit (InternedStrings × ClassKeys CharPtr) := do
  let (s, arKey) ← s.internKey x.arKey
  let (s, name) ← s.internKey x.name
  let (s, propertiesInfo) ← mapAccum internProperty x.propertiesInfo s
  let (s, functionTable) ← mapAccum internKey x.functionTable s
  let (s, constantsTable) ← mapAccum internKey x.constantsTable s
  return (s, ⟨arKey, name, propertiesInfo, functionTable, constantsTable⟩)

def internAutoGlobal (s : InternedStrings) (x : AutoGlobal CharPtr) :
    Except Unit (InternedStrings × AutoGlobal CharPtr) := do
  let (s, name) ← s.intern x.name
  let (s, arKey) ← s.internKey x.arKey
  return (s, ⟨name, arKey⟩)

/-- `accel_use_shm_interned_strings` -/
def accelUseShmInternedStrings (s : InternedStrings) (x : SymbolTables CharPtr) :
    Except Unit (InternedStrings × SymbolTables CharPtr) := do
  let (s, functionTable) ← mapAccum internKey x.functionTable s
  let (s, classTable) ← mapAccum internClass x.classTable s
  let (s, zendConstants) ← mapAccum internKey x.zendConstants s
  let (s, autoGlobals) ← mapAccum internAutoGlobal x.autoGlobals s
  return (s, ⟨functionTable, classTable, zendConstants, autoGlobals⟩)

/-- Where the buffer has a text -/
def place (s : InternedStrings) (key : List UInt8) : Option ℕ :=
  (s.find key).join.map (· + sizeofBucket)

/-- What interning a string gives -/
def pointer (s : InternedStrings) (x : ProcessString) : CharPtr := .placed s.place x

/-- A text is in the buffer, or there is no room for it. -/
def Settled (s : InternedStrings) (key : List UInt8) : Prop :=
  ∀ a, s.accelNewInternedString (.process a key) = some (s, s.pointer (a, key))

/-- In a later state of the buffer, what was settled still is, in the same place. -/
structure Later (s t : InternedStrings) : Prop where
  same : SameBuffer s t
  settled : ∀ {key}, s.Settled key → t.Settled key ∧ t.place key = s.place key

end InternedStrings

open InternedStrings

section Pointers

variable [ZendInlineHash (List UInt8)] {s t u : InternedStrings} {keys : List (List UInt8)}
  {key : List UInt8}

theorem InternedStrings.Later.refl (s : InternedStrings) : Later s s :=
  ⟨⟨rfl, rfl, rfl⟩, fun h => ⟨h, rfl⟩⟩

theorem InternedStrings.Later.trans (h : Later s t) (h' : Later t u) : Later s u where
  same := h.same.trans h'.same
  settled hs := by
    obtain ⟨ht, hp⟩ := h.settled hs
    obtain ⟨hu, hp'⟩ := h'.settled ht
    exact ⟨hu, hp'.trans hp⟩

/-- A settled text has one pointer. -/
theorem InternedStrings.Later.pointer_eq (h : Later s t) {x : ProcessString} (hs : s.Settled x.2) :
    t.pointer x = s.pointer x := by
  rw [InternedStrings.pointer, InternedStrings.pointer, CharPtr.placed, CharPtr.placed,
    (h.settled hs).2]

namespace Represents

theorem place_of_mem (h : Represents s keys) {j : ℕ} (hj : keys[j]? = some key) :
    s.place key = some (addr s.start keys j + sizeofBucket) := by
  rw [place, h.find_of_mem hj]
  rfl

theorem place_of_not_mem (h : Represents s keys) (hkey : key ∉ keys) : s.place key = none := by
  rw [place, h.find_of_not_mem hkey]
  rfl

theorem settled_of_mem (h : Represents s keys) (hkey : key ∈ keys) : s.Settled key := by
  obtain ⟨j, hj⟩ := List.mem_iff_getElem?.mp hkey
  intro a
  rw [h.accelNewInternedString_of_mem hj, pointer, CharPtr.placed, h.place_of_mem hj]

theorem settled_of_full (h : Represents s keys) (hkey : key ∉ keys)
    (hfull : s.finish ≤ s.top + bucketSize key) : s.Settled key := by
  intro a
  rw [h.accelNewInternedString_of_full hkey hfull, pointer, CharPtr.placed, h.place_of_not_mem hkey]
  rfl

/-- A string is not settled as long as it would get a bucket. -/
theorem mem_or_full (h : Represents s keys) (hs : s.Settled key) :
    key ∈ keys ∨ s.finish ≤ s.top + bucketSize key := by
  by_contra hne
  obtain ⟨hkey, hfit⟩ := not_or.mp hne
  have hcall := hs 0
  rw [h.accelNewInternedString_of_fits hkey (Nat.not_le.mp hfit)] at hcall
  have htop := congrArg (fun x : InternedStrings × CharPtr => x.1.top) (Option.some.inj hcall)
  have hsize := sizeofBucket_le_bucketSize key
  have hpos : 0 < sizeofBucket := by decide
  change s.top + bucketSize key = s.top at htop
  omega

/-- Where both buffers hold the same strings -/
theorem later_same (h : Represents s keys) (h' : Represents t keys) (hst : SameBuffer s t) :
    Later s t where
  same := hst
  settled {key} hs := by
    have htop : t.top = s.top := by rw [h'.top, h.top, hst.start]
    by_cases hmem : key ∈ keys
    · obtain ⟨j, hj⟩ := List.mem_iff_getElem?.mp hmem
      exact ⟨h'.settled_of_mem hmem, by rw [h'.place_of_mem hj, h.place_of_mem hj, hst.start]⟩
    · have hfull := (h.mem_or_full hs).resolve_left hmem
      refine ⟨h'.settled_of_full hmem (by rwa [htop, hst.finish]), ?_⟩
      rw [h'.place_of_not_mem hmem, h.place_of_not_mem hmem]

/-- Where one string was added -/
theorem later_append (h : Represents s keys) {new : List UInt8}
    (h' : Represents t (keys ++ [new])) (hst : SameBuffer s t)
    (hfit : s.top + bucketSize new < s.finish) : Later s t where
  same := hst
  settled {key} hs := by
    have htop : t.top = s.top + bucketSize new := by
      have hlast : (keys ++ [new])[keys.length]? = some new := by simp
      have haddr : addr s.start (keys ++ [new]) (keys.length + 1) = _ := addr_succ hlast
      rw [addr_append le_rfl, ← h.top] at haddr
      rw [h'.top, List.length_append, List.length_singleton, hst.start, haddr, bucketSize]
    by_cases hmem : key ∈ keys
    · obtain ⟨j, hj⟩ := List.mem_iff_getElem?.mp hmem
      have hlt := (List.getElem?_eq_some_iff.mp hj).1
      have hj' : (keys ++ [new])[j]? = some key := by rw [List.getElem?_append_left hlt, hj]
      refine ⟨h'.settled_of_mem (List.mem_append_left _ hmem), ?_⟩
      rw [h'.place_of_mem hj', h.place_of_mem hj, hst.start, addr_append hlt.le]
    · have hfull := (h.mem_or_full hs).resolve_left hmem
      have hnew : key ∉ keys ++ [new] := by
        rw [List.mem_append, List.mem_singleton, not_or]
        refine ⟨hmem, ?_⟩
        rintro rfl
        omega
      refine ⟨h'.settled_of_full hnew (by rw [htop, hst.finish]; omega), ?_⟩
      rw [h'.place_of_not_mem hnew, h.place_of_not_mem hmem]

end Represents

/-! ### The walk of the tables -/

/-- The buffer holds some strings, of which the saved ones are the first. -/
def Ready (s : InternedStrings) : Prop := ∃ keys kept, Holds s keys kept

/-- Some strings are settled, and no others were added. -/
structure Interns (s t : InternedStrings) (strings : List ProcessString) : Prop where
  ready : Ready t
  later : Later s t
  settled : ∀ y ∈ strings, t.Settled y.2
  added : ∀ key, s.place key = none → t.place key ≠ none → key ∈ strings.map (·.2)

theorem Interns.refl (hs : Ready s) : Interns s s [] :=
  ⟨hs, .refl s, by simp, fun _ hnone hne => absurd hnone hne⟩

theorem Interns.append {as bs : List ProcessString} (h : Interns s t as) (h' : Interns t u bs) :
    Interns s u (as ++ bs) where
  ready := h'.ready
  later := h.later.trans h'.later
  settled y hy := by
    rcases List.mem_append.mp hy with hy | hy
    · exact (h'.later.settled (h.settled y hy)).1
    · exact h'.settled y hy
  added key hnone hne := by
    rw [List.map_append, List.mem_append]
    by_cases ht : t.place key = none
    · exact .inr (h'.added key ht hne)
    · exact .inl (h.added key hnone ht)

theorem Represents.place_ne_none (h : Represents s keys) : s.place key ≠ none ↔ key ∈ keys := by
  constructor
  · intro hne
    by_contra hkey
    exact hne (h.place_of_not_mem hkey)
  · intro hkey
    obtain ⟨j, hj⟩ := List.mem_iff_getElem?.mp hkey
    simp [h.place_of_mem hj]

theorem intern_eq (hs : Ready s) (y : ProcessString) :
    ∃ t, s.intern (.ofProcess y) = .ok (t, t.pointer y) ∧ Interns s t [y] := by
  obtain ⟨keys, kept, h⟩ := hs
  have hsettled : s.Settled y.2 →
      ∃ t, s.intern (.ofProcess y) = .ok (t, t.pointer y) ∧ Interns s t [y] := by
    intro hy
    refine ⟨s, by rw [intern, CharPtr.ofProcess, hy], ⟨keys, kept, h⟩, .refl s, ?_, ?_⟩
    · exact fun z hz => List.mem_singleton.mp hz ▸ hy
    · exact fun _ hnone hne => absurd hnone hne
  by_cases hmem : y.2 ∈ keys
  · exact hsettled (h.represents.settled_of_mem hmem)
  rcases Nat.lt_or_ge (s.top + bucketSize y.2) s.finish with hfit | hfull
  · have hcall := h.represents.accelNewInternedString_of_fits (a := y.1) hmem hfit
    have ht := h.represents.createBucket hmem hfit.le
    have hlast : (keys ++ [y.2])[keys.length]? = some y.2 := by simp
    have hstart : addr (s.createBucket (zendInlineHashFunc y.2) y.2).start (keys ++ [y.2])
        keys.length = s.top := by
      rw [h.represents.top]
      exact addr_append le_rfl [y.2]
    have hplace := ht.place_of_mem hlast
    rw [hstart] at hplace
    refine ⟨_, ?_, ⟨keys ++ [y.2], kept, ht, h.saved, fun k hk => ?_⟩,
      h.represents.later_append ht ⟨rfl, rfl, rfl⟩ hfit, fun z hz => ?_, fun key hnone hne => ?_⟩
    · rw [intern, CharPtr.ofProcess, hcall, pointer, CharPtr.placed, hplace]
    · exact (h.isPrefix k hk).trans (List.prefix_append keys [y.2])
    · obtain rfl := List.mem_singleton.mp hz
      exact ht.settled_of_mem (by simp)
    · refine (List.mem_append.mp (ht.place_ne_none.mp hne)).resolve_left fun hkey => ?_
      exact h.represents.place_ne_none.mpr hkey hnone
  · exact hsettled (h.represents.settled_of_full hmem hfull)

/-- A part of the walk turns the strings into the pointers that they have at its end. The part is
given as what it is with each kind of pointers. -/
structure Walks {β : Type} (f : InternedStrings → β → Except Unit (InternedStrings × β))
    (x : (ProcessString → CharPtr) → β) (strings : List ProcessString) : Prop where
  congr : ∀ {g h}, (∀ y ∈ strings, g y = h y) → x g = x h
  run : ∀ s, Ready s → ∃ t, f s (x .ofProcess) = .ok (t, x t.pointer) ∧ Interns s t strings

/-- What was walked before still has the same pointers. -/
theorem Walks.later {β : Type} {f : InternedStrings → β → Except Unit (InternedStrings × β)}
    {x : (ProcessString → CharPtr) → β} {strings : List ProcessString} (h : Walks f x strings)
    (ht : ∀ y ∈ strings, s.Settled y.2) (hst : Later s t) : x s.pointer = x t.pointer :=
  h.congr fun y hy => (hst.pointer_eq (ht y hy)).symm

theorem walks_intern (y : ProcessString) : Walks intern (fun f => f y) [y] where
  congr h := h y List.mem_cons_self
  run _ hs := intern_eq hs y

theorem walks_internKey (key : Option ProcessString) :
    Walks internKey (fun f => key.map f) key.toList := by
  cases key with
  | none => exact ⟨fun _ => rfl, fun s hs => ⟨s, rfl, .refl hs⟩⟩
  | some key =>
    refine ⟨fun h => congrArg some (h key (by simp)), fun s hs => ?_⟩
    obtain ⟨t, heq, ht⟩ := (walks_intern key).run s hs
    refine ⟨t, ?_, ht⟩
    change s.intern (.ofProcess key) = _ at heq
    change (do let (s, p) ← s.intern (.ofProcess key); return (s, some p)) = _
    rw [heq]
    rfl

/-- A part of the walk and what comes after it -/
theorem Walks.bind {β δ : Type} {f : InternedStrings → β → Except Unit (InternedStrings × β)}
    {x : (ProcessString → CharPtr) → β} {as bs : List ProcessString} (hf : Walks f x as)
    (hs : Ready s) {k : InternedStrings × β → Except Unit (InternedStrings × δ)}
    (z : (ProcessString → CharPtr) → β → δ)
    (hk : ∀ t, Ready t → ∀ b, ∃ u, k (t, b) = .ok (u, z u.pointer b) ∧ Interns t u bs) :
    ∃ u, (f s (x .ofProcess) >>= k) = .ok (u, z u.pointer (x u.pointer)) ∧
      Interns s u (as ++ bs) := by
  obtain ⟨t, heq, hst⟩ := hf.run s hs
  obtain ⟨u, heq', htu⟩ := hk t hst.ready (x t.pointer)
  refine ⟨u, ?_, hst.append htu⟩
  rw [heq]
  change k (t, x t.pointer) = _
  rw [heq', hf.later hst.settled htu.later]

/-- The last part of a walk -/
theorem Walks.last {β δ : Type} {f : InternedStrings → β → Except Unit (InternedStrings × β)}
    {x : (ProcessString → CharPtr) → β} {as : List ProcessString} (hf : Walks f x as)
    (hs : Ready s) (c : β → δ) :
    ∃ u, (f s (x .ofProcess) >>= fun r => pure (r.1, c r.2)) = .ok (u, c (x u.pointer)) ∧
      Interns s u as := by
  obtain ⟨t, heq, ht⟩ := hf.run s hs
  refine ⟨t, ?_, ht⟩
  rw [heq]
  rfl

theorem Walks.list {α β : Type} {f : InternedStrings → β → Except Unit (InternedStrings × β)}
    {x : α → (ProcessString → CharPtr) → β} {strings : α → List ProcessString}
    (h : ∀ a, Walks f (x a) (strings a)) (l : List α) :
    Walks (fun s l => mapAccum f l s) (fun g => l.map (x · g)) (l.flatMap strings) := by
  refine ⟨fun {g h'} hgh => ?_, ?_⟩
  · refine List.map_congr_left fun a ha => (h a).congr fun y hy => ?_
    exact hgh y (List.mem_flatMap.mpr ⟨a, ha, hy⟩)
  · induction l with
    | nil => exact fun s hs => ⟨s, rfl, .refl hs⟩
    | cons a l ih =>
      intro s hs
      have hl : Walks (fun s l => mapAccum f l s) (fun g => l.map (x · g)) (l.flatMap strings) :=
        ⟨fun {g h'} hgh => List.map_congr_left fun a ha => (h a).congr fun y hy =>
          hgh y (List.mem_flatMap.mpr ⟨a, ha, hy⟩), ih⟩
      exact (h a).bind hs (fun g b => b :: l.map (x · g)) fun t ht b => hl.last ht (b :: ·)

theorem walks_internProperty (x : PropertyKeys ProcessString) :
    Walks internProperty (fun f => x.map f) x.strings where
  congr {g h} hgh := by
    obtain ⟨hkey, hname⟩ := List.forall_mem_append.mp hgh
    exact congrArg₂ PropertyKeys.mk ((walks_internKey x.arKey).congr hkey)
      ((walks_internKey x.name).congr hname)
  run s hs := by
    unfold internProperty
    exact (walks_internKey x.arKey).bind hs (fun f b => PropertyKeys.mk b (x.name.map f))
      fun t ht b => (walks_internKey x.name).last ht (PropertyKeys.mk b)

theorem walks_internKeys (x : List (Option ProcessString)) :
    Walks (fun s l => mapAccum internKey l s) (fun f => x.map (·.map f)) (x.flatMap (·.toList)) :=
  Walks.list walks_internKey x

theorem walks_internClass (x : ClassKeys ProcessString) :
    Walks internClass (fun f => x.map f) x.strings where
  congr {g h} hgh := by
    obtain ⟨hkey, hrest⟩ := List.forall_mem_append.mp hgh
    obtain ⟨hname, hrest⟩ := List.forall_mem_append.mp hrest
    obtain ⟨hproperties, hrest⟩ := List.forall_mem_append.mp hrest
    obtain ⟨hfunctions, hconstants⟩ := List.forall_mem_append.mp hrest
    have hkey := (walks_internKey x.arKey).congr hkey
    have hname := (walks_internKey x.name).congr hname
    have hproperties := (Walks.list walks_internProperty x.propertiesInfo).congr hproperties
    have hfunctions := (walks_internKeys x.functionTable).congr hfunctions
    have hconstants := (walks_internKeys x.constantsTable).congr hconstants
    simp only [ClassKeys.map, hkey, hname, hproperties, hfunctions, hconstants]
  run s hs := by
    unfold internClass
    refine (walks_internKey x.arKey).bind hs (fun f b => ClassKeys.mk b (x.name.map f)
      (x.propertiesInfo.map (·.map f)) (x.functionTable.map (·.map f))
      (x.constantsTable.map (·.map f))) fun _ ht arKey => ?_
    refine (walks_internKey x.name).bind ht (fun f b => ClassKeys.mk arKey b
      (x.propertiesInfo.map (·.map f)) (x.functionTable.map (·.map f))
      (x.constantsTable.map (·.map f))) fun _ ht name => ?_
    refine (Walks.list walks_internProperty x.propertiesInfo).bind ht (fun f b =>
      ClassKeys.mk arKey name b (x.functionTable.map (·.map f))
      (x.constantsTable.map (·.map f))) fun _ ht properties => ?_
    refine (walks_internKeys x.functionTable).bind ht (fun f b =>
      ClassKeys.mk arKey name properties b (x.constantsTable.map (·.map f)))
      fun _ ht functions => ?_
    exact (walks_internKeys x.constantsTable).last ht (ClassKeys.mk arKey name properties functions)

theorem walks_internAutoGlobal (x : AutoGlobal ProcessString) :
    Walks internAutoGlobal (fun f => x.map f) x.strings where
  congr {g h} hgh := by
    obtain ⟨hname, hkey⟩ := List.forall_mem_append.mp hgh
    exact congrArg₂ AutoGlobal.mk ((walks_intern x.name).congr hname)
      ((walks_internKey x.arKey).congr hkey)
  run s hs := by
    unfold internAutoGlobal
    exact (walks_intern x.name).bind hs (fun f b => AutoGlobal.mk b (x.arKey.map f))
      fun t ht b => (walks_internKey x.arKey).last ht (AutoGlobal.mk b)

theorem walks_accelUseShmInternedStrings (x : SymbolTables ProcessString) :
    Walks accelUseShmInternedStrings (fun f => x.map f) x.strings where
  congr {g h} hgh := by
    obtain ⟨hfunctions, hrest⟩ := List.forall_mem_append.mp hgh
    obtain ⟨hclasses, hrest⟩ := List.forall_mem_append.mp hrest
    obtain ⟨hconstants, hglobals⟩ := List.forall_mem_append.mp hrest
    have hfunctions := (walks_internKeys x.functionTable).congr hfunctions
    have hclasses := (Walks.list walks_internClass x.classTable).congr hclasses
    have hconstants := (walks_internKeys x.zendConstants).congr hconstants
    have hglobals := (Walks.list walks_internAutoGlobal x.autoGlobals).congr hglobals
    simp only [SymbolTables.map, hfunctions, hclasses, hconstants, hglobals]
  run s hs := by
    unfold accelUseShmInternedStrings
    refine (walks_internKeys x.functionTable).bind hs (fun f b => SymbolTables.mk b
      (x.classTable.map (·.map f)) (x.zendConstants.map (·.map f)) (x.autoGlobals.map (·.map f)))
      fun _ ht functions => ?_
    refine (Walks.list walks_internClass x.classTable).bind ht (fun f b => SymbolTables.mk functions
      b (x.zendConstants.map (·.map f)) (x.autoGlobals.map (·.map f))) fun _ ht classes => ?_
    refine (walks_internKeys x.zendConstants).bind ht (fun f b => SymbolTables.mk functions classes
      b (x.autoGlobals.map (·.map f))) fun _ ht constants => ?_
    exact (Walks.list walks_internAutoGlobal x.autoGlobals).last ht
      (SymbolTables.mk functions classes constants)

/-! ### After startup -/

theorem later_of_intern {a : ℕ} (hs : Ready s) (h : Step s (.intern a key) t) : Later s t := by
  obtain ⟨u, heq, hsu⟩ := intern_eq hs (a, key)
  obtain ⟨⟨t', p⟩, hcall, rfl⟩ := Option.map_eq_some_iff.mp h
  rw [intern, CharPtr.ofProcess, hcall] at heq
  obtain ⟨rfl, -⟩ := Prod.mk.inj (Except.ok.inj heq)
  exact hsu.later

/-- Until the next save, the strings that were settled at the save stay where they are. -/
theorem later_of_run (hs : Ready s) {v : List Op} (hsave : Step s .save t)
    (hr : GuardedRun Step NoSave t v u) : Ready u ∧ Later s u := by
  obtain ⟨keys, kept, h⟩ := hs
  obtain ⟨hst, he⟩ := h.step hsave
  cases he with
  | saved ht _ =>
    have hinv : ∃ keys', Holds u keys' (some keys) ∧ Later s u := by
      induction hr with
      | nil => exact ⟨keys, ht, h.represents.later_same ht.represents hst⟩
      | @snoc w t' u' op hw hg hstep ih =>
        obtain ⟨keys', ht', hlater⟩ := ih
        obtain ⟨hsame, he'⟩ := ht'.step hstep
        cases he' with
        | same a key heq => exact ⟨keys', heq ▸ ht', heq ▸ hlater⟩
        | added a key hu _ => exact ⟨_, hu, hlater.trans (later_of_intern ⟨keys', _, ht'⟩ hstep)⟩
        | saved => exact absurd rfl hg
        | restored k hkept hu _ =>
          obtain rfl := Option.some.inj hkept
          exact ⟨keys, hu, h.represents.later_same hu.represents (hlater.same.trans hsame)⟩
    obtain ⟨keys', hu, hlater⟩ := hinv
    exact ⟨⟨keys', _, hu⟩, hlater⟩

/-- If the buckets of all texts leave a byte free, every text has a place. -/
theorem Interns.place_of_room [ZendHashInit] {start megabytes : ℕ} {strings : List ProcessString}
    (h : Interns (.init start megabytes) s strings)
    (hroom : (((strings.map (·.2)).dedup).map bucketSize).sum < megabytes * 1024 * 1024)
    {y : ProcessString} (hy : y ∈ strings) : s.place y.2 ≠ none := by
  obtain ⟨keys, kept, hs⟩ := h.ready
  intro hnone
  have hkey : y.2 ∉ keys := fun hmem => hs.represents.place_ne_none.mpr hmem hnone
  have hfull := (hs.represents.mem_or_full (h.settled y hy)).resolve_left hkey
  have hempty (key : List UInt8) : (init start megabytes).place key = none :=
    (represents_init start megabytes).place_of_not_mem List.not_mem_nil
  -- the buckets of the buffer and that of the text are among those of all texts
  have hsub : y.2 :: keys ⊆ (strings.map (·.2)).dedup := by
    intro key hmem
    rw [List.mem_dedup]
    rcases List.mem_cons.mp hmem with rfl | hmem
    · exact List.mem_map_of_mem hy
    · exact h.added key (hempty key) (hs.represents.place_ne_none.mpr hmem)
  obtain ⟨l, hperm, hsublist⟩ :=
    List.subperm_of_subset (List.nodup_cons.mpr ⟨hkey, hs.represents.nodup⟩) hsub
  have hsum : ((y.2 :: keys).map bucketSize).sum ≤
      (((strings.map (·.2)).dedup).map bucketSize).sum :=
    (hperm.map bucketSize).sum_eq ▸ (hsublist.map bucketSize).sum_le_sum fun _ _ => Nat.zero_le _
  have htop : s.top = s.start + (keys.map bucketSize).sum := by
    rw [hs.represents.top, addr, List.take_length]
  have hstart : s.start = start := h.later.same.start
  have hfinish : s.finish = start + megabytes * 1024 * 1024 := h.later.same.finish
  rw [List.map_cons, List.sum_cons] at hsum
  omega

/-- The tables of the engine after startup: the walk comes to an end, and gives all strings with one
text one pointer into the buffer, or leaves them as they are. Every text has its place if there is
room for all of them. In every state that is reached after the save, whatever is interned and
however often the cache is restarted, a text stays in its place, and interning it gives its pointer
and changes nothing. A text that has no place would not leave a byte free, and interning it gives
back the string of the caller. -/
theorem accelUseShmInternedStrings_run [ZendHashInit] (start megabytes : ℕ)
    (x : SymbolTables ProcessString) :
    ∃ s place, accelUseShmInternedStrings (.init start megabytes) (x.map .ofProcess) =
        .ok (s, x.map (.placed place)) ∧
      ((((x.strings.map (·.2)).dedup).map bucketSize).sum < megabytes * 1024 * 1024 →
        ∀ y ∈ x.strings, place y.2 ≠ none) ∧
      ∀ t v u, Step s .save t → GuardedRun Step NoSave t v u → ∀ y ∈ x.strings,
        (∀ p, place y.2 = some p → u.stringAt p = some y.2 ∧
          ∀ a, u.accelNewInternedString (.process a y.2) = some (u, .shared p)) ∧
        (place y.2 = none → u.finish ≤ u.top + bucketSize y.2 ∧
          ∀ a, u.accelNewInternedString (.process a y.2) = some (u, .process a y.2)) := by
  have hinit : Ready (.init start megabytes) := ⟨[], none, holds_init start megabytes⟩
  obtain ⟨s, heq, hs⟩ := (walks_accelUseShmInternedStrings x).run _ hinit
  refine ⟨s, s.place, heq, fun hroom y hy => hs.place_of_room hroom hy,
    fun t v u hsave hr y hy => ?_⟩
  obtain ⟨⟨keys, kept, hu⟩, hlater⟩ := later_of_run hs.ready hsave hr
  obtain ⟨hsettled, hplace⟩ := hlater.settled (hs.settled y hy)
  rw [← hplace]
  constructor
  · intro p hp
    have hmem := hu.represents.place_ne_none.mp (hp ▸ Option.some_ne_none p)
    obtain ⟨j, hj⟩ := List.mem_iff_getElem?.mp hmem
    obtain rfl := Option.some.inj ((hu.represents.place_of_mem hj).symm.trans hp)
    refine ⟨hu.represents.stringAt hj, fun a => ?_⟩
    rw [hsettled a, pointer, CharPtr.placed, hp]
  · intro hnone
    have hmem : y.2 ∉ keys := fun hmem => hu.represents.place_ne_none.mpr hmem hnone
    refine ⟨(hu.represents.mem_or_full hsettled).resolve_left hmem, fun a => ?_⟩
    rw [hsettled a, pointer, CharPtr.placed, hnone]
    rfl

end Pointers

section

local instance symbolTablesHash : ZendInlineHash (List UInt8) := djbx33a
local instance symbolTablesInit : ZendHashInit := powerOfTwo

/-- A function `s` and a class `S` with a method `s` that is another string, after a restart -/
theorem accelUseShmInternedStrings_run_restart :
    let x : SymbolTables ProcessString := ⟨[some (8, [115, 0])],
      [⟨some (16, [115, 0]), some (24, [83, 0]), [], [some (32, [115, 0])], []⟩], [none], []⟩
    ∃ s t u place p, accelUseShmInternedStrings (.init 0 1) (x.map .ofProcess) =
        .ok (s, x.map (.placed place)) ∧
      place [115, 0] = some p ∧ Step s .save t ∧ Step t .restore u ∧
      u.stringAt p = some [115, 0] ∧
      u.accelNewInternedString (.process 40 [115, 0]) = some (u, .shared p) := by
  intro x
  obtain ⟨s, place, heq, hroom, hrun⟩ := accelUseShmInternedStrings_run 0 1 x
  obtain ⟨t, hsave⟩ : ∃ t, Step s .save t := ⟨_, rfl⟩
  obtain ⟨u, hrestore⟩ : ∃ u, Step t .restore u := by
    obtain rfl := Option.some.inj hsave
    exact ⟨_, rfl⟩
  have hmem : (8, [115, 0]) ∈ x.strings := by decide
  obtain ⟨p, hp⟩ := Option.ne_none_iff_exists'.mp (hroom (by decide) _ hmem)
  obtain ⟨hread, hcall⟩ :=
    (hrun t _ u hsave (.single (by simp [NoSave]) hrestore) _ hmem).1 p hp
  exact ⟨s, t, u, place, p, heq, hp, hsave, hrestore, hread, hcall 40⟩

end

end Interned

end ZendOpcache
