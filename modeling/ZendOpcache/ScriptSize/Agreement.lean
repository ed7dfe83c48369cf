import ZendOpcache.Interned.Runs
import ZendOpcache.ScriptSize.Walks

/-! # The calculated size is the size taken

`zend_accel_script_persist_calc` adds up exactly what `zend_accel_script_persist` takes, whatever
strings find room among the interned ones on the way.
-/

namespace ZendOpcache

namespace ScriptSize

/-- Doc comments are looked up by both walks if they are stored. -/
def kinds (saveComments : Bool) : Kinds Block where
  counted b := match b with
    | .table _ => False
    | .comment _ => saveComments = true
    | _ => True
  plain b := match b with
    | .table _ => True
    | _ => False
  late b := match b with
    | .statics _ => True
    | _ => False
  plain_counted b hb := by cases b <;> simp_all

/-- The keys of a table are not interned yet. -/
def HashTable.KeysNew {X : Type} (P : X → Prop) (ht : HashTable X) : Prop :=
  ∀ b ∈ ht.buckets, (∀ s, b.arKey = some s → s.isInterned = false) ∧ P b.element

def Zval.KeysNew {X : Type} (P : X → Prop) : Zval X → Prop
  | .array _ ht => ht.KeysNew P
  | _ => True

def ZvalPtr.KeysNew : (n : ℕ) → ZvalPtr n → Prop
  | 0, x => x.2.KeysNew fun _ => True
  | n + 1, x => x.2.KeysNew (ZvalPtr.KeysNew n)

section Values

variable {σ X : Type} {z : Sizeof} {saveComments : Bool}
  {newInternedString : σ → List UInt8 → σ × Option ℕ} {pending : Option Block}
  {ok : X → Prop} {todo : X → List Block} {f : Measure Block σ X} {g : Store Block X} {elSize : ℕ}

theorem measures_data (address size : X → ℕ) : Measures (kinds saveComments) pending
    (fun _ => True) (fun _ => [])
    (.addDupSize (fun x => .data (address x)) size : Measure Block σ X)
    (.memdup (fun x => .data (address x)) size) :=
  .addDupSize (fun _ => trivial) fun _ => id

theorem measures_table (address size : X → ℕ) : Measures (kinds saveComments) pending
    (fun _ => True) (fun x => [.table (address x)]) (.addSize size : Measure Block σ X)
    (.memdup (fun x => .table (address x)) size) :=
  .addSize fun _ => id

variable (newInternedString) in
theorem measures_internedString : Measures (kinds saveComments) pending (fun _ => True)
    (fun _ => []) (addInternedString newInternedString) storeInternedString := by
  intro s m p rest _ hr
  unfold addInternedString
  cases hs : s.isInterned with
  | true =>
    simp only [if_true, storeInternedString, hs]
    exact ⟨hr, .refl⟩
  | false =>
    have hblock : s.block = .data s.place := by simp [Str.block, hs]
    cases hnew : newInternedString m.rest s.content with
    | mk rest' r =>
      have hr' : Related (kinds saveComments) pending rest { m with rest := rest' } p :=
        ⟨hr.seen, hr.todo_plain, hr.nodup, hr.pending_late⟩
      cases r with
      | some a => exact ⟨hr', .refl⟩
      | none =>
        simp only [Bool.false_eq_true, if_false, storeInternedString, hs, hblock]
        exact hr'.addDupSize trivial id

variable (newInternedString) in
theorem measures_key : Measures (kinds saveComments) pending (fun s => s.isInterned = false)
    (fun _ => []) (addKey newInternedString) storeInternedString := by
  intro s m p rest hs hr
  have := measures_internedString newInternedString s m p rest trivial hr
  unfold addKey
  simpa only [hs, Bool.false_eq_true, if_false] using this

theorem measures_text : Measures (kinds saveComments) pending (fun _ => True) (fun _ => [])
    (addText .data : Measure Block σ Text) (storeText .data) :=
  measures_data Text.address Text.size

variable (elSize) in
theorem measures_elements : Measures (kinds saveComments) pending (fun _ => True) (fun _ => [])
    (addElements elSize : Measure Block σ Elements) (storeElements elSize) :=
  measures_data Elements.address fun x => elSize * x.count

variable (elSize) in
theorem measures_opcodes : Measures (kinds saveComments) pending (fun _ => True) (fun _ => [])
    (.once (fun x => .data x.address) (addElements elSize) : Measure Block σ Elements)
    (.once (fun x => .data x.address) (storeElements elSize)) :=
  (measures_elements elSize).once (fun _ => trivial) (fun _ => id) fun _ _ => rfl

theorem measures_docComment : Measures (kinds saveComments) pending (fun _ => True) (fun _ => [])
    (addDocComment saveComments : Measure Block σ Text) (storeDocComment saveComments) := by
  unfold addDocComment storeDocComment
  split_ifs with hs
  · exact .addDupSize (fun _ => hs) fun _ => id
  · exact .drop (fun _ => hs) (fun _ => id) fun _ => id

variable (elSize) in
theorem measures_items (h : Measures (kinds saveComments) pending ok (fun _ => []) f g) :
    Measures (kinds saveComments) pending (fun x : Items X => ∀ y ∈ x.items, ok y) (fun _ => [])
      (addItems elSize f) (storeItems elSize g) := by
  have hall := (measures_data (fun x : Items X => x.address) fun x => elSize * x.items.length).seq
    (h.list_nil.field Items.parts) (fun _ _ => rfl) fun x m => by
      funext p
      simp [Store.memdup, Field.measure, Items.parts, Measure.length_list]
  exact .once hall (fun _ => trivial) (fun _ => id) fun _ _ => rfl

variable (z newInternedString elSize) in
theorem measures_hashTable (h : Measures (kinds saveComments) pending ok todo f g) :
    Measures (kinds saveComments) pending (HashTable.KeysNew ok)
      (fun ht => ht.buckets.flatMap fun b => todo b.element)
      (zendHashPersistCalc z newInternedString f elSize) (zendHashPersist z g elSize) := by
  have hparts := (measures_key newInternedString).option_nil.prod
    ((measures_data id fun _ => elSize).option_nil.prod h.sumOf)
  have hbucket := (measures_data (fun b : Bucket X => b.address) fun _ => z.bucket).seq
    (hparts.field Bucket.parts) (fun _ _ => rfl) fun _ _ => rfl
  have hall := (hbucket.list.prod (measures_elements z.pointer).option_nil).field HashTable.parts
  refine hall.mono (fun ht hht => ⟨fun b hb => ?_, fun _ _ => trivial⟩) fun ht _ => ?_
  · exact ⟨(hht b hb).1, fun _ _ => trivial, (hht b hb).2⟩
  · exact (List.append_nil _).symm

variable (z newInternedString elSize) in
theorem measures_hashTable_nil (h : Measures (kinds saveComments) pending ok (fun _ => []) f g) :
    Measures (kinds saveComments) pending (HashTable.KeysNew ok) (fun _ => [])
      (zendHashPersistCalc z newInternedString f elSize) (zendHashPersist z g elSize) :=
  (measures_hashTable z newInternedString elSize h).mono (fun _ hx => hx) fun ht _ => by simp

variable (z newInternedString) in
theorem measures_zval (h : Measures (kinds saveComments) pending ok (fun _ => []) f g) :
    Measures (kinds saveComments) pending (Zval.KeysNew ok) (fun _ => [])
      (zvalCalc z newInternedString f) (zvalStore z g) := by
  intro x m p rest hx hr
  cases x with
  | other => exact ⟨hr, .refl⟩
  | string s => exact measures_internedString newInternedString s m p rest trivial hr
  | array a ht =>
    have hc : (kinds saveComments).counted (.data a) := trivial
    obtain ⟨hr₁, ha₁⟩ := Related.addDupSize hr hc id (n := z.hashTable)
    obtain ⟨hr₂, ha₂⟩ :=
      (measures_hashTable_nil z newInternedString z.pointer h).sumOf ht _ _ rest hx hr₁
    exact ⟨hr₂, ha₁.trans ha₂⟩

variable (z newInternedString) in
theorem measures_zvalPtr (h : Measures (kinds saveComments) pending ok (fun _ => []) f g) :
    Measures (kinds saveComments) pending (fun x => x.2.KeysNew ok) (fun _ => [])
      (zvalPtrCalc z newInternedString f) (zvalPtrStore z g) := by
  have hall := (measures_data (fun x : ℕ × Zval X => x.1) fun _ => z.zval).seq
    ((measures_zval z newInternedString h).sumOf.field second) (fun _ _ => rfl) fun _ _ => rfl
  exact .once hall (fun _ => trivial) (fun _ => id) fun _ _ => rfl

variable (z newInternedString) in
/-- By induction on the depth of the arrays. -/
theorem measures_zendPersistZvalPtr (n : ℕ) (pending : Option Block) :
    Measures (kinds saveComments) pending (ZvalPtr.KeysNew n) (fun _ => [])
      (zendPersistZvalPtrCalc z newInternedString n) (zendPersistZvalPtr z n) := by
  induction n with
  | zero => exact measures_zvalPtr z newInternedString .skip
  | succ n ih => exact measures_zvalPtr z newInternedString ih

end Values

section Functions

variable {σ : Type} {n : ℕ}

/-- No key of a function is interned yet. -/
def OpArray.KeysNew (op : OpArray n) : Prop :=
  (∀ x, op.literals = some x → ∀ y ∈ x.items, y.KeysNew (ZvalPtr.KeysNew n)) ∧
    ∀ x, op.staticVariables = some x → x.2.KeysNew (ZvalPtr.KeysNew n)

variable (z : Sizeof) {saveComments : Bool} (newInternedString : σ → List UInt8 → σ × Option ℕ)

theorem measures_argInfo {pending : Option Block} :
    Measures (kinds saveComments) pending (fun _ => True) (fun _ => [])
      (addArgInfo newInternedString) storeArgInfo := by
  have hname : Measures (kinds saveComments) pending _ (fun _ => []) _ _ :=
    (measures_internedString newInternedString).option_nil
  exact ((hname.prod hname).field ArgInfo.parts).mono
    (fun _ _ => ⟨fun _ _ => trivial, fun _ _ => trivial⟩) fun _ _ => rfl

theorem measures_staticVariables :
    Measures (kinds saveComments) none
      (fun x : ℕ × HashTable (ZvalPtr n) => x.2.KeysNew (ZvalPtr.KeysNew n)) (fun _ => [])
      (addStaticVariables z newInternedString n) (storeStaticVariables z n) :=
  .late (fun pending => ((measures_hashTable_nil z newInternedString z.pointer
      (measures_zendPersistZvalPtr z newInternedString n pending)).sumOf.field second))
    (fun _ => trivial) (fun _ => trivial) (fun _ _ => rfl) fun _ _ => rfl

theorem measures_opArray :
    Measures (kinds saveComments) none OpArray.KeysNew (fun _ => [])
      (zendPersistOpArrayCalc z saveComments newInternedString n)
      (zendPersistOpArray z saveComments n) := by
  have hzval : Measures (kinds saveComments) none (Zval.KeysNew (ZvalPtr.KeysNew n)) _ _ _ :=
    (measures_zval z newInternedString
      (measures_zendPersistZvalPtr z newInternedString n none)).sumOf
  have hstatic : Measures (kinds saveComments) none _ (fun _ => [])
      (addStaticVariables z newInternedString n).option _ :=
    (measures_staticVariables z newInternedString).option_nil
  have hparts := measures_text.option_nil.prod <|
    (measures_items z.literal hzval).option_nil.prod <| (measures_opcodes z.op).prod <|
    measures_text.option_nil.prod <|
    (measures_items z.argInfo (measures_argInfo newInternedString)).option_nil.prod <|
    (measures_elements z.brkContElement).option_nil.prod <|
    hstatic.prod <|
    measures_docComment.option_nil.prod <| (measures_elements z.tryCatchElement).option_nil.prod
    (measures_items z.compiledVariable (measures_internedString newInternedString)).option_nil
  have hall := (hparts.field OpArray.parts).when OpArray.isUser fun _ _ => rfl
  refine hall.mono (fun op hk _ => ?_) fun op _ => ?_
  · exact ⟨fun _ _ => trivial, hk.1, trivial, fun _ _ => trivial, fun _ _ _ _ => trivial,
      fun _ _ => trivial, hk.2, fun _ _ => trivial, fun _ _ => trivial, fun _ _ _ _ => trivial⟩
  · cases op.isUser <;> rfl

end Functions

section Classes

variable {σ X : Type} {n : ℕ}

/-! The tables and texts of a class that are added up without a look at the translation table -/

def optionTables (tables : X → List Block) (x : Option X) : List Block := (x.map tables).getD []

def Text.tables (t : Text) : List Block := [.table t.address]

def TraitMethodReference.tables (names : X → List Block) (r : TraitMethodReference X) :
    List Block :=
  (names r.methodName ++ names r.className) ++ [.table r.address]

def TraitAlias.tables (x : TraitAlias) : List Block :=
  (optionTables (TraitMethodReference.tables (optionTables Text.tables)) x.traitMethod ++
    optionTables Text.tables x.aliasName) ++ [.table x.address]

def Items.traitTables (tables : X → List Block) (x : Items X) : List Block :=
  x.items.flatMap tables ++ [.table x.address]

def TraitPrecedence.tables (x : TraitPrecedence) : List Block :=
  (x.traitMethod.tables Text.tables ++
    optionTables (Items.traitTables Text.tables) x.excludeFromClasses) ++ [.table x.address]

def Items.zvalTables (x : Items X) : List Block := [.table x.address]

def ClassEntry.tables (ce : ClassEntry n) : List Block :=
  if ce.isUser then
    optionTables Items.zvalTables ce.defaultPropertiesTable ++
      (optionTables Items.zvalTables ce.defaultStaticMembersTable ++
        (optionTables (Items.traitTables TraitAlias.tables) ce.traitAliases ++
          optionTables (Items.traitTables TraitPrecedence.tables) ce.traitPrecedences))
  else []

def Items.KeysNew (P : X → Prop) (x : Items (Option X)) : Prop :=
  ∀ y ∈ x.items, ∀ v, y = some v → P v

/-- No key of a class is interned yet. -/
structure ClassEntry.KeysNew (ce : ClassEntry n) : Prop where
  functionTable : ce.functionTable.KeysNew OpArray.KeysNew
  defaultProperties : ∀ x, ce.defaultPropertiesTable = some x → x.KeysNew (ZvalPtr.KeysNew n)
  defaultStaticMembers : ∀ x, ce.defaultStaticMembersTable = some x → x.KeysNew (ZvalPtr.KeysNew n)
  constantsTable : ce.constantsTable.KeysNew (ZvalPtr.KeysNew n)
  propertiesInfo : ce.propertiesInfo.KeysNew fun _ => True

variable (z : Sizeof) {saveComments : Bool} (newInternedString : σ → List UInt8 → σ × Option ℕ)
  {todo : X → List Block} {f : Measure Block σ X} {g : Store Block X}

theorem measures_propertyInfo :
    Measures (kinds saveComments) none (fun _ => True) (fun _ => [])
      (zendPersistPropertyInfoCalc saveComments newInternedString)
      (zendPersistPropertyInfo saveComments) :=
  (((measures_internedString newInternedString).prod measures_docComment.option_nil).field
    PropertyInfo.parts).mono (fun _ _ => ⟨trivial, fun _ _ => trivial⟩) fun _ _ => rfl

theorem measures_zvalTable :
    Measures (kinds saveComments) none (Items.KeysNew (ZvalPtr.KeysNew n)) Items.zvalTables
      (addZvalTable z newInternedString n) (storeZvalTable z n) :=
  (measures_table (fun x : Items (Option (ZvalPtr n)) => x.address)
    fun x => z.pointer * x.items.length).seq
    ((measures_zendPersistZvalPtr z newInternedString n none).sumOf.option_nil.list_nil.field
      Items.parts) (fun _ _ => rfl) fun x m => by
      funext p
      simp [Store.memdup, Field.measure, Items.parts, Measure.length_list]

theorem measures_tableText : Measures (kinds saveComments) none (fun _ => True) Text.tables
    (.addSize Text.size : Measure Block σ Text) (storeText .table) :=
  measures_table Text.address Text.size

/-- A structure of a class, after its parts -/
theorem measures_tableAfter {ok : X → Prop} (address size : X → ℕ)
    (h : Measures (kinds saveComments) none ok todo f g)
    (haddress : ∀ x m, address (f x m).1 = address x) :
    Measures (kinds saveComments) none ok (fun x => todo x ++ [.table (address x)])
      (f.seq (.addSize size)) (g.seq (.memdup (fun x => .table (address x)) size)) :=
  h.after (measures_table address size) (fun x m => by rw [haddress]) fun _ _ => rfl

theorem measures_traitMethod (h : Measures (kinds saveComments) none (fun _ => True) todo f g) :
    Measures (kinds saveComments) none (fun _ => True) (TraitMethodReference.tables todo)
      (addTraitMethod z f) (storeTraitMethod z g) := by
  have hall := measures_tableAfter TraitMethodReference.address (fun _ => z.traitMethodReference)
    ((h.prod h).field TraitMethodReference.parts) fun _ _ => rfl
  exact hall.mono (fun _ _ => ⟨trivial, trivial⟩) fun _ _ => rfl

theorem measures_traits (h : Measures (kinds saveComments) none (fun _ => True) todo f g) :
    Measures (kinds saveComments) none (fun _ => True) (Items.traitTables todo)
      (addTraits z f) (storeTraits z g) := by
  have hall := measures_tableAfter Items.address
    (fun x : Items X => z.pointer * (x.items.length + 1)) (h.list.field Items.parts) fun _ _ => rfl
  exact hall.mono (fun _ _ _ _ => trivial) fun _ _ => rfl

theorem measures_optionTables (h : Measures (kinds saveComments) none (fun _ => True) todo f g) :
    Measures (kinds saveComments) none (fun _ => True) (optionTables todo) f.option g.option :=
  h.option.mono (fun _ _ _ _ => trivial) fun _ _ => rfl

theorem measures_traitAlias : Measures (kinds saveComments) none (fun _ => True) TraitAlias.tables
    (addTraitAlias z : Measure Block σ TraitAlias) (storeTraitAlias z) := by
  have hname : Measures (kinds saveComments) none _ _
      (Measure.addSize Text.size : Measure Block σ Text).option _ :=
    measures_optionTables measures_tableText
  have hmethod := measures_optionTables (measures_traitMethod z hname)
  have hall := measures_tableAfter TraitAlias.address (fun _ => z.traitAlias)
    ((hmethod.prod hname).field TraitAlias.parts) fun _ _ => rfl
  exact hall.mono (fun _ _ => ⟨trivial, trivial⟩) fun _ _ => rfl

theorem measures_traitPrecedence :
    Measures (kinds saveComments) none (fun _ => True) TraitPrecedence.tables
      (addTraitPrecedence z : Measure Block σ TraitPrecedence) (storeTraitPrecedence z) := by
  have hname : Measures (kinds saveComments) none _ _
      (Measure.addSize Text.size : Measure Block σ Text) _ := measures_tableText
  have hall := measures_tableAfter TraitPrecedence.address (fun _ => z.traitPrecedence)
    (((measures_traitMethod z hname).prod (measures_optionTables (measures_traits z hname))).field
      TraitPrecedence.parts) fun _ _ => rfl
  exact hall.mono (fun _ _ => ⟨trivial, trivial⟩) fun _ _ => rfl

theorem measures_class :
    Measures (kinds saveComments) none ClassEntry.KeysNew ClassEntry.tables
      (zendPersistClassEntryCalc z saveComments newInternedString n)
      (zendPersistClassEntry z saveComments n) := by
  have hfunction : Measures (kinds saveComments) none OpArray.KeysNew (fun _ => []) _ _ :=
    measures_opArray (n := n) z newInternedString
  have hzvals : Measures (kinds saveComments) none _ _ _ _ :=
    (measures_zvalTable (n := n) z newInternedString).option
  have hzval : Measures (kinds saveComments) none _ _ _ _ :=
    measures_zendPersistZvalPtr z newInternedString n none
  have hproperty : Measures (kinds saveComments) none _ _ _ _ :=
    measures_propertyInfo newInternedString
  have haliases : Measures (kinds saveComments) none _ _
      (addTraits z (addTraitAlias z) : Measure Block σ _).option _ :=
    measures_optionTables (measures_traits z (measures_traitAlias z))
  have hprecedences : Measures (kinds saveComments) none _ _
      (addTraits z (addTraitPrecedence z) : Measure Block σ _).option _ :=
    measures_optionTables (measures_traits z (measures_traitPrecedence z))
  have hparts := (measures_internedString newInternedString).prod <|
    (measures_hashTable_nil z newInternedString z.opArray hfunction).sumOf.prod <|
    hzvals.prod <| hzvals.prod <|
    (measures_hashTable_nil z newInternedString z.pointer hzval).sumOf.prod <|
    measures_text.option_nil.prod <| measures_docComment.option_nil.prod <|
    (measures_hashTable_nil z newInternedString z.propertyInfo hproperty).sumOf.prod <|
    haliases.prod hprecedences
  have haddress : Measures (kinds saveComments) none _ _
      (.addDupSize (fun ce => .data ce.address) fun _ => z.classEntry :
        Measure Block σ (ClassEntry n)) _ :=
    measures_data ClassEntry.address fun _ => z.classEntry
  have hall := (haddress.seq (hparts.field ClassEntry.parts) (fun _ _ => rfl) fun _ _ => rfl).when
    ClassEntry.isUser fun _ _ => rfl
  refine hall.mono (fun ce hk _ => ?_) fun ce _ => ?_
  · exact ⟨trivial, hk.functionTable, hk.defaultProperties, hk.defaultStaticMembers,
      hk.constantsTable, fun _ _ => trivial, fun _ _ => trivial, hk.propertiesInfo, trivial,
      trivial⟩
  · rfl

end Classes

section Scripts

variable {σ : Type} {n : ℕ}

def PersistentScript.tables (s : PersistentScript n) : List Block :=
  s.classTable.buckets.flatMap fun b => b.element.tables

/-- No key of a script is interned yet. The first walk would count such a key, which the second one
does not store. -/
structure PersistentScript.KeysNew (s : PersistentScript n) : Prop where
  functionTable : s.functionTable.KeysNew OpArray.KeysNew
  classTable : s.classTable.KeysNew ClassEntry.KeysNew
  mainOpArray : s.mainOpArray.KeysNew

/-- All blocks of a list are told apart from those that are looked up. -/
def Plain (bs : List Block) : Prop := ∀ b ∈ bs, ∃ a, b = .table a

theorem Plain.append {bs cs : List Block} (hb : Plain bs) (hc : Plain cs) : Plain (bs ++ cs) := by
  intro b h
  rcases List.mem_append.mp h with h | h
  · exact hb b h
  · exact hc b h

theorem Plain.flatMap {X : Type} {tables : X → List Block} (h : ∀ x, Plain (tables x))
    (xs : List X) : Plain (xs.flatMap tables) := by
  intro b hb
  obtain ⟨x, -, hx⟩ := List.mem_flatMap.mp hb
  exact h x b hx

theorem Plain.optionTables {X : Type} {tables : X → List Block} (h : ∀ x, Plain (tables x))
    (x : Option X) : Plain (optionTables tables x) := by
  cases x with
  | none => exact fun b hb => absurd hb List.not_mem_nil
  | some x => exact h x

theorem plain_table (a : ℕ) : Plain [.table a] := fun _ hb => ⟨a, List.mem_singleton.mp hb⟩

theorem plain_traitMethod {X : Type} {names : X → List Block} (h : ∀ x, Plain (names x))
    (r : TraitMethodReference X) : Plain (r.tables names) :=
  ((h _).append (h _)).append (plain_table _)

theorem plain_traits {X : Type} {tables : X → List Block} (h : ∀ x, Plain (tables x))
    (x : Items X) : Plain (x.traitTables tables) :=
  (Plain.flatMap h _).append (plain_table _)

theorem plain_class (ce : ClassEntry n) : Plain ce.tables := by
  have htext (t : Text) : Plain t.tables := plain_table _
  have halias (x : TraitAlias) : Plain x.tables :=
    ((Plain.optionTables (plain_traitMethod (Plain.optionTables htext)) _).append
      (Plain.optionTables htext _)).append (plain_table _)
  have hprecedence (x : TraitPrecedence) : Plain x.tables :=
    ((plain_traitMethod htext _).append
      (Plain.optionTables (plain_traits htext) _)).append (plain_table _)
  unfold ClassEntry.tables
  split_ifs
  · exact (Plain.optionTables (fun _ => plain_table _) _).append <|
      (Plain.optionTables (fun _ => plain_table _) _).append <|
      (Plain.optionTables (plain_traits halias) _).append
      (Plain.optionTables (plain_traits hprecedence) _)
  · exact fun b hb => absurd hb List.not_mem_nil

theorem plain_script (s : PersistentScript n) : Plain s.tables :=
  Plain.flatMap (fun b : Bucket (ClassEntry n) => plain_class b.element) s.classTable.buckets

variable (z : Sizeof) {saveComments : Bool} (newInternedString : σ → List UInt8 → σ × Option ℕ)

theorem measures_script :
    Measures (kinds saveComments) none PersistentScript.KeysNew PersistentScript.tables
      (zendAccelScriptPersistCalc z saveComments newInternedString n)
      (zendAccelScriptPersist z saveComments n) := by
  have hfunction : Measures (kinds saveComments) none OpArray.KeysNew (fun _ => []) _ _ :=
    measures_opArray (n := n) z newInternedString
  have hclass : Measures (kinds saveComments) none ClassEntry.KeysNew ClassEntry.tables _ _ :=
    measures_class (n := n) z newInternedString
  have hparts := (measures_hashTable_nil z newInternedString z.opArray hfunction).sumOf.prod <|
    (measures_hashTable z newInternedString z.pointer hclass).sumOf.prod <|
    hfunction.sumOf.prod <| measures_text.prod measures_text
  have hscript : Measures (kinds saveComments) none _ _
      (.addDupSize (fun s => .data s.address) fun _ => z.persistentScript :
        Measure Block σ (PersistentScript n)) _ :=
    measures_data PersistentScript.address fun _ => z.persistentScript
  have hall := (hparts.field PersistentScript.parts).after hscript (fun _ _ => rfl) fun _ _ => rfl
  refine hall.mono (fun s hk => ?_) fun s _ => ?_
  · exact ⟨hk.functionTable, hk.classTable, hk.mainOpArray, trivial, trivial⟩
  · change s.tables = ([] ++ (s.tables ++ ([] ++ ([] ++ [])))) ++ []
    simp

/-- The memory that is taken for a script ends where the calculated size says. Both walks start with
an empty translation table, and the second one goes over what the first one has left. -/
theorem zendAccelScriptPersistCalc_agrees (saveComments : Bool) (s : PersistentScript n)
    (strings : σ) (mem : ℕ) (hk : s.KeysNew) (ht : s.tables.Nodup) :
    let r := zendAccelScriptPersistCalc z saveComments newInternedString n s ⟨[], 0, strings⟩
    let p := zendAccelScriptPersist z saveComments n r.1 ⟨mem, fun _ => none⟩
    mem ≤ p.mem ∧ r.2.used = UInt32.ofNat (p.mem - mem) ∧
      (p.mem < mem + 2 ^ 32 → mem + r.2.used.toNat = p.mem) := by
  intro r p
  have hrelated : Related (kinds saveComments) none (s.tables ++ [])
      (⟨[], 0, strings⟩ : Measuring Block σ) ⟨mem, fun _ => none⟩ := by
    rw [List.append_nil]
    refine ⟨fun b _ => by simp [Storing.isStored], fun b hb => ⟨?_, rfl⟩, ht, by simp⟩
    obtain ⟨a, rfl⟩ := plain_script s b hb
    trivial
  obtain ⟨-, -, size, -, hused, hmem⟩ :=
    measures_script z newInternedString s _ _ [] hk hrelated
  change p.mem = mem + size at hmem
  have hsize : p.mem - mem = size := by omega
  have hused' : r.2.used = UInt32.ofNat size := hused.trans (UInt32.zero_add _)
  refine ⟨by omega, by rw [hused', hsize], fun hfits => ?_⟩
  rw [hused', UInt32.toNat_ofNat', Nat.mod_eq_of_lt (by omega), hmem]

end Scripts

section Interning

open Interned

variable [ZendInlineHash (List UInt8)]

/-- The interning of a string of the process, with the address if it is in shared memory then. Where
the string stands in the process makes no difference to that. -/
def newShmString (s : InternedStrings) (content : List UInt8) : InternedStrings × Option ℕ :=
  match s.accelNewInternedString (.process 0 content) with
  | some (s, .shared a) => (s, some a)
  | _ => (s, none)

end Interning

section

local instance : ZendInlineHash (List UInt8) := Interned.djbx33a
local instance : Interned.ZendHashInit := Interned.powerOfTwo

def emptyTable {X : Type} : HashTable X := ⟨[], none⟩

def emptyOpArray (opcodes : ℕ) : OpArray 0 :=
  ⟨true, none, none, ⟨opcodes, 1⟩, none, none, none, none, none, none, none⟩

/-- A class with a constant that a static member shares, and with an alias of a trait method. The
script itself has a static variable. -/
def aliasScript : PersistentScript 0 where
  address := 1
  functionTable := emptyTable
  classTable := ⟨[⟨2, some ⟨3, false, [99, 0]⟩, none, {
    isUser := true
    address := 4
    name := ⟨5, false, [67, 0]⟩
    functionTable := emptyTable
    defaultPropertiesTable := none
    defaultStaticMembersTable := some ⟨6, [some (7, .string ⟨8, false, [65, 0]⟩)]⟩
    constantsTable := ⟨[⟨9, some ⟨10, false, [75, 0]⟩, none, (7, .string ⟨8, false, [65, 0]⟩)⟩],
      some ⟨11, 8⟩⟩
    filename := none
    docComment := some ⟨12, 20⟩
    propertiesInfo := emptyTable
    traitAliases := some ⟨13, [⟨14, some ⟨15, some ⟨16, 4⟩, none⟩, some ⟨17, 6⟩⟩]⟩
    traitPrecedences := none }⟩], some ⟨18, 8⟩⟩
  mainOpArray := { emptyOpArray 19 with
    staticVariables := some (20, ⟨[⟨21, some ⟨22, false, [120, 0]⟩, none, (23, .other)⟩],
      some ⟨24, 8⟩⟩) }
  key := ⟨25, 10⟩
  fullPath := ⟨26, 12⟩

theorem zendAccelScriptPersistCalc_agrees_aliasScript :
    let r := zendAccelScriptPersistCalc amd64 true newShmString 0 aliasScript
      ⟨[], 0, Interned.InternedStrings.init 4096 1⟩
    let p := zendAccelScriptPersist amd64 true 0 r.1 ⟨2097152, fun _ => none⟩
    2097152 ≤ p.mem ∧ r.2.used = UInt32.ofNat (p.mem - 2097152) ∧
      (p.mem < 2097152 + 2 ^ 32 → 2097152 + r.2.used.toNat = p.mem) :=
  zendAccelScriptPersistCalc_agrees amd64 newShmString true aliasScript (.init 4096 1) 2097152
    ⟨by simp [aliasScript, emptyTable, HashTable.KeysNew],
      by
        intro b hb
        obtain rfl := List.mem_singleton.mp hb
        refine ⟨by simp, by simp [HashTable.KeysNew, emptyTable], by simp, ?_, ?_,
          by simp [HashTable.KeysNew, emptyTable]⟩
        · intro x hx y hy v hv
          obtain rfl := Option.some.inj hx
          obtain rfl := List.mem_singleton.mp hy
          obtain rfl := Option.some.inj hv
          trivial
        · simp [HashTable.KeysNew, ZvalPtr.KeysNew, Zval.KeysNew],
      by simp [aliasScript, emptyOpArray, OpArray.KeysNew, HashTable.KeysNew, ZvalPtr.KeysNew,
        Zval.KeysNew]⟩
    (by decide)

end

end ScriptSize

end ZendOpcache
