import ZendOpcache.ScriptSize.Measure

/-! # The size of a script

The blocks of a compiled script, and the two walks over them: that of `zend_persist_calc.c` adds up
their sizes and interns the strings, that of `zend_persist.c` takes the memory. A block that is
shared occurs at each place that leads to it, and both walks go by its address. A hash table that
two zvals share is walked again in the source, where the second walk then comes to the buckets that
it has moved; here they are still known by their addresses. Where the blocks come to lie and what
they point to is left out.
-/

namespace ZendOpcache

namespace ScriptSize

/-- An address of a block. The kinds of blocks that the two walks treat differently are told apart:
the headers of static variables, the doc comments, the tables and texts that are added up without
a look at the translation table, and the interned strings. -/
inductive Block where
  | data (address : ℕ)
  | statics (address : ℕ)
  | comment (address : ℕ)
  | table (address : ℕ)
  | interned (address : ℕ)
  deriving DecidableEq, Repr

/-- A string that may be interned, with the terminating NUL -/
structure Str where
  place : ℕ
  isInterned : Bool
  content : List UInt8
  deriving DecidableEq, Repr

def Str.block (s : Str) : Block := if s.isInterned then .interned s.place else .data s.place

/-- A string that is copied as it is, and its size with the terminating NUL -/
structure Text where
  address : ℕ
  size : ℕ
  deriving DecidableEq, Repr

/-- An array without further blocks -/
structure Elements where
  address : ℕ
  count : ℕ
  deriving DecidableEq, Repr

/-- An array of structures that lead to further blocks -/
structure Items (X : Type) where
  address : ℕ
  items : List X
  deriving Repr

/-- A bucket. It has no key if `nKeyLength` is 0, and `pData` is a block of its own if `pDataPtr`
is `NULL`. -/
structure Bucket (X : Type) where
  address : ℕ
  arKey : Option Str
  pData : Option ℕ
  element : X
  deriving Repr

/-- A hash table. It has no `arBuckets` if `nTableMask` is 0; there are `nTableSize` of them. -/
structure HashTable (X : Type) where
  buckets : List (Bucket X)
  arBuckets : Option Elements
  deriving Repr

inductive Zval (X : Type) where
  | other
  | string (s : Str)
  | array (address : ℕ) (ht : HashTable X)
  deriving Repr

/-- The zvals that a `zval*` leads to, with arrays to a depth of `n` -/
def ZvalPtr : ℕ → Type
  | 0 => ℕ × Zval Empty
  | n + 1 => ℕ × Zval (ZvalPtr n)

structure ArgInfo where
  name : Option Str
  className : Option Str
  deriving Repr

structure OpArray (n : ℕ) where
  isUser : Bool
  filename : Option Text
  literals : Option (Items (Zval (ZvalPtr n)))
  opcodes : Elements
  functionName : Option Text
  argInfo : Option (Items ArgInfo)
  brkContArray : Option Elements
  staticVariables : Option (ℕ × HashTable (ZvalPtr n))
  docComment : Option Text
  tryCatchArray : Option Elements
  vars : Option (Items Str)

structure PropertyInfo where
  name : Str
  docComment : Option Text
  deriving Repr

/-- The names may be missing in an alias only. -/
structure TraitMethodReference (X : Type) where
  address : ℕ
  methodName : X
  className : X
  deriving Repr

structure TraitAlias where
  address : ℕ
  traitMethod : Option (TraitMethodReference (Option Text))
  aliasName : Option Text
  deriving Repr

structure TraitPrecedence where
  address : ℕ
  traitMethod : TraitMethodReference Text
  excludeFromClasses : Option (Items Text)
  deriving Repr

structure ClassEntry (n : ℕ) where
  isUser : Bool
  address : ℕ
  name : Str
  functionTable : HashTable (OpArray n)
  defaultPropertiesTable : Option (Items (Option (ZvalPtr n)))
  defaultStaticMembersTable : Option (Items (Option (ZvalPtr n)))
  constantsTable : HashTable (ZvalPtr n)
  filename : Option Text
  docComment : Option Text
  propertiesInfo : HashTable PropertyInfo
  traitAliases : Option (Items TraitAlias)
  traitPrecedences : Option (Items TraitPrecedence)

structure PersistentScript (n : ℕ) where
  address : ℕ
  functionTable : HashTable (OpArray n)
  classTable : HashTable (ClassEntry n)
  mainOpArray : OpArray n
  key : Text
  fullPath : Text

/-- The sizes of the structures of the engine -/
structure Sizeof where
  bucket : ℕ
  pointer : ℕ
  hashTable : ℕ
  zval : ℕ
  literal : ℕ
  op : ℕ
  argInfo : ℕ
  brkContElement : ℕ
  tryCatchElement : ℕ
  compiledVariable : ℕ
  opArray : ℕ
  propertyInfo : ℕ
  classEntry : ℕ
  traitMethodReference : ℕ
  traitAlias : ℕ
  traitPrecedence : ℕ
  persistentScript : ℕ

/-- With words of 8 bytes -/
def amd64 : Sizeof where
  bucket := 72
  pointer := 8
  hashTable := 72
  zval := 24
  literal := 40
  op := 48
  argInfo := 32
  brkContElement := 16
  tryCatchElement := 8
  compiledVariable := 24
  opArray := 248
  propertyInfo := 56
  classEntry := 456
  traitMethodReference := 32
  traitAlias := 32
  traitPrecedence := 24
  persistentScript := 712

/-! ### The parts of the structures, in the order of the walks -/

section Parts

variable {X Y : Type} {n : ℕ}

def second : Field (X × Y) Y := ⟨(·.2), fun x y => (x.1, y), fun _ _ => rfl⟩

def Items.parts : Field (Items X) (List X) :=
  ⟨(·.items), fun x y => { x with items := y }, fun _ _ => rfl⟩

def Bucket.parts : Field (Bucket X) (Option Str × Option ℕ × X) where
  get x := (x.arKey, x.pData, x.element)
  set x := fun ⟨arKey, pData, element⟩ => { x with arKey, pData, element }
  get_set _ _ := rfl

def HashTable.parts : Field (HashTable X) (List (Bucket X) × Option Elements) where
  get x := (x.buckets, x.arBuckets)
  set x := fun ⟨buckets, arBuckets⟩ => { x with buckets, arBuckets }
  get_set _ _ := rfl

def ArgInfo.parts : Field ArgInfo (Option Str × Option Str) where
  get x := (x.name, x.className)
  set x := fun ⟨name, className⟩ => { x with name, className }
  get_set _ _ := rfl

def OpArray.parts : Field (OpArray n) (Option Text × Option (Items (Zval (ZvalPtr n))) ×
    Elements × Option Text × Option (Items ArgInfo) × Option Elements ×
    Option (ℕ × HashTable (ZvalPtr n)) × Option Text × Option Elements × Option (Items Str)) where
  get x := (x.filename, x.literals, x.opcodes, x.functionName, x.argInfo, x.brkContArray,
    x.staticVariables, x.docComment, x.tryCatchArray, x.vars)
  set x := fun ⟨filename, literals, opcodes, functionName, argInfo, brkContArray,
    staticVariables, docComment, tryCatchArray, vars⟩ =>
    ⟨x.isUser, filename, literals, opcodes, functionName, argInfo, brkContArray, staticVariables,
      docComment, tryCatchArray, vars⟩
  get_set _ _ := rfl

def PropertyInfo.parts : Field PropertyInfo (Str × Option Text) where
  get x := (x.name, x.docComment)
  set x := fun ⟨name, docComment⟩ => { x with name, docComment }
  get_set _ _ := rfl

def TraitMethodReference.parts : Field (TraitMethodReference X) (X × X) where
  get x := (x.methodName, x.className)
  set x := fun ⟨methodName, className⟩ => { x with methodName, className }
  get_set _ _ := rfl

def TraitAlias.parts : Field TraitAlias (Option (TraitMethodReference (Option Text)) ×
    Option Text) where
  get x := (x.traitMethod, x.aliasName)
  set x := fun ⟨traitMethod, aliasName⟩ => { x with traitMethod, aliasName }
  get_set _ _ := rfl

def TraitPrecedence.parts : Field TraitPrecedence (TraitMethodReference Text ×
    Option (Items Text)) where
  get x := (x.traitMethod, x.excludeFromClasses)
  set x := fun ⟨traitMethod, excludeFromClasses⟩ => { x with traitMethod, excludeFromClasses }
  get_set _ _ := rfl

def ClassEntry.parts : Field (ClassEntry n) (Str × HashTable (OpArray n) ×
    Option (Items (Option (ZvalPtr n))) × Option (Items (Option (ZvalPtr n))) ×
    HashTable (ZvalPtr n) × Option Text × Option Text × HashTable PropertyInfo ×
    Option (Items TraitAlias) × Option (Items TraitPrecedence)) where
  get x := (x.name, x.functionTable, x.defaultPropertiesTable, x.defaultStaticMembersTable,
    x.constantsTable, x.filename, x.docComment, x.propertiesInfo, x.traitAliases,
    x.traitPrecedences)
  set x := fun ⟨name, functionTable, defaultPropertiesTable, defaultStaticMembersTable,
    constantsTable, filename, docComment, propertiesInfo, traitAliases, traitPrecedences⟩ =>
    ⟨x.isUser, x.address, name, functionTable, defaultPropertiesTable, defaultStaticMembersTable,
      constantsTable, filename, docComment, propertiesInfo, traitAliases, traitPrecedences⟩
  get_set _ _ := rfl

def PersistentScript.parts : Field (PersistentScript n) (HashTable (OpArray n) ×
    HashTable (ClassEntry n) × OpArray n × Text × Text) where
  get x := (x.functionTable, x.classTable, x.mainOpArray, x.key, x.fullPath)
  set x := fun ⟨functionTable, classTable, mainOpArray, key, fullPath⟩ =>
    { x with functionTable, classTable, mainOpArray, key, fullPath }
  get_set _ _ := rfl

end Parts

section Walks

variable {σ X : Type} (z : Sizeof) (saveComments : Bool)
  (newInternedString : σ → List UInt8 → σ × Option ℕ)

/-! ### The first walk -/

section Calc

/-- `ADD_INTERNED_STRING`. `accel_new_interned_string` returns the address of an interned string,
or its argument if there is no room for it. -/
def addInternedString : Measure Block σ Str := fun s m =>
  if s.isInterned then (s, m) else
    match newInternedString m.rest s.content with
    | (rest, some a) => (⟨a, true, s.content⟩, { m with rest := rest })
    | (rest, none) => (s, { m with rest := rest }.addDupSize s.block s.content.length)

/-- The key of a bucket. A string that is interned already is returned as it is, and so counts. -/
def addKey : Measure Block σ Str := fun s m =>
  if s.isInterned then (s, m.addDupSize s.block s.content.length)
  else addInternedString newInternedString s m

def addText (block : ℕ → Block) : Measure Block σ Text :=
  .addDupSize (fun t => block t.address) Text.size

def addElements (size : ℕ) : Measure Block σ Elements :=
  .addDupSize (fun x => .data x.address) fun x => size * x.count

/-- An array that is skipped with all of its items if it has been counted -/
def addItems (size : ℕ) (item : Measure Block σ X) : Measure Block σ (Items X) :=
  .once (fun x => .data x.address) <|
    (Measure.addDupSize (fun x => .data x.address) fun x => size * x.items.length).seq <|
    Items.parts.measure item.list

def zendHashPersistCalc (element : Measure Block σ X) (elSize : ℕ) :
    Measure Block σ (HashTable X) :=
  HashTable.parts.measure <| .prod
    (.list <|
      (Measure.addDupSize (fun b => .data b.address) fun _ => z.bucket).seq <|
      Bucket.parts.measure <|
        .prod (addKey newInternedString).option <|
        .prod (.option <| .addDupSize .data fun _ => elSize)
        element.sumOf)
    (addElements z.pointer).option

def zvalCalc (element : Measure Block σ X) : Measure Block σ (Zval X)
  | .other, m => (.other, m)
  | .string s, m => let r := addInternedString newInternedString s m; (.string r.1, r.2)
  | .array a ht, m =>
    let r := (zendHashPersistCalc z newInternedString element z.pointer).sumOf ht
      (m.addDupSize (.data a) z.hashTable)
    (.array a r.1, r.2)

def zvalPtrCalc (element : Measure Block σ X) : Measure Block σ (ℕ × Zval X) :=
  .once (fun x => .data x.1) <|
    (Measure.addDupSize (fun x => .data x.1) fun _ => z.zval).seq <|
    second.measure (zvalCalc z newInternedString element).sumOf

def zendPersistZvalPtrCalc : (n : ℕ) → Measure Block σ (ZvalPtr n)
  | 0 => zvalPtrCalc z newInternedString .skip
  | n + 1 => zvalPtrCalc z newInternedString (zendPersistZvalPtrCalc n)

def zendPersistZvalCalc (n : ℕ) : Measure Block σ (Zval (ZvalPtr n)) :=
  zvalCalc z newInternedString (zendPersistZvalPtrCalc z newInternedString n)

def addArgInfo : Measure Block σ ArgInfo :=
  ArgInfo.parts.measure <|
    .prod (addInternedString newInternedString).option
    (addInternedString newInternedString).option

/-- A doc comment counts only if it is stored. -/
def addDocComment : Measure Block σ Text :=
  if saveComments then addText .comment else .skip

def addStaticVariables (n : ℕ) : Measure Block σ (ℕ × HashTable (ZvalPtr n)) :=
  (Measure.addDupSize (fun x => .statics x.1) fun _ => z.hashTable).seq <|
  second.measure (zendHashPersistCalc z newInternedString
    (zendPersistZvalPtrCalc z newInternedString n) z.pointer).sumOf

def zendPersistOpArrayCalc (n : ℕ) : Measure Block σ (OpArray n) :=
  .when OpArray.isUser <| OpArray.parts.measure <|
    .prod (addText .data).option <|
    .prod (addItems z.literal (zendPersistZvalCalc z newInternedString n).sumOf).option <|
    .prod (.once (fun x => .data x.address) (addElements z.op)) <|
    .prod (addText .data).option <|
    .prod (addItems z.argInfo (addArgInfo newInternedString)).option <|
    .prod (addElements z.brkContElement).option <|
    .prod (addStaticVariables z newInternedString n).option <|
    .prod (addDocComment saveComments).option <|
    .prod (addElements z.tryCatchElement).option
    (addItems z.compiledVariable (addInternedString newInternedString)).option

def zendPersistPropertyInfoCalc : Measure Block σ PropertyInfo :=
  PropertyInfo.parts.measure <|
    .prod (addInternedString newInternedString)
    (addDocComment saveComments).option

/-- `ADD_SIZE` of an array of pointers to zvals, and of what they lead to -/
def addZvalTable (n : ℕ) : Measure Block σ (Items (Option (ZvalPtr n))) :=
  (Measure.addSize fun x => z.pointer * x.items.length).seq <|
  Items.parts.measure (zendPersistZvalPtrCalc z newInternedString n).sumOf.option.list

def addTraitMethod (name : Measure Block σ X) : Measure Block σ (TraitMethodReference X) :=
  (TraitMethodReference.parts.measure <| .prod name name).seq <|
  .addSize fun _ => z.traitMethodReference

def addTraitAlias : Measure Block σ TraitAlias :=
  (TraitAlias.parts.measure <|
    .prod (addTraitMethod z (Measure.addSize Text.size).option).option
    (Measure.addSize Text.size).option).seq <|
  .addSize fun _ => z.traitAlias

/-- An array of pointers that ends with `NULL`, after its items -/
def addTraits (item : Measure Block σ X) : Measure Block σ (Items X) :=
  (Items.parts.measure item.list).seq <|
  .addSize fun x => z.pointer * (x.items.length + 1)

def addTraitPrecedence : Measure Block σ TraitPrecedence :=
  (TraitPrecedence.parts.measure <|
    .prod (addTraitMethod z (.addSize Text.size))
    (addTraits z (.addSize Text.size)).option).seq <|
  .addSize fun _ => z.traitPrecedence

def zendPersistClassEntryCalc (n : ℕ) : Measure Block σ (ClassEntry n) :=
  .when ClassEntry.isUser <|
    (Measure.addDupSize (fun ce => .data ce.address) fun _ => z.classEntry).seq <|
    ClassEntry.parts.measure <|
      .prod (addInternedString newInternedString) <|
      .prod (zendHashPersistCalc z newInternedString
        (zendPersistOpArrayCalc z saveComments newInternedString n) z.opArray).sumOf <|
      .prod (addZvalTable z newInternedString n).option <|
      .prod (addZvalTable z newInternedString n).option <|
      .prod (zendHashPersistCalc z newInternedString
        (zendPersistZvalPtrCalc z newInternedString n) z.pointer).sumOf <|
      .prod (addText .data).option <|
      .prod (addDocComment saveComments).option <|
      .prod (zendHashPersistCalc z newInternedString
        (zendPersistPropertyInfoCalc saveComments newInternedString) z.propertyInfo).sumOf <|
      .prod (addTraits z (addTraitAlias z)).option
      (addTraits z (addTraitPrecedence z)).option

def zendAccelScriptPersistCalc (n : ℕ) : Measure Block σ (PersistentScript n) :=
  (PersistentScript.parts.measure <|
    .prod (zendHashPersistCalc z newInternedString
      (zendPersistOpArrayCalc z saveComments newInternedString n) z.opArray).sumOf <|
    .prod (zendHashPersistCalc z newInternedString
      (zendPersistClassEntryCalc z saveComments newInternedString n) z.pointer).sumOf <|
    .prod (zendPersistOpArrayCalc z saveComments newInternedString n).sumOf <|
    .prod (addText .data)
    (addText .data)).seq <|
  .addDupSize (fun s => .data s.address) fun _ => z.persistentScript

end Calc

/-! ### The second walk -/

section Persist

/-- `zend_accel_store_interned_string` and `zend_accel_memdup_interned_string` -/
def storeInternedString : Store Block Str := fun s p =>
  if s.isInterned then p else p.memdup s.block s.content.length

def storeText (block : ℕ → Block) : Store Block Text :=
  .memdup (fun t => block t.address) Text.size

def storeElements (size : ℕ) : Store Block Elements :=
  .memdup (fun x => .data x.address) fun x => size * x.count

/-- An array whose copy is taken with all of its items if it has been stored -/
def storeItems (size : ℕ) (item : Store Block X) : Store Block (Items X) :=
  .once (fun x => .data x.address) <|
    (Store.memdup (fun x => .data x.address) fun x => size * x.items.length).seq <|
    Items.parts.store item.list

def zendHashPersist (element : Store Block X) (elSize : ℕ) : Store Block (HashTable X) :=
  HashTable.parts.store <| .prod
    (.list <|
      (Store.memdup (fun b => .data b.address) fun _ => z.bucket).seq <|
      Bucket.parts.store <|
        .prod storeInternedString.option <|
        .prod (.option <| .memdup .data fun _ => elSize)
        element)
    (storeElements z.pointer).option

def zvalStore (element : Store Block X) : Store Block (Zval X)
  | .other, p => p
  | .string s, p => storeInternedString s p
  | .array a ht, p => zendHashPersist z element z.pointer ht (p.memdup (.data a) z.hashTable)

def zvalPtrStore (element : Store Block X) : Store Block (ℕ × Zval X) :=
  .once (fun x => .data x.1) <|
    (Store.memdup (fun x => .data x.1) fun _ => z.zval).seq <|
    second.store (zvalStore z element)

def zendPersistZvalPtr : (n : ℕ) → Store Block (ZvalPtr n)
  | 0 => zvalPtrStore z .skip
  | n + 1 => zvalPtrStore z (zendPersistZvalPtr n)

def zendPersistZval (n : ℕ) : Store Block (Zval (ZvalPtr n)) :=
  zvalStore z (zendPersistZvalPtr z n)

def storeArgInfo : Store Block ArgInfo :=
  ArgInfo.parts.store <| .prod storeInternedString.option storeInternedString.option

/-- A doc comment is stored, or it is dropped. -/
def storeDocComment : Store Block Text :=
  if saveComments then storeText .comment else .drop fun t => .comment t.address

/-- The header comes after the elements. -/
def storeStaticVariables (n : ℕ) : Store Block (ℕ × HashTable (ZvalPtr n)) :=
  (second.store (zendHashPersist z (zendPersistZvalPtr z n) z.pointer)).seq <|
  .memdup (fun x => .statics x.1) fun _ => z.hashTable

def zendPersistOpArray (n : ℕ) : Store Block (OpArray n) :=
  .when OpArray.isUser <| OpArray.parts.store <|
    .prod (storeText .data).option <|
    .prod (storeItems z.literal (zendPersistZval z n)).option <|
    .prod (.once (fun x => .data x.address) (storeElements z.op)) <|
    .prod (storeText .data).option <|
    .prod (storeItems z.argInfo storeArgInfo).option <|
    .prod (storeElements z.brkContElement).option <|
    .prod (storeStaticVariables z n).option <|
    .prod (storeDocComment saveComments).option <|
    .prod (storeElements z.tryCatchElement).option
    (storeItems z.compiledVariable storeInternedString).option

def zendPersistPropertyInfo : Store Block PropertyInfo :=
  PropertyInfo.parts.store <| .prod storeInternedString (storeDocComment saveComments).option

def storeZvalTable (n : ℕ) : Store Block (Items (Option (ZvalPtr n))) :=
  (Store.memdup (fun x => .table x.address) fun x => z.pointer * x.items.length).seq <|
  Items.parts.store (zendPersistZvalPtr z n).option.list

def storeTraitMethod (name : Store Block X) : Store Block (TraitMethodReference X) :=
  (TraitMethodReference.parts.store <| .prod name name).seq <|
  .memdup (fun x => .table x.address) fun _ => z.traitMethodReference

def storeTraitAlias : Store Block TraitAlias :=
  (TraitAlias.parts.store <|
    .prod (storeTraitMethod z (storeText .table).option).option
    (storeText .table).option).seq <|
  .memdup (fun x => .table x.address) fun _ => z.traitAlias

def storeTraits (item : Store Block X) : Store Block (Items X) :=
  (Items.parts.store item.list).seq <|
  .memdup (fun x => .table x.address) fun x => z.pointer * (x.items.length + 1)

def storeTraitPrecedence : Store Block TraitPrecedence :=
  (TraitPrecedence.parts.store <|
    .prod (storeTraitMethod z (storeText .table))
    (storeTraits z (storeText .table)).option).seq <|
  .memdup (fun x => .table x.address) fun _ => z.traitPrecedence

def zendPersistClassEntry (n : ℕ) : Store Block (ClassEntry n) :=
  .when ClassEntry.isUser <|
    (Store.memdup (fun ce => .data ce.address) fun _ => z.classEntry).seq <|
    ClassEntry.parts.store <|
      .prod storeInternedString <|
      .prod (zendHashPersist z (zendPersistOpArray z saveComments n) z.opArray) <|
      .prod (storeZvalTable z n).option <|
      .prod (storeZvalTable z n).option <|
      .prod (zendHashPersist z (zendPersistZvalPtr z n) z.pointer) <|
      .prod (storeText .data).option <|
      .prod (storeDocComment saveComments).option <|
      .prod (zendHashPersist z (zendPersistPropertyInfo saveComments) z.propertyInfo) <|
      .prod (storeTraits z (storeTraitAlias z)).option
      (storeTraits z (storeTraitPrecedence z)).option

def zendAccelScriptPersist (n : ℕ) : Store Block (PersistentScript n) :=
  (PersistentScript.parts.store <|
    .prod (zendHashPersist z (zendPersistOpArray z saveComments n) z.opArray) <|
    .prod (zendHashPersist z (zendPersistClassEntry z saveComments n) z.pointer) <|
    .prod (zendPersistOpArray z saveComments n) <|
    .prod (storeText .data)
    (storeText .data)).seq <|
  .memdup (fun s => .data s.address) fun _ => z.persistentScript

end Persist

end Walks

end ScriptSize

end ZendOpcache
