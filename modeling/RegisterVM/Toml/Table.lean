import RegisterVM.Toml.Document
/-!
# TOML tables

The statements of a document build one table. A key may be defined once. Tables that are only
mentioned on the way to others are implicit and may be defined later; a dotted key makes the tables
on its way implicit, whoever defined them. A header continues an array of tables with a new element,
and what follows goes into the last element.
-/

namespace RegisterVM.Toml

/-- A value of a table. -/
inductive Value where
  | scalar (s : Scalar)
  | array (items : List Value)
  | table (entries : List (String × Value))
  /-- The elements of an array of tables. -/
  | elements (tables : List (List (String × Value)))

/-- The contents of a table. -/
abbrev Entries := List (String × Value)

/-- Puts a value in place of one with the same name. -/
def Entries.put (entries : Entries) (name : String) (value : Value) : Entries :=
  match entries with
  | [] => [(name, value)]
  | (other, old) :: rest =>
      if other = name then (name, value) :: rest else (other, old) :: Entries.put rest name value

/-- Changes the table at a path; of an array of tables, the last element. -/
def Entries.updateAt (f : Entries → Option Entries) : Key → Entries → Option Entries
  | [], entries => f entries
  | name :: path, entries =>
      match entries.lookup name with
      | some (.table inner) => do
          return entries.put name (.table (← Entries.updateAt f path inner))
      | some (.elements tables) => do
          let inner ← tables.getLast?
          return entries.put name (.elements (tables.dropLast ++ [← Entries.updateAt f path inner]))
      | _ => none

/-- A table under construction. -/
structure Builder where
  root : Entries := []
  /-- The tables that were only mentioned so far. -/
  implicit : List Key := []
  /-- The keys that hold plain arrays. -/
  arrays : List Key := []
  /-- The keys in the order in which they were written. -/
  written : List Key := []

namespace Builder

/-- Marks a table as only mentioned. -/
def markImplicit (b : Builder) (key : Key) : Builder := { b with implicit := key :: b.implicit }

/-- Takes the mark back. -/
def clearImplicit (b : Builder) (key : Key) : Builder :=
  { b with implicit := b.implicit.filter (· != key) }

/-- Notes whether a key holds a plain array. -/
def noteArray (b : Builder) (key : Key) (isArray : Bool) : Builder :=
  let others := b.arrays.filter (· != key)
  { b with arrays := if isArray then key :: others else others }

/-- Notes that a key was written. -/
def write (b : Builder) (key : Key) : Builder := { b with written := b.written ++ [key] }

/-- The name and the place of a key. -/
def split (key : Key) : Option (Key × String) := key.getLast?.map fun name => (key.dropLast, name)

/-- Whether a name is taken at a path; nothing if the path does not lead to a table. -/
def holds? (b : Builder) (path : Key) (name : String) : Option Bool :=
  let probe (entries : Entries) : Option Entries :=
    match entries.lookup name with
    | some _ => some entries
    | none => none
  match Entries.updateAt some path b.root with
  | none => none
  | some _ => some (Entries.updateAt probe path b.root).isSome

/-- Puts a value at a path. -/
def putAt (b : Builder) (path : Key) (name : String) (value : Value) : Option Builder := do
  let root ← Entries.updateAt (fun entries => some (entries.put name value)) path b.root
  return { b with root }

/-- Defines a key. What is there already must be implicit; a table stays then as it is, and an array
is put in its place. -/
def define (b : Builder) (key : Key) (value : Value) : Option Builder := do
  let (path, name) ← split key
  if !(← b.holds? path name) then b.putAt path name value
  else if !b.implicit.contains key then none
  else
    let b := b.clearImplicit key
    if b.arrays.contains key then b.putAt path name value else return b

/-- Makes sure that a table is there to go through. -/
def passThrough (b : Builder) (key : Key) : Option Builder := do
  let (path, name) ← split key
  if ← b.holds? path name then
    let _ ← Entries.updateAt some key b.root
    return b
  else (b.markImplicit key).putAt path name (.table [])

/-- The ways to a key: its shorter fronts, outermost first. -/
def fronts (key : Key) : List Key := ((List.range key.length).drop 1).map key.take

/-- Appends an empty element to an array of tables. -/
def addElement (b : Builder) (key : Key) : Option Builder := do
  let (path, name) ← split key
  let grow (entries : Entries) : Option Entries :=
    match entries.lookup name with
    | none => some (entries.put name (.elements [[]]))
    | some (.elements tables) => some (entries.put name (.elements (tables ++ [[]])))
    | some _ => none
  return { b with root := ← Entries.updateAt grow path b.root }

/-- Opens the table of a header, or a new element of an array of tables. -/
def openTable (b : Builder) (isElement : Bool) (key : Key) : Option Builder := do
  let b ← (fronts key).foldlM passThrough b
  if isElement then b.addElement key else b.define key (.table [])

/-- Goes through the tables on the way of a dotted key inside a context. -/
def openDotted (context key : Key) (b : Builder) : Option Builder :=
  (fronts key).foldlM
    (fun b front => (b.markImplicit (context ++ front)).openTable false (context ++ front)) b

mutual

/-- Builds the value of a key. -/
def build (isItem : Bool) (key : Key) (expr : Expr) (b : Builder) : Option (Value × Builder) :=
  match expr with
  | .scalar s => some (.scalar s, b)
  | .array items =>
      match buildItems key items (b.noteArray key true) with
      | none => none
      | some (values, b) => some (.array values, b)
  | .inline keys values =>
      match (b.markImplicit key).openTable isItem key with
      | none => none
      | some b =>
          match buildMembers key keys values b with
          | none => none
          | some b => some (.table [], b)

/-- Builds the items of an array. -/
def buildItems (key : Key) (items : List Expr) (b : Builder) : Option (List Value × Builder) :=
  match items with
  | [] => some ([], b)
  | item :: rest =>
      match build true key item b with
      | none => none
      | some (value, b) =>
          match buildItems key rest b with
          | none => none
          | some (values, b) => some (value :: values, b)

/-- Builds the members of an inline table. -/
def buildMembers (context : Key) (keys : List Key) (values : List Expr) (b : Builder) :
    Option Builder :=
  match values with
  | [] => some b
  | expr :: rest =>
      let key := keys.headD []
      match openDotted context key b with
      | none => none
      | some b =>
          match build false (context ++ key) expr (b.write (context ++ key)) with
          | none => none
          | some (value, b) =>
              match b.define (context ++ key) value with
              | none => none
              | some b =>
                  let isArray := match expr with
                    | .array _ => true
                    | _ => false
                  buildMembers context keys.tail rest (b.noteArray (context ++ key) isArray)

end

/-- Takes in the statements of a document. `context` is the table that assignments go into. -/
def addStatements (context : Key) : List Statement → Builder → Option Builder
  | [], b => some b
  | .header isElement key :: rest, b => do
      let b ← b.openTable isElement key
      addStatements key rest ((b.noteArray key false).write key)
  | .assign key value :: rest, b => do
      addStatements context rest (← buildMembers context [key] [value] b)

end Builder

/-- A table and the keys of its document in the order in which they were written. -/
structure Table where
  entries : Entries
  written : List Key

/-- The table that a document describes. -/
def Table.parse (text : String) : Option Table := do
  let b ← Builder.addStatements [] (← readDocument text) {}
  return ⟨b.root, b.written⟩

end RegisterVM.Toml
