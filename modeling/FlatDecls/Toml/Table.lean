import FlatDecls.Toml.Value

/-!
# Tables under construction

The tables of a document grow while it is read, and how a table came to be decides what may
still be added to it:

* a header `[a.b]` opens the table `b` and makes `a`, if there is none, a super-table, which a
  header of its own may still open;
* a dotted key `a.b = …` makes `a` a dotted table, which other dotted keys may extend but no
  header may open;
* a header `[[a]]` adds a table to the end of the list `a`, and paths through `a` lead to the
  last one;
* a value is closed, also if it is a table or an array.

Each operation fails where it would give a key a second meaning.
-/

namespace FlatDecls.Toml

/-- How a table came to be. -/
inductive Origin
  /-- On the way to a table that a header opened. -/
  | super
  /-- By a header of its own, or as the whole document. -/
  | header
  /-- By a dotted key. -/
  | dotted
  deriving DecidableEq, Repr

mutual

/-- What a key stands for. -/
inductive Item
  | value (v : Value)
  | table (t : Table)
  /-- The tables of a list, the first one apart, so that there is a last one. -/
  | list (init : List Table) (last : Table)

/-- A table that may still grow, with its keys in order of their first appearance. -/
structure Table where
  origin : Origin
  entries : List Entry

/-- A key of a table. -/
structure Entry where
  key : String
  item : Item

end

namespace Table

/-- A table without keys. -/
def empty (origin : Origin) : Table := ⟨origin, []⟩

/-- What a key of the table stands for. -/
def find? (t : Table) (key : String) : Option Item :=
  (t.entries.find? (·.key == key)).map (·.item)

/-- The same table where the key stands for this item; a new key comes last. -/
def put (t : Table) (key : String) (item : Item) : Table :=
  if t.entries.any (·.key == key) then
    { t with entries := t.entries.map fun e ↦ if e.key == key then ⟨key, item⟩ else e }
  else { t with entries := t.entries ++ [⟨key, item⟩] }

/-- Changes the table at the end of a path. Missing tables on the way are made: dotted ones on
a dotted path, super-tables otherwise. Through a list a path leads to the last table. A dotted
path leads through no table that a header such as `[a]` opened, and no path through a value. -/
def modifyAt (dotted : Bool) : (path : List String) → (Table → Option Table) → Table →
    Option Table
  | [], f, t => f t
  | key :: path, f, t =>
    match t.find? key with
    | none => do
      let inner ← modifyAt dotted path f (empty (if dotted then .dotted else .super))
      return t.put key (.table inner)
    | some (.table inner) =>
      if dotted && inner.origin == .header then none
      else do return t.put key (.table (← modifyAt dotted path f inner))
    | some (.list init last) => do
      return t.put key (.list init (← modifyAt dotted path f last))
    | some (.value _) => none

/-- Gives a new key a value. A key without dots does not extend a dotted table, and one with
dots extends nothing else. -/
def insert (underDots : Bool) (key : String) (v : Value) (t : Table) : Option Table :=
  if (t.origin == .dotted) != underDots then none
  else if (t.find? key).isSome then none
  else some (t.put key (.value v))

/-- Gives the key at the end of a path a value. -/
def assign (path : List String) (key : String) (v : Value) (t : Table) : Option Table :=
  modifyAt true path (insert (!path.isEmpty) key v) t

/-- Opens a table by its header: a new one, or one that was a super-table so far. -/
def openTable (key : String) (t : Table) : Option Table :=
  match t.find? key with
  | none => some (t.put key (.table (empty .header)))
  | some (.table inner) =>
    if inner.origin == .super then some (t.put key (.table { inner with origin := .header }))
    else none
  | some _ => none

/-- Adds a table to a list by its header. -/
def openElement (key : String) (t : Table) : Option Table :=
  match t.find? key with
  | none => some (t.put key (.list [] (empty .header)))
  | some (.list init last) => some (t.put key (.list (init ++ [last]) (empty .header)))
  | some _ => none

end Table

/-! ### Finished tables -/

mutual

/-- What an item means once the document is read. -/
def Item.toValue : Item → Value
  | .value v => v
  | .table t => .table t.toEntries
  | .list init last => .array (tableValues init ++ [.table last.toEntries])

/-- The keys of a table with their values. -/
def Table.toEntries : Table → List (String × Value)
  | ⟨_, entries⟩ => entryValues entries

/-- The values of a list of tables. -/
def tableValues : List Table → List Value
  | [] => []
  | t :: ts => .table t.toEntries :: tableValues ts

/-- The keys and values of a list of entries. -/
def entryValues : List Entry → List (String × Value)
  | [] => []
  | ⟨key, item⟩ :: es => (key, item.toValue) :: entryValues es

end

end FlatDecls.Toml
