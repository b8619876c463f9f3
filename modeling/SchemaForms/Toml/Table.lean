import SchemaForms.KeyMap
/-!
Tables of TOML documents.  How a table came about decides what may be added to
it later: a table is written by its header once, keys with dots build tables of
their own, and an inline table is complete as it stands.
-/

namespace SchemaForms.Toml

/-- How a table came about. -/
inductive Origin where
  /-- By a header of its own. -/
  | header
  /-- By the header of a table below it. -/
  | implied
  /-- By a key with dots. -/
  | dotted
  /-- As a value in braces. -/
  | inline
deriving DecidableEq

/-- What a key stands for.  Of a float or a date it matters only that it is
one. -/
inductive Item where
  | string (text : String)
  | integer (value : Int)
  | float
  | boolean (value : Bool)
  | date
  | array (items : List Item)
  | table (origin : Origin) (members : Entries Item none)
  /-- The tables written under repeated headers of one name. -/
  | tables (members : List (Entries Item none))

abbrev Table := KeyMap Item

namespace Table

/-- Adds a key that is not there yet. -/
def add (key : String) (item : Item) (table : Table) : Option Table :=
  if table.contains key then none else some (KeyMap.insert table key item)

def updateLast (change : Table → Option Table) (tables : List Table) :
    Option (List Table) :=
  match tables.getLast? with
  | some last => (change last).map fun last => tables.dropLast ++ [last]
  | none => none

/-- Adds the value of a key with dots.  The tables on the way have to come from
keys with dots too; only those in front of the last may come from elsewhere, as
far as no header has closed them. -/
def assign : List String → String → Item → Table → Option Table
  | [], key, item, table => Table.add key item table
  | step :: path, key, item, table =>
      match table.get? step with
      | none => (assign path key item .nil).map fun inner =>
          KeyMap.insert table step (.table .dotted inner)
      | some (.table origin inner) =>
          if origin = .dotted || (origin = .implied && !path.isEmpty) then
            (assign path key item inner).map fun inner =>
              KeyMap.insert table step (.table origin inner)
          else none
      | some (.tables inner) =>
          if path.isEmpty then none
          else (updateLast (assign path key item) inner).map fun inner =>
            KeyMap.insert table step (.tables inner)
      | some _ => none

/-- Changes the table that the path of a header leads to.  Tables that are
missing are implied, and among several tables of a name the path leads through
the last one. -/
def update (change : Table → Option Table) : List String → Table → Option Table
  | [], table => change table
  | step :: path, table =>
      match table.get? step with
      | none => (update change path .nil).map fun inner =>
          KeyMap.insert table step (.table .implied inner)
      | some (.table origin inner) =>
          if origin = .inline then none
          else (update change path inner).map fun inner =>
            KeyMap.insert table step (.table origin inner)
      | some (.tables inner) =>
          (updateLast (update change path) inner).map fun inner =>
            KeyMap.insert table step (.tables inner)
      | some _ => none

end Table

/-- A value with its key; the steps in front of the last dot are apart. -/
structure Assignment where
  path : List String
  key : String
  item : Item

namespace Table

def assignAll (assignments : List Assignment) (table : Table) : Option Table :=
  assignments.foldlM
    (fun table a => Table.assign a.path a.key a.item table) table

end Table

/-- A header and the values below it. -/
structure Section where
  path : List String
  key : String
  /-- The header stands in double brackets and begins one more table of its
  name. -/
  repeated : Bool
  body : List Assignment

namespace Section

/-- The item under the header, given the item that was there before. -/
def item? (s : Section) : Option Item → Option Item
  | none =>
      if s.repeated then
        (Table.assignAll s.body .nil).map fun table => .tables [table]
      else (Table.assignAll s.body .nil).map (.table .header)
  | some (.table .implied table) =>
      if s.repeated then none
      else (Table.assignAll s.body table).map (.table .header)
  | some (.tables tables) =>
      if s.repeated then
        (Table.assignAll s.body .nil).map fun table =>
          .tables (tables ++ [table])
      else none
  | some _ => none

/-- Adds a section to the table of the document. -/
def addTo (s : Section) (root : Table) : Option Table :=
  Table.update
    (fun table =>
      (s.item? (table.get? s.key)).map (KeyMap.insert table s.key))
    s.path root

end Section

/-- A document as it is written: values, and sections below them. -/
structure Document where
  preamble : List Assignment
  sections : List Section

namespace Document

def table? (d : Document) : Option Table := do
  d.sections.foldlM (fun root s => s.addTo root)
    (← Table.assignAll d.preamble .nil)

end Document

end SchemaForms.Toml
