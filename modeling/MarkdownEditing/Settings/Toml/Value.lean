import MarkdownEditing.Text.Basic

namespace MarkdownEditing

namespace Toml

inductive Origin
  /-- by its own header, or as the document itself -/
  | header
  /-- on the way to a table with a header -/
  | implied
  /-- on the way of a dotted key -/
  | dotted
  /-- between braces, closed for good -/
  | inlined
  deriving DecidableEq, Repr

/-- A value. Of floats and times it matters only that they are neither integers nor texts. -/
inductive Value
  | string (text : Text)
  | integer (value : Int)
  | float
  | boolean (value : Bool)
  | datetime
  /-- values between brackets, or tables under headers of double brackets -/
  | array (ofTables : Bool) (items : List Value)
  | table (origin : Origin) (entries : List (Text × Value))
  deriving Repr, Inhabited

/-- A table. How it came to be decides whether a header or a dotted key may still add to it. -/
structure Table where
  origin : Origin
  entries : List (Text × Value)
  deriving Repr

namespace Table

def empty : Table := ⟨.header, []⟩

def toValue (t : Table) : Value := .table t.origin t.entries

def find? (t : Table) (key : Text) : Option Value := t.entries.lookup key

def put (t : Table) (key : Text) (v : Value) : Table :=
  { t with entries := t.entries.filter (·.1 != key) ++ [(key, v)] }

/-- A step from a table to one under a key. -/
structure Step where
  key : Text
  /-- the key is part of a dotted key rather than of a header -/
  dotted : Bool
  deriving DecidableEq, Repr

def Step.fresh (s : Step) : Table := ⟨if s.dotted then .dotted else .implied, []⟩

/-- Change the table at the end of a path. Missing tables are made on the way, and an array of
tables stands for its last one. Inline tables cannot be entered, nor tables with a header by a
dotted key. -/
def update (t : Table) (change : Table → Option Table) : List Step → Option Table
  | [] => change t
  | step :: steps =>
    match t.find? step.key with
    | none => (step.fresh.update change steps).map fun child => t.put step.key child.toValue
    | some (.table origin entries) =>
      if origin = .inlined ∨ (step.dotted ∧ origin = .header) then none
      else
        ((Table.mk origin entries).update change steps).map fun child =>
          t.put step.key child.toValue
    | some (.array true items) =>
      match items.getLast? with
      | some (.table origin entries) =>
        ((Table.mk origin entries).update change steps).map fun child =>
          t.put step.key (.array true (items.dropLast ++ [child.toValue]))
      | _ => none
    | some _ => none

/-- Add an entry that a key, reached by `dotted` parts before it or by none, gives to the table. -/
def addEntry (key : Text) (v : Value) (dotted : Bool) (t : Table) : Option Table :=
  if dotted ≠ (t.origin == .dotted) then none
  else
    match t.find? key with
    | some _ => none
    | none => some (t.put key v)

/-- Add the table of a header. One that is there already must have been implied. -/
def addHeader (key : Text) (t : Table) : Option Table :=
  match t.find? key with
  | none => some (t.put key (.table .header []))
  | some (.table .implied entries) => some (t.put key (.table .header entries))
  | some _ => none

def addToArray (key : Text) (t : Table) : Option Table :=
  match t.find? key with
  | none => some (t.put key (.array true [.table .header []]))
  | some (.array true items) => some (t.put key (.array true (items ++ [.table .header []])))
  | some _ => none

end Table

end Toml

end MarkdownEditing
