import MarkdownEditing.Settings.Toml.Scalar
import MarkdownEditing.Settings.Toml.Quoted

namespace MarkdownEditing

namespace Toml

def depthLimit : Nat := 80

def skipIndent (t : Text) : Text := t.dropWhile isIndent

def skipComment : Text → Text
  | '#' :: t => t.dropWhile isPlain
  | t => t

def afterLine? (t : Text) : Option Text :=
  match skipComment (skipIndent t) with
  | [] => some []
  | t => afterBreak? t

def skipSpace (t : Text) : Text :=
  match _shape : skipComment (skipIndent t) with
  | '\n' :: rest => skipSpace rest
  | '\r' :: '\n' :: rest => skipSpace rest
  | rest => rest
termination_by t.length
decreasing_by
  all_goals
    have shorter : (skipComment (skipIndent t)).length ≤ t.length := by
      have whole := (List.dropWhile_sublist isIndent (l := t)).length_le
      unfold skipComment
      split
      · rename_i rest comment
        have inner := (List.dropWhile_sublist isPlain (l := rest)).length_le
        have outer := congrArg List.length comment
        simp only [skipIndent, List.length_cons] at outer whole
        omega
      · exact whole
    rw [_shape] at shorter
    simp only [List.length_cons] at shorter
    omega

def isBareChar (c : Char) : Bool := c.isAlphanum || c == '_' || c == '-'

def simpleKey? (t : Text) : Option (Text × Text) :=
  match t with
  | '"' :: rest => basic? rest
  | '\'' :: rest => literal? rest
  | _ =>
    let bare := t.takeWhile isBareChar
    if bare = [] then none else some (bare, t.dropWhile isBareChar)

/-- The parts of a key of at most `fuel` parts, and the text after it. -/
def keyParts? (t : Text) : Nat → Option (List Text × Text)
  | 0 => none
  | fuel + 1 => do
    let (part, rest) ← simpleKey? t
    match skipIndent rest with
    | '.' :: next =>
      let (parts, rest) ← keyParts? (skipIndent next) fuel
      return (part :: parts, rest)
    | rest => return ([part], rest)

def key? (t : Text) : Option (List Text × Text) := keyParts? t t.length

def addAt (root : Table) (path : List Table.Step) (key : List Text) (v : Value) : Option Table :=
  match key.getLast? with
  | none => none
  | some last =>
    let way := key.dropLast.map fun part => ⟨part, true⟩
    root.update (Table.addEntry last v (!way.isEmpty)) (path ++ way)

/-- The items of an array up to its closing bracket, at most `fuel` of them, and the text after it.
-/
def items? (value : Text → Option (Value × Text)) (t : Text) : Nat → Option (List Value × Text)
  | 0 => none
  | fuel + 1 =>
    match skipSpace t with
    | ']' :: rest => some ([], rest)
    | t => do
      let (v, rest) ← value t
      match skipSpace rest with
      | ',' :: rest =>
        let (vs, rest) ← items? value rest fuel
        return (v :: vs, rest)
      | ']' :: rest => return ([v], rest)
      | _ => none

/-- The entries of an inline table up to its closing brace, at most `fuel` of them, added to a
table, and the text after it. -/
def entries? (value : Text → Option (Value × Text)) (table : Table) (t : Text) :
    Nat → Option (Table × Text)
  | 0 => none
  | fuel + 1 =>
    match skipSpace t with
    | '\x7d' :: rest => some (table, rest)
    | t => do
      let (key, rest) ← key? t
      let rest ← after? '=' rest
      let (v, rest) ← value (skipIndent rest)
      let table ← addAt table [] key v
      match skipSpace rest with
      | ',' :: rest => entries? value table rest fuel
      | '\x7d' :: rest => return (table, rest)
      | _ => none

def flat? (t : Text) : Option (Value × Text) :=
  match t with
  | '"' :: _ => (quoted? t).map fun read => (.string read.1, read.2)
  | '\'' :: _ => (quoted? t).map fun read => (.string read.1, read.2)
  | _ => (ofWord? (splitWord t).1).map fun v => (v, (splitWord t).2)

/-- A value with at most `depth` arrays and inline tables inside each other, and the text after it.
-/
def value? : Nat → Text → Option (Value × Text)
  | 0, t => if t.head? = some '[' ∨ t.head? = some '\x7b' then none else flat? t
  | depth + 1, t =>
    match t with
    | '[' :: rest =>
      (items? (value? depth) rest (rest.length + 1)).map fun read => (.array false read.1, read.2)
    | '\x7b' :: rest =>
      (entries? (value? depth) Table.empty rest (rest.length + 1)).map fun read =>
        (.table .inlined read.1.entries, read.2)
    | _ => flat? t

/-- What is read so far: the table of the document, and the path of the header that entries go
under. -/
structure Progress where
  root : Table
  path : List Table.Step

def plainPath (key : List Text) : List Table.Step := key.map fun part => ⟨part, false⟩

def entryLine? (p : Progress) (t : Text) : Option (Progress × Text) := do
  let (key, rest) ← key? t
  let rest ← after? '=' rest
  let (v, rest) ← value? depthLimit (skipIndent rest)
  let root ← addAt p.root p.path key v
  return ({ p with root }, rest)

def headerLine? (p : Progress) (t : Text) : Option (Progress × Text) := do
  let isArray := t.head? == some '['
  let (key, rest) ← key? (skipIndent (if isArray then t.drop 1 else t))
  let rest ← after? ']' rest
  let rest ← if isArray then after? ']' rest else some rest
  let last ← key.getLast?
  let change := if isArray then Table.addToArray last else Table.addHeader last
  let root ← p.root.update change (plainPath key.dropLast)
  return (⟨root, plainPath key⟩, rest)

def lines? (p : Progress) (t : Text) : Nat → Option Table
  | 0 => none
  | fuel + 1 =>
    match skipSpace t with
    | [] => some p.root
    | t => do
      let (p, rest) ←
        match t with
        | '[' :: rest => headerLine? p rest
        | _ => entryLine? p t
      let rest ← afterLine? rest
      lines? p rest fuel

def skipMark (t : Text) : Text := if t.head? = some '\ufeff' then t.drop 1 else t

def parse? (t : Text) : Option Table := lines? ⟨Table.empty, []⟩ (skipMark t) (t.length + 1)

end Toml

end MarkdownEditing
