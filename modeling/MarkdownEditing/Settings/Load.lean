import MarkdownEditing.Settings.Basic
import MarkdownEditing.Settings.Toml.Document
import MarkdownEditing.Text.Quoted
import MarkdownEditing.Text.Utf8

namespace MarkdownEditing

inductive SettingsFault
  /-- the file has no text -/
  | unreadable
  /-- the text is no TOML, or a value is of the wrong kind -/
  | malformed
  /-- an indent of no spaces -/
  | zeroIndent
  /-- an indent called by a name that is not `tab` -/
  | unknownIndent (name : Text)
  deriving DecidableEq, Repr

namespace SettingsFault

/-- The text that reports a fault, where the library has a wording of its own. -/
def message? : SettingsFault → Option String
  | zeroIndent => some "indent_unit must be at least one space"
  | unknownIndent name =>
    some ("indent_unit must be \"tab\" or a number of spaces, got " ++
      String.ofList (Text.quote name))
  | _ => none

end SettingsFault

namespace Settings

open Toml

def countLimit : Nat := UInt64.size

def count? : Value → Option Nat
  | .integer n => if 0 ≤ n ∧ n < countLimit then some n.toNat else none
  | _ => none

def countOf (v : Value) : Except SettingsFault Nat :=
  match count? v with
  | some n => .ok n
  | none => .error .malformed

def flagOf : Value → Except SettingsFault Bool
  | .boolean b => .ok b
  | _ => .error .malformed

def isTabName (name : Text) : Bool := name.map Char.toLower == ['t', 'a', 'b']

def indentOf (v : Value) : Except SettingsFault IndentUnit :=
  match v with
  | .string name => if isTabName name then .ok .tab else .error (.unknownIndent name)
  | v =>
    match count? v with
    | some 0 => .error .zeroIndent
    | some n => .ok (.spaces n)
    | none => .error .malformed

def lineBreakNamed (name : Text) : Except SettingsFault LineBreak :=
  if name = ['l', 'f'] then .ok .lf
  else if name = ['c', 'r', 'l', 'f'] then .ok .crlf
  else .error .malformed

/-- A line break: its name, or a table with nothing but its name over nothing. -/
def lineBreakOf : Value → Except SettingsFault LineBreak
  | .string name => lineBreakNamed name
  | .table _ [(name, .table _ [])] => lineBreakNamed name
  | .table _ [(name, .array _ [])] => lineBreakNamed name
  | _ => .error .malformed

def fieldOr {α : Type} (v : Option Value) (read : Value → Except SettingsFault α) (fallback : α) :
    Except SettingsFault α :=
  match v with
  | some v => read v
  | none => .ok fallback

/-- The settings of formatting: a table, or the fields in order. -/
def formatOf (v : Value) : Except SettingsFault FormatSettings := do
  let base : FormatSettings := {}
  let (final, trim) ←
    match v with
    | .table _ entries =>
      pure (entries.lookup "insert_final_newline".toList,
        entries.lookup "trim_trailing_whitespace".toList)
    | .array _ items => pure (items[0]?, items[1]?)
    | _ => .error .malformed
  let final ← fieldOr final flagOf base.insertFinalNewline
  let trim ← fieldOr trim flagOf base.trimTrailingWhitespace
  return ⟨final, trim⟩

/-- The settings of the editor: a table, whose keys are read in alphabetical order, or the fields in
order. -/
def editorOf (v : Value) : Except SettingsFault EditorSettings := do
  let base : EditorSettings := {}
  match v with
  | .table _ entries =>
    let format ← fieldOr (entries.lookup "format".toList) formatOf base.format
    let indentUnit ← fieldOr (entries.lookup "indent_unit".toList) indentOf base.indentUnit
    let lineBreak ← fieldOr (entries.lookup "line_break".toList) lineBreakOf base.lineBreak
    let tabSize ← fieldOr (entries.lookup "tab_size".toList) countOf base.tabSize
    return { indentUnit, tabSize, lineBreak, format }
  | .array _ items =>
    let indentUnit ← fieldOr items[0]? indentOf base.indentUnit
    let tabSize ← fieldOr items[1]? countOf base.tabSize
    let lineBreak ← fieldOr items[2]? lineBreakOf base.lineBreak
    let format ← fieldOr items[3]? formatOf base.format
    return { indentUnit, tabSize, lineBreak, format }
  | _ => .error .malformed

/-- The settings that the table of a document gives. Keys that are not there take their defaults, and
keys that mean nothing are passed over. -/
def ofTable (t : Table) : Except SettingsFault Settings := do
  let editor ← fieldOr (t.find? "editor".toList) editorOf {}
  return { editor }

def ofToml (t : Text) : Except SettingsFault Settings :=
  match parse? t with
  | some table => ofTable table
  | none => .error .malformed

end Settings

inductive SettingsFile
  | missing
  | directory
  | bytes (content : List Nat)
  deriving DecidableEq, Repr

namespace SettingsFile

def load : SettingsFile → Except SettingsFault (Option Settings)
  | missing => .ok none
  | directory => .error .unreadable
  | bytes content =>
    match Utf8.decode content with
    | .error _ => .error .unreadable
    | .ok t => (Settings.ofToml t).map some

def defaultPath : String := ".config/markdown-structedit/config.toml"

end SettingsFile

end MarkdownEditing
