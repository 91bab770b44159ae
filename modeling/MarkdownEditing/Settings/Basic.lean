import MarkdownEditing.Text.Basic

namespace MarkdownEditing

inductive IndentUnit
  | tab
  | spaces (count : Nat)
  deriving DecidableEq, Repr

namespace IndentUnit

def isTab : IndentUnit → Bool
  | tab => true
  | spaces _ => false

end IndentUnit

inductive LineBreak
  | lf
  | crlf
  deriving DecidableEq, Repr

namespace LineBreak

def text : LineBreak → Text
  | lf => ['\n']
  | crlf => ['\r', '\n']

end LineBreak

structure FormatSettings where
  insertFinalNewline : Bool := true
  trimTrailingWhitespace : Bool := true
  deriving DecidableEq, Repr

structure EditorSettings where
  indentUnit : IndentUnit := .spaces 4
  tabSize : Nat := 4
  lineBreak : LineBreak := .lf
  format : FormatSettings := {}
  deriving DecidableEq, Repr

structure Settings where
  editor : EditorSettings := {}
  deriving DecidableEq, Repr

end MarkdownEditing
