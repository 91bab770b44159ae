import MarkdownEditing.Settings.Load

namespace MarkdownEditing

namespace IndentUnit

def toToml : IndentUnit → Text
  | tab => "\"tab\"".toList
  | spaces n => Text.ofNat n

end IndentUnit

namespace LineBreak

def name : LineBreak → Text
  | lf => ['l', 'f']
  | crlf => ['c', 'r', 'l', 'f']

end LineBreak

namespace Settings

def flagToml (b : Bool) : Text := if b then "true".toList else "false".toList

def entryToml (key : String) (v : Text) : Text := key.toList ++ " = ".toList ++ v ++ ['\n']

def toToml (s : Settings) : Text :=
  "[editor]\n".toList ++
    entryToml "indent_unit" s.editor.indentUnit.toToml ++
    entryToml "tab_size" (Text.ofNat s.editor.tabSize) ++
    entryToml "line_break" ('"' :: s.editor.lineBreak.name ++ ['"']) ++
    "\n[editor.format]\n".toList ++
    entryToml "insert_final_newline" (flagToml s.editor.format.insertFinalNewline) ++
    entryToml "trim_trailing_whitespace" (flagToml s.editor.format.trimTrailingWhitespace)

def toFile (s : Settings) : SettingsFile := .bytes (Utf8.encode s.toToml)

end Settings

end MarkdownEditing
