import MarkdownEditing.Text.Basic
import MarkdownEditing.Text.Hidden

namespace MarkdownEditing

namespace Text

def quoteChar (c : Char) : Text :=
  match c with
  | '\x00' => ['\\', '0']
  | '\t' => ['\\', 't']
  | '\r' => ['\\', 'r']
  | '\n' => ['\\', 'n']
  | '"' => ['\\', '"']
  | '\\' => ['\\', '\\']
  | c => if isHidden c then ['\\', 'u', '\x7b'] ++ Nat.toDigits 16 c.toNat ++ ['\x7d'] else [c]

def quote (t : Text) : Text := '"' :: (t.flatMap quoteChar ++ ['"'])

end Text

end MarkdownEditing
