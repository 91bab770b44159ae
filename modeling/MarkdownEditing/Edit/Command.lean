import MarkdownEditing.Edit.Format
import MarkdownEditing.Markup.Enter
import MarkdownEditing.Markup.Backspace
import MarkdownEditing.Toggle.Leading
import MarkdownEditing.Toggle.ListStyle
import MarkdownEditing.Toggle.Marks

namespace MarkdownEditing

inductive Command
  | enter
  | backspace
  | bold
  | italic
  | strikethrough
  | inlineCode
  | inlineMath
  /-- a heading, of the nearest level from one to six -/
  | heading (level : Nat)
  | blockquote
  | bullet
  | numbering
  | todo
  /-- replace every range, with the caret `offset` bytes into the text or at its end -/
  | replace (text : Text) (offset : Option Nat)
  | horizontalRule
  | codeBlock
  | mathBlock
  | format (userInitiated : Bool)
  deriving DecidableEq, Repr

namespace Command

def compile (s : EditState) : Command → Except Refusal Transaction
  | enter => Enter.run s
  | backspace => Backspace.run s
  | bold => .ok (MarkPair.bold.toggle s)
  | italic => .ok (MarkPair.italic.toggle s)
  | strikethrough => .ok (MarkPair.strikethrough.toggle s)
  | inlineCode => .ok (MarkPair.inlineCode.toggle s)
  | inlineMath => .ok (MarkPair.inlineMath.toggle s)
  | heading level => .ok (LeadingMark.heading.toggle (max 1 (min level 6)) s)
  | blockquote => .ok (LeadingMark.quote.toggle 1 s)
  | bullet => .ok (ListKind.bullet.toggle s)
  | numbering => .ok (ListKind.numbering.toggle s)
  | todo => .ok (ListKind.todo.toggle s)
  | replace text offset => (replaceRanges text offset s).mapError .declined
  | horizontalRule =>
    (replaceRanges (s.lineBreak ++ ['-', '-', '-'] ++ s.lineBreak) none s).mapError .declined
  | codeBlock => (insertBlock ['\x60', '\x60', '\x60'] s).mapError .declined
  | mathBlock => (insertBlock ['$', '$'] s).mapError .declined
  | format userInitiated =>
    .ok (formatContent s.settings.format.insertFinalNewline s.settings.format.trimTrailingWhitespace
      userInitiated s)

end Command

end MarkdownEditing
