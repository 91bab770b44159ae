namespace MarkdownEditing

/-- The kinds of tokens and nodes. Token kinds come first, then `eof`, then node kinds. -/
inductive Kind
  | whitespace | newline | text
  | gt | dash | star | plus | underscore | backtick | tilde | rparen | hash
  | quoteMark | listMark | headerMark | codeMark | emphasisMark | strikethroughMark
  | eof
  | root
  | blockQuote | bulletList | orderedList | listItem
  | paragraph | heading | thematicBreak | fencedCode
  | codeSpan | emphasis | strong | strikethrough
  | error
  deriving DecidableEq, Repr, Inhabited

namespace Kind

def all : List Kind :=
  [whitespace, newline, text, gt, dash, star, plus, underscore, backtick, tilde, rparen, hash,
    quoteMark, listMark, headerMark, codeMark, emphasisMark, strikethroughMark, eof, root,
    blockQuote, bulletList, orderedList, listItem, paragraph, heading, thematicBreak, fencedCode,
    codeSpan, emphasis, strong, strikethrough, error]

def code (k : Kind) : Nat := k.ctorIdx

def ofCode? (n : Nat) : Option Kind := all[n]?

def name : Kind → String
  | whitespace => "WHITESPACE"
  | newline => "NEWLINE"
  | text => "TEXT"
  | gt => "GT"
  | dash => "DASH"
  | star => "STAR"
  | plus => "PLUS"
  | underscore => "UNDERSCORE"
  | backtick => "BACKTICK"
  | tilde => "TILDE"
  | rparen => "RPAREN"
  | hash => "HASH"
  | quoteMark => "QUOTE_MARK"
  | listMark => "LIST_MARK"
  | headerMark => "HEADER_MARK"
  | codeMark => "CODE_MARK"
  | emphasisMark => "EMPHASIS_MARK"
  | strikethroughMark => "STRIKETHROUGH_MARK"
  | eof => "EOF"
  | root => "ROOT"
  | blockQuote => "BLOCK_QUOTE"
  | bulletList => "BULLET_LIST"
  | orderedList => "ORDERED_LIST"
  | listItem => "LIST_ITEM"
  | paragraph => "PARAGRAPH"
  | heading => "HEADING"
  | thematicBreak => "THEMATIC_BREAK"
  | fencedCode => "FENCED_CODE"
  | codeSpan => "CODE_SPAN"
  | emphasis => "EMPHASIS"
  | strong => "STRONG"
  | strikethrough => "STRIKETHROUGH"
  | error => "ERROR"

def ofName? (s : String) : Option Kind := all.find? (·.name == s)

def isToken (k : Kind) : Bool := k.code ≤ eof.code

def isNode (k : Kind) : Bool := !k.isToken

def isTrivia : Kind → Bool
  | whitespace | newline => true
  | _ => false

def isMark : Kind → Bool
  | quoteMark | listMark | headerMark | codeMark | emphasisMark | strikethroughMark => true
  | _ => false

def isList : Kind → Bool
  | bulletList | orderedList => true
  | _ => false

def isLineEnd : Kind → Bool
  | newline | eof => true
  | _ => false

end Kind

end MarkdownEditing
