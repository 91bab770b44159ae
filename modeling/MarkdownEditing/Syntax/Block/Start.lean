import MarkdownEditing.Syntax.Inline
import MarkdownEditing.Text.Column

namespace MarkdownEditing

/-- What decides whether two items belong to the same list: the bullet, or the delimiter after the
number. -/
inductive ListStyle
  | dash | star | plus | period | paren
  deriving DecidableEq, Repr

namespace ListStyle

def listKind : ListStyle → Kind
  | dash | star | plus => .bulletList
  | period | paren => .orderedList

/-- How many tokens a marker has; the closing parenthesis after a number is a token of its own. -/
def markerWidth : ListStyle → Nat
  | paren => 2
  | _ => 1

end ListStyle

inductive BlockStart
  | blank
  | quote
  /-- a list item, `bare` when nothing at all follows the marker -/
  | item (style : ListStyle) (bare : Bool)
  | heading (level : Nat)
  | thematicBreak
  | fence (mark : Kind) (length : Nat)
  | text
  deriving DecidableEq, Repr

/-- The tokens left of a line up to what ends it, the column they start at, and the column that
indentation is counted from. -/
structure Cursor where
  rest : List Token
  column : Nat
  base : Nat
  deriving Repr

namespace Cursor

def tabStop : Nat := 4

def maxIndent : Nat := 3

def blank (c : Cursor) : List Token := (c.rest.take 1).takeWhile (·.kind == .whitespace)

def skipBlank (c : Cursor) : Cursor :=
  { c with
    rest := c.rest.drop c.blank.length
    column := Text.advance tabStop c.column (Token.join c.blank) }

def nearBase (c : Cursor) : Bool := c.column - c.base ≤ maxIndent

/-- The cursor after a quote mark at column `column`. One blank column after the mark belongs to it.
-/
def afterQuoteMark (column : Nat) (ts : List Token) : Cursor :=
  let next : Cursor := ⟨ts, column + 1, column + 1⟩
  { next with base := column + 1 + next.blank.length }

end Cursor

namespace BlockStart

/-- Whether tokens after a list marker leave it one: a blank or the end of the line has to follow.
The value tells whether the line ends there. -/
def bareAfterMarker? : List Token → Option Bool
  | [] => some true
  | t :: _ => if t.kind = .whitespace then some false else none

def isThematicBreak (mark : Kind) (tokens : List Token) : Bool :=
  tokens.all (fun t => t.kind == mark || t.kind == .whitespace) &&
    3 ≤ (tokens.filter (·.kind == mark)).length

/-- One to nine digits `0` to `9`, the number of an ordered item. -/
def isItemNumber (t : Text) : Bool := t ≠ [] && t.length ≤ 9 && t.all Char.isDigit

def orderedItem? (word : Text) (ts : List Token) : Option BlockStart :=
  if word.getLast? = some '.' then
    if isItemNumber word.dropLast then (bareAfterMarker? ts).map (item .period) else none
  else
    match ts with
    | t :: ts =>
      if t.kind = .rparen ∧ isItemNumber word then (bareAfterMarker? ts).map (item .paren) else none
    | [] => none

def heading? (tokens : List Token) : Option BlockStart :=
  let level := Inline.runLength .hash tokens
  if level ≤ 6 ∧ (bareAfterMarker? (tokens.drop level)).isSome then some (heading level) else none

def fence? (mark : Kind) (tokens : List Token) : Option BlockStart :=
  let length := Inline.runLength mark tokens
  let inInfo := (tokens.drop length).any (·.kind == .backtick)
  if 3 ≤ length ∧ ¬(mark = .backtick ∧ inInfo) then some (fence mark length) else none

def bullet? (style : ListStyle) (t : Token) (ts : List Token) : Option BlockStart :=
  if t.kind ≠ .plus ∧ isThematicBreak t.kind (t :: ts) then some thematicBreak
  else (bareAfterMarker? ts).map (item style)

def ofCursor (c : Cursor) : BlockStart :=
  match c.rest with
  | [] => blank
  | t :: ts =>
    if c.nearBase then
      match t.kind with
      | .gt => quote
      | .hash => (heading? (t :: ts)).getD text
      | .dash => (bullet? .dash t ts).getD text
      | .star => (bullet? .star t ts).getD text
      | .plus => (bullet? .plus t ts).getD text
      | .underscore => if isThematicBreak .underscore (t :: ts) then thematicBreak else text
      | .backtick => (fence? .backtick (t :: ts)).getD text
      | .tilde => (fence? .tilde (t :: ts)).getD text
      | .text => (orderedItem? t.text ts).getD text
      | _ => text
    else text

end BlockStart

end MarkdownEditing
