import MarkdownEditing.Edit.State
import MarkdownEditing.Markup.Number

namespace MarkdownEditing

structure Marker where
  before : Text
  glyphs : Text
  after : Text
  size : Nat
  deriving DecidableEq, Repr

namespace Marker

def quote? (t : Text) : Option Marker :=
  match t.drop t.leadingSpaces with
  | '>' :: rest =>
    let after := (rest.take 1).takeWhile (· == ' ')
    some ⟨[], ['>'], after, t.leadingSpaces + 1 + after.length⟩
  | _ => none

/-- The marker with the spaces after it taken, where four of more than `most` belong to the content.
-/
def withSpaces (before glyphs : Text) (size spaces most : Nat) : Marker :=
  let kept := if most < spaces then spaces - 4 else spaces
  ⟨before, glyphs, Text.spaces kept, size + kept⟩

/-- Digits and a delimiter. The glyphs are the delimiter alone. -/
def ordered? (t : Text) : Option Marker :=
  let rest : Text := t.drop t.leadingSpaces
  let digits : Text := rest.takeWhile isDigit
  match rest.drop digits.length with
  | c :: tail =>
    if digits ≠ [] ∧ (c = '.' ∨ c = ')') then
      some (withSpaces (Text.spaces t.leadingSpaces) [c] (t.leadingSpaces + digits.size + 1)
        (Text.leadingSpaces tail) 3)
    else none
  | [] => none

def taskBox? (t : Text) : Option (Text × Text) :=
  match t.drop t.leadingSpaces with
  | '[' :: c :: ']' :: rest =>
    if 1 ≤ t.leadingSpaces ∧ t.leadingSpaces ≤ 4 ∧ (c = ' ' ∨ c = 'x' ∨ c = 'X') then
      some (Text.spaces t.leadingSpaces ++ ['[', ' ', ']'], rest)
    else none
  | _ => none

/-- The task box and the text after it, if a space follows, and nothing and the whole text
otherwise. -/
def splitTask (t : Text) : Text × Text :=
  match taskBox? t with
  | some (box, rest) => if 1 ≤ Text.leadingSpaces rest then (box, rest) else ([], t)
  | none => ([], t)

def bullet? (t : Text) : Option Marker :=
  match t.drop t.leadingSpaces with
  | c :: rest =>
    let task := splitTask rest
    if (c = '-' ∨ c = '+' ∨ c = '*') ∧ 1 ≤ task.2.leadingSpaces then
      some (withSpaces (Text.spaces t.leadingSpaces) (c :: task.1)
        (t.leadingSpaces + 1 + task.1.length) task.2.leadingSpaces 4)
    else none
  | [] => none

end Marker

/-- The markup of one container. `start` and `stop` are columns in bytes on the container's first
line, and `stop` is where its content starts. The node is the quote, the fenced code block, or the
list of the item. -/
structure Frame where
  node : Place
  item : Option Place
  start : Nat
  stop : Nat
  before : Text
  glyphs : Text
  after : Text
  deriving Repr

namespace Frame

def isQuote (f : Frame) : Bool := f.node.kind == .blockQuote

def isOrdered (f : Frame) : Bool := f.node.kind == .orderedList

def markerStop (f : Frame) : Nat := f.stop - f.after.size

/-- What continues the container on another line without a new item: the quote mark, or spaces in
place of the list marker, padded to `width`. Without a width it is as wide as the marker, with the
space after the marker if `trailing`. -/
def blank (f : Frame) (width : Option Nat) (trailing : Bool) : Text :=
  let head : Text := f.before ++ if f.isQuote then ['>'] else []
  match width with
  | some width => head ++ Text.spaces (width - head.size)
  | none =>
    head ++ Text.spaces (f.stop - f.start - (head.size + f.after.size)) ++
      if trailing then f.after else []

/-- The marker of a new item or quote line. The number of an ordered item is the one of this item
and `add`. -/
def marker (f : Frame) (d : Document) (add : Nat) : Text :=
  let number :=
    match f.item, f.isOrdered with
    | some item, true =>
      ((ItemNumber.ofItem? d item.start).map fun n => Text.ofNat (n.value + add)).getD []
    | _, _ => []
  f.before ++ number ++ f.glyphs ++ f.after

def ofMarker (node : Place) (item : Option Place) (start : Nat) (m : Marker) : Frame :=
  ⟨node, item, start, start + m.size, m.before, m.glyphs, m.after⟩

/-- The frame of a container, if it is one and its first line shows a marker. -/
def ofNode? (p : Place) (d : Document) : Option Frame :=
  let line := d.lineAt p.start
  let start := p.start - line.start
  let text := line.text.dropBytes start
  match p.kind with
  | .fencedCode => some ⟨p, none, start, start, [], [], []⟩
  | .blockQuote => (Marker.quote? text).map (ofMarker p none start)
  | .listItem =>
    match p.parent? with
    | none => none
    | some list =>
      match list.kind with
      | .orderedList => (Marker.ordered? text).map (ofMarker list (some p) start)
      | .bulletList => (Marker.bullet? text).map (ofMarker list (some p) start)
      | _ => none
  | _ => none

def around (p : Place) (d : Document) : List Frame := p.enclosing.reverse.filterMap (ofNode? · d)

end Frame

namespace Text

/-- The text with its leading spaces and tabs written as tabs and fewer spaces than a tab is wide,
if indentation is written with tabs. -/
def normalizeIndent (t : Text) (settings : EditorSettings) : Text :=
  let indent := t.takeWhile isIndent
  if indent = [] ∨ settings.indentUnit.isTab = false then t
  else
    let tab := max settings.tabSize 1
    let column := advance tab 0 indent
    List.replicate (column / tab) '\t' ++ spaces (column % tab) ++ t.dropWhile isIndent

end Text

end MarkdownEditing
