import MarkdownEditing.Toggle.Lines
import MarkdownEditing.Text.Blank
import MarkdownEditing.Text.Digit

namespace MarkdownEditing

inductive ListKind
  | bullet
  | numbering
  | todo
  deriving DecidableEq, Repr

namespace ListKind

def isBullet (c : Char) : Bool := c == '-' || c == '*' || c == '+'

def afterBox? : Text → Option Text
  | '[' :: c :: ']' :: rest => if c = ' ' ∨ c = 'x' ∨ c = 'X' then some rest else none
  | _ => none

def afterSpaces? (t : Text) : Option Text :=
  if 1 ≤ t.leadingSpaces then some (t.drop t.leadingSpaces) else none

def afterTodo? (t : Text) : Option Text :=
  match t.drop t.leadingSpaces with
  | '-' :: rest => do afterSpaces? (← afterBox? (← afterSpaces? rest))
  | _ => none

def afterBullet? (t : Text) : Option Text :=
  match t.drop t.leadingSpaces with
  | c :: rest =>
    if isBullet c then
      match afterSpaces? rest with
      | some content => if (afterBox? content).isSome then none else some content
      | none => none
    else none
  | [] => none

def afterNumber? (t : Text) (index : Nat) : Option Text :=
  let label : Text := Text.ofNat (index + 1) ++ ['.', ' ']
  let rest := t.drop t.leadingSpaces
  if label.isPrefixOf rest then some (rest.drop label.length) else none

def afterMarker? (kind : ListKind) (t : Text) (index : Nat) : Option Text :=
  match kind with
  | bullet => afterBullet? t
  | numbering => afterNumber? t index
  | todo => afterTodo? t

/-- A new marker for the line at place `index`, with the bullet that is `suggested`. -/
def newMarker (kind : ListKind) (index : Nat) (suggested : Option Char) : Text :=
  match kind with
  | bullet => [suggested.getD '-']
  | numbering => Text.ofNat (index + 1) ++ ['.']
  | todo => ['-', ' ', '[', ' ', ']']

/-- The text from the space in an unchecked box on, when the text starts with a dash, spaces and
such a box. The first part is what stands before that space. -/
def splitUnchecked? (t : Text) : Option (Text × Text) :=
  match t with
  | '-' :: rest =>
    let spaces := Text.leadingSpaces rest
    match rest.drop spaces with
    | '[' :: ' ' :: ']' :: tail =>
      if 1 ≤ spaces then some ('-' :: rest.take spaces ++ ['['], ']' :: tail) else none
    | _ => none
  | _ => none

def check? (t : Text) : Option Text :=
  match splitUnchecked? t with
  | some (head, tail) => some (head ++ 'x' :: tail)
  | none =>
    match t with
    | [] => none
    | c :: rest => (check? rest).map (c :: ·)

def nextState? (kind : ListKind) (t : Text) : Option Text :=
  match kind with
  | todo => check? t
  | _ => none

def afterAnyMarker? (t : Text) : Option Text :=
  match t.trimStart with
  | c :: rest =>
    if isBullet c then do
      let content ← afterSpaces? rest
      return ((afterBox? content).bind afterSpaces?).getD content
    else
      match (c :: rest).dropWhile isDigit with
      | d :: tail => if isDigit c ∧ (d = '.' ∨ d = ')') then afterSpaces? tail else none
      | [] => none
  | [] => none

def removeMarker (t : Text) : Text := (afterAnyMarker? t).getD t

/-- The places of the lines of a group in its numbering, in which `skipped` empty lines do not
count, from the line `index` on. -/
def placesFrom (several : Bool) (index skipped : Nat) : List Line → List Nat
  | [] => []
  | line :: lines =>
    (index - skipped) ::
      placesFrom several (index + 1)
        (if several && line.text.isEmpty then skipped + 1 else skipped) lines

/-- The lines of a group with their places in its numbering. Empty lines count only in a group of
one line. -/
def placed (lines : List Line) : List (Line × Nat) :=
  lines.zip (placesFrom (1 < lines.length) 0 0 lines)

def allMarked (kind : ListKind) (several : Bool) (placed : List (Line × Nat)) : Bool :=
  placed.all fun (line, index) =>
    (kind.afterMarker? line.text index).isSome || (several && line.text.isEmpty)

def suggested (kind : ListKind) (placed : List (Line × Nat)) : Option Char :=
  placed.foldl (fun found (line, index) =>
    if (kind.afterMarker? line.text index).isSome then line.text.trimStart.head? else found) none

/-- The new text of the line at place `index`: without its marker if `remove`, and with one if it
has none. An empty line among `several` stays as it is. -/
def restyleLine (kind : ListKind) (remove several : Bool) (bullet : Option Char) (line : Line)
    (index : Nat) : Text :=
  match kind.afterMarker? line.text index with
  | some content => if remove then (kind.nextState? line.text).getD content else line.text
  | none =>
    if several && line.text.isEmpty then line.text
    else kind.newMarker index bullet ++ ' ' :: removeMarker line.text

def restyle (kind : ListKind) (lines : List Line) : List Text :=
  let several := 1 < lines.length
  let placed := placed lines
  let remove := kind.allMarked several placed
  let bullet := kind.suggested placed
  placed.map fun (line, index) => kind.restyleLine remove several bullet line index

end ListKind

structure LineGroup where
  first : Nat
  last : Nat
  ranges : List Range
  deriving Repr

namespace LineGroup

def gather (s : EditState) (group : LineGroup) : List Range → List LineGroup
  | [] => [group]
  | r :: rest =>
    let span := s.lineSpan r
    if span.1 ≤ group.last then
      gather s { group with last := max group.last span.2, ranges := group.ranges ++ [r] } rest
    else group :: gather s ⟨span.1, span.2, [r]⟩ rest

def ofState (s : EditState) : List LineGroup :=
  match s.selection.ranges with
  | [] => []
  | r :: rest => gather s ⟨(s.lineSpan r).1, (s.lineSpan r).2, [r]⟩ rest

def lines (g : LineGroup) (d : Document) : List Line :=
  d.lines.filter fun line => g.first ≤ line.number && line.number ≤ g.last

def change (g : LineGroup) (s : EditState) (kind : ListKind) : Change :=
  ⟨(s.doc.line g.first).start, (s.doc.line g.last).stop,
    Text.join s.lineBreak (kind.restyle (g.lines s.doc))⟩

/-- A range on a single line whose change is `c`, after changes before it that moved text by
`shift`: moved along with the end of the line, if that keeps it on the new line. -/
def slide? (c : Change) (shift : Int) (r : Range) : Option Range :=
  let start := c.start + shift
  let anchor := r.start + c.growth + shift
  let head := r.stop + c.growth + shift
  if start ≤ anchor ∧ head ≤ start + Text.size c.insert ∧ anchor ≤ head then
    some ⟨anchor.toNat, head.toNat⟩
  else none

/-- The ranges of a group in the new text. Several lines end up selected as a whole, a single line
keeps its ranges on the same text. -/
def newRanges (g : LineGroup) (s : EditState) (kind : ListKind) (set : ChangeSet) (shift : Int) :
    List Range :=
  if g.first = g.last then g.ranges.map fun r => (slide? (g.change s kind) shift r).getD (r.map set)
  else [⟨set.mapPos (s.doc.line g.first).start .before, set.mapPos (s.doc.line g.last).stop .after⟩]

def allRanges (s : EditState) (kind : ListKind) (set : ChangeSet) (shift : Int) :
    List LineGroup → List Range
  | [] => []
  | g :: groups =>
    g.newRanges s kind set shift ++ allRanges s kind set (shift + (g.change s kind).growth) groups

end LineGroup

namespace ListKind

/-- Toggle a list style on the lines that the selection touches. A group whose lines all have the style
loses it, otherwise the lines without it get its markers. -/
def toggle (kind : ListKind) (s : EditState) : Transaction :=
  let groups := LineGroup.ofState s
  match ChangeSet.ofChanges (groups.map fun g => g.change s kind) s.doc.size with
  | .error _ => ⟨ChangeSet.empty s.doc.size, none⟩
  | .ok set =>
    ⟨set, some (Selection.ofRanges (LineGroup.allRanges s kind set 0 groups) s.selection.main)⟩

end ListKind

end MarkdownEditing
