import MarkdownEditing.Syntax.Block.Start

namespace MarkdownEditing

/-- A block that holds other blocks. An item knows the column its content starts at. -/
inductive Container
  | quote
  | list (style : ListStyle)
  | item (column : Nat)
  deriving DecidableEq, Repr

namespace Container

def kind : Container → Kind
  | quote => .blockQuote
  | list style => style.listKind
  | item _ => .listItem

end Container

/-- A block of lines of text that may go on with the next line. -/
inductive OpenLeaf
  | paragraph
  | fence (mark : Kind) (length : Nat)
  deriving DecidableEq, Repr

namespace OpenLeaf

def kind : OpenLeaf → Kind
  | paragraph => .paragraph
  | fence .. => .fencedCode

end OpenLeaf

/-- How many containers a line continues from the outermost on, the prefix that does so, and the
rest of the line. -/
structure Continuation where
  count : Nat
  lead : List Tree
  cursor : Cursor

namespace Continuation

def stop (c : Cursor) : Continuation := ⟨0, [], c⟩

/-- Continue containers, outermost first. A quote goes on with its mark, an item with a blank line
or enough indentation, and a list when its item does. -/
def ofLine : List Container → Cursor → Continuation
  | [], c => stop c
  | .quote :: containers, c =>
    match c.skipBlank.rest with
    | t :: ts =>
      if t.kind = .gt ∧ c.skipBlank.nearBase then
        let inner := ofLine containers (Cursor.afterQuoteMark c.skipBlank.column ts)
        ⟨inner.count + 1, c.blank.map Tree.leaf ++ Tree.token .quoteMark [t] :: inner.lead,
          inner.cursor⟩
      else stop c
    | [] => stop c
  | .list _ :: containers, c =>
    let inner := ofLine containers c
    if inner.count = 0 then stop c else { inner with count := inner.count + 1 }
  | .item column :: containers, c =>
    if c.skipBlank.rest ≠ [] ∧ c.skipBlank.column < column then stop c
    else
      let inner := ofLine containers { c with base := max c.base column }
      { inner with count := inner.count + 1 }

end Continuation

/-- An open container, and the finished trees before it in its parent. -/
structure Layer where
  container : Container
  before : List Tree
  deriving Repr

/-- The open blocks of a document: containers from the innermost out, the finished children of the
innermost one, and the open leaf with what it holds so far. -/
structure Stack where
  layers : List Layer
  done : List Tree
  leaf : Option (OpenLeaf × List Tree)
  deriving Repr

namespace Stack

def empty : Stack := ⟨[], [], none⟩

def containers (s : Stack) : List Container := (s.layers.map Layer.container).reverse

def emit (s : Stack) (trees : List Tree) : Stack :=
  match s.leaf with
  | some (leaf, held) => { s with leaf := some (leaf, held ++ trees) }
  | none => { s with done := s.done ++ trees }

def closeLeaf (s : Stack) : Stack :=
  match s.leaf with
  | some (leaf, held) => { s with done := s.done ++ [Tree.node leaf.kind held], leaf := none }
  | none => s

def push (s : Stack) (c : Container) : Stack := ⟨⟨c, s.done⟩ :: s.layers, [], none⟩

def pop (s : Stack) : Stack :=
  match s.closeLeaf.layers with
  | [] => s.closeLeaf
  | layer :: layers =>
    ⟨layers, layer.before ++ [Tree.node layer.container.kind s.closeLeaf.done], none⟩

def popMany (s : Stack) : Nat → Stack
  | 0 => s
  | n + 1 => s.pop.popMany n

def inList (s : Stack) (style : ListStyle) : Bool :=
  match s.layers with
  | ⟨.list style', _⟩ :: _ => style' == style
  | _ => false

/-- Close the containers after the first `count`. A list stays open when the line starts its next
item. -/
def closeAfter (s : Stack) (count : Nat) (start : BlockStart) : Stack :=
  let keep :=
    match s.containers[count]?, start with
    | some (.list style), .item next _ => if style = next then count + 1 else count
    | _, _ => count
  s.popMany (s.layers.length - keep)

def openLeaf (s : Stack) (start : BlockStart) (tokens ending : List Token) : Stack :=
  let ended := ending.map Tree.leaf
  match start with
  | .blank => s.emit ended
  | .heading level =>
    s.emit [Tree.node .heading
      (Tree.glue .headerMark (tokens.take level) ++ Inline.parse (tokens.drop level) ++ ended)]
  | .thematicBreak => s.emit [Tree.node .thematicBreak (tokens.map Tree.leaf ++ ended)]
  | .fence mark length =>
    { s with leaf := some (.fence mark length,
      Tree.glue .codeMark (tokens.take length) ++ (tokens.drop length).map Tree.leaf ++ ended) }
  | .quote | .item .. | .text => { s with leaf := some (.paragraph, Inline.parse tokens ++ ended) }

/-- Where the content of an item starts whose marker ends at column `column`, before the tokens
`ts`: after the blanks, but one column after the marker when these are too wide or nothing follows
them. -/
def contentColumn (column : Nat) (ts : List Token) : Nat :=
  match ts with
  | t :: rest =>
    let stop := Text.advance Cursor.tabStop column t.text
    if t.kind = .whitespace ∧ rest ≠ [] ∧ stop - column ≤ Cursor.tabStop then stop else column + 1
  | [] => column + 1

def openBlocks (s : Stack) (c : Cursor) (ending : List Token) : Stack :=
  let s := s.emit (c.blank.map Tree.leaf)
  match BlockStart.ofCursor c.skipBlank, _left : c.skipBlank.rest with
  | .quote, t :: ts =>
    let next := Cursor.afterQuoteMark c.skipBlank.column ts
    let s := (s.push .quote).emit (Tree.token .quoteMark [t] :: next.blank.map Tree.leaf)
    s.openBlocks next.skipBlank ending
  | .item style _, t :: ts =>
    let marker := (t :: ts).take style.markerWidth
    let column := Text.advance Cursor.tabStop c.skipBlank.column (Token.join marker)
    let rest := ts.drop (style.markerWidth - 1)
    let next : Cursor := ⟨rest, column, contentColumn column rest⟩
    let s := if s.inList style then s else s.push (.list style)
    let s :=
      (s.push (.item next.base)).emit (Tree.glue .listMark marker ++ next.blank.map Tree.leaf)
    s.openBlocks next.skipBlank ending
  | start, _ => s.openLeaf start c.skipBlank.rest ending
termination_by c.rest.length
decreasing_by
  all_goals
    have shorter := congrArg List.length _left
    simp only [Cursor.skipBlank, Cursor.afterQuoteMark, List.length_drop, List.length_cons]
      at shorter ⊢
    omega

def closesFence (mark : Kind) (length : Nat) (c : Cursor) : Bool :=
  let run := Inline.runLength mark c.rest
  let rest := c.rest.drop run
  c.nearBase && length ≤ run && rest.length ≤ 1 && rest.all (·.kind == .whitespace)

def fenceLine (s : Stack) (mark : Kind) (length : Nat) (c : Cursor) (ending : List Token) : Stack :=
  let ended := ending.map Tree.leaf
  let tokens := c.skipBlank.rest
  if closesFence mark length c.skipBlank then
    let run := Inline.runLength mark tokens
    (s.emit (c.blank.map Tree.leaf ++ Tree.glue .codeMark (tokens.take run) ++
      (tokens.drop run).map Tree.leaf ++ ended)).closeLeaf
  else s.emit (c.rest.map Tree.leaf ++ ended)

def continuesParagraph (start : BlockStart) (allContinued : Bool) : Bool :=
  match start with
  | .text => true
  | .item _ bare => bare && allContinued
  | _ => false

/-- Read one line: its tokens without the line break, and the line break. It first continues some of
the open containers; what it does not continue is closed, unless the line goes on with an open
paragraph or starts the next item of an open list; then it opens new blocks. -/
def addLine (s : Stack) (tokens ending : List Token) : Stack :=
  let c := Continuation.ofLine s.containers ⟨tokens, 0, 0⟩
  let start := BlockStart.ofCursor c.cursor.skipBlank
  let all := c.count == s.layers.length
  let reopen := fun s : Stack =>
    ((s.closeLeaf.closeAfter c.count start).emit c.lead).openBlocks c.cursor ending
  match s.leaf with
  | some (.fence mark length, _) =>
    if all then (s.emit c.lead).fenceLine mark length c.cursor ending else reopen s
  | some (.paragraph, _) =>
    if continuesParagraph start all then
      s.emit (c.lead ++ Inline.parse c.cursor.rest ++ ending.map Tree.leaf)
    else reopen s
  | none => reopen s

/-- Read the first line of the tokens of a text, where nothing but a line break ends a line before the
last. The second part is the tokens after the break. -/
def line (s : Stack) (tokens : List Token) : Stack × List Token :=
  let content := tokens.takeWhile (·.kind != .newline)
  let after := tokens.drop content.length
  (s.addLine content (after.take 1), after.drop 1)

theorem length_line_lt (s : Stack) (t : Token) (ts : List Token) :
    (s.line (t :: ts)).2.length < (t :: ts).length := by
  simp only [line, List.length_drop, List.length_cons]
  omega

def lines (s : Stack) : List Token → Stack
  | [] => s
  | t :: ts => (s.line (t :: ts)).1.lines (s.line (t :: ts)).2
termination_by ts => ts.length
decreasing_by exact length_line_lt s t ts

def finish (s : Stack) : List Tree := (s.closeLeaf.popMany s.layers.length).done

end Stack

namespace Tree

def ofTokens (tokens : List Token) : Tree := node .root (Stack.empty.lines tokens).finish

def ofText (t : Text) : Tree := ofTokens (Token.scan t)

end Tree

end MarkdownEditing
