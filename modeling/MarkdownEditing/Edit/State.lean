import MarkdownEditing.Edit.Selection
import MarkdownEditing.Syntax.Block.Stack
import MarkdownEditing.Syntax.Place

namespace MarkdownEditing

structure EditState where
  doc : Document
  tree : Tree
  selection : Selection
  settings : EditorSettings

namespace Place

/-- The end of the line on which the last leaf under the place starts that is neither blank nor a
line break, or the end of the place if there is no such leaf. -/
def contentStop (p : Place) (d : Document) : Nat :=
  match (p.leaves.filter fun leaf => !leaf.kind.isTrivia).getLast? with
  | some leaf => (d.lineAt leaf.start).stop
  | none => p.stop

end Place

namespace Tree

/-- The innermost place that a caret at `pos` sits in, by what ends there rather than by what starts
there. A mark is its own place; any other leaf stands for the nodes around it, and a node holds the
caret only up to the end of its last line with content. -/
def resolve (t : Tree) (d : Document) (pos : Nat) : Place :=
  let pos := min pos d.size
  match (Place.root t).leafBefore? pos with
  | none => Place.root t
  | some leaf =>
    if leaf.kind.isMark then leaf
    else
      (leaf.enclosing.find? fun node => node.above.isEmpty || pos ≤ node.contentStop d).getD
        (Place.root t)

/-- Whether a caret at `pos` edits Markdown, and not the body of a fenced code block that names a
language. -/
def isMarkdownAt (t : Tree) (d : Document) (pos : Nat) : Bool :=
  match (Place.root t).leafBefore? (min pos d.size) with
  | none => true
  | some leaf =>
    match leaf.enclosing.find? (·.kind == .fencedCode) with
    | none => true
    | some fence => fence.fenceInfo.isBlank || pos ≤ (d.lineAt fence.start).stop

end Tree

namespace EditState

def ofText (t : Text) (selection : Selection) (settings : EditorSettings) : EditState :=
  let doc := Document.ofText t settings.lineBreak
  ⟨doc, Tree.ofText t, selection.clamp doc.size, settings⟩

def text (s : EditState) : Text := s.doc.text

def lineBreak (s : EditState) : Text := s.doc.lineBreak.text

def withSelection (s : EditState) (selection : Selection) : EditState :=
  { s with selection := selection.clamp s.doc.size }

def withSettings (s : EditState) (settings : EditorSettings) : EditState :=
  ofText s.text s.selection settings

def isMarkdownAt (s : EditState) (pos : Nat) : Bool := s.tree.isMarkdownAt s.doc pos

/-- The state after a transaction. One made for a document of another length changes nothing. There
is no next state when a change would cut a character. -/
def next? (s : EditState) (t : Transaction) : Option EditState :=
  if t.changes.size ≠ s.doc.size then some s
  else do
    let doc ← s.doc.change? t.changes
    let tree := if t.changes.isEmpty then s.tree else Tree.ofText doc.text
    let selection := t.selection.getD (s.selection.map t.changes)
    return { s with doc, tree, selection := selection.clamp doc.size }

end EditState

end MarkdownEditing
