import MarkdownEditing.Edit.State

namespace MarkdownEditing

inductive Decline
  | notCaret
  | notMarkdown
  | noContext
  | insideMarkup
  | notAfterMarkup
  | conflictingChanges
  deriving DecidableEq, Repr

namespace Decline

def reason : Decline → String
  | notCaret => "a range is a selection, not a caret"
  | notMarkdown => "the caret is not in Markdown"
  | noContext => "there is no list or quote markup around the caret"
  | insideMarkup => "the caret is inside a marker"
  | notAfterMarkup => "the caret is not directly after markup"
  | conflictingChanges => "edits for different ranges overlap"

def message (d : Decline) : String := "command declined: " ++ d.reason

end Decline

/-- Why a command gives no transaction: it declines, or a caret is at no character boundary of its
line. -/
inductive Refusal
  | declined (why : Decline)
  | splitsCharacter
  deriving DecidableEq, Repr

/-- The changes for one range, and where the range ends up when only they are made. -/
structure RangeEdit where
  changes : List Change
  range : Range
  deriving DecidableEq, Repr

namespace Change

/-- A change for the text that `own` gives, out of one for the text before. -/
def shift (own : ChangeSet) (c : Change) : Change :=
  let start := own.mapPos c.start .after
  if c.start = c.stop then ⟨start, start, c.insert⟩
  else ⟨start, max (own.mapPos c.stop .before) start, c.insert⟩

end Change

namespace RangeEdit

/-- The changes of the other edits that are not also made for this one. -/
def others (e : RangeEdit) (rest : List RangeEdit) : List Change :=
  (rest.flatMap RangeEdit.changes).filter (!e.changes.contains ·)

/-- The range of an edit in a text of `size` bytes, carried through the changes of the other edits.
-/
def carry (e : RangeEdit) (rest : List RangeEdit) (size : Nat) : Range :=
  match ChangeSet.ofChanges e.changes size with
  | .error _ => e.range
  | .ok own =>
    match ChangeSet.ofChanges ((e.others rest).map (Change.shift own)) own.newSize with
    | .error _ => e.range
    | .ok shifted => e.range.map shifted

end RangeEdit

namespace Transaction

def carryAll (edits : List RangeEdit) (size : Nat) : List Range :=
  edits.zipIdx.map fun (e, i) => e.carry (edits.eraseIdx i) size

def ofEdits (s : EditState) (edits : List RangeEdit) : Except Decline Transaction :=
  match ChangeSet.ofChanges (edits.flatMap RangeEdit.changes) s.doc.size with
  | .error _ => .error .conflictingChanges
  | .ok changes =>
    .ok ⟨changes, some (Selection.ofRanges (carryAll edits s.doc.size) s.selection.main)⟩

/-- The transaction of editing every range as if it were the only one: the changes are made at once,
and each resulting range is carried through those of the other ranges. The first range that is refused
refuses the whole. -/
def byRange (s : EditState) (edit : Range → Except Refusal RangeEdit) :
    Except Refusal Transaction := do
  let edits ← s.selection.ranges.mapM edit
  (ofEdits s edits).mapError .declined

end Transaction

end MarkdownEditing
