import MarkdownEditing.Document

namespace MarkdownEditing

structure Change where
  start : Nat
  stop : Nat
  insert : Text
  deriving DecidableEq, Repr

namespace Change

def insertAt (pos : Nat) (t : Text) : Change := ⟨pos, pos, t⟩

def delete (start stop : Nat) : Change := ⟨start, stop, []⟩

def isNoop (c : Change) : Bool := c.start == c.stop && c.insert.isEmpty

def growth (c : Change) : Int := (c.insert.size : Int) - ((c.stop - c.start : Nat) : Int)

def precedes (a b : Change) : Bool := a.start < b.start || (a.start == b.start && a.stop ≤ b.stop)

end Change

inductive ChangeFault
  /-- the change from `start` to `stop` begins before an earlier one ends at `previous` -/
  | overlap (start stop previous : Nat)
  /-- the change from `start` to `stop` does not lie in a text of `size` bytes -/
  | outOfBounds (start stop size : Nat)
  deriving DecidableEq, Repr

namespace ChangeFault

def message : ChangeFault → String
  | overlap start stop previous =>
    s!"change {start}..{stop} overlaps an earlier change ending at {previous}"
  | outOfBounds start stop size =>
    s!"change {start}..{stop} is outside the document (length {size})"

end ChangeFault

/-- Which side of an insertion a position keeps to. -/
inductive Side
  | before
  | after
  deriving DecidableEq, Repr

/-- Changes for a text of `size` bytes, in order and without overlap. -/
structure ChangeSet where
  changes : List Change
  size : Nat
  deriving DecidableEq, Repr

namespace ChangeSet

def empty (size : Nat) : ChangeSet := ⟨[], size⟩

def dropRepeats : List Change → List Change
  | [] => []
  | [c] => [c]
  | c :: d :: rest => if c = d then dropRepeats (d :: rest) else c :: dropRepeats (d :: rest)

/-- The first change that begins before the one in front of it ends. -/
def firstOverlap? : List Change → Option ChangeFault
  | c :: d :: rest =>
    if d.start < c.stop then some (.overlap d.start d.stop c.stop) else firstOverlap? (d :: rest)
  | _ => none

/-- The first change that does not lie in a text of `size` bytes. -/
def firstOutOfBounds? (size : Nat) (changes : List Change) : Option ChangeFault :=
  (changes.find? fun c => c.stop < c.start || size < c.stop).map fun c =>
    .outOfBounds c.start c.stop size

/-- The set of changes for a text of `size` bytes. Changes that change nothing and equal ones are
dropped. -/
def ofChanges (changes : List Change) (size : Nat) : Except ChangeFault ChangeSet :=
  let sorted := dropRepeats ((changes.filter fun c => !c.isNoop).mergeSort Change.precedes)
  match firstOutOfBounds? size sorted, firstOverlap? sorted with
  | some fault, _ => .error fault
  | none, some fault => .error fault
  | none, none => .ok ⟨sorted, size⟩

def isEmpty (s : ChangeSet) : Bool := s.changes.isEmpty

def totalGrowth : List Change → Int
  | [] => 0
  | c :: rest => c.growth + totalGrowth rest

def newSize (s : ChangeSet) : Nat := (s.size + totalGrowth s.changes).toNat

/-- Where changes move a position to, when the changes before them moved it by `shift`. -/
def mapFrom (pos : Nat) (side : Side) (shift : Int) : List Change → Nat
  | [] => (pos + shift).toNat
  | c :: rest =>
    if pos < c.start then (pos + shift).toNat
    else if pos < c.stop ∨ (c.start = pos ∧ c.stop = pos ∧ side = .before) then
      let start := (c.start + shift).toNat
      if pos = c.start ∨ side = .before then start else start + c.insert.size
    else mapFrom pos side (shift + c.growth) rest

/-- Where the changes move a position to. A position inside a replaced span goes to the start of the
replacement, or to its end with `Side.after`; the start of a span always goes to the start. -/
def mapPos (s : ChangeSet) (pos : Nat) (side : Side) : Nat := mapFrom pos side 0 s.changes

def spansFrom (shift : Int) : List Change → List (Nat × Nat)
  | [] => []
  | c :: rest =>
    let start := (c.start + shift).toNat
    (start, start + c.insert.size) :: spansFrom (shift + c.growth) rest

def changedSpans (s : ChangeSet) : List (Nat × Nat) := spansFrom 0 s.changes

/-- The text between two changes. Nothing is cut where they touch. -/
def gap? (t : Text) (start stop : Nat) : Option Text :=
  if start < stop then t.cut? start stop else some []

def applyFrom? (t : Text) (stop pos : Nat) : List Change → Option Text
  | [] => gap? t pos stop
  | c :: rest => do
    let kept ← gap? t pos c.start
    let changed ← applyFrom? t stop c.stop rest
    return kept ++ c.insert ++ changed

/-- The changed text. There is none when a kept part would have to be cut inside a character. -/
def applyTo? (s : ChangeSet) (t : Text) : Option Text := applyFrom? t s.size 0 s.changes

end ChangeSet

namespace Document

def change? (d : Document) (s : ChangeSet) : Option Document :=
  (s.applyTo? d.text).map (ofText · d.lineBreak)

end Document

end MarkdownEditing
