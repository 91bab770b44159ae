import MarkdownEditing.Edit.Change

namespace MarkdownEditing

structure Range where
  anchor : Nat
  head : Nat
  deriving DecidableEq, Repr, Inhabited

namespace Range

def caret (pos : Nat) : Range := ⟨pos, pos⟩

def start (r : Range) : Nat := min r.anchor r.head

def stop (r : Range) : Nat := max r.anchor r.head

def isCaret (r : Range) : Bool := r.anchor == r.head

def precedes (a b : Range) : Bool := a.start < b.start || (a.start == b.start && a.stop ≤ b.stop)

/-- The range after changes. A caret stays before text put in at its position, a span leaves text
put in at its ends outside. -/
def map (r : Range) (s : ChangeSet) : Range :=
  if r.isCaret then caret (s.mapPos r.head .before)
  else
    let start := s.mapPos r.start .after
    let stop := max (s.mapPos r.stop .before) start
    if r.anchor ≤ r.head then ⟨start, stop⟩ else ⟨stop, start⟩

def clamp (r : Range) (size : Nat) : Range := ⟨min r.anchor size, min r.head size⟩

/-- Whether a range that comes after another one has to be merged with it: they overlap, or the
later one is a caret at the end of the earlier one. -/
def joins (last r : Range) : Bool := r.start < last.stop || (r.start == last.stop && r.isCaret)

def merge (last r : Range) : Range := ⟨last.start, max last.stop r.stop⟩

end Range

/-- Ranges, sorted and without overlap, and the place of the main one among them. -/
structure Selection where
  ranges : List Range
  main : Nat
  deriving DecidableEq, Repr

namespace Selection

def caret (pos : Nat) : Selection := ⟨[Range.caret pos], 0⟩

/-- Merge sorted ranges into the ones merged so far (latest first). `main` is the place of the last
range equal to `chosen`. -/
def mergeInto (chosen : Range) (merged : List Range) (main : Nat) : List Range → Selection
  | [] => ⟨merged.reverse, main⟩
  | r :: rest =>
    let merged :=
      match merged with
      | last :: earlier => if last.joins r then last.merge r :: earlier else r :: last :: earlier
      | [] => [r]
    mergeInto chosen merged (if r = chosen then merged.length - 1 else main) rest

/-- The selection of ranges in any order, the main one at place `main` of the list or last. No
ranges make a caret at the start of the text. -/
def ofRanges (ranges : List Range) (main : Nat) : Selection :=
  match ranges[min main (ranges.length - 1)]? with
  | none => caret 0
  | some chosen => mergeInto chosen [] 0 (ranges.mergeSort Range.precedes)

def mainRange (s : Selection) : Range := (s.ranges[s.main]?).getD default

def map (s : Selection) (c : ChangeSet) : Selection := ofRanges (s.ranges.map (·.map c)) s.main

def clamp (s : Selection) (size : Nat) : Selection := ofRanges (s.ranges.map (·.clamp size)) s.main

end Selection

/-- Changes, and the selection to go on with. Without one the old selection is carried through the
changes. -/
structure Transaction where
  changes : ChangeSet
  selection : Option Selection
  deriving DecidableEq, Repr

end MarkdownEditing
