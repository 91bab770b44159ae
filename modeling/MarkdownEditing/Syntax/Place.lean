import MarkdownEditing.Syntax.Tree

namespace MarkdownEditing

/-- A node around a place: its kind, its start, and its children to the left (nearest first) and to
the right of the way down. -/
structure Level where
  kind : Kind
  start : Nat
  left : List Tree
  right : List Tree
  deriving Repr

/-- A tree inside a larger one, with the nodes around it from the innermost out. -/
structure Place where
  tree : Tree
  start : Nat
  above : List Level
  deriving Repr

namespace Place

def root (t : Tree) : Place := ⟨t, 0, []⟩

def kind (p : Place) : Kind := p.tree.kind

def stop (p : Place) : Nat := p.start + p.tree.size

def isNode (p : Place) : Bool := p.tree.isNode

def depth (p : Place) : Nat := p.above.length

/-- The places of neighbouring trees that lie inside the node of kind `kind` at `start`, the first
of them at offset `pos` and right of the trees `left`. -/
def neighbours (kind : Kind) (start : Nat) (above : List Level) (left : List Tree) (pos : Nat) :
    List Tree → List Place
  | [] => []
  | t :: ts =>
    ⟨t, pos, ⟨kind, start, left, ts⟩ :: above⟩ ::
      neighbours kind start above (t :: left) (pos + t.size) ts

def children (p : Place) : List Place :=
  match p.tree with
  | .token .. => []
  | .node kind ts => neighbours kind p.start p.above [] p.start ts

def parent? (p : Place) : Option Place :=
  match p.above with
  | [] => none
  | level :: above =>
    some ⟨.node level.kind (level.left.reverse ++ p.tree :: level.right), level.start, above⟩

def following (p : Place) : List Place :=
  match p.above with
  | [] => []
  | level :: above =>
    neighbours level.kind level.start above (p.tree :: level.left) p.stop level.right

def around (t : Tree) : List Level → List Place
  | [] => []
  | level :: above =>
    let node := Tree.node level.kind (level.left.reverse ++ t :: level.right)
    ⟨node, level.start, above⟩ :: around node above

def ancestors (p : Place) : List Place := p :: around p.tree p.above

def enclosing (p : Place) : List Place := p.ancestors.filter isNode

end Place

namespace Tree

mutual

def places (start : Nat) (above : List Level) : Tree → List Place
  | token kind raw => [⟨token kind raw, start, above⟩]
  | node kind children =>
    ⟨node kind children, start, above⟩ :: placesIn kind start above [] start children

def placesIn (kind : Kind) (start : Nat) (above : List Level) (left : List Tree) (pos : Nat) :
    List Tree → List Place
  | [] => []
  | t :: ts =>
    t.places pos (⟨kind, start, left, ts⟩ :: above) ++
      placesIn kind start above (t :: left) (pos + t.size) ts

end

mutual

/-- The innermost place around the span from `lo` to `hi`, going down into the child that ends at or
after `reach` first. -/
def covering (lo hi reach start : Nat) (above : List Level) : Tree → Place
  | token kind raw => ⟨token kind raw, start, above⟩
  | node kind children =>
    (coveringIn lo hi reach kind start above [] start children).getD
      ⟨node kind children, start, above⟩

/-- The same inside the first of neighbouring trees that ends at or after `reach`, if it holds the
span. -/
def coveringIn (lo hi reach : Nat) (kind : Kind) (start : Nat) (above : List Level)
    (left : List Tree) (pos : Nat) : List Tree → Option Place
  | [] => none
  | t :: ts =>
    if pos + t.size < reach then
      coveringIn lo hi reach kind start above (t :: left) (pos + t.size) ts
    else if pos ≤ lo ∧ hi ≤ pos + t.size then
      some (t.covering lo hi reach pos (⟨kind, start, left, ts⟩ :: above))
    else none

end

end Tree

namespace Place

def descendants (p : Place) : List Place := p.tree.places p.start p.above

def leaves (p : Place) : List Place := p.descendants.filter (!·.isNode)

def nodes (p : Place) : List Place := p.descendants.filter isNode

def leafBefore? (p : Place) (pos : Nat) : Option Place :=
  p.leaves.find? fun leaf => leaf.start < pos && pos ≤ leaf.stop

def childBefore? (p : Place) (pos : Nat) : Option Place :=
  ((p.children.takeWhile (·.start < pos)).filter fun child =>
    child.isNode || child.kind.isMark).getLast?

/-- The innermost node of kind `kind` around the span from `lo` to `hi`. An empty span belongs to
what ends there, not to what starts there. -/
def covering? (p : Place) (lo hi : Nat) (kind : Kind) : Option Place :=
  let lo := min lo p.stop
  let hi := min hi p.stop
  let reach := if lo < hi then lo + 1 else lo
  ((p.tree.covering lo hi reach p.start p.above).enclosing).find? (·.kind == kind)

def fenceInfo (p : Place) : Text :=
  let leaves := p.children.filter (!·.isNode)
  let afterMarks := leaves.dropWhile (·.kind == .codeMark)
  (afterMarks.takeWhile (·.kind != .newline)).flatMap fun leaf => leaf.tree.text

theorem neighbours_smaller {kind : Kind} {start pos : Nat} {above : List Level}
    {left ts : List Tree} {c : Place}
    (member : c ∈ neighbours kind start above left pos ts) : sizeOf c.tree < sizeOf ts := by
  induction ts generalizing left pos with
  | nil => simp [neighbours] at member
  | cons t ts ih =>
    simp only [neighbours, List.mem_cons] at member
    rcases member with rfl | member
    · simp only [List.cons.sizeOf_spec]
      omega
    · have := ih member
      simp only [List.cons.sizeOf_spec]
      omega

theorem children_smaller {p c : Place} (member : c ∈ p.children) :
    sizeOf c.tree < sizeOf p.tree := by
  unfold children at member
  split at member
  · simp at member
  · rename_i kind ts shape
    have := neighbours_smaller member
    rw [shape]
    simp only [Tree.node.sizeOf_spec]
    omega

theorem childBefore?_mem {p c : Place} {pos : Nat} (found : p.childBefore? pos = some c) :
    c ∈ p.children := by
  have member := List.mem_of_getLast? found
  exact (List.takeWhile_sublist _).mem (List.mem_filter.mp member).1

theorem start_lt_of_mem_takeWhile {pos : Nat} {c : Place} {places : List Place}
    (member : c ∈ places.takeWhile (·.start < pos)) : c.start < pos := by
  induction places with
  | nil => simp at member
  | cons p places ih =>
    rw [List.takeWhile_cons] at member
    split at member
    · rename_i inside
      rcases List.mem_cons.mp member with rfl | member
      · simpa using inside
      · exact ih member
    · simp at member

theorem childBefore?_start_lt {p c : Place} {pos : Nat} (found : p.childBefore? pos = some c) :
    c.start < pos := by
  have member := List.mem_of_getLast? found
  exact start_lt_of_mem_takeWhile (List.mem_filter.mp member).1

end Place

end MarkdownEditing
