import MarkdownEditing.Proofs.Text.Cut
import MarkdownEditing.Syntax.Place

namespace MarkdownEditing

/-- A step of walking a tree, which keeps the tokens of the leaves. -/
inductive Visit
  | enter (kind : Kind)
  | leaf (kind : Kind) (raw : List Token)
  | leave
  deriving DecidableEq, Repr

namespace Visit

def raw : Visit → List Token
  | leaf _ raw => raw
  | _ => []

def text (visits : List Visit) : Text := Token.join (visits.flatMap raw)

@[simp] theorem text_nil : text [] = [] := rfl

@[simp] theorem text_append (a b : List Visit) : text (a ++ b) = text a ++ text b := by
  simp [text]

@[simp] theorem text_enter (kind : Kind) (visits : List Visit) :
    text (enter kind :: visits) = text visits := by
  simp [text, raw]

@[simp] theorem text_leaf (kind : Kind) (tokens : List Token) (visits : List Visit) :
    text (leaf kind tokens :: visits) = Token.join tokens ++ text visits := by
  simp [text, raw]

@[simp] theorem text_leave (visits : List Visit) : text (leave :: visits) = text visits := by
  simp [text, raw]

end Visit

namespace Tree

mutual

def walk : Tree → List Visit
  | token kind raw => [.leaf kind raw]
  | node kind children => .enter kind :: (walkAll children ++ [.leave])

def walkAll : List Tree → List Visit
  | [] => []
  | t :: ts => t.walk ++ walkAll ts

end

@[simp] theorem walkAll_nil : walkAll [] = [] := by simp [walkAll]

@[simp] theorem walkAll_cons (t : Tree) (ts : List Tree) :
    walkAll (t :: ts) = t.walk ++ walkAll ts := by
  simp [walkAll]

@[simp] theorem walkAll_append (a b : List Tree) : walkAll (a ++ b) = walkAll a ++ walkAll b := by
  induction a with
  | nil => simp
  | cons t ts ih => simp [ih]

theorem mem_walkAll {visit : Visit} {ts : List Tree} :
    visit ∈ walkAll ts ↔ ∃ t ∈ ts, visit ∈ t.walk := by
  induction ts with
  | nil => simp
  | cons t ts ih => simp [ih]

@[simp] theorem walk_token (kind : Kind) (tokens : List Token) :
    (token kind tokens).walk = [.leaf kind tokens] := by
  simp [walk]

@[simp] theorem walk_node (kind : Kind) (children : List Tree) :
    (node kind children).walk = .enter kind :: (walkAll children ++ [.leave]) := by
  simp [walk]

mutual

@[simp] theorem text_walk (t : Tree) : Visit.text t.walk = t.text := by
  cases t with
  | token kind tokens => simp [text]
  | node kind children =>
    rw [walk_node, Visit.text_enter, Visit.text_append, text_walkAll children, text, raw_node]
    simp

@[simp] theorem text_walkAll (ts : List Tree) :
    Visit.text (walkAll ts) = Token.join (rawAll ts) := by
  cases ts with
  | nil => simp
  | cons t ts =>
    rw [walkAll_cons, Visit.text_append, text_walk t, text_walkAll ts, rawAll_cons,
      Token.join_append, text]

end

theorem sizeAll_reverse (ts : List Tree) : sizeAll ts.reverse = sizeAll ts := by
  have append : ∀ a b : List Tree, sizeAll (a ++ b) = sizeAll a + sizeAll b := by
    intro a b
    simp [sizeAll_eq, Text.size_append]
  induction ts with
  | nil => rfl
  | cons t ts ih =>
    rw [List.reverse_cons, append, ih]
    simp [sizeAll, Nat.add_comm]

end Tree

namespace Place

def rebuild (t : Tree) : List Level → Tree
  | [] => t
  | level :: above => rebuild (.node level.kind (level.left.reverse ++ t :: level.right)) above

/-- A start fits the sizes of what is to the left of the way down. -/
def Starts (start : Nat) : List Level → Prop
  | [] => start = 0
  | level :: above => start = level.start + Tree.sizeAll level.left ∧ Starts level.start above

structure In (p : Place) (root : Tree) : Prop where
  whole : rebuild p.tree p.above = root
  starts : Starts p.start p.above

def before : List Level → List Visit
  | [] => []
  | level :: above => before above ++ .enter level.kind :: Tree.walkAll level.left.reverse

def after : List Level → List Visit
  | [] => []
  | level :: above => Tree.walkAll level.right ++ .leave :: after above

theorem walk_rebuild (t : Tree) (above : List Level) :
    (rebuild t above).walk = before above ++ t.walk ++ after above := by
  induction above generalizing t with
  | nil => simp [rebuild, before, after]
  | cons level above ih => simp [rebuild, before, after, ih]

theorem size_before {start : Nat} {above : List Level} (starts : Starts start above) :
    (Visit.text (before above)).size = start := by
  induction above generalizing start with
  | nil => simpa [before] using starts.symm
  | cons level above ih =>
    obtain ⟨here, outer⟩ := starts
    rw [before, Visit.text_append, Text.size_append, ih outer, Visit.text_enter,
      Tree.text_walkAll, ← Tree.sizeAll_eq, Tree.sizeAll_reverse, here]

variable {root : Tree} {p c : Place}

theorem stop_eq (p : Place) : p.stop = p.start + p.tree.text.size := by
  rw [stop, Tree.size_eq]

theorem In.walk_eq (inside : p.In root) :
    root.walk = before p.above ++ p.tree.walk ++ after p.above := by
  rw [← inside.whole, walk_rebuild]

theorem In.size_before (inside : p.In root) : (Visit.text (before p.above)).size = p.start :=
  Place.size_before inside.starts

theorem In.text_eq (inside : p.In root) :
    root.text = Visit.text (before p.above) ++ p.tree.text ++ Visit.text (after p.above) := by
  rw [← Tree.text_walk root, inside.walk_eq]
  simp

theorem In.slice_eq (inside : p.In root) : root.text.slice p.start p.stop = p.tree.text := by
  rw [stop_eq, inside.text_eq, ← inside.size_before]
  exact Text.slice_middle _ _ _

theorem In.isBoundary_start (inside : p.In root) : root.text.isBoundary p.start = true := by
  rw [inside.text_eq, ← inside.size_before, List.append_assoc]
  exact Text.isBoundary_left _ _

theorem In.isBoundary_stop (inside : p.In root) : root.text.isBoundary p.stop = true := by
  rw [stop_eq, inside.text_eq, ← inside.size_before, ← Text.size_append]
  exact Text.isBoundary_left _ _

theorem root_in (t : Tree) : (Place.root t).In t := ⟨rfl, rfl⟩

theorem in_of_mem_neighbours {kind : Kind} {start pos : Nat} {above : List Level}
    {left ts : List Tree} (whole : rebuild (.node kind (left.reverse ++ ts)) above = root)
    (outer : Starts start above) (here : pos = start + Tree.sizeAll left)
    (member : c ∈ neighbours kind start above left pos ts) : c.In root := by
  induction ts generalizing left pos with
  | nil => simp [neighbours] at member
  | cons t ts ih =>
    rw [neighbours, List.mem_cons] at member
    rcases member with rfl | member
    · exact ⟨whole, here, outer⟩
    · refine ih ?_ ?_ member
      · simpa using whole
      · rw [here, Tree.sizeAll]
        omega

theorem In.child (inside : p.In root) (member : c ∈ p.children) : c.In root := by
  unfold children at member
  split at member
  · simp at member
  · rename_i kind ts shape
    have whole := inside.whole
    rw [shape] at whole
    exact in_of_mem_neighbours whole inside.starts (by simp [Tree.sizeAll]) member

theorem In.following (inside : p.In root) (member : c ∈ p.following) : c.In root := by
  obtain ⟨tree, start, above⟩ := p
  cases above with
  | nil => simp [Place.following] at member
  | cons level above =>
    obtain ⟨whole, here, outer⟩ := inside
    refine in_of_mem_neighbours ?_ outer ?_ member
    · simpa [rebuild] using whole
    · simp only [stop, Tree.sizeAll] at here ⊢
      omega

theorem In.around {t : Tree} {start : Nat} {above : List Level} (whole : rebuild t above = root)
    (starts : Starts start above) (member : c ∈ Place.around t above) : c.In root := by
  induction above generalizing t start with
  | nil => simp [Place.around] at member
  | cons level above ih =>
    rw [Place.around, List.mem_cons] at member
    rcases member with rfl | member
    · exact ⟨whole, starts.2⟩
    · exact ih whole starts.2 member

theorem In.ancestor (inside : p.In root) (member : c ∈ p.ancestors) : c.In root := by
  rcases List.mem_cons.mp member with rfl | member
  · exact inside
  · exact In.around inside.whole inside.starts member

theorem In.enclosing (inside : p.In root) (member : c ∈ p.enclosing) : c.In root :=
  inside.ancestor (List.mem_filter.mp member).1

theorem In.eq_root (inside : p.In root) (outermost : p.parent? = none) : p = Place.root root := by
  obtain ⟨tree, start, above⟩ := p
  cases above with
  | nil =>
    have whole : tree = root := inside.whole
    have begins : start = 0 := inside.starts
    rw [whole, begins, Place.root]
  | cons level above => cases outermost

theorem In.parent (inside : p.In root) (found : p.parent? = some c) : c.In root := by
  obtain ⟨tree, start, above⟩ := p
  cases above with
  | nil => simp [parent?] at found
  | cons level above =>
    have same : (⟨.node level.kind (level.left.reverse ++ tree :: level.right), level.start,
        above⟩ : Place) = c := by simpa [parent?] using found
    subst same
    exact ⟨inside.whole, inside.starts.2⟩

mutual

theorem in_of_mem_places (t : Tree) {start : Nat} {above : List Level}
    (whole : rebuild t above = root) (starts : Starts start above)
    (member : c ∈ t.places start above) : c.In root := by
  cases t with
  | token kind raw =>
    have same : c = ⟨.token kind raw, start, above⟩ := by simpa [Tree.places] using member
    subst same
    exact ⟨whole, starts⟩
  | node kind children =>
    rw [Tree.places, List.mem_cons] at member
    rcases member with rfl | member
    · exact ⟨whole, starts⟩
    · exact in_of_mem_placesIn children (by simpa using whole) starts (by simp [Tree.sizeAll]) member

theorem in_of_mem_placesIn (ts : List Tree) {kind : Kind} {start pos : Nat} {above : List Level}
    {left : List Tree} (whole : rebuild (.node kind (left.reverse ++ ts)) above = root)
    (outer : Starts start above) (here : pos = start + Tree.sizeAll left)
    (member : c ∈ Tree.placesIn kind start above left pos ts) : c.In root := by
  cases ts with
  | nil => simp [Tree.placesIn] at member
  | cons t ts =>
    rw [Tree.placesIn, List.mem_append] at member
    rcases member with member | member
    · have starts : Starts pos (⟨kind, start, left, ts⟩ :: above) := ⟨here, outer⟩
      refine in_of_mem_places t ?_ starts member
      exact whole
    · refine in_of_mem_placesIn ts ?_ outer ?_ member
      · simpa using whole
      · rw [here, Tree.sizeAll]
        omega

end

theorem In.descendant (inside : p.In root) (member : c ∈ p.descendants) : c.In root :=
  in_of_mem_places p.tree inside.whole inside.starts member

theorem In.leaf (inside : p.In root) (member : c ∈ p.leaves) : c.In root :=
  inside.descendant (List.mem_filter.mp member).1

mutual

theorem covering_in (t : Tree) {lo hi reach start : Nat} {above : List Level}
    (whole : rebuild t above = root) (starts : Starts start above) :
    (t.covering lo hi reach start above).In root := by
  cases t with
  | token kind raw =>
    rw [Tree.covering]
    exact ⟨whole, starts⟩
  | node kind children =>
    rw [Tree.covering]
    cases found : Tree.coveringIn lo hi reach kind start above [] start children with
    | none => exact ⟨whole, starts⟩
    | some c =>
      exact coveringIn_in children (by simpa using whole) starts (by simp [Tree.sizeAll]) found

theorem coveringIn_in (ts : List Tree) {lo hi reach : Nat} {kind : Kind} {start pos : Nat}
    {above : List Level} {left : List Tree}
    (whole : rebuild (.node kind (left.reverse ++ ts)) above = root) (outer : Starts start above)
    (here : pos = start + Tree.sizeAll left)
    {d : Place} (found : Tree.coveringIn lo hi reach kind start above left pos ts = some d) :
    d.In root := by
  cases ts with
  | nil => simp [Tree.coveringIn] at found
  | cons t ts =>
    rw [Tree.coveringIn] at found
    split at found
    · refine coveringIn_in ts ?_ outer ?_ found
      · simpa using whole
      · rw [here, Tree.sizeAll]
        omega
    · split at found
      · have same := Option.some.inj found
        subst same
        have starts : Starts pos (⟨kind, start, left, ts⟩ :: above) := ⟨here, outer⟩
        refine covering_in t ?_ starts
        exact whole
      · cases found

end

theorem In.covering (inside : p.In root) {lo hi : Nat} {kind : Kind}
    (found : p.covering? lo hi kind = some c) : c.In root :=
  (covering_in p.tree inside.whole inside.starts).enclosing (List.mem_of_find?_eq_some found)

end Place

end MarkdownEditing
