import MarkdownEditing.Proofs.Syntax.Places

namespace MarkdownEditing

namespace Place

variable {p c d : Place}

/-- A property of all places holds when each place has it as soon as its children do. -/
theorem children_induction {motive : Place → Prop}
    (step : ∀ p : Place, (∀ c ∈ p.children, motive c) → motive p) (p : Place) : motive p :=
  step p fun c member =>
    have _smaller := children_smaller member
    children_induction step c
termination_by sizeOf p.tree

section Children

variable {kind : Kind} {start pos : Nat} {above : List Level} {left ts : List Tree}

theorem span_of_mem_neighbours (member : c ∈ neighbours kind start above left pos ts) :
    pos ≤ c.start ∧ c.stop ≤ pos + Tree.sizeAll ts := by
  induction ts generalizing left pos with
  | nil => simp [neighbours] at member
  | cons t ts ih =>
    rw [Tree.sizeAll]
    rcases List.mem_cons.mp member with rfl | member
    · exact ⟨Nat.le_refl _, by simp only [stop]; omega⟩
    · have later := ih member
      omega

theorem neighbours_apart :
    (neighbours kind start above left pos ts).Pairwise fun c d => c.stop ≤ d.start := by
  induction ts generalizing left pos with
  | nil => exact List.Pairwise.nil
  | cons t ts ih =>
    refine List.Pairwise.cons ?_ ih
    intro d member
    exact (span_of_mem_neighbours member).1

theorem mem_neighbours (xs : List Tree) (t : Tree) (right : List Tree) :
    ⟨t, pos + Tree.sizeAll xs, ⟨kind, start, xs.reverse ++ left, right⟩ :: above⟩ ∈
      neighbours kind start above left pos (xs ++ t :: right) := by
  induction xs generalizing left pos with
  | nil => simp [neighbours, Tree.sizeAll]
  | cons x xs ih =>
    rw [List.cons_append, neighbours]
    have later := @ih (pos + x.size) (x :: left)
    rw [Nat.add_assoc] at later
    apply List.mem_cons_of_mem
    simpa [Tree.sizeAll] using later

theorem ancestors_of_mem_neighbours (member : c ∈ neighbours kind start above left pos ts) :
    c.ancestors = c :: (⟨.node kind (left.reverse ++ ts), start, above⟩ : Place).ancestors := by
  induction ts generalizing left pos with
  | nil => simp [neighbours] at member
  | cons t ts ih =>
    rcases List.mem_cons.mp member with rfl | member
    · rfl
    · rw [ih member]
      simp

end Children

theorem span_of_mem_children (member : c ∈ p.children) : p.start ≤ c.start ∧ c.stop ≤ p.stop := by
  unfold children at member
  split at member
  · simp at member
  · rename_i kind ts shape
    have span := span_of_mem_neighbours member
    have size : p.stop = p.start + Tree.sizeAll ts := by rw [stop, shape, Tree.size]
    rw [size]
    exact span

theorem children_apart (p : Place) : p.children.Pairwise fun c d => c.stop ≤ d.start := by
  unfold children
  split
  · exact List.Pairwise.nil
  · exact neighbours_apart

theorem ancestors_of_mem_children (member : c ∈ p.children) : c.ancestors = c :: p.ancestors := by
  obtain ⟨tree, start, above⟩ := p
  cases tree with
  | token => simp [children] at member
  | node kind ts => simpa using ancestors_of_mem_neighbours member

theorem isNode_of_mem_around {t : Tree} {above : List Level} (member : p ∈ around t above) :
    p.isNode = true := by
  induction above generalizing t with
  | nil => cases member
  | cons level above ih =>
    rcases List.mem_cons.mp member with rfl | member
    · rfl
    · exact ih member

theorem enclosing_of_leaf {leaf : Place} (single : leaf.isNode = false) :
    leaf.enclosing = around leaf.tree leaf.above := by
  rw [enclosing, ancestors, List.filter_cons_of_neg (by simp [single])]
  exact List.filter_eq_self.mpr fun q member => isNode_of_mem_around member

theorem mem_children_of_parent {t : Tree} (inside : c.In t) (found : c.parent? = some p) :
    c ∈ p.children := by
  obtain ⟨tree, start, above⟩ := c
  cases above with
  | nil => cases found
  | cons level above =>
    cases found
    have here : start = level.start + Tree.sizeAll level.left := inside.starts.1
    have member :=
      @mem_neighbours level.kind level.start level.start above [] level.left.reverse tree level.right
    rw [Tree.sizeAll_reverse, ← here, List.reverse_reverse, List.append_nil] at member
    exact member

theorem cases_of_apart {places : List Place} (apart : places.Pairwise fun c d => c.stop ≤ d.start)
    (first : c ∈ places) (second : d ∈ places) : c.stop ≤ d.start ∨ c = d ∨ d.stop ≤ c.start := by
  induction places with
  | nil => cases first
  | cons e rest ih =>
    obtain ⟨before, apart⟩ := List.pairwise_cons.mp apart
    rcases List.mem_cons.mp first with first | first <;>
      rcases List.mem_cons.mp second with second | second
    · exact Or.inr (Or.inl (first.trans second.symm))
    · rw [first]
      exact Or.inl (before d second)
    · rw [second]
      exact Or.inr (Or.inr (before c first))
    · exact ih apart first second

theorem children_cases (first : c ∈ p.children) (second : d ∈ p.children) :
    c.stop ≤ d.start ∨ c = d ∨ d.stop ≤ c.start := cases_of_apart p.children_apart first second

theorem span_of_ancestor {t : Tree} (inside : p.In t) (member : d ∈ p.ancestors) :
    d.start ≤ p.start ∧ p.stop ≤ d.stop := by
  obtain ⟨tree, start, above⟩ := p
  induction above generalizing tree start with
  | nil =>
    have same : d = ⟨tree, start, []⟩ := by simpa [ancestors, around] using member
    rw [same]
    exact ⟨Nat.le_refl _, Nat.le_refl _⟩
  | cons level above ih =>
    rcases List.mem_cons.mp member with rfl | member
    · exact ⟨Nat.le_refl _, Nat.le_refl _⟩
    · have span := span_of_mem_children (mem_children_of_parent inside rfl)
      have outer := ih _ _ (inside.parent rfl) member
      omega

theorem start_le_of_ancestor {t : Tree} (inside : p.In t) (member : d ∈ p.ancestors) :
    d.start ≤ p.start := (span_of_ancestor inside member).1

section Leaves

theorem placesIn_eq {kind : Kind} {start pos : Nat} {above : List Level} {left ts : List Tree} :
    Tree.placesIn kind start above left pos ts =
      (neighbours kind start above left pos ts).flatMap descendants := by
  induction ts generalizing left pos with
  | nil => simp [Tree.placesIn, neighbours]
  | cons t ts ih => simp [Tree.placesIn, neighbours, ih, descendants]

theorem leaves_eq (p : Place) :
    p.leaves = if p.isNode then p.children.flatMap leaves else [p] := by
  obtain ⟨tree, start, above⟩ := p
  cases tree with
  | token kind raw => simp [leaves, descendants, Tree.places, isNode, Tree.isNode]
  | node kind ts =>
    have shape : (⟨.node kind ts, start, above⟩ : Place).isNode = true := rfl
    rw [if_pos shape, leaves, descendants, Tree.places, placesIn_eq, List.filter_cons_of_neg,
      List.filter_flatMap]
    · rfl
    · simp [shape]

theorem leaves_of_child (member : c ∈ p.children) {leaf : Place} (inside : leaf ∈ c.leaves) :
    leaf ∈ p.leaves := by
  have node : p.isNode = true := by
    obtain ⟨tree, start, above⟩ := p
    cases tree with
    | token => simp [children] at member
    | node => rfl
  rw [leaves_eq p, if_pos node]
  exact List.mem_flatMap.mpr ⟨c, member, inside⟩

theorem isNode_of_mem_leaves {leaf : Place} (member : leaf ∈ p.leaves) : leaf.isNode = false := by
  simpa using (List.mem_filter.mp member).2

theorem span_of_mem_leaves (p : Place) :
    ∀ leaf ∈ p.leaves, p.start ≤ leaf.start ∧ leaf.stop ≤ p.stop := by
  induction p using children_induction with
  | step p ih =>
    intro leaf member
    rw [leaves_eq] at member
    split at member
    · obtain ⟨c, child, member⟩ := List.mem_flatMap.mp member
      have inner := ih c child leaf member
      have outer := span_of_mem_children child
      omega
    · rw [List.mem_singleton.mp member]
      exact ⟨Nat.le_refl _, Nat.le_refl _⟩

theorem start_le_stop (p : Place) : p.start ≤ p.stop := Nat.le_add_right _ _

theorem leaves_separate (p : Place) : p.leaves.Pairwise fun c d => c.stop ≤ d.start := by
  induction p using children_induction with
  | step p ih =>
    rw [leaves_eq]
    split
    · refine List.pairwise_flatMap.mpr ⟨ih, p.children_apart.imp ?_⟩
      intro c d apart x first y second
      have before := span_of_mem_leaves c x first
      have behind := span_of_mem_leaves d y second
      omega
    · exact List.pairwise_singleton _ _

theorem leaves_apart (p : Place) : p.leaves.Pairwise fun c d => c.start ≤ d.start :=
  p.leaves_separate.imp fun {c _} separate => Nat.le_trans c.start_le_stop separate

theorem leaves_cases {first second : Place} (here : first ∈ p.leaves) (there : second ∈ p.leaves) :
    first.stop ≤ second.start ∨ first = second ∨ second.stop ≤ first.start :=
  cases_of_apart p.leaves_separate here there

theorem leaves_of_root {t : Tree} (inside : p.In t) {leaf : Place} (member : leaf ∈ p.leaves) :
    leaf ∈ (Place.root t).leaves := by
  obtain ⟨tree, start, above⟩ := p
  induction above generalizing tree start with
  | nil =>
    have whole : tree = t := inside.whole
    have here : start = 0 := inside.starts
    subst whole here
    exact member
  | cons level above ih =>
    have child := mem_children_of_parent inside rfl
    exact ih _ _ (inside.parent rfl) (leaves_of_child child member)

theorem neighbour_at {kind : Kind} {start first pos : Nat} {above : List Level}
    {left ts : List Tree} (low : first < pos) (high : pos ≤ first + Tree.sizeAll ts) :
    ∃ c ∈ neighbours kind start above left first ts, c.start < pos ∧ pos ≤ c.stop := by
  induction ts generalizing left first with
  | nil =>
    simp only [Tree.sizeAll] at high
    omega
  | cons t ts ih =>
    rw [Tree.sizeAll] at high
    by_cases here : pos ≤ first + t.size
    · exact ⟨_, List.mem_cons_self, low, here⟩
    · obtain ⟨c, member, reached⟩ := @ih (first + t.size) (t :: left) (by omega) (by omega)
      exact ⟨c, List.mem_cons_of_mem _ member, reached⟩

theorem leaf_at (p : Place) {pos : Nat} :
    p.start < pos → pos ≤ p.stop → ∃ leaf ∈ p.leaves, leaf.start < pos ∧ pos ≤ leaf.stop := by
  induction p using children_induction with
  | step p ih =>
    intro low high
    obtain ⟨tree, start, above⟩ := p
    cases tree with
    | token kind raw =>
      refine ⟨_, ?_, low, high⟩
      rw [leaves_eq, if_neg (by simp [isNode, Tree.isNode])]
      exact List.mem_singleton_self _
    | node kind ts =>
      obtain ⟨c, member, first, last⟩ := neighbour_at low high
      obtain ⟨leaf, inside, reached⟩ := ih c member first last
      exact ⟨leaf, leaves_of_child member inside, reached⟩

end Leaves

end Place

end MarkdownEditing
