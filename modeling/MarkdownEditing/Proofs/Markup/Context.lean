import MarkdownEditing.Markup.Backspace
import MarkdownEditing.Proofs.Edit.Coherent
import MarkdownEditing.Proofs.Markup.Frames
import MarkdownEditing.Proofs.Markup.Harmless
import MarkdownEditing.Proofs.Syntax.Order

namespace MarkdownEditing

namespace Place

variable {p c n item leaf : Place} {pos : Nat}

theorem leafBefore?_spec (found : p.leafBefore? pos = some leaf) :
    leaf ∈ p.leaves ∧ leaf.start < pos ∧ pos ≤ leaf.stop := by
  have reached := List.find?_some found
  simp only [Bool.and_eq_true, decide_eq_true_eq] at reached
  exact ⟨List.mem_of_find?_eq_some found, reached⟩

theorem start_le_of_getLast? {places : List Place} {last : Place}
    (ordered : places.Pairwise fun c d => c.start ≤ d.start) (found : places.getLast? = some last) :
    ∀ c ∈ places, c.start ≤ last.start := by
  obtain ⟨first, rfl⟩ := List.getLast?_eq_some_iff.mp found
  intro c member
  rcases List.mem_append.mp member with member | member
  · exact (List.pairwise_append.mp ordered).2.2 c member last (List.mem_singleton_self _)
  · exact Nat.le_of_eq (congrArg start (List.mem_singleton.mp member))

variable {t : Text} {lineBreak : LineBreak}

/-- The content of a place stops with the line of its last leaf that is neither blank nor a line
break. -/
theorem contentStop_cases (p : Place) (d : Document) :
    (∃ last ∈ p.leaves, p.contentStop d = (d.lineAt last.start).stop ∧
      ∀ leaf ∈ p.leaves, leaf.kind.isTrivia = false → leaf.start ≤ last.start) ∨
    p.contentStop d = p.stop ∧ ∀ leaf ∈ p.leaves, leaf.kind.isTrivia = true := by
  rw [contentStop]
  have ordered := List.Pairwise.filter (fun leaf => !leaf.kind.isTrivia) p.leaves_apart
  cases found : (p.leaves.filter fun leaf => !leaf.kind.isTrivia).getLast? with
  | none =>
    have blank := List.filter_eq_nil_iff.mp (List.getLast?_eq_none_iff.mp found)
    exact Or.inr ⟨rfl, fun leaf member => by simpa using blank leaf member⟩
  | some last =>
    have here := List.mem_of_mem_filter (List.mem_of_getLast? found)
    refine Or.inl ⟨last, here, rfl, fun leaf member content => ?_⟩
    exact start_le_of_getLast? ordered found leaf (List.mem_filter.mpr ⟨member, by simp [content]⟩)

theorem mem_leaves_of_start {tree : Tree} (inside : p.In tree)
    (member : leaf ∈ (root tree).leaves) (some_bytes : leaf.start < leaf.stop)
    (low : p.start ≤ leaf.start) (high : leaf.start < p.stop) : leaf ∈ p.leaves := by
  obtain ⟨other, here, starts, stops⟩ := p.leaf_at (Nat.lt_succ_of_le low) high
  rcases leaves_cases member (leaves_of_root inside here) with before | same | behind
  · omega
  · rw [same]
    exact here
  · omega

theorem In.mark_of_start (inside : p.In (Tree.ofText t)) (item_inside : item.In (Tree.ofText t))
    (is_item : item.isNode = true ∧ item.kind = .listItem) (low : p.start ≤ item.start)
    (high : item.start < p.stop) :
    ∃ mark ∈ p.leaves, mark.kind.isTrivia = false ∧ mark.start = item.start := by
  obtain ⟨mark, member, _, content, start, some_bytes⟩ :=
    item_inside.first_leaf is_item.1 (Or.inr is_item.2)
  refine ⟨mark, ?_, content, start⟩
  exact mem_leaves_of_start inside (leaves_of_root item_inside member) some_bytes (by omega) (by omega)

theorem In.start_le_lineAt_stop (lineBreak : LineBreak) (item_inside : item.In (Tree.ofText t))
    (is_item : item.isNode = true ∧ item.kind = .listItem) :
    item.start ≤ ((Document.ofText t lineBreak).lineAt item.start).stop := by
  obtain ⟨_, _, _, starts, _⟩ := item_inside.mark_on_line lineBreak is_item.1 (Or.inr is_item.2)
  obtain ⟨_, _, _, lies, _⟩ := @Document.lineAt_lies t lineBreak _ item_inside.start_le
  have wide := congrArg Text.size starts.text
  rw [Text.size_append] at wide
  have start := starts.start
  have first := lies.start
  have stop := lies.stop
  omega

/-- The content of a place reaches at least to the start of every list item in it. -/
theorem start_le_contentStop (inside : p.In (Tree.ofText t)) (item_inside : item.In (Tree.ofText t))
    (is_item : item.isNode = true ∧ item.kind = .listItem) (low : p.start ≤ item.start)
    (high : item.start < p.stop) :
    item.start ≤ p.contentStop (Document.ofText t lineBreak) := by
  obtain ⟨mark, member, content, start⟩ := inside.mark_of_start item_inside is_item low high
  rcases p.contentStop_cases (Document.ofText t lineBreak) with ⟨last, here, stop, latest⟩ | ⟨_, blank⟩
  · have behind := latest mark member content
    rcases Nat.eq_or_lt_of_le behind with same | later
    · rw [stop, ← same, start]
      exact item_inside.start_le_lineAt_stop lineBreak is_item
    · -- a later leaf may start in the middle of a line break, but not before its line's text ends
      have reach := Document.le_lineAt_stop lineBreak (inside.leaf here).start_le
      omega
  · rw [blank mark member] at content
    cases content

/-- Every list item that starts inside the place starts before `pos`. -/
def ItemsBefore (t : Text) (pos : Nat) (p : Place) : Prop :=
  ∀ item : Place, item.In (Tree.ofText t) → item.isNode = true ∧ item.kind = .listItem →
    p.start ≤ item.start → item.start < p.stop → item.start < pos

theorem ItemsBefore.of_mem_children (before : p.ItemsBefore t pos) (member : c ∈ p.children) :
    c.ItemsBefore t pos := by
  have span := span_of_mem_children member
  intro item inside is_item low high
  exact before item inside is_item (by omega) (by omega)

theorem itemsBefore_of_clamped (before : c.start < pos)
    (items : c.start < min pos t.size → c.ItemsBefore t (min pos t.size)) : c.ItemsBefore t pos := by
  intro item item_inside is_item low high
  have reach := item_inside.start_le
  by_cases within : pos ≤ t.size
  · rw [Nat.min_eq_left within] at items
    exact items before item item_inside is_item low high
  · omega

theorem itemsBefore_of_leaf (inside : p.In (Tree.ofText t)) (single : p.isNode = false)
    (before : p.start < pos) : p.ItemsBefore t pos := by
  intro item item_inside is_item low high
  obtain ⟨mark, member, _, start⟩ := inside.mark_of_start item_inside is_item low high
  rw [leaves_eq, if_neg (by simp [single])] at member
  rw [← start, List.mem_singleton.mp member]
  exact before

theorem itemsBefore_of_contentStop_lt (inside : p.In (Tree.ofText t))
    (beyond : p.contentStop (Document.ofText t lineBreak) < pos) : p.ItemsBefore t pos := by
  intro item item_inside is_item low high
  exact Nat.lt_of_le_of_lt (start_le_contentStop inside item_inside is_item low high) beyond

theorem ItemsBefore.of_parent_children (here : p.ItemsBefore t pos) (inside : p.In (Tree.ofText t))
    (found : p.parent? = some n) (low : p.start < pos) (high : pos ≤ p.stop) :
    ∀ c ∈ n.children, c.start < pos → c.ItemsBefore t pos := by
  have member := mem_children_of_parent inside found
  intro c child before
  rcases children_cases child member with apart | same | apart
  · intro item _ _ _ earlier
    omega
  · rw [same]
    exact here
  · omega

/-- Climbing over nodes whose content ends before the caret leads to a node in all of whose children
in front of the caret the list items start before it. -/
theorem ItemsBefore.of_found_children {tree : Tree} {start : Nat} {above : List Level}
    (here : (⟨tree, start, above⟩ : Place).ItemsBefore t pos)
    (inside : (⟨tree, start, above⟩ : Place).In (Tree.ofText t)) (low : start < pos)
    (high : pos ≤ start + tree.size)
    (found : (around tree above).find? (fun node =>
      node.above.isEmpty || pos ≤ node.contentStop (Document.ofText t lineBreak)) = some n) :
    ∀ c ∈ n.children, c.start < pos → c.ItemsBefore t pos := by
  induction above generalizing tree start with
  | nil => cases found
  | cons level above ih =>
    have parent_inside := inside.parent (c := _) rfl
    have next := here.of_parent_children inside rfl low high
    have span := span_of_mem_children (mem_children_of_parent inside rfl)
    rw [around, List.find?_cons] at found
    split at found
    · cases found
      exact next
    · rename_i rejected
      simp only [Bool.or_eq_false_iff, decide_eq_false_iff_not, Nat.not_le] at rejected
      simp only [stop] at span
      have reaches : pos ≤ level.start +
          (Tree.node level.kind (level.left.reverse ++ tree :: level.right)).size := by omega
      exact ih (itemsBefore_of_contentStop_lt parent_inside rejected.2) parent_inside (by omega)
        reaches found

theorem above_of_find?_eq_none {d : Document} {tree : Tree} {above : List Level}
    (nowhere : (around tree above).find? (fun node =>
      node.above.isEmpty || pos ≤ node.contentStop d) = none) : above = [] := by
  induction above generalizing tree with
  | nil => rfl
  | cons level above ih =>
    rw [around, List.find?_cons] at nowhere
    split at nowhere
    · cases nowhere
    · rename_i rejected
      simp [ih nowhere] at rejected

theorem In.exists_parent (inside : leaf.In (Tree.ofText t)) (single : leaf.isNode = false) :
    ∃ n, leaf.parent? = some n := by
  refine Option.ne_none_iff_exists'.mp fun outermost => ?_
  rw [inside.eq_root outermost] at single
  cases single

end Place

namespace Tree

variable {t : Text} {lineBreak : LineBreak} {pos : Nat}

theorem size_ofText (t : Text) : (ofText t).size = t.size := by
  rw [size_eq, text_ofText]

theorem stop_root (t : Text) : (Place.root (ofText t)).stop = t.size := by
  rw [Place.stop, Place.root, size_ofText]
  exact Nat.zero_add _

theorem resolve_min (tree : Tree) (d : Document) (pos : Nat) :
    tree.resolve d (min pos d.size) = tree.resolve d pos := by
  rw [resolve, resolve, Nat.min_assoc, Nat.min_self]

/-- A caret sits in the mark in front of it, or in a node that starts before the caret unless it is
the root; and in all children of that node in front of the caret, the list items start before it. -/
theorem resolve_cases (inside : pos ≤ t.size) {place : Place}
    (here : (ofText t).resolve (Document.ofText t lineBreak) pos = place) :
    place.In (ofText t) ∧ place.start ≤ pos ∧
      (place.isNode = false ∧ place.start < pos ∧ pos ≤ place.stop ∨
        place.isNode = true ∧ (place = Place.root (ofText t) ∨ place.start < pos) ∧
          ∀ c ∈ place.children, c.start < pos → c.ItemsBefore t pos) := by
  have root_inside := Place.root_in (ofText t)
  have same_pos : min pos (Document.ofText t lineBreak).size = pos := Nat.min_eq_left inside
  rw [resolve, same_pos] at here
  split at here
  · rename_i nowhere
    subst here
    -- no leaf is before the caret, so it is at the start of the text
    refine ⟨root_inside, Nat.zero_le _, Or.inr ⟨rfl, Or.inl rfl, ?_⟩⟩
    intro c _ before
    obtain ⟨leaf, member, reached⟩ := Place.leaf_at (Place.root (ofText t))
      (Nat.zero_lt_of_lt before) (by rw [stop_root]; exact inside)
    have missed := List.find?_eq_none.mp nowhere leaf member
    simp [reached] at missed
  · rename_i leaf found
    obtain ⟨member, low, high⟩ := Place.leafBefore?_spec found
    have single := Place.isNode_of_mem_leaves member
    have leaf_inside := root_inside.leaf member
    split at here
    · subst here
      exact ⟨leaf_inside, Nat.le_of_lt low, Or.inl ⟨single, low, high⟩⟩
    · rw [Place.enclosing_of_leaf single] at here
      cases chosen : (Place.around leaf.tree leaf.above).find? (fun node =>
          node.above.isEmpty || pos ≤ node.contentStop (Document.ofText t lineBreak)) with
      | some n =>
        rw [chosen] at here
        have same : n = place := here
        subst same
        have around := List.mem_of_find?_eq_some chosen
        have ancestor : n ∈ leaf.ancestors := List.mem_cons_of_mem _ around
        have before : n.start < pos :=
          Nat.lt_of_le_of_lt (Place.start_le_of_ancestor leaf_inside ancestor) low
        have items := (Place.itemsBefore_of_leaf leaf_inside single low).of_found_children
          leaf_inside low high chosen
        exact ⟨leaf_inside.ancestor ancestor, Nat.le_of_lt before,
          Or.inr ⟨Place.isNode_of_mem_around around, Or.inr before, items⟩⟩
      | none =>
        obtain ⟨n, parent⟩ := leaf_inside.exists_parent single
        rw [Place.parent?, Place.above_of_find?_eq_none chosen] at parent
        cases parent

end Tree

theorem EditState.Coherent.resolve_eq {s : EditState} (coherent : s.Coherent) (pos : Nat) :
    s.tree.resolve s.doc pos =
      (Tree.ofText s.text).resolve (Document.ofText s.text s.doc.lineBreak) pos := by
  rw [coherent.tree]
  exact congrArg ((Tree.ofText s.text).resolve · pos) coherent.doc

namespace Frame

def Around (f : Frame) (s : EditState) (pos : Nat) : Prop :=
  ∃ p : Place, p.In (Tree.ofText s.text) ∧ p.isNode = true ∧ ofNode? p s.doc = some f ∧
    (p.kind = .blockQuote ∨ p.kind = .listItem → p.start ≤ pos)

variable {s : EditState} {f : Frame} {pos : Nat}

theorem mem_around {p : Place} {d : Document} (member : f ∈ around p d) :
    ∃ q ∈ p.enclosing, ofNode? q d = some f := by
  obtain ⟨q, inside, found⟩ := List.mem_filterMap.mp member
  exact ⟨q, List.mem_reverse.mp inside, found⟩

theorem On.markup_erasable {l : Line} {lead glyphs tail : Text} (on : f.On l lead glyphs tail) :
    ∀ c ∈ lead ++ (glyphs ++ f.after), isErasable c = true := by
  obtain ⟨n, spaces⟩ := on.spaces
  intro c member
  rcases List.mem_append.mp member with member | member
  · exact on.lead_erasable c member
  · rcases List.mem_append.mp member with member | member
    · exact on.glyphs_erasable c member
    · rw [spaces] at member
      rw [Text.mem_spaces member]
      decide

theorem On.text_eq {l : Line} {lead glyphs tail : Text} (on : f.On l lead glyphs tail) :
    l.text = (lead ++ (glyphs ++ f.after)) ++ tail ∧ l.text.dropBytes f.stop = tail := by
  have text : l.text = (lead ++ (glyphs ++ f.after)) ++ tail := by
    rw [on.text]
    simp only [List.append_assoc]
  have stop : f.stop = (lead ++ (glyphs ++ f.after)).size := by
    rw [on.stop, Text.size_append, Text.size_append]
  exact ⟨text, by rw [text, stop, Text.dropBytes_left]⟩

theorem On.start_lt {l : Line} {lead glyphs tail : Text} (on : f.On l lead glyphs tail) :
    f.start + f.after.size < f.stop := by
  obtain ⟨c, member, _⟩ := on.visible
  have some_glyph : 0 < glyphs.size := Text.size_pos (List.ne_nil_of_mem member)
  rw [on.start, on.stop]
  omega

/-- What a frame around the caret is of. One of a quote or a list item whose container starts on the
caret's line has its marker there. -/
theorem Around.cases (coherent : s.Coherent) (inside : pos ≤ s.doc.size)
    (frame : f.Around s pos) :
    (f.item = none ∧ f.isQuote = false ∧ f.stop = f.start ∧ f.after = []) ∨
      f.item.isSome = (!f.isQuote) ∧ f.container.In (Tree.ofText s.text) ∧
        f.container.start ≤ pos ∧ f.start + f.after.size < f.stop ∧
        ((s.doc.lineAt pos).start ≤ f.container.start →
          ∃ lead glyphs rest, f.On (s.doc.lineAt pos) lead glyphs rest) := by
  obtain ⟨p, p_inside, node, found, before⟩ := frame
  rw [coherent.doc] at found
  rcases ofNode?_cases p_inside node found with fence | ⟨lead, glyphs, rest, on, _, same, kind, single⟩
  · exact Or.inl fence
  · refine Or.inr ⟨single, by rw [same]; exact p_inside, by rw [same]; exact before kind,
      on.start_lt, ?_⟩
    intro own_line
    rw [same] at own_line
    obtain ⟨_, _, _, _, _, stable⟩ := coherent.lies_lineAt inside
    rw [← coherent.lineAt, stable p.start own_line (before kind)] at on
    exact ⟨lead, glyphs, rest, on⟩

theorem Around.item_in (coherent : s.Coherent) (inside : pos ≤ s.doc.size)
    (frame : f.Around s pos) {item : Place} (shown : f.item = some item) :
    item.In (Tree.ofText s.text) := by
  rcases frame.cases coherent inside with ⟨no_item, _⟩ | ⟨_, container_in, _⟩
  · rw [no_item] at shown
    cases shown
  · rw [container, shown] at container_in
    exact container_in

end Frame

end MarkdownEditing
