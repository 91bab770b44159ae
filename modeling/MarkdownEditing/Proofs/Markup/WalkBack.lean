import MarkdownEditing.Proofs.Markup.Context
import MarkdownEditing.Proofs.Markup.Items

namespace MarkdownEditing

namespace Place

variable {p c : Place}

theorem depth_of_mem_children (member : c ∈ p.children) : c.depth = p.depth + 1 := by
  have parent := parent?_of_mem_children member
  obtain ⟨tree, start, above⟩ := c
  cases above with
  | nil => cases parent
  | cons level above =>
    cases parent
    rfl

end Place

namespace Backspace

structure Walk where
  node : Place
  scan : Nat

namespace Walk

def next? (w : Walk) : Option Walk :=
  (w.node.childBefore? w.scan).bind fun child =>
    if child.isNode then
      if child.kind.isList then
        (child.children.reverse.find? (·.isNode)).map fun item => ⟨item, item.stop⟩
      else none
    else if isContainerMark child.kind then some ⟨w.node, child.start⟩
    else none

inductive Ends : Walk → Walk → Prop
  | stop {w : Walk} (done : w.next? = none) : Ends w w
  | round {w v last : Walk} (step : w.next? = some v) (goes_on : Ends v last) : Ends w last

/-- The offset moves left in the same node, or the node is left for one strictly inside it. -/
def Progress (w v : Walk) : Prop :=
  v.node = w.node ∧ v.scan < w.scan ∨ w.node ∈ v.node.ancestors ∧ w.node.depth < v.node.depth

variable {w v last : Walk} {t : Text} {pos : Nat}

theorem next?_cases (step : w.next? = some v) :
    (∃ mark, w.node.childBefore? w.scan = some mark ∧ mark.isNode = false ∧
        isContainerMark mark.kind = true ∧ v = ⟨w.node, mark.start⟩) ∨
      ∃ list item, w.node.childBefore? w.scan = some list ∧ list.isNode = true ∧
        list.kind.isList = true ∧ item ∈ list.children ∧ item.isNode = true ∧
        v = ⟨item, item.stop⟩ := by
  obtain ⟨child, found, step⟩ := Option.bind_eq_some_iff.mp step
  split at step
  · rename_i isNode
    split at step
    · rename_i isList
      obtain ⟨item, last, rfl⟩ := Option.map_eq_some_iff.mp step
      refine Or.inr ⟨child, item, found, isNode, isList, ?_, List.find?_some last, rfl⟩
      exact List.mem_reverse.mp (List.mem_of_find?_eq_some last)
    · cases step
  · rename_i single
    split at step
    · rename_i mark
      exact Or.inl ⟨child, found, by simpa using single, mark, (Option.some.inj step).symm⟩
    · cases step

theorem progress_of_next? (step : w.next? = some v) : w.Progress v := by
  rcases next?_cases step with ⟨mark, found, _, _, rfl⟩ | ⟨list, item, found, _, _, in_list, _, rfl⟩
  · exact Or.inl ⟨rfl, Place.childBefore?_start_lt found⟩
  · have in_node := Place.childBefore?_mem found
    refine Or.inr ⟨?_, ?_⟩
    · rw [Place.ancestors_of_mem_children in_list, Place.ancestors_of_mem_children in_node]
      simp [Place.ancestors]
    · rw [Place.depth_of_mem_children in_list, Place.depth_of_mem_children in_node]
      omega

/-- There are no endless walks: the tree left to walk over gets smaller, or it stays and the offset
gets smaller. -/
theorem wellFounded_next? : WellFounded fun v w : Walk => w.next? = some v := by
  refine Subrelation.wf (fun {v w} step => ?_) (InvImage.wf
    (fun w : Walk => (sizeOf w.node.tree, w.scan)) (Prod.lex Nat.lt_wfRel Nat.lt_wfRel).wf)
  rcases next?_cases step with ⟨mark, found, _, _, rfl⟩ | ⟨list, item, found, _, _, in_list, _, rfl⟩
  · exact Prod.Lex.right _ (Place.childBefore?_start_lt found)
  · have smaller := Place.children_smaller (Place.childBefore?_mem found)
    exact Prod.Lex.left _ _ (Nat.lt_trans (Place.children_smaller in_list) smaller)

theorem walkBack_eq (w : Walk) :
    walkBack w.node w.scan = (w.next?.map fun v => walkBack v.node v.scan).getD w.node := by
  rw [walkBack, next?]
  split
  · rename_i nowhere
    rw [nowhere]
    rfl
  · rename_i child found
    rw [found, Option.bind_some]
    split
    · split
      · split
        · rename_i item last
          rw [last]
          rfl
        · rename_i empty
          rw [empty]
          rfl
      · rfl
    · split <;> rfl

theorem ends_walkBack (w : Walk) : ∃ last, w.Ends last ∧ last.node = walkBack w.node w.scan := by
  induction w using wellFounded_next?.induction with
  | _ w ih =>
    cases step : w.next? with
    | none => exact ⟨w, .stop step, by rw [walkBack_eq, step]; rfl⟩
    | some v =>
      obtain ⟨last, goes_on, same⟩ := ih v step
      exact ⟨last, .round step goes_on, by rw [walkBack_eq, step]; exact same⟩

theorem Ends.unique {last' : Walk} (ends : w.Ends last) (ends' : w.Ends last') : last = last' := by
  induction ends with
  | stop done =>
    cases ends' with
    | stop => rfl
    | round step => rw [done] at step; cases step
  | round step _ ih =>
    cases ends' with
    | stop done => rw [step] at done; cases done
    | round step' goes_on => exact ih (Option.some.inj (step.symm.trans step') ▸ goes_on)

/-- The walk is in a node that starts before `pos` unless it is the root, and so do all items that it
can still go into. -/
structure Before (t : Text) (pos : Nat) (w : Walk) : Prop where
  inside : w.node.In (Tree.ofText t)
  start : w.node = Place.root (Tree.ofText t) ∨ w.node.start < pos
  items : ∀ c ∈ w.node.children, c.start < w.scan → c.ItemsBefore t pos

theorem Before.step (before : w.Before t pos) (step : w.next? = some v) : v.Before t pos := by
  rcases next?_cases step with
    ⟨mark, found, _, _, rfl⟩ | ⟨list, item, found, _, isList, in_list, isNode, rfl⟩
  · refine ⟨before.inside, before.start, fun c member earlier => ?_⟩
    exact before.items c member (Nat.lt_trans earlier (Place.childBefore?_start_lt found))
  · have in_node := Place.childBefore?_mem found
    have item_inside := (before.inside.child in_node).child in_list
    have items := before.items list in_node (Place.childBefore?_start_lt found)
    -- the offset moves right, so the children behind it are bounded by the list around them
    refine ⟨item_inside, Or.inr ?_, fun c member _ =>
      (items.of_mem_children in_list).of_mem_children member⟩
    obtain ⟨_, _, is_item⟩ :=
      item_inside.item_of_list (Place.parent?_of_mem_children in_list) isList isNode
    have kind : item.kind = .listItem := is_item.kind_eq
    obtain ⟨mark, _, child, _, start, some_bytes⟩ := item_inside.first_leaf isNode (Or.inr kind)
    have in_item := Place.span_of_mem_children child
    have span := Place.span_of_mem_children in_list
    exact items item item_inside ⟨isNode, kind⟩ span.1 (by omega)

theorem Before.run (before : w.Before t pos) (ends : w.Ends last) : last.Before t pos := by
  induction ends with
  | stop => exact before
  | round step _ ih => exact ih (before.step step)

end Walk

/-- Where the walk for a caret at `pos` begins: in the node around the caret, or in front of the
container mark that the caret stands at. -/
def begin? (s : EditState) (pos : Nat) : Option Walk :=
  let place := s.tree.resolve s.doc pos
  if place.isNode then some ⟨place, pos⟩
  else
    place.parent?.map fun node =>
      ⟨node, if isContainerMark place.kind then place.start else pos⟩

theorem contextNode?_eq (s : EditState) (pos : Nat) :
    contextNode? s pos = (begin? s pos).map fun w => walkBack w.node w.scan := by
  rw [contextNode?, begin?]
  split
  · rfl
  · rw [Option.map_map]
    rfl

/-- There always is a node to begin in, and the items in front of the caret there start before it. -/
theorem exists_begin {s : EditState} (coherent : s.Coherent) (pos : Nat) :
    ∃ first, begin? s pos = some first ∧ first.Before s.text pos := by
  obtain ⟨place, here⟩ : ∃ place, s.tree.resolve s.doc pos = place := ⟨_, rfl⟩
  have clamped : (Tree.ofText s.text).resolve (Document.ofText s.text s.doc.lineBreak)
      (min pos s.text.size) = place := by
    rw [← here, coherent.resolve_eq]
    exact Tree.resolve_min _ _ _
  obtain ⟨inside, _, shape⟩ := Tree.resolve_cases (Nat.min_le_right _ _) clamped
  rw [begin?, here]
  rcases shape with ⟨single, before, high⟩ | ⟨isNode, start, items⟩
  · obtain ⟨node, parent⟩ := inside.exists_parent single
    rw [if_neg (by simp [single]), parent]
    have items := (Place.itemsBefore_of_leaf inside single before).of_parent_children inside parent
      before high
    have child := Place.mem_children_of_parent inside parent
    have low := (Place.span_of_mem_children child).1
    refine ⟨_, rfl, inside.parent parent, Or.inr (by dsimp only; omega), fun c member earlier => ?_⟩
    have before : c.start < pos := by
      dsimp only at earlier
      split at earlier <;> omega
    exact Place.itemsBefore_of_clamped before (items c member)
  · rw [if_pos isNode]
    refine ⟨_, rfl, inside, start.imp_right (by dsimp only; omega), fun c member earlier => ?_⟩
    exact Place.itemsBefore_of_clamped earlier (items c member)

theorem contextNode?_spec {s : EditState} (coherent : s.Coherent) {pos : Nat} {node : Place}
    (found : contextNode? s pos = some node) :
    node.In (Tree.ofText s.text) ∧ node.start ≤ pos := by
  obtain ⟨first, begun, before⟩ := exists_begin coherent pos
  obtain ⟨last, ends, same⟩ := first.ends_walkBack
  rw [contextNode?_eq, begun, Option.map_some, ← same] at found
  cases found
  obtain ⟨inside, start, _⟩ := before.run ends
  refine ⟨inside, ?_⟩
  rcases start with root | start
  · rw [root]
    exact Nat.zero_le _
  · exact Nat.le_of_lt start

/-- The walk backwards from a caret ends, because each of its rounds moves left in the same node or
goes strictly deeper; and the node that it ends in is the root or starts before the caret. -/
theorem walk_ends {s : EditState} (coherent : s.Coherent) (pos : Nat) :
    (∀ w v : Walk, w.next? = some v → w.Progress v) ∧
    (WellFounded fun v w : Walk => w.next? = some v) ∧
    ∃ first last, begin? s pos = some first ∧ first.Ends last ∧
      contextNode? s pos = some last.node ∧
      (last.node = Place.root s.tree ∨ last.node.start < pos) := by
  obtain ⟨first, begun, before⟩ := exists_begin coherent pos
  obtain ⟨last, ends, same⟩ := first.ends_walkBack
  refine ⟨fun w v => Walk.progress_of_next?, Walk.wellFounded_next?, first, last, begun, ends, ?_, ?_⟩
  · rw [contextNode?_eq, begun, same]
    rfl
  · rw [coherent.tree]
    exact (before.run ends).start

def behindLists : EditState :=
  EditState.ofText ['-', ' ', 'a', '\n', ' ', ' ', '-', ' ', 'b', '\n'] (Selection.caret 10) {}

theorem behindLists_walk_ends : ∃ first last, begin? behindLists 10 = some first ∧
    first.node.start = 0 ∧ first.Ends last ∧ contextNode? behindLists 10 = some last.node ∧
    last.node.start = 6 := by
  have coherent : behindLists.Coherent := EditState.coherent_ofText _ _ _
  obtain ⟨_, _, first, last, begun, ends, context, _⟩ := walk_ends coherent 10
  have outermost : (begin? behindLists 10).map (·.node.start) = some 0 := by decide +kernel
  have innermost : (((begin? behindLists 10).bind Walk.next?).bind Walk.next?).map
      (fun w => (w.node.start, w.next?.isNone)) = some (6, true) := by decide +kernel
  rw [begun] at outermost innermost
  obtain ⟨w, found, stops⟩ := Option.map_eq_some_iff.mp innermost
  obtain ⟨v, outer, inner⟩ := Option.bind_eq_some_iff.mp found
  obtain ⟨start, done⟩ := Prod.mk.inj stops
  obtain rfl := ends.unique (.round outer (.round inner (.stop (Option.isNone_iff_eq_none.mp done))))
  exact ⟨first, last, begun, Option.some.inj outermost, ends, context, start⟩

end Backspace

end MarkdownEditing
