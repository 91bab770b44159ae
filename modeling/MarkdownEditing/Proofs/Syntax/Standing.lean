import MarkdownEditing.Proofs.Syntax.Appending

namespace MarkdownEditing

namespace Tree

mutual

theorem walk_inj (t u : Tree) {a b : List Visit} (same : t.walk ++ a = u.walk ++ b) :
    t = u ∧ a = b := by
  cases t with
  | token kind raw =>
    cases u with
    | token kind' raw' =>
      simp only [walk_token, List.singleton_append, List.cons.injEq, Visit.leaf.injEq] at same
      obtain ⟨⟨rfl, rfl⟩, rest⟩ := same
      exact ⟨rfl, rest⟩
    | node kind' us => simp at same
  | node kind ts =>
    cases u with
    | token kind' raw' => simp at same
    | node kind' us =>
      simp only [walk_node, List.cons_append, List.append_assoc, List.cons.injEq,
        Visit.enter.injEq] at same
      obtain ⟨rfl, inner⟩ := same
      obtain ⟨rfl, rest⟩ := walkAll_inj ts us inner
      exact ⟨rfl, rest⟩

theorem walkAll_inj (ts us : List Tree) {a b : List Visit}
    (same : walkAll ts ++ .leave :: a = walkAll us ++ .leave :: b) : ts = us ∧ a = b := by
  cases ts with
  | nil =>
    cases us with
    | nil => simpa using same
    | cons u us => cases u <;> simp at same
  | cons t ts =>
    cases us with
    | nil => cases t <;> simp at same
    | cons u us =>
      rw [walkAll_cons, walkAll_cons, List.append_assoc, List.append_assoc] at same
      obtain ⟨rfl, later⟩ := walk_inj t u same
      obtain ⟨rfl, rest⟩ := walkAll_inj ts us later
      exact ⟨rfl, rest⟩

end

/-- Children whose walk goes on from that of other trees begin with these trees. -/
theorem walkAll_prefix {ts us : List Tree} {rest more : List Visit}
    (same : walkAll ts ++ .leave :: rest = walkAll us ++ more) :
    ∃ vs, ts = us ++ vs ∧ walkAll vs ++ .leave :: rest = more := by
  induction us generalizing ts with
  | nil => exact ⟨ts, rfl, same⟩
  | cons u us ih =>
    cases ts with
    | nil => cases u <;> simp at same
    | cons t ts =>
      rw [walkAll_cons, walkAll_cons, List.append_assoc, List.append_assoc] at same
      obtain ⟨rfl, later⟩ := walk_inj t u same
      obtain ⟨vs, rfl, found⟩ := ih later
      exact ⟨vs, rfl, found⟩

theorem node_of_walk {ts : List Tree} {kind : Kind} {rest more : List Visit}
    (same : walkAll ts ++ .leave :: rest = .enter kind :: more) :
    ∃ cs us, ts = .node kind cs :: us ∧
      walkAll cs ++ .leave :: (walkAll us ++ .leave :: rest) = more := by
  cases ts with
  | nil => simp at same
  | cons t ts =>
    cases t with
    | token kind' raw => simp at same
    | node kind' cs =>
      simp only [walkAll_cons, walk_node, List.cons_append, List.append_assoc, List.cons.injEq,
        Visit.enter.injEq] at same
      obtain ⟨rfl, inner⟩ := same
      exact ⟨cs, ts, rfl, inner⟩

end Tree

namespace Place

variable {t : Tree} {p : Place} {layers outer : List Layer} {layer : Layer} {kind : Kind}

def childAfter (p : Place) (kind : Kind) (left : List Tree) (tree : Tree) (right : List Tree) :
    Place :=
  ⟨tree, p.start + Tree.sizeAll left, ⟨kind, p.start, left.reverse, right⟩ :: p.above⟩

theorem childAfter_mem {left right : List Tree} {tree : Tree}
    (shape : p.tree = .node kind (left ++ tree :: right)) :
    p.childAfter kind left tree right ∈ p.children := by
  have member := @mem_neighbours kind p.start p.start p.above [] left tree right
  rw [List.append_nil] at member
  rw [children, shape]
  exact member

/-- `p` is the node of the innermost of the open containers in the tree `t`. Each holds what was
finished before the next one, and then the next one. -/
inductive Stands (t : Tree) : List Layer → Place → Prop
  | root : Stands t [] (Place.root t)
  | layer {layer : Layer} {layers : List Layer} {p : Place} {kind : Kind} {cs us : List Tree} :
    Stands t layers p →
    p.tree = .node kind (layer.before ++ .node layer.container.kind cs :: us) →
    Stands t (layer :: layers)
      (p.childAfter kind layer.before (.node layer.container.kind cs) us)

namespace Stands

theorem place_in (stands : Stands t layers p) : p.In t := by
  induction stands with
  | root => exact root_in t
  | layer stands shape ih => exact ih.child (childAfter_mem shape)

theorem start_eq (stands : Stands t layers p) :
    p.start = Text.size (Token.join (Stack.rawLayers layers)) := by
  induction stands with
  | root => rfl
  | layer stands shape ih =>
    rw [childAfter, ih, Stack.rawLayers, Token.join_append, Text.size_append, Tree.sizeAll_eq]

theorem kind_eq (stands : Stands t (layer :: layers) p) : p.kind = layer.container.kind := by
  cases stands
  rfl

theorem exists_ancestor (stands : Stands t (layers ++ outer) p) :
    ∃ q, Stands t outer q ∧ q ∈ p.ancestors := by
  induction layers generalizing p with
  | nil => exact ⟨p, stands, List.mem_cons_self⟩
  | cons layer layers ih =>
    cases stands with
    | layer stands shape =>
      obtain ⟨q, found, above⟩ := ih stands
      refine ⟨q, found, ?_⟩
      rw [ancestors_of_mem_children (childAfter_mem shape)]
      exact List.mem_cons_of_mem _ above

end Stands

/-- A tree whose walk goes on from that of open containers has their nodes. What the innermost one
holds so far is what its node begins with. -/
theorem stands_of_walk {ts : List Tree} (layers : List Layer) {held : List Tree} {more : List Visit}
    (walk : (Tree.node .root ts).walk = Stack.walkLayers layers ++ Tree.walkAll held ++ more) :
    ∃ p kind us, Stands (.node .root ts) layers p ∧ p.tree = .node kind (held ++ us) ∧
      Tree.walkAll us ++ .leave :: after p.above = more := by
  induction layers generalizing held more with
  | nil =>
    simp only [Tree.walk_node, Stack.walkLayers, List.cons_append, List.cons.injEq, true_and]
      at walk
    obtain ⟨us, rfl, rest⟩ := Tree.walkAll_prefix walk
    exact ⟨Place.root (.node .root (held ++ us)), .root, us, .root, rfl, rest⟩
  | cons layer layers ih =>
    have outer : (Tree.node .root ts).walk = Stack.walkLayers layers ++
        Tree.walkAll layer.before ++
          .enter layer.container.kind :: (Tree.walkAll held ++ more) := by
      rw [walk, Stack.walkLayers]
      simp only [List.append_assoc, List.cons_append, List.nil_append]
    obtain ⟨p, kind, us, stands, shape, rest⟩ := ih outer
    obtain ⟨cs, us, rfl, inner⟩ := Tree.node_of_walk rest
    obtain ⟨vs, rfl, later⟩ := Tree.walkAll_prefix inner
    exact ⟨_, _, vs, .layer stands shape, rfl, later⟩

end Place

namespace Stack

open Place (Stands)

variable {s : Stack} {more : List Visit} {ts : List Tree}

/-- In a tree whose walk goes on from that of the open blocks stand their containers, and the node of
the innermost one reaches as far as the blocks do. -/
theorem stands_of_walk (walk : (Tree.node .root ts).walk = s.walk ++ more) :
    ∃ p kind us, Stands (.node .root ts) s.layers p ∧ p.tree = .node kind (s.done ++ us) ∧
      Text.size (Token.join s.raw) ≤ p.stop := by
  rw [Stack.walk, List.append_assoc] at walk
  obtain ⟨p, kind, us, stands, shape, rest⟩ := Place.stands_of_walk s.layers walk
  refine ⟨p, kind, us, stands, shape, ?_⟩
  rw [Place.stop_eq, stands.start_eq, shape, raw]
  simp only [Tree.text, Tree.raw_node, Tree.rawAll_append, Token.join_append, Text.size_append]
  cases leaf : s.leaf with
  | none => simp
  | some held =>
    rw [leaf] at rest
    obtain ⟨cs, us, rfl, inner⟩ := Tree.node_of_walk rest
    obtain ⟨vs, rfl, _⟩ := Tree.walkAll_prefix inner
    simp only [Option.map_some, Option.getD_some, Tree.rawAll_cons, Tree.raw_node,
      Tree.rawAll_append, Token.join_append, Text.size_append]
    omega

end Stack

end MarkdownEditing
