import MarkdownEditing.Proofs.Syntax.Alike
import MarkdownEditing.Proofs.Syntax.Appending

namespace MarkdownEditing

open Token (Aligned)

namespace Container

/-- Containers of one kind. The content of items may begin at different columns. -/
inductive Alike : Container → Container → Prop
  | quote : Alike .quote .quote
  | list (style : ListStyle) : Alike (.list style) (.list style)
  | item (column column' : Nat) : Alike (.item column) (.item column')

theorem Alike.kind_eq {x y : Container} (alike : x.Alike y) : x.kind = y.kind := by
  cases alike <;> rfl

end Container

structure Layer.Alike (l l' : Layer) : Prop where
  container : l.container.Alike l'.container
  before : Tree.Aligned l.before l'.before

namespace Stack

/-- The same blocks are open and finished, over tokens that are the same but for numbers. -/
structure Alike (s s' : Stack) : Prop where
  layers : List.Forall₂ Layer.Alike s.layers s'.layers
  done : Tree.Aligned s.done s'.done
  leaf : Option.Rel (fun a b => a.1 = b.1 ∧ Tree.Aligned a.2 b.2) s.leaf s'.leaf

variable {s s' : Stack} {c c' : Cursor} {trees trees' : List Tree}
  {tokens tokens' ending : List Token} {start : BlockStart} {x y : Container}

theorem getElem?_rel {α β : Type} {related : α → β → Prop} {xs : List α} {ys : List β}
    (all : List.Forall₂ related xs ys) (i : Nat) : Option.Rel related xs[i]? ys[i]? := by
  induction all generalizing i with
  | nil => exact .none
  | cons first _ ih =>
    cases i with
    | zero => exact .some first
    | succ i => exact ih i

theorem alike_empty : empty.Alike empty := ⟨.nil, .nil, .none⟩

theorem Alike.forall_container_alike (alike : s.Alike s') :
    List.Forall₂ Container.Alike s.containers s'.containers := by
  rw [Stack.containers, Stack.containers, List.forall₂_reverse_iff, List.forall₂_map_left_iff,
    List.forall₂_map_right_iff]
  exact alike.layers.imp fun _ _ layer => layer.container

theorem Alike.length_eq (alike : s.Alike s') : s.layers.length = s'.layers.length :=
  alike.layers.length_eq

theorem Alike.leaf_none (alike : s.Alike s') (closed : s.leaf = none) : s'.leaf = none := by
  have leaf := alike.leaf
  rw [closed] at leaf
  cases other : s'.leaf with
  | none => rfl
  | some held =>
    rw [other] at leaf
    cases leaf

theorem Alike.emit (alike : s.Alike s') (same : Tree.Aligned trees trees') :
    (s.emit trees).Alike (s'.emit trees') := by
  obtain ⟨layers, done, leaf⟩ := s
  obtain ⟨layers', done', leaf'⟩ := s'
  obtain ⟨above, inside, held⟩ := alike
  cases held with
  | none => exact ⟨above, inside.append same, .none⟩
  | some both => exact ⟨above, inside, .some ⟨both.1, both.2.append same⟩⟩

theorem Alike.closeLeaf (alike : s.Alike s') : s.closeLeaf.Alike s'.closeLeaf := by
  obtain ⟨layers, done, leaf⟩ := s
  obtain ⟨layers', done', leaf'⟩ := s'
  obtain ⟨above, inside, held⟩ := alike
  cases held with
  | none => exact ⟨above, inside, .none⟩
  | @some a b both =>
    obtain ⟨leaf, held⟩ := a
    obtain ⟨leaf', held'⟩ := b
    obtain ⟨same, both⟩ := both
    cases same
    exact ⟨above, inside.append (Tree.aligned_node leaf.kind both), .none⟩

theorem Alike.push (alike : s.Alike s') (same : x.Alike y) : (s.push x).Alike (s'.push y) :=
  ⟨.cons ⟨same, alike.done⟩ alike.layers, Tree.aligned_nil, .none⟩

theorem Alike.pop (alike : s.Alike s') : s.pop.Alike s'.pop := by
  have closed := alike.closeLeaf
  rw [Stack.pop, Stack.pop]
  generalize s.closeLeaf = s at closed
  generalize s'.closeLeaf = s' at closed
  obtain ⟨layers, done, leaf⟩ := s
  obtain ⟨layers', done', leaf'⟩ := s'
  obtain ⟨above, inside, held⟩ := closed
  dsimp only at above inside held
  cases above with
  | nil => exact ⟨.nil, inside, held⟩
  | @cons l l' _ _ layer above =>
    dsimp only
    rw [layer.container.kind_eq]
    exact ⟨above, layer.before.append (Tree.aligned_node _ inside), .none⟩

theorem Alike.popMany (alike : s.Alike s') (n : Nat) : (s.popMany n).Alike (s'.popMany n) := by
  induction n generalizing s s' with
  | zero => exact alike
  | succ n ih => exact ih alike.pop

theorem Alike.inList (alike : s.Alike s') (style : ListStyle) :
    s.inList style = s'.inList style := by
  obtain ⟨layers, done, leaf⟩ := s
  obtain ⟨layers', done', leaf'⟩ := s'
  obtain ⟨above, _, _⟩ := alike
  cases above with
  | nil => rfl
  | @cons l l' _ _ layer _ =>
    obtain ⟨x, before⟩ := l
    obtain ⟨y, before'⟩ := l'
    obtain ⟨same, _⟩ := layer
    cases same <;> rfl

theorem Alike.push_list (alike : s.Alike s') (style : ListStyle) :
    (if s.inList style then s else s.push (.list style)).Alike
      (if s'.inList style then s' else s'.push (.list style)) := by
  rw [alike.inList]
  split
  · exact alike
  · exact alike.push (.list style)

theorem Alike.closeAfter (alike : s.Alike s') (count : Nat) (start : BlockStart) :
    (s.closeAfter count start).Alike (s'.closeAfter count start) := by
  have here := getElem?_rel alike.forall_container_alike count
  unfold Stack.closeAfter
  rw [alike.length_eq]
  generalize s.containers[count]? = x at here
  generalize s'.containers[count]? = y at here
  cases here with
  | none => exact alike.popMany _
  | some same => cases same <;> exact alike.popMany _

theorem Alike.openLeaf (alike : s.Alike s') (start : BlockStart)
    (same : Aligned tokens tokens') (ending : List Token) :
    (s.openLeaf start tokens ending).Alike (s'.openLeaf start tokens' ending) := by
  have ended := Tree.aligned_leaves (Token.aligned_refl ending)
  have paragraph : Alike
      { s with leaf := some (.paragraph, Inline.parse tokens ++ ending.map Tree.leaf) }
      { s' with leaf := some (.paragraph, Inline.parse tokens' ++ ending.map Tree.leaf) } :=
    ⟨alike.layers, alike.done, .some ⟨rfl, (Tree.aligned_parse same).append ended⟩⟩
  cases start with
  | blank => exact alike.emit ended
  | heading level =>
    exact alike.emit (Tree.aligned_node _ (((Tree.aligned_glue _ (same.take _)).append
      (Tree.aligned_parse (same.drop _))).append ended))
  | thematicBreak =>
    exact alike.emit (Tree.aligned_node _ ((Tree.aligned_leaves same).append ended))
  | fence mark length =>
    exact ⟨alike.layers, alike.done, .some ⟨rfl, ((Tree.aligned_glue _ (same.take _)).append
      (Tree.aligned_leaves (same.drop _))).append ended⟩⟩
  | quote | item _ _ | text => exact paragraph

theorem Alike.finish_aligned (alike : s.Alike s') : Tree.Aligned s.finish s'.finish := by
  rw [Stack.finish, Stack.finish, alike.length_eq]
  exact (alike.closeLeaf.popMany _).done

theorem Alike.raw_aligned (alike : s.Alike s') : Aligned s.raw s'.raw := by
  obtain ⟨layers, done, leaf⟩ := s
  obtain ⟨layers', done', leaf'⟩ := s'
  obtain ⟨above, inside, held⟩ := alike
  dsimp only at above inside held
  have around : Aligned (rawLayers layers) (rawLayers layers') := by
    induction above with
    | nil => exact .nil
    | cons layer _ ih => exact Token.Aligned.append ih layer.before.raw
  have leaf_raw : Aligned ((leaf.map fun leaf => Tree.rawAll leaf.2).getD [])
      ((leaf'.map fun leaf => Tree.rawAll leaf.2).getD []) := by
    cases held with
    | none => exact .nil
    | some both => exact both.2.raw
  exact (Token.Aligned.append around inside.raw).append leaf_raw

end Stack

end MarkdownEditing
