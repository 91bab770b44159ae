import MarkdownEditing.Proofs.Markup.Items
import MarkdownEditing.Proofs.Syntax.Beginnings
import MarkdownEditing.Proofs.Syntax.Standing

namespace MarkdownEditing

namespace Stack

variable {s : Stack} {layer item : Layer} {inner outer : List Layer} {style : ListStyle}
  {bare : Bool} {c : Cursor} {tokens : List Token}

theorem popMany_append (closed : s.leaf = none) (shape : s.layers = inner ++ layer :: outer) :
    ∃ held, s.popMany (inner.length + 1) =
      ⟨outer, layer.before ++ [.node layer.container.kind held], none⟩ := by
  have left : (s.popMany inner.length).layers = layer :: outer := by
    rw [layers_popMany, shape, List.drop_left]
  exact ⟨_, (popMany_succ s inner.length).trans (pop_of_layers (leaf_popMany closed _) left)⟩

@[simp] theorem layers_openLeaf (s : Stack) (start : BlockStart) (tokens ending : List Token) :
    (s.openLeaf start tokens ending).layers = s.layers := by
  cases start <;> first | exact layers_emit _ _ | rfl

theorem layers_openBlocks (s : Stack) (c : Cursor) (ending : List Token) :
    ∃ front, (s.openBlocks c ending).layers = front ++ s.layers := by
  fun_induction openBlocks s c ending with
  | case1 s c led t ts shape quote next opened ih =>
    obtain ⟨front, layers⟩ := ih
    exact ⟨front ++ [⟨.quote, led.done⟩], by rw [layers]; simp [opened, led, push]⟩
  | case2 s c led style bare t ts shape item marker column rest next listed opened ih =>
    obtain ⟨front, layers⟩ := ih
    have in_list : ∃ lists, listed.layers = lists ++ s.layers := by
      by_cases open_list : led.inList style = true
      · exact ⟨[], by simp [listed, open_list, led]⟩
      · exact ⟨[⟨.list style, led.done⟩], by simp [listed, open_list, led, push]⟩
    obtain ⟨lists, same⟩ := in_list
    refine ⟨front ++ ⟨.item next.base, listed.done⟩ :: lists, ?_⟩
    rw [layers]
    simp [opened, same, push]
  | case3 s c led no_quote no_item => exact ⟨[], by simp [led]⟩

theorem openBlocks_item (ending : List Token)
    (starts : BlockStart.ofCursor c.skipBlank = .item style bare)
    (inside : s.inList style = true) (closed : s.leaf = none) :
    ∃ front column, (s.openBlocks c ending).layers =
      front ++ ⟨.item column, s.done ++ c.blank.map Tree.leaf⟩ :: s.layers := by
  have reads := BlockStart.ofCursor_reads c.skipBlank
  rw [starts] at reads
  cases left : c.skipBlank.rest with
  | nil => exact absurd left reads.ne_nil
  | cons t ts =>
    rw [openBlocks]
    split
    · rename_i quote _
      rw [starts] at quote
      cases quote
    · rename_i style' bare' t' ts' starts' left'
      rw [starts] at starts'
      cases starts'
      have still : (s.emit (c.blank.map Tree.leaf)).inList style = true := by
        rw [inList_iff, layers_emit, ← inList_iff]
        exact inside
      rw [if_pos still]
      obtain ⟨front, layers⟩ := layers_openBlocks _ _ ending
      rw [layers, layers_emit, push, layers_emit, emit_of_none closed]
      exact ⟨front, _, rfl⟩
    · rename_i no_item
      exact absurd left (no_item style bare t ts starts)

/-- A line that goes on with what is around an open list, and begins an item of its style, closes the
open item of the list and puts the next one behind it. -/
theorem addLine_item (ending : List Token) {before : List Tree}
    (shape : s.layers = inner ++ item :: ⟨.list style, before⟩ :: outer)
    (count : (Continuation.ofLine s.containers ⟨tokens, 0, 0⟩).count = outer.length)
    (starts : BlockStart.ofCursor
      (Continuation.ofLine s.containers ⟨tokens, 0, 0⟩).cursor.skipBlank = .item style bare) :
    ∃ front column held,
      rawLayers (⟨.item column, item.before ++ [.node item.container.kind held]⟩ ::
        ⟨.list style, before⟩ :: outer) = s.raw ∧
      (s.addLine tokens ending).layers = front ++
        ⟨.item column, item.before ++ .node item.container.kind held ::
          ((Continuation.ofLine s.containers ⟨tokens, 0, 0⟩).lead ++
            (Continuation.ofLine s.containers ⟨tokens, 0, 0⟩).cursor.blank.map Tree.leaf)⟩ ::
          ⟨.list style, before⟩ :: outer := by
  have length : s.layers.length = inner.length + 1 + (outer.length + 1) := by
    rw [shape, List.length_append, List.length_cons, List.length_cons]
    omega
  have here : s.containers[outer.length]? = some (.list style) := by
    have index : s.layers.length - 1 - outer.length = inner.length + 1 := by omega
    rw [containers_getElem? (by omega), index, shape, List.getElem?_append_right (by omega),
      Nat.add_sub_cancel_left]
    rfl
  generalize read : Continuation.ofLine s.containers ⟨tokens, 0, 0⟩ = c at count starts
  -- the line does not go on with the open leaf, as the open item ends
  have ends : s.goesOn c = false := by
    have some_ended : (c.count == s.layers.length) = false := by
      rw [beq_eq_false_iff_ne]
      omega
    unfold goesOn
    simp only [starts, some_ended, continuesParagraph, Bool.and_false]
    split <;> rfl
  have closed : s.closeLeaf.closeAfter outer.length (.item style bare) =
      s.closeLeaf.popMany (inner.length + 1) := by
    have left : s.layers.length - (outer.length + 1) = inner.length + 1 := by omega
    simp only [closeAfter, containers_closeLeaf, here, if_true, layers_closeLeaf, left]
  have layers : s.closeLeaf.layers = inner ++ item :: ⟨.list style, before⟩ :: outer := by
    rw [layers_closeLeaf, shape]
  obtain ⟨held, popped⟩ := popMany_append (leaf_closeLeaf s) layers
  rw [addLine_of_ends read ending ends, cutBack, starts, count, closed, popped]
  obtain ⟨front, column, opened⟩ := @openBlocks_item (Stack.emit
    ⟨⟨.list style, before⟩ :: outer, item.before ++ [.node item.container.kind held], none⟩ c.lead)
    _ _ _ ending starts (by rw [inList_iff, layers_emit]; rfl) (leaf_emit_eq_none rfl _)
  refine ⟨front, column, held, ?_, opened.trans ?_⟩
  · rw [← raw_closeLeaf s, ← raw_popMany s.closeLeaf (inner.length + 1), popped]
    simp [raw, rawLayers]
  · rw [layers_emit, emit_of_none rfl]
    simp only [List.append_assoc, List.cons_append, List.nil_append]

end Stack

namespace Place

variable {kind : Kind} {start pos : Nat} {above : List Level} {left front us : List Tree}
  {leaves : List Tree} {a b : Tree} {l : Place}

theorem filter_neighbours (none_node : ∀ c ∈ leaves, c.isNode = false) :
    (neighbours kind start above left pos (leaves ++ us)).filter
        (fun p => p.isNode && p.kind == .listItem) =
      (neighbours kind start above (leaves.reverse ++ left) (pos + Tree.sizeAll leaves) us).filter
        fun p => p.isNode && p.kind == .listItem := by
  induction leaves generalizing left pos with
  | nil => rfl
  | cons c leaves ih =>
    obtain ⟨single, later⟩ := List.forall_mem_cons.mp none_node
    rw [List.cons_append, neighbours, List.filter_cons_of_neg (by simp [isNode, single]), ih later,
      Tree.sizeAll, Nat.add_assoc, List.reverse_cons, List.append_assoc, List.singleton_append]

theorem followingItems_childAfter (none_node : ∀ c ∈ leaves, c.isNode = false)
    (item : b.isNode = true ∧ b.kind = .listItem) :
    (l.childAfter kind front a (leaves ++ b :: us)).followingItems.head? =
      some (l.childAfter kind (front ++ a :: leaves) b us) := by
  have behind : l.start + Tree.sizeAll front + a.size + Tree.sizeAll leaves =
      l.start + Tree.sizeAll (front ++ a :: leaves) := by
    simp only [Tree.sizeAll_eq, Tree.size_eq, Tree.rawAll_append, Tree.rawAll_cons,
      Token.join_append, Text.size_append, Tree.text]
    omega
  have before : leaves.reverse ++ a :: front.reverse = (front ++ a :: leaves).reverse := by simp
  rw [followingItems, following]
  dsimp only [childAfter, Place.stop]
  rw [filter_neighbours none_node, behind, before, neighbours,
    List.filter_cons_of_pos (by simpa [isNode, Place.kind] using item)]
  rfl

end Place

namespace Stack

open Place (Stands)

variable {s : Stack} {outer : List Container} {style : ListStyle} {column start : Nat} {bare : Bool}
  {tokens ending : List Token} {ts : List Tree} {more : List Visit}

/-- An item is open that begins at offset `start` and has its content at `column`, in a list of style
`style` inside the containers `outer`, outermost first. -/
def OpenItem (s : Stack) (outer : List Container) (style : ListStyle) (column start : Nat) : Prop :=
  ∃ inner before above layers,
    s.layers = inner ++ ⟨.item column, before⟩ :: ⟨.list style, above⟩ :: layers ∧
      outer = (layers.map Layer.container).reverse ∧
      start = Text.size
        (Token.join (rawLayers (⟨.item column, before⟩ :: ⟨.list style, above⟩ :: layers)))

/-- Where the line after an open item begins the next item of the same list, the two stand next to
each other in every tree that goes on from there. -/
theorem next_item (walk : (Tree.node .root ts).walk = (s.addLine tokens ending).walk ++ more)
    (opened : s.OpenItem outer style column start)
    (count : (Continuation.ofLine s.containers ⟨tokens, 0, 0⟩).count = outer.length)
    (starts : BlockStart.ofCursor
      (Continuation.ofLine s.containers ⟨tokens, 0, 0⟩).cursor.skipBlank = .item style bare) :
    ∃ l p q : Place, l.In (.node .root ts) ∧ l.kind = style.listKind ∧ p ∈ l.items ∧
      p.start = start ∧ p.followingItems.head? = some q ∧
      q.start = Text.size (Token.join s.raw) + Text.size (Token.join
        (Tree.rawAll (Continuation.ofLine s.containers ⟨tokens, 0, 0⟩).lead ++
          (Continuation.ofLine s.containers ⟨tokens, 0, 0⟩).cursor.blank)) ∧
      Text.size (Token.join (s.raw ++ (tokens ++ ending))) ≤ q.stop := by
  obtain ⟨inner, before, above, layers, shape, rfl, begins⟩ := opened
  rw [List.length_reverse, List.length_map] at count
  obtain ⟨_, single⟩ := Continuation.ofLine_spec s.containers ⟨tokens, 0, 0⟩
  obtain ⟨front, column', held, raw, pushed⟩ := addLine_item ending shape count starts
  generalize Continuation.ofLine s.containers ⟨tokens, 0, 0⟩ = c at *
  obtain ⟨innermost, _, _, deepest, _, reach⟩ := stands_of_walk walk
  have inside := deepest.place_in
  rw [pushed] at deepest
  obtain ⟨q, stands, around⟩ := deepest.exists_ancestor
  have q_reach := (Place.span_of_ancestor inside around).2
  have none_node : ∀ tree ∈ c.lead ++ c.cursor.blank.map Tree.leaf, tree.isNode = false :=
    List.forall_mem_append.mpr
      ⟨fun tree member => (spare_lead single tree member).1, Tree.leaf_leaves _⟩
  -- the open item and the new one are children of the list that stands at the second layer
  cases stands with
  | @layer _ _ l kind cs us stands shape =>
    have list_start := stands.start_eq
    dsimp only at shape
    rw [List.append_assoc, List.cons_append] at shape
    refine ⟨l, _, _, stands.place_in, stands.kind_eq,
      List.mem_filter.mpr ⟨Place.childAfter_mem shape, rfl⟩, ?_,
      Place.followingItems_childAfter none_node ⟨rfl, rfl⟩, ?_, ?_⟩
    · simp only [begins, Place.childAfter, list_start, rawLayers, Tree.sizeAll_eq, Token.join_append,
        Text.size_append]
    · rw [Place.childAfter, list_start, ← raw]
      simp only [rawLayers, Tree.sizeAll_eq, Tree.rawAll_append, Tree.rawAll_cons,
        Tree.rawAll_nil, Tree.rawAll_map_leaf, Token.join_append, Text.size_append,
        List.append_nil]
      omega
    · rw [← raw_addLine]
      exact Nat.le_trans reach q_reach

/-- Where a line begins the next item of an open list, an item of this list is open. -/
theorem NextItem.exists_openItem (between : s.Between) {c : Continuation}
    (next : s.NextItem c style bare) :
    ∃ outer column start, s.OpenItem outer style column start ∧ c.count = outer.length := by
  have here := next.1
  obtain ⟨inside, _⟩ := List.getElem?_eq_some_iff.mp here
  rw [length_containers] at inside
  rw [containers_getElem? inside] at here
  obtain ⟨⟨_, above⟩, found, rfl⟩ := Option.map_eq_some_iff.mp here
  obtain ⟨bound, same⟩ := List.getElem?_eq_some_iff.mp found
  have shape := List.take_append_drop (s.layers.length - 1 - c.count) s.layers
  rw [List.drop_eq_getElem_cons bound, same] at shape
  have chain := between.holds.isChain
  have top := between.top
  have length := congrArg List.length shape
  rw [List.length_append, List.length_cons, List.length_take] at length
  generalize s.layers.drop (s.layers.length - 1 - c.count + 1) = layers at shape length
  rcases List.eq_nil_or_concat (s.layers.take (s.layers.length - 1 - c.count)) with
    none_open | ⟨inner, item, front⟩
  · rw [none_open, List.nil_append] at shape
    rw [← shape] at top
    cases top
  · rw [front, List.concat_eq_append, List.append_assoc, List.singleton_append] at shape
    rw [← shape, List.map_append, List.map_cons, List.map_cons] at chain
    obtain ⟨column, is_item⟩ :=
      (List.isChain_cons_cons.mp chain.right_of_append).1 style rfl
    obtain ⟨container, before⟩ := item
    cases is_item
    refine ⟨_, column, _, ⟨inner, before, above, layers, shape.symm, rfl, rfl⟩, ?_⟩
    rw [List.length_reverse, List.length_map]
    omega

theorem between_scan (t : Text) : (empty.lines (Token.scan t)).Between := by
  have begun : empty.Between := by
    refine ⟨Tree.Body.nil, rfl, by rintro _ _ ⟨⟩, ?_⟩
    rintro _ style ⟨last, found, _⟩
    cases found
  exact begun.lines fun token member => Token.raw_of_mem_scan member

theorem size_walk_scan (t : Text) : (Visit.text (empty.lines (Token.scan t)).walk).size = t.size := by
  rw [text_walk, raw_lines]
  exact congrArg Text.size (Token.join_scan t)

end Stack

namespace Token

def firstLine (t : Text) : List Token := (scan t).takeWhile (·.kind != .newline)

end Token

namespace Visit

variable {a b before after : List Visit} {visit : Visit}

theorem append_cons_of_size (same : before ++ visit :: after = a ++ b)
    (less : (text before).size < (text a).size) : ∃ later, a = before ++ visit :: later := by
  rcases List.append_eq_append_iff.mp same with ⟨mid, rfl, rest⟩ | ⟨mid, rfl, rest⟩
  · cases mid with
    | nil =>
      rw [List.append_nil] at less
      exact absurd less (Nat.lt_irrefl _)
    | cons first mid =>
      obtain ⟨rfl, _⟩ := List.cons.inj rest
      exact ⟨mid, rfl⟩
  · rw [text_append, Text.size_append] at less
    omega

end Visit

namespace Tree

open Stack (empty)
open Token (scan firstLine)

variable {a b : Text} {l p q : Place} {start : Nat}

def continued (a b : Text) : Continuation :=
  Continuation.ofLine (empty.lines (scan a)).containers ⟨firstLine b, 0, 0⟩

theorem continued_parts (a b : Text) :
    rawAll (continued a b).lead ++ (continued a b).cursor.rest = firstLine b :=
  (Continuation.ofLine_spec _ _).1

theorem walk_of_line (ends : a = [] ∨ a.getLast? = some '\n') (some_text : b ≠ []) :
    ∃ ending more, (ofText (a ++ b)).walk =
      ((empty.lines (scan a)).addLine (firstLine b) ending).walk ++ more := by
  have read : empty.lines (scan (a ++ b)) = (empty.lines (scan a)).lines (scan b) := by
    rw [Token.scan_append ends, Stack.lines_append _ (Token.scan_ends ends)]
  cases tokens : scan b with
  | nil =>
    have join := Token.join_scan b
    rw [tokens] at join
    exact absurd join.symm some_text
  | cons t ts =>
    rw [tokens, Stack.lines] at read
    obtain ⟨more, walk, _⟩ := (Stack.extends_lines ((empty.lines (scan a)).line (t :: ts)).1
      ((empty.lines (scan a)).line (t :: ts)).2).walk_finish
    rw [← read] at walk
    rw [firstLine, tokens]
    exact ⟨_, more, walk⟩

/-- An item that begins behind the lines `a` is entered after they are read: their last visit is not
the item's, as its mark would follow. -/
theorem enter_behind {before more later : List Visit}
    (walk : before ++ .enter .listItem :: later = (empty.lines (scan a)).walk ++ more)
    (low : a.size ≤ (Visit.text before).size) :
    ∃ mid rest, before = (empty.lines (scan a)).walk ++ mid ∧
      more = mid ++ .enter .listItem :: rest := by
  rcases List.append_eq_append_iff.mp walk with ⟨mid, same, rest⟩ | ⟨mid, same, rest⟩
  · cases mid with
    | nil => exact ⟨[], later, by rw [same, List.append_nil, List.append_nil], rest.symm⟩
    | cons visit mid =>
      obtain ⟨rfl, _⟩ := List.cons.inj rest
      obtain ⟨_, raw, _, rfl, mark⟩ := Stack.led_scan a _ _ _ same
      have some_bytes := Text.size_pos mark.ne_nil
      have size := Stack.size_walk_scan a
      rw [same, Visit.text_append, Visit.text_enter, Visit.text_leaf, Text.size_append,
        Text.size_append] at size
      omega
  · exact ⟨mid, later, same, rest⟩

theorem holds_of_begins {p : List Visit → Prop} (ends : a = [] ∨ a.getLast? = some '\n')
    (some_text : b ≠ []) (inside : q.In (ofText (a ++ b))) (item : q.isNode = true ∧ q.kind = .listItem)
    (low : a.size ≤ q.start) (high : q.start < a.size + Text.size (Token.join (firstLine b)))
    (begun : ∀ ending, (empty.lines (scan a)).Begins
      ((empty.lines (scan a)).addLine (firstLine b) ending) p) : p (Place.before q.above) := by
  obtain ⟨ending, more, walk⟩ := walk_of_line ends some_text
  obtain ⟨added, line_walk, begins⟩ := begun ending
  have size := Stack.size_walk_scan a
  have start := inside.size_before
  obtain ⟨tree, q_start, above⟩ := q
  obtain ⟨isNode, kind⟩ := item
  cases tree with
  | token => cases isNode
  | node kind' ts =>
    cases kind
    have here := inside.walk_eq
    rw [walk_node, List.append_assoc, List.cons_append, walk] at here
    obtain ⟨later, line⟩ := Visit.append_cons_of_size here.symm (by
      rw [Stack.text_walk, Stack.raw_addLine, ← List.append_assoc, Token.join_append,
        Token.join_append, Text.size_append, Text.size_append, ← Stack.text_walk, size, start]
      omega)
    rw [line_walk] at line
    obtain ⟨mid, later, before_eq, added_eq⟩ := enter_behind line.symm (by omega)
    rw [before_eq]
    exact begins mid later added_eq

/-- An item that begins on the next line, in a list that begins before, is the next one of a list that
is open. -/
theorem nextItem_of_begins (ends : a.getLast? = some '\n') (some_text : b ≠ [])
    (inside : q.In (ofText (a ++ b))) (item : q.isNode = true ∧ q.kind = .listItem)
    (parent : q.parent? = some l) (outside : l.start < a.size) (low : a.size ≤ q.start)
    (high : q.start < a.size + Text.size (Token.join (firstLine b))) :
    ∃ style bare, (empty.lines (scan a)).NextItem (continued a b) style bare ∧
      q.start = a.size + Text.size (Token.join
        (rawAll (continued a b).lead ++ (continued a b).cursor.blank)) := by
  have at_item := holds_of_begins (Or.inr ends) some_text inside item low high fun _ =>
    Stack.begins_addLine (Stack.between_scan a)
  rw [inside.size_before, Stack.size_walk_scan] at at_item
  rcases at_item with ⟨kind, list_start, around, within, late⟩ | at_item
  · rw [Place.within_before inside.starts] at within
    obtain ⟨tree, q_start, above⟩ := q
    cases above with
    | nil => cases parent
    | cons level above =>
      cases parent
      cases within
      exact absurd outside (Nat.not_lt.mpr late)
  · exact at_item

theorem size_skipBlank_pos {style : ListStyle} {bare : Bool}
    (starts : BlockStart.ofCursor (continued a b).cursor.skipBlank = .item style bare) :
    0 < Text.size (Token.join (continued a b).cursor.skipBlank.rest) := by
  have reads := BlockStart.ofCursor_reads (continued a b).cursor.skipBlank
  rw [starts] at reads
  cases left : (continued a b).cursor.skipBlank.rest with
  | nil => exact absurd left reads.ne_nil
  | cons t ts =>
    have of_line : t ∈ (continued a b).cursor.rest := Cursor.mem_of_mem_skipBlank (by rw [left]; simp)
    have scanned : t ∈ firstLine b := by
      rw [← continued_parts a b]
      exact List.mem_append_right _ of_line
    have some_bytes := Text.size_pos
      (Token.text_ne_nil_of_mem_scan ((List.takeWhile_sublist _).mem scanned))
    rw [Token.join_cons, Text.size_append]
    omega

/-- Where the line behind complete lines goes on with what is around the list of an open item, and
then begins an item of the list's style, this item stands next to the open one. -/
theorem next_of_starts {outer : List Container} {style : ListStyle} {column : Nat} {bare : Bool}
    (ends : a.getLast? = some '\n') (some_text : b ≠ [])
    (opened : (empty.lines (scan a)).OpenItem outer style column start)
    (count : (continued a b).count = outer.length)
    (starts : BlockStart.ofCursor (continued a b).cursor.skipBlank = .item style bare) :
    ∃ l p q : Place, l.In (ofText (a ++ b)) ∧ l.kind = style.listKind ∧ p ∈ l.items ∧
      p.start = start ∧ p.followingItems.head? = some q ∧ a.size ≤ q.start ∧
      q.start + Text.size (Token.join (continued a b).cursor.skipBlank.rest) =
        a.size + Text.size (Token.join (firstLine b)) ∧
      a.size + Text.size (Token.join (firstLine b)) ≤ q.stop := by
  obtain ⟨ending, more, walk⟩ := walk_of_line (Or.inr ends) some_text
  have size := Stack.size_walk_scan a
  rw [Stack.text_walk] at size
  obtain ⟨l, p, q, inside, kind, member, same, next, q_start, reach⟩ :=
    Stack.next_item walk opened count starts
  have split := congrArg (Text.size ∘ Token.join) (continued_parts a b)
  rw [← Cursor.blank_append] at split
  simp only [Function.comp_apply, Token.join_append, Text.size_append] at split
  rw [size, Token.join_append, Text.size_append] at q_start
  simp only [Token.join_append, Text.size_append, size] at reach
  refine ⟨l, p, q, inside, kind, member, same, next, by omega, ?_, by omega⟩
  have here : q.start = a.size + (Text.size (Token.join (rawAll (continued a b).lead)) +
      Text.size (Token.join (continued a b).cursor.blank)) := q_start
  omega

/-- Behind complete lines with an open item stands its next sibling, on the next line, exactly when
that line goes on with what is around the item's list and then begins an item of its style. -/
theorem next_item_iff (ends : a.getLast? = some '\n') (some_text : b ≠ [])
    (before : start < a.size) :
    (∃ l p q : Place, l.In (ofText (a ++ b)) ∧ p ∈ l.items ∧ p.start = start ∧
        p.followingItems.head? = some q ∧ a.size ≤ q.start ∧
        q.start < a.size + Text.size (Token.join (firstLine b))) ↔
      ∃ outer style column bare,
        (empty.lines (scan a)).OpenItem outer style column start ∧
          (continued a b).count = outer.length ∧
          BlockStart.ofCursor (continued a b).cursor.skipBlank = .item style bare := by
  obtain ⟨ending, more, walk⟩ := walk_of_line (Or.inr ends) some_text
  have size := Stack.size_walk_scan a
  rw [Stack.text_walk] at size
  constructor
  · rintro ⟨l, p, q, inside, member, rfl, next, low, high⟩
    obtain ⟨q_member, _, _⟩ := inside.next_item member next
    obtain ⟨q_inside, item⟩ := inside.of_mem_items q_member
    have outside := (Place.span_of_mem_children (List.mem_filter.mp member).1).1
    obtain ⟨style, bare, next_item, q_start⟩ := nextItem_of_begins ends some_text q_inside item
      (Place.isNode_of_mem_items q_member).2 (by omega) low high
    obtain ⟨outer, column, start, opened, count⟩ := next_item.exists_openItem (Stack.between_scan a)
    -- the open item and what follows it are `p` and `q`: no other item begins where `q` does
    obtain ⟨l', p', q', inside', _, member', start', next', q_start', _⟩ :=
      Stack.next_item walk opened count next_item.2
    obtain ⟨q_member', _, _⟩ := inside'.next_item member' next'
    obtain ⟨q_inside', item'⟩ := inside'.of_mem_items q_member'
    obtain rfl : q' = q := q_inside'.item_eq q_inside item' item (by
      rw [q_start', q_start, size]
      rfl)
    have parent := (Place.isNode_of_mem_items q_member').2
    rw [(Place.isNode_of_mem_items q_member).2] at parent
    cases parent
    obtain rfl := inside.item_before member member' next next'
    rw [start']
    exact ⟨outer, style, column, bare, opened, count, next_item.2⟩
  · rintro ⟨outer, style, column, bare, opened, count, starts⟩
    obtain ⟨l, p, q, inside, _, member, same, next, low, high, _⟩ :=
      next_of_starts ends some_text opened count starts
    have some_bytes := size_skipBlank_pos starts
    exact ⟨l, p, q, inside, member, same, next, low, by omega⟩

end Tree

end MarkdownEditing
