import MarkdownEditing.Markup.Renumber
import MarkdownEditing.Proofs.Markup.Agreement
import MarkdownEditing.Proofs.Markup.Numbers
import MarkdownEditing.Proofs.Syntax.Order

namespace MarkdownEditing

namespace Place

variable {t : Text} {lineBreak : LineBreak} {p q c list : Place}

def items (list : Place) : List Place :=
  list.children.filter fun p => p.isNode && p.kind == .listItem

theorem parent?_of_mem_children (member : c ∈ p.children) : c.parent? = some p := by
  have above := ancestors_of_mem_children member
  obtain ⟨tree, start, levels⟩ := c
  cases levels with
  | nil => simp [ancestors, around] at above
  | cons level levels =>
    simp only [ancestors, around, List.cons.injEq, true_and] at above
    exact congrArg some above.1

theorem neighbours_split {kind : Kind} {start pos : Nat} {above : List Level} {left ts : List Tree}
    (member : c ∈ neighbours kind start above left pos ts) :
    ∃ front, neighbours kind start above left pos ts = front ++ c :: c.following := by
  induction ts generalizing left pos with
  | nil => cases member
  | cons t ts ih =>
    rcases List.mem_cons.mp member with rfl | member
    · exact ⟨[], rfl⟩
    · obtain ⟨front, split⟩ := ih member
      exact ⟨_ :: front, by rw [neighbours, split]; rfl⟩

theorem items_split (member : p ∈ list.items) :
    ∃ front, list.items = front ++ p :: p.followingItems := by
  obtain ⟨child, item⟩ := List.mem_filter.mp member
  obtain ⟨front, split⟩ : ∃ front, list.children = front ++ p :: p.following := by
    unfold children at child ⊢
    split at child
    · cases child
    · exact neighbours_split child
  refine ⟨front.filter fun p => p.isNode && p.kind == .listItem, ?_⟩
  rw [items, split, List.filter_append, List.filter_cons, if_pos item]
  rfl

theorem items_apart (list : Place) : list.items.Pairwise fun p q => p.stop ≤ q.start :=
  list.children_apart.filter _

theorem isNode_of_mem_items (member : p ∈ list.items) :
    p.isNode = true ∧ p.parent? = some list := by
  obtain ⟨child, item⟩ := List.mem_filter.mp member
  rw [Bool.and_eq_true] at item
  exact ⟨item.1, parent?_of_mem_children child⟩

structure IsNumbered (p : Place) (digits : Text) (glyph : Char) : Prop where
  listed : ∃ list, p.parent? = some list ∧ list.kind = .orderedList
  shape : ∃ raw rest, p.tree = .node .listItem (.token .listMark raw :: rest) ∧
    Token.join raw = digits ++ [glyph]
  some_digit : digits ≠ []
  short : digits.length ≤ 9
  all : digits.all Char.isDigit = true
  delimiter : glyph = '.' ∨ glyph = ')'

theorem In.exists_isNumbered (inside : p.In (Tree.ofText t)) (isNode : p.isNode = true)
    (item : p.kind = .listItem) (parent : p.parent? = some list)
    (ordered : list.kind = .orderedList) : ∃ digits glyph, p.IsNumbered digits glyph := by
  obtain ⟨list', style, parent', kind, raw, rest, shape, marks⟩ := inside.exists_list isNode item
  rw [parent] at parent'
  cases parent'
  have number : ∀ {digits : Text}, BlockStart.isItemNumber digits = true →
      digits ≠ [] ∧ digits.length ≤ 9 ∧ digits.all Char.isDigit = true := by
    intro digits digit
    simp only [BlockStart.isItemNumber, Bool.and_eq_true, decide_eq_true_eq] at digit
    exact ⟨digit.1.1, digit.1.2, digit.2⟩
  rw [ordered] at kind
  cases style with
  | dash | star | plus => cases kind
  | period | paren =>
    obtain ⟨digits, digit, mark⟩ := marks
    obtain ⟨some_digit, short, all⟩ := number digit
    exact ⟨digits, _, ⟨list, parent, ordered⟩, ⟨raw, rest, shape, mark⟩, some_digit, short, all,
      by simp⟩

theorem In.numbered_of_mem_items (inside : list.In (Tree.ofText t))
    (ordered : list.kind = .orderedList) (member : p ∈ list.items) :
    p.In (Tree.ofText t) ∧ ∃ digits glyph, p.IsNumbered digits glyph := by
  obtain ⟨child, item⟩ := List.mem_filter.mp member
  simp only [Bool.and_eq_true, beq_iff_eq] at item
  have p_inside := inside.child child
  exact ⟨p_inside, p_inside.exists_isNumbered item.1 item.2 (parent?_of_mem_children child) ordered⟩

namespace IsNumbered

variable {digits digits' : Text} {glyph glyph' : Char}

theorem start_lt_stop (numbered : p.IsNumbered digits glyph) : p.start < p.stop := by
  obtain ⟨raw, rest, shape, mark⟩ := numbered.shape
  have some_text : 0 < (Token.join raw).size := Text.size_pos (by simp [mark])
  have size : p.tree.text.size = (Token.join raw).size + (Token.join (Tree.rawAll rest)).size := by
    rw [← Text.size_append, shape]
    simp [Tree.text]
  rw [stop_eq]
  omega

theorem isNode (numbered : p.IsNumbered digits glyph) : p.isNode = true := by
  obtain ⟨raw, rest, shape, _⟩ := numbered.shape
  rw [Place.isNode, shape]
  rfl

theorem kind_eq (numbered : p.IsNumbered digits glyph) : p.kind = .listItem := by
  obtain ⟨raw, rest, shape, _⟩ := numbered.shape
  rw [kind, shape]
  rfl

theorem exists_text (numbered : p.IsNumbered digits glyph) :
    ∃ later, p.tree.text = digits ++ [glyph] ++ later := by
  obtain ⟨raw, rest, shape, mark⟩ := numbered.shape
  refine ⟨Token.join (Tree.rawAll rest), ?_⟩
  rw [← mark, shape]
  simp [Tree.text]

theorem size_mark (numbered : p.IsNumbered digits glyph) :
    (digits ++ [glyph]).size = digits.size + 1 := by
  rw [Text.size_append]
  rcases numbered.delimiter with rfl | rfl <;> rfl

theorem isItemMarker (numbered : p.IsNumbered digits glyph) : IsItemMarker (digits ++ [glyph]) :=
  .number digits glyph numbered.some_digit numbered.all numbered.delimiter

theorem size_pos (numbered : p.IsNumbered digits glyph) : 0 < digits.size :=
  Text.size_pos numbered.some_digit

theorem exists_mark_leaf (numbered : p.IsNumbered digits glyph) {tree : Tree} (inside : p.In tree) :
    ∃ leaf ∈ (Place.root tree).leaves, leaf ∈ p.children ∧ leaf.start = p.start ∧
      leaf.stop = p.start + (digits.size + 1) ∧ leaf.kind.isMark = true := by
  obtain ⟨raw, rest, shape, mark⟩ := numbered.shape
  have first : ⟨.token .listMark raw, p.start, ⟨.listItem, p.start, [], rest⟩ :: p.above⟩ ∈
      p.children := by
    rw [children, shape]
    exact List.mem_cons_self
  refine ⟨_, leaves_of_root inside (leaves_of_child first ?_), first, rfl, ?_, rfl⟩
  · rw [leaves_eq, if_neg (by simp [Place.isNode, Tree.isNode])]
    exact List.mem_singleton_self _
  · rw [stop_eq, ← numbered.size_mark, ← mark]
    simp [Tree.text]

theorem eq_or_apart (numbered : p.IsNumbered digits glyph) (numbered' : q.IsNumbered digits' glyph')
    {tree : Tree} (inside : p.In tree) (inside' : q.In tree) :
    p = q ∨ p.start + (digits.size + 1) ≤ q.start ∨ q.start + (digits'.size + 1) ≤ p.start := by
  obtain ⟨first, member, child, start, stop, _⟩ := numbered.exists_mark_leaf inside
  obtain ⟨second, member', child', start', stop', _⟩ := numbered'.exists_mark_leaf inside'
  rcases leaves_cases member member' with before | same | behind
  · exact Or.inr (Or.inl (by omega))
  · have parent := parent?_of_mem_children child
    rw [same, parent?_of_mem_children child'] at parent
    cases parent
    exact Or.inl rfl
  · exact Or.inr (Or.inr (by omega))

theorem exists_parts (numbered : p.IsNumbered digits glyph) (inside : p.In (Tree.ofText t)) :
    ∃ before after : Text, t = before ++ (digits ++ [glyph]) ++ after ∧ before.size = p.start := by
  obtain ⟨later, text⟩ := numbered.exists_text
  have whole := inside.text_eq
  rw [Tree.text_ofText, text] at whole
  refine ⟨_, later ++ Visit.text (after p.above), ?_, inside.size_before⟩
  rw [whole]
  simp only [List.append_assoc]

theorem exists_value (numbered : p.IsNumbered digits glyph) : ∃ n, n < ItemNumber.limit ∧
    ∀ (d : Document) (before rest : Text), d.text = before ++ (digits ++ [glyph] ++ rest) →
      ItemNumber.ofItem? d before.size = some ⟨0, digits.size, n⟩ := by
  obtain ⟨n, read, small⟩ := Text.toNat?_of_digits numbered.some_digit numbered.all
  refine ⟨n, Nat.lt_of_lt_of_le small (Nat.pow_le_pow_right (by decide) numbered.short), ?_⟩
  intro d before rest text
  rw [ItemNumber.ofItem?_digits text numbered.some_digit numbered.all numbered.delimiter,
    if_pos numbered.short, read]
  rfl

/-- The frame of an item: its marker ends with the delimiter and spaces, and begins where the item
does. -/
theorem exists_frame (numbered : p.IsNumbered digits glyph) (inside : p.In (Tree.ofText t)) :
    ∃ f n, Frame.ofNode? p (Document.ofText t lineBreak) = some f ∧ f.item = some p ∧
      f.isOrdered = true ∧ f.before = [] ∧ f.glyphs = [glyph] ∧ f.after = Text.spaces n ∧
      ((Document.ofText t lineBreak).lineAt p.start).start + f.start = p.start ∧
      f.markerStop = f.start + (digits.size + 1) := by
  obtain ⟨list, parent, ordered⟩ := numbered.listed
  obtain ⟨later, text⟩ := numbered.exists_text
  obtain ⟨lead, tail, starts, found⟩ := @Frame.ofNode?_number t lineBreak p inside numbered.isNode
    numbered.kind_eq list parent ordered digits later glyph text numbered.some_digit numbered.all
    numbered.delimiter
  have is_ordered : (list.kind == .orderedList) = true := beq_iff_eq.mpr ordered
  have column : ((Document.ofText t lineBreak).lineAt p.start).start +
      (p.start - ((Document.ofText t lineBreak).lineAt p.start).start) = p.start := by
    rw [starts.start_sub]
    exact starts.start
  refine ⟨_, _, found, rfl, is_ordered, rfl, rfl, rfl, column, ?_⟩
  simp only [Frame.markerStop, Frame.ofMarker, Marker.withSpaces, Text.size_spaces]
  omega

theorem marker_eq (numbered : p.IsNumbered digits glyph) (inside : p.In (Tree.ofText t)) {f : Frame}
    (found : Frame.ofNode? p (Document.ofText t lineBreak) = some f) {n : ItemNumber}
    (read : ItemNumber.ofItem? (Document.ofText t lineBreak) p.start = some n) (add : Nat) :
    ∃ k, f.marker (Document.ofText t lineBreak) add =
      Text.ofNat (n.value + add) ++ [glyph] ++ Text.spaces k := by
  obtain ⟨f', k, found', item, ordered, before, glyphs, after, _⟩ :=
    @exists_frame t lineBreak p _ _ numbered inside
  rw [found] at found'
  cases found'
  refine ⟨k, ?_⟩
  simp only [Frame.marker, item, ordered, before, glyphs, after, read, Option.map_some,
    Option.getD_some, List.nil_append]

end IsNumbered

theorem items_sorted (inside : list.In (Tree.ofText t)) (ordered : list.kind = .orderedList) :
    list.items.Pairwise (·.start < ·.start) := by
  refine list.items_apart.imp_of_mem fun {p _} first _ apart => ?_
  obtain ⟨_, _, _, numbered⟩ := inside.numbered_of_mem_items ordered first
  exact Nat.lt_of_lt_of_le numbered.start_lt_stop apart

theorem mem_split_iff {front back : List Place}
    (sorted : (front ++ p :: back).Pairwise (·.start < ·.start)) (member : q ∈ front ++ p :: back) :
    (q ∈ front ↔ q.start < p.start) ∧ (q ∈ back ↔ p.start < q.start) := by
  obtain ⟨_, later, before⟩ := List.pairwise_append.mp sorted
  have ahead : q ∈ front → q.start < p.start := fun inside => before q inside p List.mem_cons_self
  have behind : q ∈ back → p.start < q.start := List.rel_of_pairwise_cons later
  rcases List.mem_append.mp member with inside | inside
  · have order := ahead inside
    exact ⟨iff_of_true inside order, ⟨behind, fun other => by omega⟩⟩
  · rcases List.mem_cons.mp inside with rfl | inside
    · exact ⟨⟨ahead, fun other => by omega⟩, ⟨behind, fun other => by omega⟩⟩
    · have order := behind inside
      exact ⟨⟨ahead, fun other => by omega⟩, iff_of_true inside order⟩

theorem eq_of_start (inside : list.In (Tree.ofText t)) (ordered : list.kind = .orderedList)
    (first : p ∈ list.items) (second : q ∈ list.items) (same : p.start = q.start) : p = q := by
  have sorted := items_sorted inside ordered
  obtain ⟨front, items⟩ := items_split first
  rw [items] at sorted second
  obtain ⟨before, behind⟩ := mem_split_iff sorted second
  rcases List.mem_append.mp second with ahead | later
  · exact absurd same (Nat.ne_of_gt (before.mp ahead))
  · rcases List.mem_cons.mp later with rfl | following
    · rfl
    · exact absurd same (Nat.ne_of_lt (behind.mp following))

theorem mem_followingItems_iff (inside : list.In (Tree.ofText t))
    (ordered : list.kind = .orderedList) (first : p ∈ list.items) (second : q ∈ list.items) :
    q ∈ p.followingItems ↔ p.start < q.start := by
  have sorted := items_sorted inside ordered
  obtain ⟨front, items⟩ := items_split first
  rw [items] at sorted second
  exact (mem_split_iff sorted second).2

variable {p' l : Place}

theorem In.item_mark (inside : p.In (Tree.ofText t)) (item : p.isNode = true ∧ p.kind = .listItem) :
    ∃ leaf ∈ (Place.root (Tree.ofText t)).leaves, leaf ∈ p.children ∧ leaf.start = p.start ∧
      leaf.start < leaf.stop := by
  obtain ⟨leaf, member, child, _, start, some_bytes⟩ := inside.first_leaf item.1 (Or.inr item.2)
  exact ⟨leaf, leaves_of_root inside member, child, start, some_bytes⟩

theorem In.item_eq (inside : p.In (Tree.ofText t)) (inside' : q.In (Tree.ofText t))
    (item : p.isNode = true ∧ p.kind = .listItem) (item' : q.isNode = true ∧ q.kind = .listItem)
    (same : p.start = q.start) : p = q := by
  obtain ⟨mark, member, child, start, some_bytes⟩ := inside.item_mark item
  obtain ⟨mark', member', child', start', some_bytes'⟩ := inside'.item_mark item'
  rcases leaves_cases member member' with before | here | behind
  · omega
  · have parent := parent?_of_mem_children child
    rw [here, parent?_of_mem_children child'] at parent
    exact (Option.some.inj parent).symm
  · omega

theorem In.of_mem_items (inside : l.In (Tree.ofText t)) (member : p ∈ l.items) :
    p.In (Tree.ofText t) ∧ p.isNode = true ∧ p.kind = .listItem := by
  obtain ⟨child, item⟩ := List.mem_filter.mp member
  rw [Bool.and_eq_true, beq_iff_eq] at item
  exact ⟨inside.child child, item⟩

theorem In.eq_of_mem_items {l' : Place} (inside : l.In (Tree.ofText t))
    (inside' : l'.In (Tree.ofText t)) (member : p ∈ l.items) (member' : q ∈ l'.items)
    (same : p.start = q.start) : p = q ∧ l = l' := by
  obtain ⟨p_inside, item⟩ := inside.of_mem_items member
  obtain ⟨q_inside, item'⟩ := inside'.of_mem_items member'
  obtain rfl := p_inside.item_eq q_inside item item' same
  have parent := (isNode_of_mem_items member).2
  rw [(isNode_of_mem_items member').2] at parent
  exact ⟨rfl, (Option.some.inj parent).symm⟩

theorem In.items_increase (inside : l.In (Tree.ofText t)) : l.items.Pairwise (·.start < ·.start) := by
  refine l.items_apart.imp_of_mem fun {p _} first _ apart => ?_
  obtain ⟨p_inside, item⟩ := inside.of_mem_items first
  obtain ⟨mark, _, child, start, some_bytes⟩ := p_inside.item_mark item
  have reach := (span_of_mem_children child).2
  omega

theorem In.next_item (inside : l.In (Tree.ofText t)) (member : p ∈ l.items)
    (next : p.followingItems.head? = some q) :
    q ∈ l.items ∧ p.start < q.start ∧
      ∀ p' ∈ l.items, p.start < p'.start → q.start ≤ p'.start := by
  have increase := inside.items_increase
  obtain ⟨front, items⟩ := items_split member
  cases following : p.followingItems with
  | nil =>
    rw [following] at next
    cases next
  | cons first rest =>
    rw [following] at next items
    cases next
    have listed : q ∈ l.items := by
      rw [items]
      simp
    rw [items] at increase
    refine ⟨listed, ?_, fun p' member' behind => ?_⟩
    · rw [items] at listed
      exact (mem_split_iff increase listed).2.mp List.mem_cons_self
    · rw [items] at member'
      rcases List.mem_cons.mp ((mem_split_iff increase member').2.mpr behind) with rfl | later
      · exact Nat.le_refl _
      · have tail := (List.pairwise_cons.mp (List.pairwise_append.mp increase).2.1).2
        exact Nat.le_of_lt ((List.pairwise_cons.mp tail).1 p' later)

theorem In.followingItems_eq (inside : l.In (Tree.ofText t)) (member : p ∈ l.items)
    (next : p.followingItems.head? = some q) : p.followingItems = q :: q.followingItems := by
  obtain ⟨listed, _⟩ := inside.next_item member next
  obtain ⟨rest, following⟩ := List.head?_eq_some_iff.mp next
  obtain ⟨front, items⟩ := items_split member
  obtain ⟨front', items'⟩ := items_split listed
  rw [following, ← List.singleton_append, ← List.append_assoc] at items
  have increase := inside.items_increase
  rw [items] at increase
  obtain ⟨_, behind, ahead⟩ := List.pairwise_append.mp increase
  have apart : q ∉ front ++ [p] ∧ q ∉ rest :=
    ⟨fun other => Nat.lt_irrefl _ (ahead q other q List.mem_cons_self),
      fun other => Nat.lt_irrefl _ (List.rel_of_pairwise_cons behind other)⟩
  have both := items.symm.trans items'
  rw [List.append_cons_inj_of_notMem apart.1 apart.2] at both
  rw [following, both.2.2]

theorem In.item_before (inside : l.In (Tree.ofText t)) (first : p ∈ l.items) (second : p' ∈ l.items)
    (next : p.followingItems.head? = some q) (next' : p'.followingItems.head? = some q) :
    p = p' := by
  obtain ⟨_, before, nearest⟩ := inside.next_item first next
  obtain ⟨_, before', nearest'⟩ := inside.next_item second next'
  refine (inside.eq_of_mem_items inside first second ?_).1
  rcases Nat.lt_trichotomy p.start p'.start with less | same | more
  · have := nearest p' second less
    omega
  · exact same
  · have := nearest' p first more
    omega

end Place

end MarkdownEditing
