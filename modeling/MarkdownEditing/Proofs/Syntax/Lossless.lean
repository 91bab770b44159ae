import MarkdownEditing.Proofs.Syntax.BlockStart
import MarkdownEditing.Syntax.Block.Stack

namespace MarkdownEditing

namespace Token

structure Lined (rest ending after : List Token) : Prop where
  plain : ∀ t ∈ rest, t.kind ≠ .newline
  ends : (∃ t, ending = [t] ∧ t.kind = .newline) ∨ (ending = [] ∧ after = [])

namespace Lined

variable {a b rest ending after : List Token}

theorem of_append (lined : Lined (a ++ b) ending after) : Lined b ending after :=
  ⟨fun t member => lined.plain t (List.mem_append_right a member), lined.ends⟩

theorem drop (lined : Lined rest ending after) (count : Nat) :
    Lined (rest.drop count) ending after :=
  ⟨fun t member => lined.plain t (List.mem_of_mem_drop member), lined.ends⟩

theorem takeWhile_eq (lined : Lined rest ending after) :
    (rest ++ (ending ++ after)).takeWhile (·.kind != .newline) = rest := by
  have inside : ∀ t ∈ rest, (t.kind != .newline) = true := by
    intro t member
    simpa using lined.plain t member
  rw [List.takeWhile_append_of_pos inside]
  rcases lined.ends with ⟨t, rfl, same⟩ | ⟨rfl, rfl⟩
  · simp [same]
  · simp

theorem first_line (tokens : List Token) :
    Lined (tokens.takeWhile (·.kind != .newline))
      ((tokens.drop (tokens.takeWhile (·.kind != .newline)).length).take 1)
      ((tokens.drop (tokens.takeWhile (·.kind != .newline)).length).drop 1) := by
  induction tokens with
  | nil => exact ⟨by simp, Or.inr ⟨rfl, rfl⟩⟩
  | cons t ts ih =>
    by_cases same : t.kind = .newline
    · have here : (t :: ts).takeWhile (·.kind != .newline) = [] := by simp [same]
      rw [here]
      exact ⟨by simp, Or.inl ⟨t, rfl, same⟩⟩
    · have further : (t :: ts).takeWhile (·.kind != .newline) =
          t :: ts.takeWhile (·.kind != .newline) := by simp [same]
      rw [further, List.length_cons, List.drop_succ_cons]
      refine ⟨?_, ih.ends⟩
      intro u member
      rcases List.mem_cons.mp member with rfl | member
      · exact same
      · exact ih.plain u member

end Lined

end Token

namespace Cursor

theorem blank_append (c : Cursor) : c.blank ++ c.skipBlank.rest = c.rest := by
  cases rest : c.rest with
  | nil => simp [blank, skipBlank, rest]
  | cons t ts =>
    by_cases same : t.kind = .whitespace <;> simp [blank, skipBlank, rest, same]

theorem length_skipBlank_le (c : Cursor) : c.skipBlank.rest.length ≤ c.rest.length := by
  simp [skipBlank]

theorem kind_of_mem_blank {c : Cursor} {t : Token} (member : t ∈ c.blank) :
    t.kind = .whitespace := by
  have all := List.all_eq_true.mp List.all_takeWhile t member
  simpa using all

theorem mem_of_mem_blank {c : Cursor} {t : Token} (member : t ∈ c.blank) : t ∈ c.rest := by
  rw [← c.blank_append]
  exact List.mem_append_left _ member

theorem mem_of_mem_skipBlank {c : Cursor} {t : Token} (member : t ∈ c.skipBlank.rest) :
    t ∈ c.rest := List.mem_of_mem_drop member

end Cursor

namespace Continuation

def IsLead (tree : Tree) : Prop :=
  ∃ t : Token, (tree = Tree.leaf t ∧ t.kind = .whitespace) ∨
    (tree = Tree.token .quoteMark [t] ∧ t.kind = .gt)

theorem IsLead.isLeaf {tree : Tree} (lead : IsLead tree) : tree.IsLeaf := by
  obtain ⟨t, ⟨rfl, _⟩ | ⟨rfl, _⟩⟩ := lead <;> exact ⟨_, _, List.cons_ne_nil t [], rfl⟩

theorem ofLine_spec (containers : List Container) (c : Cursor) :
    Tree.rawAll (ofLine containers c).lead ++ (ofLine containers c).cursor.rest = c.rest ∧
      ∀ tree ∈ (ofLine containers c).lead, IsLead tree := by
  induction containers generalizing c with
  | nil => simp [ofLine, stop]
  | cons container containers ih =>
    cases container with
    | quote =>
      simp only [ofLine]
      cases left : c.skipBlank.rest with
      | nil => simp [stop]
      | cons t ts =>
        dsimp only
        split
        · rename_i mark
          obtain ⟨parts, plain⟩ := ih (Cursor.afterQuoteMark c.skipBlank.column ts)
          constructor
          · have line := c.blank_append
            rw [left] at line
            simp only [Tree.rawAll_append, Tree.rawAll_map_leaf, Tree.rawAll_cons, Tree.raw_token,
              List.append_assoc, parts]
            exact line
          · intro tree member
            simp only [List.mem_append, List.mem_map, List.mem_cons] at member
            rcases member with ⟨t, blank, rfl⟩ | rfl | member
            · exact ⟨t, Or.inl ⟨rfl, Cursor.kind_of_mem_blank blank⟩⟩
            · exact ⟨t, Or.inr ⟨rfl, mark.1⟩⟩
            · exact plain tree member
        · simp [stop]
    | list style =>
      simp only [ofLine]
      split
      · simp [stop]
      · exact ih c
    | item column =>
      simp only [ofLine]
      split
      · simp [stop]
      · exact ih _

end Continuation

namespace Stack

def rawLayers : List Layer → List Token
  | [] => []
  | layer :: layers => rawLayers layers ++ Tree.rawAll layer.before

def raw (s : Stack) : List Token :=
  rawLayers s.layers ++ Tree.rawAll s.done ++ ((s.leaf.map fun leaf => Tree.rawAll leaf.2).getD [])

variable {s : Stack} {tokens ending : List Token}

@[simp] theorem raw_emit (s : Stack) (trees : List Tree) :
    (s.emit trees).raw = s.raw ++ Tree.rawAll trees := by
  unfold emit raw
  split <;> simp_all

@[simp] theorem raw_closeLeaf (s : Stack) : s.closeLeaf.raw = s.raw := by
  unfold closeLeaf raw
  split <;> simp_all

@[simp] theorem leaf_closeLeaf (s : Stack) : s.closeLeaf.leaf = none := by
  unfold closeLeaf
  split <;> simp_all

@[simp] theorem layers_closeLeaf (s : Stack) : s.closeLeaf.layers = s.layers := by
  unfold closeLeaf
  split <;> rfl

@[simp] theorem layers_emit (s : Stack) (trees : List Tree) : (s.emit trees).layers = s.layers := by
  unfold emit
  split <;> rfl

@[simp] theorem containers_closeLeaf (s : Stack) : s.closeLeaf.containers = s.containers := by
  rw [containers, layers_closeLeaf, containers]

@[simp] theorem containers_emit (s : Stack) (trees : List Tree) :
    (s.emit trees).containers = s.containers := by
  rw [containers, layers_emit, containers]

theorem length_containers (s : Stack) : s.containers.length = s.layers.length := by
  rw [containers, List.length_reverse, List.length_map]

theorem leaf_emit_eq_none (closed : s.leaf = none) (trees : List Tree) :
    (s.emit trees).leaf = none := by
  simp [emit, closed]

theorem raw_push (closed : s.leaf = none) (c : Container) : (s.push c).raw = s.raw := by
  simp [push, raw, rawLayers, closed]

@[simp] theorem leaf_push (s : Stack) (c : Container) : (s.push c).leaf = none := rfl

@[simp] theorem raw_pop (s : Stack) : s.pop.raw = s.raw := by
  have closed := leaf_closeLeaf s
  rw [← raw_closeLeaf s, pop]
  generalize s.closeLeaf = s at closed
  cases layers : s.layers with
  | nil => rfl
  | cons layer layers => simp [raw, layers, closed, rawLayers]

theorem leaf_pop (s : Stack) : s.pop.leaf = none := by
  unfold pop
  split
  · exact leaf_closeLeaf s
  · rfl

@[simp] theorem raw_popMany (s : Stack) (n : Nat) : (s.popMany n).raw = s.raw := by
  induction n generalizing s with
  | zero => rfl
  | succ n ih => rw [popMany, ih, raw_pop]

theorem leaf_popMany (closed : s.leaf = none) (n : Nat) : (s.popMany n).leaf = none := by
  induction n generalizing s with
  | zero => exact closed
  | succ n ih => exact ih (leaf_pop s)

@[simp] theorem raw_closeAfter (s : Stack) (count : Nat) (start : BlockStart) :
    (s.closeAfter count start).raw = s.raw := raw_popMany _ _

theorem leaf_closeAfter (closed : s.leaf = none) (count : Nat) (start : BlockStart) :
    (s.closeAfter count start).leaf = none := leaf_popMany closed _

/-- What a line does not go on with is closed, but for a list whose next item it begins. -/
theorem closeAfter_cases (s : Stack) (count : Nat) (start : BlockStart) :
    (∃ style bare, s.containers[count]? = some (.list style) ∧ start = .item style bare ∧
      s.closeAfter count start = s.popMany (s.layers.length - (count + 1))) ∨
    ((∀ style bare, s.containers[count]? = some (.list style) → start ≠ .item style bare) ∧
      s.closeAfter count start = s.popMany (s.layers.length - count)) := by
  by_cases waits : ∃ style bare, s.containers[count]? = some (.list style) ∧
      start = .item style bare
  · obtain ⟨style, bare, here, rfl⟩ := waits
    refine Or.inl ⟨style, bare, here, rfl, ?_⟩
    simp only [closeAfter, here, if_true]
  · refine Or.inr ⟨fun style bare here item => waits ⟨style, bare, here, item⟩, ?_⟩
    unfold closeAfter
    dsimp only
    split
    · rename_i style next bare here
      rw [if_neg]
      rintro rfl
      exact waits ⟨style, bare, here, rfl⟩
    · rfl

theorem emit_emit (s : Stack) (a b : List Tree) : (s.emit a).emit b = s.emit (a ++ b) := by
  cases leaf : s.leaf <;> simp [emit, leaf]

theorem raw_openLeaf {start : BlockStart} (closed : s.leaf = none) (fits : start.Reads tokens) :
    (s.openLeaf start tokens ending).raw = s.raw ++ (tokens ++ ending) := by
  cases start with
  | blank =>
    have none_left : tokens = [] := fits
    simp [openLeaf, none_left]
  | heading level => simp [openLeaf, ← List.append_assoc]
  | thematicBreak => simp [openLeaf]
  | fence mark length =>
    have parts := List.take_append_drop length tokens
    simp only [openLeaf, raw, closed, Option.map_some, Option.map_none, Option.getD_some,
      Option.getD_none, Tree.rawAll_append, Tree.rawAll_glue, Tree.rawAll_map_leaf, parts,
      List.append_nil]
  | quote | item style bare | text => simp [openLeaf, raw, closed]

theorem raw_blank (s : Stack) (c : Cursor) (ending : List Token) :
    (s.emit (c.blank.map Tree.leaf)).raw ++ (c.skipBlank.rest ++ ending) =
      s.raw ++ (c.rest ++ ending) := by
  rw [raw_emit, Tree.rawAll_map_leaf, List.append_assoc, ← List.append_assoc c.blank,
    c.blank_append]

theorem raw_marker {width : Nat} (container : Container) (mark : Kind) (next : Cursor)
    (closed : s.leaf = none) (left : tokens.drop width = next.rest) (ending : List Token) :
    ((s.push container).emit (Tree.glue mark (tokens.take width) ++
        next.blank.map Tree.leaf)).raw ++ (next.skipBlank.rest ++ ending) =
      s.raw ++ (tokens ++ ending) := by
  have parts := List.take_append_drop width tokens
  rw [left, ← next.blank_append] at parts
  rw [raw_emit, raw_push closed, Tree.rawAll_append, Tree.rawAll_glue, Tree.rawAll_map_leaf,
    List.append_assoc, ← List.append_assoc (tokens.take width ++ next.blank),
    List.append_assoc (tokens.take width), parts]

theorem raw_listed (closed : s.leaf = none) (style : ListStyle) :
    (if s.inList style then s else s.push (.list style)).raw = s.raw := by
  split
  · rfl
  · exact raw_push closed _

theorem leaf_listed (closed : s.leaf = none) (style : ListStyle) :
    (if s.inList style then s else s.push (.list style)).leaf = none := by
  split
  · exact closed
  · rfl

theorem drop_marker (style : ListStyle) (t : Token) (ts : List Token) :
    (t :: ts).drop style.markerWidth = ts.drop (style.markerWidth - 1) := by
  cases style <;> rfl

theorem raw_openBlocks {c : Cursor} (closed : s.leaf = none) :
    (s.openBlocks c ending).raw = s.raw ++ (c.rest ++ ending) := by
  fun_induction openBlocks s c ending with
  | case1 s c led t ts shape quote next inner ih =>
    have still_closed := leaf_emit_eq_none closed (c.blank.map Tree.leaf)
    have marker := raw_marker .quote .quoteMark next still_closed
      (show (t :: ts).drop 1 = next.rest from rfl) ending
    rw [ih (leaf_emit_eq_none rfl _), ← raw_blank s c, shape]
    exact marker
  | case2 s c led style bare t ts shape item marker column rest next listed inner ih =>
    have still_closed := leaf_emit_eq_none closed (c.blank.map Tree.leaf)
    have marker := raw_marker (.item next.base) .listMark next (leaf_listed still_closed style)
      (drop_marker style t ts) ending
    rw [raw_listed still_closed] at marker
    rw [ih (leaf_emit_eq_none rfl _), ← raw_blank s c, shape]
    exact marker
  | case3 s c led no_quote no_item =>
    have still_closed := leaf_emit_eq_none closed (c.blank.map Tree.leaf)
    rw [raw_openLeaf still_closed (BlockStart.ofCursor_reads c.skipBlank), raw_blank]

theorem fenceLine_leaves (s : Stack) (mark : Kind) (length : Nat) (c : Cursor)
    (ending : List Token) : ∃ leaves, Tree.rawAll leaves = c.rest ++ ending ∧
      (∀ t ∈ leaves, t.IsLeaf) ∧ (s.fenceLine mark length c ending = s.emit leaves ∨
        s.fenceLine mark length c ending = (s.emit leaves).closeLeaf) := by
  unfold fenceLine
  dsimp only
  split
  · have parts := List.take_append_drop (Inline.runLength mark c.skipBlank.rest) c.skipBlank.rest
    refine ⟨_, ?_, ?_, Or.inr rfl⟩
    · simp only [Tree.rawAll_append, Tree.rawAll_map_leaf, Tree.rawAll_glue]
      rw [List.append_assoc c.blank, parts, c.blank_append]
    · simp only [List.forall_mem_append]
      exact ⟨⟨⟨Tree.isLeaf_leaves _, Tree.isLeaf_glue _ _⟩, Tree.isLeaf_leaves _⟩,
        Tree.isLeaf_leaves _⟩
  · refine ⟨_, ?_, ?_, Or.inl rfl⟩
    · rw [Tree.rawAll_append, Tree.rawAll_map_leaf, Tree.rawAll_map_leaf]
    · exact List.forall_mem_append.mpr ⟨Tree.isLeaf_leaves _, Tree.isLeaf_leaves _⟩

/-- Whether a line that continues containers as `c` says goes on with the open leaf. -/
def goesOn (s : Stack) (c : Continuation) : Bool :=
  match s.leaf with
  | some (.fence .., _) => c.count == s.layers.length
  | some (.paragraph, _) =>
    continuesParagraph (BlockStart.ofCursor c.cursor.skipBlank) (c.count == s.layers.length)
  | none => false

def cutBack (s : Stack) (c : Continuation) : Stack :=
  (s.closeLeaf.closeAfter c.count (BlockStart.ofCursor c.cursor.skipBlank)).emit c.lead

theorem leaf_cutBack (s : Stack) (c : Continuation) : (s.cutBack c).leaf = none :=
  leaf_emit_eq_none (leaf_closeAfter (leaf_closeLeaf s) _ _) _

theorem raw_cutBack (s : Stack) (c : Continuation) :
    (s.cutBack c).raw = s.raw ++ Tree.rawAll c.lead := by
  rw [cutBack, raw_emit, raw_closeAfter, raw_closeLeaf]

section

variable {c : Continuation} {mark : Kind} {length : Nat} {held : List Tree}
  (read : Continuation.ofLine s.containers ⟨tokens, 0, 0⟩ = c) (ending : List Token)

include read

theorem addLine_of_fence (open_leaf : s.leaf = some (.fence mark length, held))
    (goes_on : s.goesOn c = true) :
    s.addLine tokens ending = (s.emit c.lead).fenceLine mark length c.cursor ending := by
  rw [goesOn, open_leaf] at goes_on
  rw [addLine, read, open_leaf]
  exact if_pos goes_on

theorem addLine_of_paragraph (open_leaf : s.leaf = some (.paragraph, held))
    (goes_on : s.goesOn c = true) :
    s.addLine tokens ending =
      s.emit (c.lead ++ Inline.parse c.cursor.rest ++ ending.map Tree.leaf) := by
  rw [goesOn, open_leaf] at goes_on
  rw [addLine, read, open_leaf]
  exact if_pos goes_on

theorem addLine_of_ends (ends : s.goesOn c = false) :
    s.addLine tokens ending = (s.cutBack c).openBlocks c.cursor ending := by
  rw [goesOn] at ends
  rw [addLine, read]
  dsimp only
  split
  · rename_i open_leaf
    rw [open_leaf] at ends
    exact if_neg (ne_true_of_eq_false ends)
  · rename_i open_leaf
    rw [open_leaf] at ends
    exact if_neg (ne_true_of_eq_false ends)
  · rfl

end

/-- What a line does to the open blocks: it goes on with the open fence or the open paragraph, or it
ends what it does not continue and opens its own blocks. -/
inductive LineStep (s : Stack) (c : Continuation) (ending : List Token) : Stack → Prop
  | fence {mark : Kind} {length : Nat} {held : List Tree}
    (open_leaf : s.leaf = some (.fence mark length, held)) (goes_on : s.goesOn c = true) :
    LineStep s c ending ((s.emit c.lead).fenceLine mark length c.cursor ending)
  | paragraph {held : List Tree} (open_leaf : s.leaf = some (.paragraph, held))
    (goes_on : s.goesOn c = true) :
    LineStep s c ending
      (s.emit (c.lead ++ Inline.parse c.cursor.rest ++ ending.map Tree.leaf))
  | reopen (ends : s.goesOn c = false) :
    LineStep s c ending ((s.cutBack c).openBlocks c.cursor ending)

theorem exists_lineStep (s : Stack) (tokens ending : List Token) : ∃ c s',
    Continuation.ofLine s.containers ⟨tokens, 0, 0⟩ = c ∧ s.addLine tokens ending = s' ∧
      s.LineStep c ending s' ∧ Tree.rawAll c.lead ++ c.cursor.rest = tokens ∧
      ∀ tree ∈ c.lead, Continuation.IsLead tree := by
  obtain ⟨parts, single⟩ := Continuation.ofLine_spec s.containers ⟨tokens, 0, 0⟩
  refine ⟨_, _, rfl, rfl, ?_, parts, single⟩
  cases goes_on : s.goesOn (Continuation.ofLine s.containers ⟨tokens, 0, 0⟩) with
  | false =>
    rw [addLine_of_ends rfl ending goes_on]
    exact .reopen goes_on
  | true =>
    cases open_leaf : s.leaf with
    | none => simp [goesOn, open_leaf] at goes_on
    | some both =>
      obtain ⟨leaf, held⟩ := both
      cases leaf with
      | fence mark length =>
        rw [addLine_of_fence rfl ending open_leaf goes_on]
        exact .fence open_leaf goes_on
      | paragraph =>
        rw [addLine_of_paragraph rfl ending open_leaf goes_on]
        exact .paragraph open_leaf goes_on

theorem raw_fenceLine (s : Stack) (mark : Kind) (length : Nat) (c : Cursor) (ending : List Token) :
    (s.fenceLine mark length c ending).raw = s.raw ++ (c.rest ++ ending) := by
  obtain ⟨leaves, raw, _, same | same⟩ := s.fenceLine_leaves mark length c ending
  · rw [same, raw_emit, raw]
  · rw [same, raw_closeLeaf, raw_emit, raw]

theorem raw_addLine (s : Stack) (tokens ending : List Token) :
    (s.addLine tokens ending).raw = s.raw ++ (tokens ++ ending) := by
  obtain ⟨c, s', _, made, step, parts, _⟩ := s.exists_lineStep tokens ending
  rw [made, ← parts, List.append_assoc]
  cases step with
  | fence => rw [raw_fenceLine, raw_emit, List.append_assoc]
  | paragraph =>
    rw [raw_emit, Tree.rawAll_append, Tree.rawAll_append, Inline.rawAll_parse,
      Tree.rawAll_map_leaf, List.append_assoc]
  | reopen => rw [raw_openBlocks (leaf_cutBack s c), raw_cutBack, List.append_assoc]

theorem line_parts (tokens : List Token) :
    tokens = tokens.takeWhile (·.kind != .newline) ++
      ((tokens.drop (tokens.takeWhile (·.kind != .newline)).length).take 1 ++
        (tokens.drop (tokens.takeWhile (·.kind != .newline)).length).drop 1) := by
  rw [List.take_append_drop]
  exact (List.prefix_iff_eq_append.mp (List.takeWhile_prefix _)).symm

theorem raw_line (s : Stack) (tokens : List Token) :
    (s.line tokens).1.raw ++ (s.line tokens).2 = s.raw ++ tokens := by
  rw [line]
  dsimp only
  rw [raw_addLine, List.append_assoc, List.append_assoc, ← line_parts]

theorem raw_lines (s : Stack) (tokens : List Token) : (s.lines tokens).raw = s.raw ++ tokens := by
  fun_induction lines s tokens with
  | case1 s => simp
  | case2 s t ts ih => rw [ih, raw_line]

theorem layers_pop (s : Stack) : s.pop.layers = s.layers.tail := by
  have same := layers_closeLeaf s
  unfold pop
  split
  · rename_i none_left
    rw [same] at none_left ⊢
    rw [none_left, List.tail_nil]
  · rename_i layer layers shape
    rw [same] at shape
    rw [shape, List.tail_cons]

theorem layers_popMany (s : Stack) (n : Nat) : (s.popMany n).layers = s.layers.drop n := by
  induction n generalizing s with
  | zero => rfl
  | succ n ih => rw [popMany, ih, layers_pop, List.drop_tail]

theorem layers_finish (s : Stack) : (s.closeLeaf.popMany s.layers.length).layers = [] := by
  rw [layers_popMany, layers_closeLeaf, List.drop_length]

theorem leaf_finish (s : Stack) : (s.closeLeaf.popMany s.layers.length).leaf = none :=
  leaf_popMany (leaf_closeLeaf s) _

theorem rawAll_finish (s : Stack) : Tree.rawAll s.finish = s.raw := by
  have same := raw_popMany s.closeLeaf s.layers.length
  rw [raw_closeLeaf, raw, layers_finish, leaf_finish] at same
  simpa [rawLayers, finish] using same

end Stack

namespace Tree

theorem raw_ofTokens (tokens : List Token) : (ofTokens tokens).raw = tokens := by
  rw [ofTokens, raw_node, Stack.rawAll_finish, Stack.raw_lines]
  rfl

theorem raw_ofText (t : Text) : (ofText t).raw = Token.scan t := raw_ofTokens _

theorem text_ofText (t : Text) : (ofText t).text = t := by
  rw [text, raw_ofText, Token.join_scan]

end Tree

end MarkdownEditing
