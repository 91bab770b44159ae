import MarkdownEditing.Proofs.Syntax.Marked

namespace MarkdownEditing

open Token (Aligned)

namespace Stack

open Token (Lined Narrow Spread endColumn)

theorem flatMap_raw_walk (s : Stack) : s.walk.flatMap Visit.raw = s.raw := by
  have layers : ∀ layers : List Layer, (walkLayers layers).flatMap Visit.raw = rawLayers layers := by
    intro layers
    induction layers with
    | nil => rfl
    | cons layer layers ih =>
      simp [walkLayers, rawLayers, ih, Tree.raw_walkAll, Visit.raw]
  cases leaf : s.leaf <;>
    simp [walk, raw, layers, leaf, Tree.raw_walkAll, Visit.raw]

/-- Nothing but words stands at the cursor, and no end of an open fence. -/
def Inert (s : Stack) (c : Cursor) : Prop :=
  c.Idle ∧ ∀ mark length held, s.leaf = some (.fence mark length, held) →
    closesFence mark length { c with base := c.column } = false

/-- A line keeps its sides of the content of the open items. It may lie anywhere when it only goes on
with an open paragraph. -/
def KeepsSides (s s' : Stack) (line : List Token) : Prop :=
  Container.Sides s.Inert (∃ held, s.leaf = some (.paragraph, held)) s.containers s'.containers
    ⟨line, 0, 0⟩

/-- A blank behind a marker stays narrow or wide when the numbers in the tokens `ts` are changed to
those in `ts'`. Only where a block could begin behind the blank does it have to. -/
def KeepsBlanks (ts ts' : List Token) : Prop :=
  ∀ ⦃i n : Nat⦄ ⦃mark : Kind⦄ ⦃raw : List Token⦄ ⦃blank : Token⦄,
    (Tree.ofTokens ts).walk[i]? = some (.leaf mark raw) → mark = .quoteMark ∨ mark = .listMark →
    (Tree.ofTokens ts).walk[i + 1]? = some (.leaf .whitespace [blank]) →
    n = (((Tree.ofTokens ts).walk.take (i + 1)).flatMap Visit.raw).length →
    ¬Cursor.Idle ⟨(ts.drop (n + 1)).takeWhile (·.kind != .newline), 0, 0⟩ →
      (Narrow (ts.take n) blank ↔ Narrow (ts'.take n) blank)

/-- A line keeps its sides of the items that are open above it. -/
def KeepsLines (ts ts' : List Token) : Prop :=
  ∀ ⦃n : Nat⦄ ⦃feed : Token⦄, ts[n]? = some feed → feed.kind = .newline →
    KeepsSides (empty.lines (ts.take (n + 1))) (empty.lines (ts'.take (n + 1)))
      ((ts.drop (n + 1)).takeWhile (·.kind != .newline))

/-- The numbers in a text are changed so that its lines still fit together. -/
structure Steady (ts ts' : List Token) : Prop where
  blanks : KeepsBlanks ts ts'
  lines : KeepsLines ts ts'

variable {ts ts' : List Token} {s s' : Stack} {c c' next next' : Cursor}
  {ending later later' : List Token} {more : List Visit}

/-- The blank behind a marker is as narrow as it was, if more than words follow it. -/
theorem KeepsBlanks.narrow_iff (keeps : KeepsBlanks ts ts') {before after : List Visit} {mark : Kind}
    {raw above : List Token} {blank : Token}
    (walk : (Tree.ofTokens ts).walk =
      before ++ .leaf mark raw :: .leaf .whitespace [blank] :: after)
    (marks : mark = .quoteMark ∨ mark = .listMark) (parts' : ts' = above ++ later')
    (length : above.length = (before.flatMap Visit.raw ++ raw).length)
    (words : ¬Cursor.Idle ⟨(after.flatMap Visit.raw).takeWhile (·.kind != .newline), 0, 0⟩) :
    Narrow (before.flatMap Visit.raw ++ raw) blank ↔ Narrow above blank := by
  have parts : ts = (before.flatMap Visit.raw ++ raw) ++ blank :: after.flatMap Visit.raw := by
    rw [← Tree.raw_ofTokens ts, ← Tree.raw_walk, walk]
    simp [Visit.raw]
  have here : (Tree.ofTokens ts).walk[before.length]? = some (.leaf mark raw) := by
    rw [walk, List.getElem?_append_right (Nat.le_refl _), Nat.sub_self]
    rfl
  have next : (Tree.ofTokens ts).walk[before.length + 1]? = some (.leaf .whitespace [blank]) := by
    rw [walk, List.getElem?_append_right (Nat.le_add_right _ 1), Nat.add_sub_cancel_left]
    rfl
  have past : ((Tree.ofTokens ts).walk.take (before.length + 1)).flatMap Visit.raw =
      before.flatMap Visit.raw ++ raw := by
    rw [walk, List.take_length_add_append]
    simp [Visit.raw]
  have same := keeps here marks next (congrArg List.length past.symm)
  generalize before.flatMap Visit.raw ++ raw = front at *
  rw [parts, List.drop_length_add_append, List.drop_succ_cons, List.drop_zero, List.take_left,
    parts', ← length, List.take_left] at same
  exact same words

theorem starts_behind_mark (keeps : KeepsBlanks ts ts') (marked : next.Marked)
    (marked' : next'.Marked) (rest : Aligned next.rest next'.rest) {before after : List Visit}
    {mark : Kind} {raw above : List Token}
    (walk : (Tree.ofTokens ts).walk =
      before ++ .leaf mark raw :: (Tree.walkAll (next.blank.map Tree.leaf) ++ after))
    (marks : mark = .quoteMark ∨ mark = .listMark)
    (line : (after.flatMap Visit.raw).takeWhile (·.kind != .newline) = next.skipBlank.rest)
    (parts' : ts' = above ++ later')
    (length : above.length = (before.flatMap Visit.raw ++ raw).length)
    (column : next.column = endColumn (before.flatMap Visit.raw ++ raw))
    (column' : next'.column = endColumn above) :
    BlockStart.ofCursor next.skipBlank = BlockStart.ofCursor next'.skipBlank := by
  have blanks := Cursor.blank_congr rest
  have left := Cursor.aligned_skipBlank rest
  by_cases idle : next.skipBlank.Idle
  · exact idle.ofCursor_congr left
  · refine BlockStart.ofCursor_congr left fun some_left => ?_
    have some_left' : next'.skipBlank.rest ≠ [] := by
      intro none_left
      rw [none_left] at left
      exact some_left (List.forall₂_nil_right_iff.mp left)
    have here := marked some_left
    have here' := marked' some_left'
    rw [← blanks] at here'
    rw [Bool.eq_iff_iff, here, here']
    rcases next.blank_cases with ⟨none_left, _⟩ | ⟨t, us, white, shape, one, skip⟩
    · rw [none_left]
      simp
    · have not_idle : ¬Cursor.Idle ⟨next.skipBlank.rest, 0, 0⟩ := fun other =>
        idle (other.congr (Token.aligned_refl _))
      have here : (Tree.ofTokens ts).walk =
          before ++ .leaf mark raw :: .leaf .whitespace [t] :: after := by
        rw [walk, one, ← white]
        rfl
      have narrow := keeps.narrow_iff here marks parts' length (by rw [line]; exact not_idle)
      rw [one]
      simp only [List.cons_ne_nil, false_or, Token.join_cons, Token.join_nil, List.append_nil,
        column, column']
      exact narrow

/-- Of the tokens `ts`, those that are left of a line and those `behind` it are still to be read, and
the cursor knows the column that was reached. -/
structure Midway (ts behind : List Token) (s : Stack) (c : Cursor) : Prop where
  closed : s.leaf = none
  parts : ts = s.raw ++ (c.rest ++ behind)
  column : c.column = endColumn s.raw
  raw : ∀ t ∈ c.rest, t.Raw
  plain : ∀ t ∈ c.rest, t.kind ≠ .newline
  spread : Spread c.rest

namespace Midway

variable {behind opening : List Token} {trees : List Tree}

theorem emit_blank (reading : Midway ts behind s c) :
    Midway ts behind (s.emit (c.blank.map Tree.leaf)) c.skipBlank := by
  have inside : ∀ t ∈ c.skipBlank.rest, t ∈ c.rest := fun t => Cursor.mem_of_mem_skipBlank
  have blanks : ∀ t ∈ c.blank, t ∈ c.rest := fun t => Cursor.mem_of_mem_blank
  have clean := Token.clean_join (fun t member => reading.raw t (blanks t member))
    fun t member => reading.plain t (blanks t member)
  constructor
  · exact leaf_emit_eq_none reading.closed _
  · rw [raw_emit, Tree.rawAll_map_leaf, List.append_assoc, ← List.append_assoc c.blank,
      c.blank_append]
    exact reading.parts
  · rw [raw_emit, Tree.rawAll_map_leaf, Token.endColumn_append clean, ← reading.column]
    rfl
  · exact fun t member => reading.raw t (inside t member)
  · exact fun t member => reading.plain t (inside t member)
  · exact reading.spread.drop _

theorem push (reading : Midway ts behind s c) (x : Container) :
    Midway ts behind (s.push x) c where
  closed := rfl
  parts := by rw [raw_push reading.closed]; exact reading.parts
  column := by rw [raw_push reading.closed]; exact reading.column
  raw := reading.raw
  plain := reading.plain
  spread := reading.spread

theorem push_list (reading : Midway ts behind s c) (style : ListStyle) :
    Midway ts behind (if s.inList style then s else s.push (.list style)) c := by
  split
  · exact reading
  · exact reading.push _

theorem emit_marker (reading : Midway ts behind s c) (shape : c.rest = opening ++ next.rest)
    (column : next.column = Text.advance Cursor.tabStop c.column (Token.join opening))
    (raw : Tree.rawAll trees = opening) : Midway ts behind (s.emit trees) next := by
  have inside : ∀ t ∈ next.rest, t ∈ c.rest := fun t member => by
    rw [shape]
    exact List.mem_append_right _ member
  have front : ∀ t ∈ opening, t ∈ c.rest := fun t member => by
    rw [shape]
    exact List.mem_append_left _ member
  have clean := Token.clean_join (fun t member => reading.raw t (front t member))
    fun t member => reading.plain t (front t member)
  constructor
  · exact leaf_emit_eq_none reading.closed _
  · rw [raw_emit, raw, List.append_assoc, ← List.append_assoc opening, ← shape]
    exact reading.parts
  · rw [raw_emit, raw, Token.endColumn_append clean, ← reading.column]
    exact column
  · exact fun t member => reading.raw t (inside t member)
  · exact fun t member => reading.plain t (inside t member)
  · have spread := reading.spread
    rw [shape] at spread
    exact spread.right_of_append

theorem emit_marker_blank (reading : Midway ts behind s c) (shape : c.rest = opening ++ next.rest)
    (column : next.column = Text.advance Cursor.tabStop c.column (Token.join opening))
    (raw : Tree.rawAll trees = opening) :
    Midway ts behind (s.emit (trees ++ next.blank.map Tree.leaf)) next.skipBlank := by
  rw [← emit_emit]
  exact (reading.emit_marker shape column raw).emit_blank

/-- Behind a marker, and the blank behind that, both texts begin the same. -/
theorem ofCursor_eq (reading : Midway ts behind s c) (keeps : KeepsBlanks ts ts')
    {behind' opening' : List Token} (reading' : Midway ts' behind' s' c')
    (ends : behind.takeWhile (·.kind != .newline) = []) {mark : Kind}
    (marks : mark = .quoteMark ∨ mark = .listMark)
    (token : Tree.walkAll trees = [.leaf mark opening])
    (shape : c.rest = opening ++ next.rest) (shape' : c'.rest = opening' ++ next'.rest)
    (column : next.column = Text.advance Cursor.tabStop c.column (Token.join opening))
    (column' : next'.column = Text.advance Cursor.tabStop c'.column (Token.join opening'))
    (same : Aligned s.raw s'.raw) (same_opening : Aligned opening opening')
    (rest : Aligned next.rest next'.rest) (marked : next.Marked) (marked' : next'.Marked)
    (walk : (Tree.ofTokens ts).walk =
      (s.emit (trees ++ next.blank.map Tree.leaf)).walk ++ more) :
    BlockStart.ofCursor next.skipBlank.skipBlank = BlockStart.ofCursor next'.skipBlank.skipBlank := by
  have raw : Tree.rawAll trees = opening := by
    rw [← Tree.raw_walkAll, token]
    simp [Visit.raw]
  have read := reading.emit_marker shape column raw
  have raw' : Tree.rawAll [Tree.token mark opening'] = opening' := by simp
  have read' := reading'.emit_marker shape' column' raw'
  have after := reading.emit_marker_blank shape column raw
  rw [Cursor.skipBlank_skipBlank read.spread, Cursor.skipBlank_skipBlank read'.spread]
  have walk' : (Tree.ofTokens ts).walk = s.walk ++ .leaf mark opening ::
      (Tree.walkAll (next.blank.map Tree.leaf) ++ more) := by
    rw [walk, walk_emit, Tree.walkAll_append, token]
    simp
  have left : more.flatMap Visit.raw = next.skipBlank.rest ++ behind := by
    have tokens := congrArg (List.flatMap Visit.raw) walk
    rw [Tree.raw_walk, Tree.raw_ofTokens, List.flatMap_append, flatMap_raw_walk] at tokens
    exact List.append_cancel_left (tokens.symm.trans after.parts)
  have plain : ∀ t ∈ next.skipBlank.rest, (t.kind != .newline) = true := by
    intro t member
    simpa using after.plain t member
  apply starts_behind_mark keeps marked marked' rest walk' marks
  · rw [left, List.takeWhile_append_of_pos plain, ends, List.append_nil]
  · have parts := read'.parts
    rw [raw_emit, raw'] at parts
    exact parts
  · rw [flatMap_raw_walk, List.length_append, List.length_append, same.length_eq,
      same_opening.length_eq]
  · rw [flatMap_raw_walk]
    have column := read.column
    rw [raw_emit, raw] at column
    exact column
  · have column' := read'.column
    rw [raw_emit, raw'] at column'
    exact column'

end Midway

end Stack

end MarkdownEditing
