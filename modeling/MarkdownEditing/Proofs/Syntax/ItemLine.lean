import MarkdownEditing.Proofs.Syntax.Rejoining
import MarkdownEditing.Proofs.Syntax.Reopened

namespace MarkdownEditing

namespace Continuation

open Token (Spread)

variable {cs : List Container} {c : Cursor} {a : Continuation} {g w : List Token}

theorem ofLine_take (cs : List Container) (c : Cursor) :
    ofLine (cs.take (ofLine cs c).count) c = ofLine cs c := by
  fun_induction ofLine cs c with
  | case1 => rfl
  | case2 cs c t ts shape mark inner ih =>
    have kept : ofLine (cs.take inner.count) _ = inner := ih
    rw [List.take_succ_cons, ofLine]
    simp only [shape, if_pos mark, kept]
  | case3 | case4 | case5 => rfl
  | case6 style cs c inner some_count ih =>
    have kept : ofLine (cs.take inner.count) c = inner := ih
    rw [List.take_succ_cons, ofLine, kept, if_neg some_count]
  | case7 => rfl
  | case8 column cs c inside inner ih =>
    have kept : ofLine (cs.take inner.count) _ = inner := ih
    rw [List.take_succ_cons, ofLine, if_neg inside, kept]

theorem Stops.last_ne (stops : Stops cs a) (style : ListStyle) :
    (cs.take a.count).getLast? ≠ some (.list style) := by
  intro last
  have inside := stops.le
  rw [List.getLast?_take] at last
  split at last
  · cases last
  · rw [List.getElem?_eq_getElem (by omega), Option.some_or] at last
    apply stops.kept (by omega) style
    rw [List.getElem?_eq_getElem (by omega)]
    exact last

theorem Content.skipBlank (content : Content w) (column base : Nat) :
    (⟨w, column, base⟩ : Cursor).blank = [] ∧
      (⟨w, column, base⟩ : Cursor).skipBlank = ⟨w, column, base⟩ := by
  obtain ⟨t, ts, rfl, visible, _⟩ := content
  simp [Cursor.skipBlank, Cursor.blank, visible, Text.advance]

theorem Content.skipBlank_skipBlank (content : Content w) (spread : Spread g) (column base : Nat) :
    (⟨g ++ w, column, base⟩ : Cursor).skipBlank.skipBlank =
      (⟨g ++ w, column, base⟩ : Cursor).skipBlank := by
  have visible : ∀ {t : Token} {ts : List Token} {column base : Nat}, t.kind ≠ .whitespace →
      (⟨t :: ts, column, base⟩ : Cursor).skipBlank = ⟨t :: ts, column, base⟩ := by
    intro t ts column base other
    simp [Cursor.skipBlank, Cursor.blank, other, Text.advance]
  cases g with
  | nil => rw [List.nil_append, (content.skipBlank column base).2, (content.skipBlank column base).2]
  | cons t g =>
    by_cases blank : t.kind = .whitespace
    · have skip : (⟨t :: (g ++ w), column, base⟩ : Cursor).skipBlank =
          ⟨g ++ w, Text.advance Cursor.tabStop column t.text, base⟩ := by
        simp [Cursor.skipBlank, Cursor.blank, blank]
      rw [List.cons_append, skip]
      cases g with
      | nil => exact (content.skipBlank _ base).2
      | cons u g => exact visible ((List.isChain_cons_cons.mp spread).1 blank)
    · rw [List.cons_append, visible blank, visible blank]

/-- Blanks in front of a line do not decide whether it goes on with quotes. -/
theorem ofLine_skipBlank (again : c.skipBlank.skipBlank = c.skipBlank) (depth : Nat) :
    (ofLine (List.replicate depth .quote) c.skipBlank).count =
        (ofLine (List.replicate depth .quote) c).count ∧
      (ofLine (List.replicate depth .quote) c.skipBlank).cursor.skipBlank =
        (ofLine (List.replicate depth .quote) c).cursor.skipBlank := by
  cases depth with
  | zero => exact ⟨rfl, again⟩
  | succ depth =>
    rw [List.replicate_succ, ofLine, ofLine, again]
    split
    · split
      · exact ⟨rfl, rfl⟩
      · exact ⟨rfl, again⟩
    · exact ⟨rfl, again⟩

end Continuation

namespace Stack

open Continuation (Content Markup ofLine)
open Token (Spread)

variable {s s' : Stack} {f g w : List Token} {ending : List Token} {style : ListStyle}
  {column base column' base' depth : Nat}

theorem emit_nil (s : Stack) : s.emit [] = s := by
  obtain ⟨layers, done, leaf⟩ := s
  cases leaf <;> simp [emit]

theorem openBlocks_skipBlank {c : Cursor} (again : c.skipBlank.skipBlank = c.skipBlank) (s : Stack)
    (ending : List Token) :
    (s.emit (c.blank.map Tree.leaf)).openBlocks c.skipBlank ending = s.openBlocks c ending := by
  have none_left : c.skipBlank.blank = [] := by
    have parts := c.skipBlank.blank_append
    rw [again] at parts
    exact List.append_left_eq_self.mp parts
  rw [openBlocks, openBlocks, none_left, List.map_nil, emit_nil, again]

section

variable {t : Token}

theorem skipBlank_blank (blank : t.kind = .whitespace) (ts : List Token) (column base : Nat) :
    (⟨t :: ts, column, base⟩ : Cursor).blank = [t] ∧
      (⟨t :: ts, column, base⟩ : Cursor).skipBlank =
        ⟨ts, Text.advance Cursor.tabStop column t.text, base⟩ := by
  simp [Cursor.skipBlank, Cursor.blank, blank]

theorem openBlocks_blank (blank : t.kind = .whitespace) (spread : Spread (t :: g))
    (content : Content w) (s : Stack) (column base : Nat) (ending : List Token) :
    s.openBlocks ⟨t :: g ++ w, column, base⟩ ending = (s.emit [Tree.leaf t]).openBlocks
      ⟨g ++ w, Text.advance Cursor.tabStop column t.text, base⟩ ending := by
  obtain ⟨here, skips⟩ := skipBlank_blank blank (g ++ w) column base
  have again := content.skipBlank_skipBlank spread column base
  rw [← openBlocks_skipBlank again]
  rw [List.cons_append, here, skips]
  rfl

def quoted (s : Stack) (t : Token) : Stack := (s.push .quote).emit [Tree.token .quoteMark [t]]

theorem begins_quoted (closed : s.leaf = none) (t : Token) :
    s.Begins (s.quoted t) fun _ => False := by
  have calm := Tree.calm_cons
    (Tree.IsLeaf.calm ⟨.quoteMark, [t], List.cons_ne_nil t [], rfl⟩) (Tree.calm_leaves [])
  exact (begins_push closed .quote (by rintro ⟨⟩)).trans (grows_emit _ calm).begins

variable (mark : t.kind = .gt) (near : column - base ≤ Cursor.maxIndent)

include mark

theorem skipBlank_mark (ts : List Token) (column base : Nat) :
    (⟨t :: ts, column, base⟩ : Cursor).blank = [] ∧
      (⟨t :: ts, column, base⟩ : Cursor).skipBlank = ⟨t :: ts, column, base⟩ := by
  simp [Cursor.skipBlank, Cursor.blank, mark, Text.advance]

include near

theorem starts_quote (ts : List Token) :
    BlockStart.ofCursor (⟨t :: ts, column, base⟩ : Cursor).skipBlank = .quote := by
  rw [(skipBlank_mark mark ts column base).2]
  simp [BlockStart.ofCursor, Cursor.nearBase, near, mark]

/-- A quote mark that is near enough opens a quote, and then what is behind it is read. -/
theorem openBlocks_quoted {inner : Nat} (spread : Spread g) (content : Content w)
    (after : Cursor.afterQuoteMark column (g ++ w) = ⟨g ++ w, column + 1, inner⟩) (s : Stack)
    (ending : List Token) :
    s.openBlocks ⟨t :: g ++ w, column, base⟩ ending =
      (s.quoted t).openBlocks ⟨g ++ w, column + 1, inner⟩ ending := by
  obtain ⟨here, skips⟩ := skipBlank_mark mark (g ++ w) column base
  have again := content.skipBlank_skipBlank spread (column + 1) inner
  rw [List.cons_append, openBlocks_of_quote s ending (starts_quote mark near _)
    (congrArg Cursor.rest skips), openQuote, here, skips, after, ← openBlocks_skipBlank again, quoted,
    emit_emit, List.map_nil, emit_nil]
  rfl

end

/-- The quotes that `g` shows are opened from `s` at `column` to `s'` at `column'`, whatever the line
holds behind them. -/
structure OpensQuotes (s : Stack) (g : List Token) (column base : Nat) (s' : Stack)
    (depth column' base' : Nat) : Prop where
  closed : s'.leaf = none
  raw : s'.raw = s.raw ++ g
  layers : ∃ quotes, s'.layers = quotes ++ s.layers ∧
    quotes.map Layer.container = List.replicate depth .quote
  quiet : s.Begins s' fun _ => False
  opens : ∀ w ending, Content w →
    s.openBlocks ⟨g ++ w, column, base⟩ ending = s'.openBlocks ⟨w, column', base'⟩ ending
  arrives : ∀ w, Content w →
    (ofLine (List.replicate depth .quote) ⟨g ++ w, column, base⟩).count = depth ∧
      (ofLine (List.replicate depth .quote) ⟨g ++ w, column, base⟩).cursor.skipBlank =
        ⟨w, column', base'⟩
  begins : depth ≠ 0 → ∀ w, Content w →
    BlockStart.ofCursor (⟨g ++ w, column, base⟩ : Cursor).skipBlank = .quote

namespace OpensQuotes

variable {t : Token}

theorem nil (closed : s.leaf = none) : OpensQuotes s [] column base s 0 column base :=
  ⟨closed, (List.append_nil _).symm, ⟨[], rfl, rfl⟩, (Grows.refl s).begins, fun _ _ _ => rfl,
    fun _ content => ⟨rfl, (content.skipBlank column base).2⟩, absurd rfl⟩

theorem of_blank (blank : t.kind = .whitespace) (spread : Spread (t :: g))
    (opened : OpensQuotes (s.emit [Tree.leaf t]) g (Text.advance Cursor.tabStop column t.text) base
      s' depth column' base') : OpensQuotes s (t :: g) column base s' depth column' base' := by
  have skips := fun w => (skipBlank_blank blank (g ++ w) column base).2
  have again := fun w (content : Content w) => content.skipBlank_skipBlank spread column base
  refine ⟨opened.closed, ?_, ?_, ?_, ?_, ?_, ?_⟩
  · have single : Tree.rawAll [Tree.leaf t] = [t] := Tree.rawAll_map_leaf [t]
    rw [opened.raw, raw_emit, single, List.append_assoc, List.singleton_append]
  · obtain ⟨quotes, layers, containers⟩ := opened.layers
    exact ⟨quotes, by rw [layers, layers_emit], containers⟩
  · exact (grows_emit s (Tree.calm_leaves [t])).begins.trans opened.quiet
  · intro w ending content
    rw [openBlocks_blank blank spread content]
    exact opened.opens w ending content
  · intro w content
    obtain ⟨count, cursor⟩ := opened.arrives w content
    obtain ⟨same_count, same_cursor⟩ := Continuation.ofLine_skipBlank (again w content) depth
    rw [List.cons_append, skips w] at same_count same_cursor
    exact ⟨same_count ▸ count, same_cursor ▸ cursor⟩
  · intro some_quote w content
    have here := opened.begins some_quote w content
    rw [← skips w, ← List.cons_append, again w content] at here
    exact here

theorem of_quoteMark {inner : Nat} (closed : s.leaf = none) (mark : t.kind = .gt)
    (near : column - base ≤ Cursor.maxIndent) (spread : Spread g)
    (after : ∀ w, Content w → Cursor.afterQuoteMark column (g ++ w) = ⟨g ++ w, column + 1, inner⟩)
    (opened : OpensQuotes (s.quoted t) g (column + 1) inner s' depth column' base') :
    OpensQuotes s (t :: g) column base s' (depth + 1) column' base' := by
  refine ⟨opened.closed, ?_, ?_, (begins_quoted closed t).trans opened.quiet, ?_, ?_,
    fun _ w _ => starts_quote mark near _⟩
  · rw [opened.raw, quoted, raw_emit, raw_push closed, List.append_assoc]
    simp
  · obtain ⟨quotes, layers, containers⟩ := opened.layers
    refine ⟨quotes ++ [⟨.quote, s.done⟩], ?_, ?_⟩
    · rw [layers, quoted, layers_emit, List.append_assoc]
      rfl
    · rw [List.map_append, containers, List.replicate_succ']
      rfl
  · intro w ending content
    rw [openBlocks_quoted mark near spread content (after w content)]
    exact opened.opens w ending content
  · intro w content
    obtain ⟨count, cursor⟩ := opened.arrives w content
    rw [List.cons_append, List.replicate_succ, ofLine, (skipBlank_mark mark (g ++ w) column base).2]
    simp only
    rw [if_pos ⟨mark, decide_eq_true near⟩, after w content]
    exact ⟨congrArg Nat.succ count, cursor⟩

end OpensQuotes

/-- Quote marks and blanks either open their quotes, whatever is behind them, or the line begins no
item. -/
theorem opensQuotes_or_none (markup : Markup g) (spread : Spread g) (closed : s.leaf = none)
    (column base : Nat) :
    (∃ s' depth column' base', OpensQuotes s g column base s' depth column' base') ∨
      ∀ w ending, Content w →
        s.Begins (s.openBlocks ⟨g ++ w, column, base⟩ ending) fun _ => False := by
  induction g generalizing s column base with
  | nil => exact Or.inl ⟨s, 0, column, base, .nil closed⟩
  | cons t g ih =>
    obtain ⟨kind, later⟩ := List.forall_mem_cons.mp markup
    have rest : Spread g := spread.tail
    rcases kind with blank | mark
    · rcases ih later rest (leaf_emit_eq_none closed [Tree.leaf t])
        (Text.advance Cursor.tabStop column t.text) base with
        ⟨s', depth, column', base', opened⟩ | none_begun
      · exact Or.inl ⟨s', depth, column', base', opened.of_blank blank spread⟩
      · refine Or.inr fun w ending content => ?_
        rw [openBlocks_blank blank spread content]
        exact (grows_emit s (Tree.calm_leaves [t])).begins.trans (none_begun w ending content)
    · by_cases near : column - base ≤ Cursor.maxIndent
      · obtain ⟨_, _, space, _, spaces⟩ := Markup.skipBlank later (column + 1) (column + 1)
        have after : ∀ w, Content w → Cursor.afterQuoteMark column (g ++ w) =
            ⟨g ++ w, column + 1, column + 1 + space.length⟩ := by
          intro w content
          rw [Cursor.afterQuoteMark, (spaces w content).2]
        rcases ih later rest (leaf_emit_eq_none (leaf_push s .quote) [Tree.token .quoteMark [t]])
          (column + 1) (column + 1 + space.length) with
          ⟨s', depth, column', base', opened⟩ | none_begun
        · exact Or.inl ⟨s', depth + 1, column', base',
            opened.of_quoteMark closed mark near rest after⟩
        · refine Or.inr fun w ending content => ?_
          rw [openBlocks_quoted mark near rest content (after w content)]
          exact (begins_quoted closed t).trans (none_begun w ending content)
      · -- a mark too far from the containers is text
        refine Or.inr fun w ending content => ?_
        have words : BlockStart.ofCursor (⟨t :: g ++ w, column, base⟩ : Cursor).skipBlank = .text := by
          rw [List.cons_append, (skipBlank_mark mark (g ++ w) column base).2]
          simp [BlockStart.ofCursor, Cursor.nearBase, near]
        rw [openBlocks_of_leaf s ending (by rw [words]; rintro _ _ ⟨⟩)
          (by rw [words]; rintro _ _ _ _ ⟨⟩)]
        exact ((grows_emit s (Tree.calm_leaves _)).trans
          (grows_openLeaf (leaf_emit_eq_none closed _) _ _ _)).begins

theorem inList_iff_last : s.inList style = true ↔ s.containers.getLast? = some (.list style) := by
  rw [inList_iff, topStyle?_eq_some, containers_last]

theorem listed_layers (s : Stack) (style : ListStyle) : ∃ above layers,
    (if s.inList style then s else s.push (.list style)).layers = ⟨.list style, above⟩ :: layers ∧
      (s.containers = (layers.map Layer.container).reverse ++ [.list style] ∨
        s.inList style = false ∧ s.containers = (layers.map Layer.container).reverse) := by
  by_cases open_list : s.inList style = true
  · rw [if_pos open_list]
    rw [inList_iff, topStyle?_eq_some] at open_list
    cases shape : s.layers with
    | nil =>
      rw [shape] at open_list
      cases open_list
    | cons layer layers =>
      rw [shape] at open_list
      obtain ⟨container, above⟩ := layer
      cases open_list
      refine ⟨above, layers, rfl, Or.inl ?_⟩
      rw [containers, shape, List.map_cons, List.reverse_cons]
  · exact ⟨s.done, s.layers, by rw [if_neg open_list]; rfl,
      Or.inr ⟨Bool.eq_false_iff.mpr open_list, rfl⟩⟩

theorem openBlocks_content (content : Content w) (visible : ∀ t ∈ w, t.text ≠ [])
    (starts : BlockStart.ofCursor ⟨w, column, base⟩ = .item style false) (s : Stack)
    (ending : List Token) :
    ∃ front start, column < start ∧ (s.openBlocks ⟨w, column, base⟩ ending).layers =
      front ++ ⟨.item start, (if s.inList style then s else s.push (.list style)).done⟩ ::
        (if s.inList style then s else s.push (.list style)).layers := by
  obtain ⟨none_left, skips⟩ := content.skipBlank column base
  obtain ⟨t, us, rfl, _⟩ := content
  have some_text : Token.join ((t :: us).take style.markerWidth) ≠ [] := by
    have first := visible t List.mem_cons_self
    cases style <;> simp [ListStyle.markerWidth, first]
  have right := Text.lt_advance (show 0 < Cursor.tabStop by decide) column some_text
  generalize reached : Text.advance Cursor.tabStop column
    (Token.join ((t :: us).take style.markerWidth)) = behind at right
  have opened := @openBlocks_of_item ⟨t :: us, column, base⟩ t us style false s ending
    (skips.symm ▸ starts) (congrArg Cursor.rest skips) behind (by rw [skips]; exact reached.symm)
    (us.drop (style.markerWidth - 1)) rfl
  generalize us.drop (style.markerWidth - 1) = left at opened
  obtain ⟨front, layers⟩ := layers_openBlocks (s.openItem ⟨t :: us, column, base⟩ style
    ((t :: us).take style.markerWidth) ⟨left, behind, contentColumn behind left⟩)
    (⟨left, behind, contentColumn behind left⟩ : Cursor).skipBlank ending
  refine ⟨front, _, Nat.lt_of_lt_of_le right (le_contentColumn behind left), ?_⟩
  rw [opened, layers, openItem, none_left, List.map_nil, emit_nil, layers_emit]
  rfl

theorem closeAfter_item (s : Stack) (count : Nat) (style : ListStyle) (bare : Bool) :
    s.closeAfter count (.item style bare) = s.closeAfter count (.item style false) := by
  unfold closeAfter
  cases s.containers[count]? with
  | none => rfl
  | some container => cases container <;> rfl

/-- A line that ends what is open does so too if an item with something in it begins where its item
does. -/
theorem cutBack_item {c d : Continuation} {bare : Bool} (ends : s.goesOn c = false)
    (count : d.count = c.count) (lead : d.lead = c.lead)
    (starts : BlockStart.ofCursor d.cursor.skipBlank = BlockStart.ofCursor c.cursor.skipBlank ∨
      BlockStart.ofCursor c.cursor.skipBlank = .item style bare ∧
        BlockStart.ofCursor d.cursor.skipBlank = .item style false) :
    s.goesOn d = false ∧ s.cutBack d = s.cutBack c := by
  rcases starts with same | ⟨item, item'⟩
  · refine ⟨?_, by rw [cutBack, cutBack, same, count, lead]⟩
    rw [← ends, goesOn, goesOn, same, count]
  · refine ⟨?_, by rw [cutBack, cutBack, item, item', count, lead, closeAfter_item _ _ _ bare]⟩
    rw [← ends, goesOn, goesOn, item', count]
    cases open_leaf : s.leaf with
    | none => rfl
    | some both =>
      obtain ⟨leaf, held⟩ := both
      cases leaf with
      | fence => rfl
      | paragraph =>
        rw [goesOn, open_leaf] at ends
        exact ends.symm

/-- A line that begins with the markup `f`, and then with an item at `column`, puts this item behind
the trees `done` in a list of style `style` inside `layers`, whatever the item holds. -/
structure ItemLine (s : Stack) (f : List Token) (style : ListStyle) (done above : List Tree)
    (layers : List Layer) (column base : Nat) : Prop where
  raw : rawLayers (⟨.list style, above⟩ :: layers) ++ Tree.rawAll done = s.raw ++ f
  opens : ∀ w ending, Content w → (∀ t ∈ w, t.text ≠ []) →
    BlockStart.ofCursor ⟨w, column, base⟩ = .item style false →
    ∃ front start, column < start ∧ (s.addLine (f ++ w) ending).layers =
      front ++ ⟨.item start, done⟩ :: ⟨.list style, above⟩ :: layers
  arrives : ∀ w, Content w →
    (ofLine (layers.map Layer.container).reverse ⟨f ++ w, 0, 0⟩).count = layers.length ∧
      (ofLine (layers.map Layer.container).reverse ⟨f ++ w, 0, 0⟩).cursor.skipBlank =
        ⟨w, column, base⟩

theorem OpensQuotes.containers_eq (opened : OpensQuotes s g column base s' depth column' base') :
    s'.containers = s.containers ++ List.replicate depth .quote := by
  obtain ⟨quotes, layers, same⟩ := opened.layers
  rw [Stack.containers, layers, List.map_append, List.reverse_append, same, List.reverse_replicate,
    Stack.containers]

/-- What is around the list of an item that begins on a line: what the line goes on with, and the
quotes it opens. -/
theorem around_item {c : Continuation} (stops : Continuation.Stops s.containers c)
    (opened : OpensQuotes (s.cutBack c) g column base s' depth column' base')
    (quote : depth ≠ 0 → BlockStart.ofCursor c.cursor.skipBlank = .quote) {bare : Bool}
    (item : depth = 0 → BlockStart.ofCursor c.cursor.skipBlank = .item style bare)
    {layers : List Layer}
    (listed : s'.containers = (layers.map Layer.container).reverse ++ [.list style] ∨
      s'.inList style = false ∧ s'.containers = (layers.map Layer.container).reverse) :
    (layers.map Layer.container).reverse =
      s.containers.take c.count ++ List.replicate depth .quote := by
  have containers := opened.containers_eq
  have none_open : depth = 0 → s'.containers = (s.cutBack c).containers := by
    rintro rfl
    rw [containers, List.replicate_zero, List.append_nil]
  rcases listed with inside | ⟨new_list, around⟩
  · -- the list was open, so no quote is opened in it, and the line leaves it for its next item
    have last : s'.containers.getLast? = some (.list style) := by rw [inside, List.getLast?_concat]
    have no_quote : depth = 0 := by
      cases depth with
      | zero => rfl
      | succ depth =>
        rw [containers, List.replicate_succ', ← List.append_assoc, List.getLast?_concat] at last
        cases last
    rcases containers_cutBack s c with same | ⟨style', bare', _, same⟩
    · rw [none_open no_quote, same] at last
      exact absurd last (stops.last_ne style)
    · rw [none_open no_quote, same] at inside
      rw [← (List.append_inj' inside rfl).1, no_quote, List.replicate_zero, List.append_nil]
  · rcases containers_cutBack s c with same | ⟨style', bare', starts, same⟩
    · rw [← around, containers, same]
    · have no_quote : depth = 0 := by
        by_contra some_quote
        rw [quote some_quote] at starts
        cases starts
      rw [item no_quote] at starts
      cases starts
      have open_list : s'.inList style = true := by
        rw [inList_iff_last, none_open no_quote, same, List.getLast?_concat]
      rw [new_list] at open_list
      cases open_list

theorem OpensQuotes.itemLine {count : Nat} {lead : List Tree} {bare : Bool} (between : s.Between)
    (reads : ∀ w, Content w →
      ofLine s.containers ⟨f ++ w, 0, 0⟩ = ⟨count, lead, ⟨g ++ w, column, base⟩⟩)
    (parts : Tree.rawAll lead ++ g = f) (content : Content w)
    (ends : s.goesOn ⟨count, lead, ⟨g ++ w, column, base⟩⟩ = false)
    (opened : OpensQuotes (s.cutBack ⟨count, lead, ⟨g ++ w, column, base⟩⟩) g column base s' depth
      column' base')
    (item : BlockStart.ofCursor ⟨w, column', base'⟩ = .item style bare) :
    ∃ done above layers, s.ItemLine f style done above layers column' base' := by
  have stops := between.stops_ofLine ⟨f ++ w, 0, 0⟩
  rw [reads w content] at stops
  have skips : depth = 0 → ∀ w, Content w →
      (⟨g ++ w, column, base⟩ : Cursor).skipBlank = ⟨w, column', base'⟩ := by
    rintro rfl w content
    exact (opened.arrives w content).2
  obtain ⟨above, layers, listed, around⟩ := s'.listed_layers style
  have begins : depth = 0 → ∀ w, Content w → ∀ {start : BlockStart},
      BlockStart.ofCursor ⟨w, column', base'⟩ = start →
        BlockStart.ofCursor (⟨g ++ w, column, base⟩ : Cursor).skipBlank = start := by
    intro none_quote w content start starts
    rw [skips none_quote w content, starts]
  have outer := around_item stops opened (fun some_quote => opened.begins some_quote w content)
    (fun none_quote => begins none_quote w content item) around
  refine ⟨(if s'.inList style then s' else s'.push (.list style)).done, above, layers, ?_, ?_, ?_⟩
  · have raw := raw_listed opened.closed style
    rw [opened.raw, raw_cutBack, List.append_assoc, parts] at raw
    rw [← raw, Stack.raw, leaf_listed opened.closed, ← listed]
    simp
  · intro w' ending content' visible item'
    have starts : BlockStart.ofCursor (⟨g ++ w', column, base⟩ : Cursor).skipBlank =
          BlockStart.ofCursor (⟨g ++ w, column, base⟩ : Cursor).skipBlank ∨
        BlockStart.ofCursor (⟨g ++ w, column, base⟩ : Cursor).skipBlank = .item style bare ∧
          BlockStart.ofCursor (⟨g ++ w', column, base⟩ : Cursor).skipBlank = .item style false := by
      by_cases none_quote : depth = 0
      · exact Or.inr ⟨begins none_quote w content item, begins none_quote w' content' item'⟩
      · refine Or.inl ?_
        rw [opened.begins none_quote w content, opened.begins none_quote w' content']
    obtain ⟨ends', cut⟩ := cutBack_item (d := ⟨count, lead, ⟨g ++ w', column, base⟩⟩) ends rfl rfl starts
    obtain ⟨front, start, right, made⟩ := openBlocks_content content' visible item' s' ending
    refine ⟨front, start, right, ?_⟩
    rw [addLine_of_ends (reads w' content') ending ends', cut, opened.opens w' ending content', made,
      listed]
  · intro w' content'
    have inside := stops.le
    dsimp only at inside outer
    have all : (s.containers.take count).length = count := List.length_take_of_le inside
    have kept := Continuation.ofLine_take s.containers ⟨f ++ w', 0, 0⟩
    rw [reads w' content'] at kept
    obtain ⟨total, cursor⟩ := Continuation.ofLine_append
      (by rw [kept]; exact all.symm) (List.replicate depth .quote)
    obtain ⟨count', cursor'⟩ := opened.arrives w' content'
    have length : layers.length = count + depth := by
      have lengths := congrArg List.length outer
      rw [List.length_append, all, List.length_replicate, List.length_reverse, List.length_map] at lengths
      exact lengths
    rw [kept] at total cursor
    rw [outer, total, cursor, all, length, count', cursor']
    exact ⟨rfl, rfl⟩

/-- A line whose content comes behind quote marks and blanks begins an item there, or none at all. -/
theorem itemLine_or_none (between : s.Between) (markup : Markup f) (spread : Spread f)
    (content : Content w) (ending : List Token) :
    (∃ style bare done above layers column base,
        BlockStart.ofCursor ⟨w, column, base⟩ = .item style bare ∧
          s.ItemLine f style done above layers column base) ∨
      s.Begins (s.addLine (f ++ w) ending) fun _ => False := by
  obtain ⟨count, lead, g, column, base, g_markup, reads⟩ :=
    Continuation.ofLine_markup s.containers markup 0 0
  rcases s.grows_addLine (f ++ w) ending with grows | ⟨c, read, made, whole, single, ends⟩
  · exact Or.inr grows.begins
  · rw [reads w content] at read
    subst read
    have parts : Tree.rawAll lead ++ g = f := by
      rw [← List.append_assoc] at whole
      exact List.append_cancel_right whole
    have g_spread : Spread g := by
      rw [← parts] at spread
      exact spread.right_of_append
    have cut := (s.grows_cutBack single).begins (p := fun _ => False)
    rcases opensQuotes_or_none g_markup g_spread (leaf_cutBack s _) column base with
      ⟨s', depth, column', base', opened⟩ | none_begun
    · by_cases item : ∃ style bare, BlockStart.ofCursor ⟨w, column', base'⟩ = .item style bare
      · obtain ⟨style, bare, item⟩ := item
        obtain ⟨done, above, layers, line⟩ := opened.itemLine between reads parts content ends item
        exact Or.inl ⟨style, bare, done, above, layers, column', base', item, line⟩
      · refine Or.inr ?_
        rw [made, opened.opens w ending content]
        obtain ⟨_, skips⟩ := content.skipBlank column' base'
        refine cut.trans (opened.quiet.trans ?_)
        rw [openBlocks_of_leaf s' ending]
        · exact ((grows_emit s' (Tree.calm_leaves _)).trans
            (grows_openLeaf (leaf_emit_eq_none opened.closed _) _ _ _)).begins
        · intro t us quote _
          have reads := BlockStart.ofCursor_reads (⟨w, column', base'⟩ : Cursor)
          rw [← skips, quote, skips] at reads
          obtain ⟨t, ts, rfl, _, other⟩ := content
          obtain ⟨_, _, shape, mark⟩ := reads
          cases shape
          exact other mark
        · intro style bare _ _ here _
          rw [skips] at here
          exact item ⟨style, bare, here⟩
    · rw [made]
      exact Or.inr (cut.trans (none_begun w ending content))

end Stack

end MarkdownEditing
