import MarkdownEditing.Proofs.Syntax.Realigned

namespace MarkdownEditing

open Token (Aligned)

namespace Text

def zeroed (t : Text) : Text := t.map fun c => if c.isDigit then '0' else c

variable {t : Text}

theorem zeroed_append (t u : Text) : zeroed (t ++ u) = t.zeroed ++ u.zeroed := List.map_append

theorem advance_zeroed (tab column : Nat) (t : Text) :
    advance tab column t.zeroed = advance tab column t := by
  have step : ∀ (column : Nat) (c : Char),
      stepColumn tab column (if c.isDigit then '0' else c) = stepColumn tab column c := by
    intro column c
    by_cases digit : c.isDigit = true
    · have no_tab : c ≠ '\t' := by
        rintro rfl
        cases digit
      rw [if_pos digit, stepColumn, stepColumn, if_neg no_tab]
      rfl
    · rw [if_neg digit]
  rw [advance, zeroed, List.foldl_map, advance]
  simp only [step]

theorem lastLine_zeroed (t : Text) : lastLine t.zeroed = (lastLine t).zeroed := by
  have feeds : ((fun c => c != '\n') ∘ fun c : Char => if c.isDigit then '0' else c) =
      fun c => c != '\n' := by
    funext c
    by_cases digit : c.isDigit = true
    · have no_feed : c ≠ '\n' := by
        rintro rfl
        cases digit
      simp [digit, no_feed]
    · simp [digit]
  rw [lastLine, lastLine, zeroed, zeroed, ← List.map_reverse, List.takeWhile_map, feeds,
    List.map_reverse]

theorem zeroed_of_digits (digits : ∀ c ∈ t, c.isDigit = true) :
    t.zeroed = List.replicate t.length '0' := by
  refine List.eq_replicate_iff.mpr ⟨List.length_map _, fun c member => ?_⟩
  obtain ⟨d, inside, rfl⟩ := List.mem_map.mp member
  exact if_pos (digits d inside)

end Text

namespace Token

/-- The same tokens, up to numbers with as many digits. -/
abbrev Flush : List Token → List Token → Prop :=
  List.Forall₂ fun t u => t.Alike u ∧ t.text.length = u.text.length

variable {ts us : List Token}

theorem Flush.aligned (flush : Flush ts us) : Aligned ts us := flush.imp fun _ _ both => both.1

theorem Flush.zeroed_join (flush : Flush ts us) : (join ts).zeroed = (join us).zeroed := by
  induction flush with
  | nil => rfl
  | @cons t u ts us both _ ih =>
    have here : Text.zeroed t.text = Text.zeroed u.text := by
      obtain ⟨alike, length⟩ := both
      cases alike with
      | same => rfl
      | @number m n later first second ends =>
        have size : m.length = n.length := by simpa using length
        rw [Text.zeroed_append, Text.zeroed_append,
          Text.zeroed_of_digits (BlockStart.isItemNumber_eq_true.mp first).2.2,
          Text.zeroed_of_digits (BlockStart.isItemNumber_eq_true.mp second).2.2, size]
    rw [join_cons, join_cons, Text.zeroed_append, Text.zeroed_append, here, ih]

theorem Flush.advance_eq (flush : Flush ts us) (tab column : Nat) :
    Text.advance tab column (join ts) = Text.advance tab column (join us) := by
  rw [← Text.advance_zeroed, flush.zeroed_join, Text.advance_zeroed]

theorem Flush.endColumn_eq (flush : Flush ts us) : endColumn ts = endColumn us := by
  rw [endColumn, endColumn, ← Text.advance_zeroed, ← Text.lastLine_zeroed, flush.zeroed_join,
    Text.lastLine_zeroed, Text.advance_zeroed]

theorem Flush.take (flush : Flush ts us) (n : Nat) : Flush (ts.take n) (us.take n) :=
  List.forall₂_take n flush

theorem Flush.drop (flush : Flush ts us) (n : Nat) : Flush (ts.drop n) (us.drop n) :=
  List.forall₂_drop n flush

end Token

structure Cursor.Flush (c d : Cursor) : Prop where
  rest : Token.Flush c.rest d.rest
  column : c.column = d.column
  base : c.base = d.base

namespace Cursor.Flush

variable {c d : Cursor}

theorem blank_eq (flush : c.Flush d) : c.blank = d.blank := blank_congr flush.rest.aligned

theorem skipBlank (flush : c.Flush d) : c.skipBlank.Flush d.skipBlank where
  rest := by
    rw [Cursor.skipBlank, Cursor.skipBlank, flush.blank_eq]
    exact flush.rest.drop _
  column := column_skipBlank flush.rest.aligned flush.column
  base := flush.base

theorem ofCursor_eq (flush : c.Flush d) : BlockStart.ofCursor c = BlockStart.ofCursor d :=
  BlockStart.ofCursor_congr flush.rest.aligned fun _ => by
    rw [nearBase, nearBase, flush.column, flush.base]

theorem afterQuoteMark {ts us : List Token} {column column' : Nat} (rest : Token.Flush ts us)
    (same : column = column') :
    (Cursor.afterQuoteMark column ts).Flush (Cursor.afterQuoteMark column' us) := by
  subst same
  have plain : (⟨ts, column + 1, column + 1⟩ : Cursor).Flush ⟨us, column + 1, column + 1⟩ :=
    ⟨rest, rfl, rfl⟩
  refine ⟨rest, rfl, ?_⟩
  simp only [Cursor.afterQuoteMark, plain.blank_eq]

theorem cons {t : Token} {ts : List Token} (flush : c.Flush d) (shape : c.rest = t :: ts) :
    ∃ u us, d.rest = u :: us ∧ t.kind = u.kind ∧ Token.Flush ts us := by
  have rest := flush.rest
  rw [shape] at rest
  obtain ⟨u, us, both, later, shape'⟩ := List.forall₂_cons_left_iff.mp rest
  exact ⟨u, us, shape', both.1.kind_eq, later⟩

theorem symm (flush : c.Flush d) : d.Flush c where
  rest := flush.rest.flip.imp fun _ _ both => ⟨both.1.symm, both.2.symm⟩
  column := flush.column.symm
  base := flush.base.symm

theorem nil_iff (flush : c.Flush d) : c.rest = [] ↔ d.rest = [] := by
  rw [← List.length_eq_zero_iff, ← List.length_eq_zero_iff, flush.rest.length_eq]

end Cursor.Flush

theorem Continuation.flush_ofLine (containers : List Container) {c d : Cursor} (flush : c.Flush d) :
    (ofLine containers c).count = (ofLine containers d).count ∧
      (ofLine containers c).cursor.Flush (ofLine containers d).cursor := by
  induction containers generalizing c d with
  | nil => exact ⟨rfl, flush⟩
  | cons container containers ih =>
    have skip := flush.skipBlank
    cases container with
    | quote =>
      have near : c.skipBlank.nearBase = d.skipBlank.nearBase := by
        rw [Cursor.nearBase, Cursor.nearBase, skip.column, skip.base]
      cases shape : c.skipBlank.rest with
      | nil =>
        have none_left := skip.nil_iff.mp shape
        simp only [ofLine, shape, none_left]
        exact ⟨rfl, flush⟩
      | cons t ts =>
        obtain ⟨u, us, shape', kind, later⟩ := skip.cons shape
        simp only [ofLine, shape, shape', kind, near]
        split
        · obtain ⟨count, cursor⟩ := ih (Cursor.Flush.afterQuoteMark later skip.column)
          exact ⟨congrArg Nat.succ count, cursor⟩
        · exact ⟨rfl, flush⟩
    | list style =>
      obtain ⟨count, cursor⟩ := ih flush
      rw [ofLine, ofLine, count]
      split
      · exact ⟨rfl, flush⟩
      · exact ⟨rfl, cursor⟩
    | item column =>
      have base : max c.base column = max d.base column := by rw [flush.base]
      have inner : ({ c with base := max c.base column } : Cursor).Flush
          { d with base := max d.base column } := ⟨flush.rest, flush.column, base⟩
      obtain ⟨count, cursor⟩ := ih inner
      simp only [ofLine, ne_eq, skip.nil_iff, skip.column]
      split
      · exact ⟨rfl, flush⟩
      · exact ⟨congrArg Nat.succ count, cursor⟩

namespace Stack

variable {s s' : Stack} {c d : Cursor} {tokens tokens' ending : List Token}

theorem contentColumn_congr {ts us : List Token} (flush : Token.Flush ts us) (column : Nat) :
    contentColumn column ts = contentColumn column us := by
  cases flush with
  | nil => rfl
  | @cons t u ts us both later =>
    have empty : ts = [] ↔ us = [] := by
      rw [← List.length_eq_zero_iff, ← List.length_eq_zero_iff, later.length_eq]
    have width : Text.advance Cursor.tabStop column t.text =
        Text.advance Cursor.tabStop column u.text := by
      have one := Token.Flush.advance_eq (.cons both .nil) Cursor.tabStop column
      simpa using one
    simp only [contentColumn, both.1.kind_eq, ne_eq, empty, width]

theorem inList_containers {style : ListStyle} :
    s.inList style = true ↔ s.containers.getLast? = some (.list style) := by
  obtain ⟨layers, done, leaf⟩ := s
  rw [containers, List.getLast?_reverse, List.head?_map]
  cases layers with
  | nil => simp [inList]
  | cons layer layers =>
    obtain ⟨x, before⟩ := layer
    cases x <;> simp [inList]

theorem containers_listed_congr (same : s.containers = s'.containers) (style : ListStyle) :
    (if s.inList style then s else s.push (.list style)).containers =
      (if s'.inList style then s' else s'.push (.list style)).containers := by
  have listed : s.inList style = s'.inList style := by
    rw [Bool.eq_iff_iff, inList_containers, inList_containers, same]
  rw [listed]
  split
  · exact same
  · rw [containers_push, containers_push, same]

theorem containers_closeAfter_congr (same : s.containers = s'.containers) (count : Nat)
    (start : BlockStart) :
    (s.closeAfter count start).containers = (s'.closeAfter count start).containers := by
  have length := congrArg List.length same
  rw [length_containers, length_containers] at length
  unfold closeAfter
  rw [containers_popMany, containers_popMany, same, length]

@[simp]
theorem containers_openQuote (s : Stack) (c : Cursor) (t : Token) (us : List Token) :
    (s.openQuote c t us).containers = s.containers ++ [.quote] := by
  simp [openQuote]

theorem containers_openItem_congr {style : ListStyle} {next next' : Cursor}
    (same : s.containers = s'.containers) (base : next.base = next'.base)
    (marker marker' : List Token) :
    (s.openItem c style marker next).containers = (s'.openItem d style marker' next').containers := by
  have led : (s.emit (c.blank.map Tree.leaf)).containers =
      (s'.emit (d.blank.map Tree.leaf)).containers := by
    rw [containers_emit, containers_emit, same]
  have listed := containers_listed_congr led style
  rw [openItem, openItem, containers_emit, containers_emit, containers_push, containers_push, listed,
    base]

/-- What tokens of the same widths open has its content in the same columns. -/
theorem containers_openBlocks_congr (same : s.containers = s'.containers) (flush : c.Flush d) :
    (s.openBlocks c ending).containers = (s'.openBlocks d ending).containers := by
  -- Both lines begin the same block at every step, so the second is opened along with the first.
  fun_induction openBlocks s c ending generalizing s' d with
  | case1 =>
    rename_i s c led t us shape quote next inner ih
    have skip := flush.skipBlank
    obtain ⟨u, vs, shape', _, later⟩ := skip.cons shape
    rw [openBlocks_of_quote s' ending (skip.ofCursor_eq.symm.trans quote) shape']
    refine ih ?_ (Cursor.Flush.afterQuoteMark later skip.column).skipBlank
    exact (containers_openQuote s c t us).trans (by rw [containers_openQuote, same])
  | case2 =>
    rename_i s c led style bare t us shape item marker column left_over next listed inner ih
    have skip := flush.skipBlank
    obtain ⟨u, vs, shape', _, later⟩ := skip.cons shape
    have opening : Token.Flush marker ((u :: vs).take style.markerWidth) := by
      have rest := skip.rest
      rw [shape, shape'] at rest
      exact rest.take _
    have behind : Token.Flush left_over (vs.drop (style.markerWidth - 1)) := later.drop _
    have reached : column = Text.advance Cursor.tabStop d.skipBlank.column
        (Token.join ((u :: vs).take style.markerWidth)) := by
      rw [← opening.advance_eq, ← skip.column]
    have content := contentColumn_congr behind column
    have next_flush : next.Flush
        ⟨vs.drop (style.markerWidth - 1), column,
        contentColumn column (vs.drop (style.markerWidth - 1))⟩ :=
      ⟨behind, rfl, content⟩
    rw [openBlocks_of_item s' ending (skip.ofCursor_eq.symm.trans item) shape' reached rfl]
    exact ih (containers_openItem_congr same next_flush.base _ _) next_flush.skipBlank
  | case3 =>
    rename_i s c led no_quote no_item
    have skip := flush.skipBlank
    have leaf := @openBlocks_of_leaf d s' ending
      (fun t us quote shape' => by
        obtain ⟨v, vs, shape, _⟩ := skip.symm.cons shape'
        exact no_quote v vs (skip.ofCursor_eq.trans quote) shape)
      (fun style bare t us item shape' => by
        obtain ⟨v, vs, shape, _⟩ := skip.symm.cons shape'
        exact no_item style bare v vs (skip.ofCursor_eq.trans item) shape)
    rw [leaf, containers_openLeaf, containers_openLeaf, containers_emit, containers_emit, same]

theorem containers_addLine_congr (alike : s.Alike s') (same : s.containers = s'.containers)
    (flush : Token.Flush tokens tokens') :
    (s.addLine tokens ending).containers = (s'.addLine tokens' ending).containers := by
  have line : (⟨tokens, 0, 0⟩ : Cursor).Flush ⟨tokens', 0, 0⟩ := ⟨flush, rfl, rfl⟩
  have goes_on := Continuation.flush_ofLine s'.containers line
  obtain ⟨a, _, read, made, step, _⟩ := s.exists_lineStep tokens ending
  generalize read' : Continuation.ofLine s'.containers ⟨tokens', 0, 0⟩ = b at goes_on
  rw [← same, read] at goes_on
  obtain ⟨count, cursor⟩ := goes_on
  have both := alike.goesOn count cursor.skipBlank.ofCursor_eq
  rw [made]
  cases step with
  | fence open_leaf goes_on =>
    obtain ⟨held', leaf'⟩ := alike.leaf_some open_leaf
    rw [addLine_of_fence read' ending leaf' (both.symm.trans goes_on), containers_fenceLine,
      containers_fenceLine, containers_emit, containers_emit, same]
  | paragraph open_leaf goes_on =>
    obtain ⟨held', leaf'⟩ := alike.leaf_some open_leaf
    rw [addLine_of_paragraph read' ending leaf' (both.symm.trans goes_on), containers_emit,
      containers_emit, same]
  | reopen stops =>
    rw [addLine_of_ends read' ending (both.symm.trans stops)]
    refine containers_openBlocks_congr ?_ cursor
    have closed : s.closeLeaf.containers = s'.closeLeaf.containers := by
      rw [containers_closeLeaf, containers_closeLeaf, same]
    rw [cutBack, cutBack, containers_emit, containers_emit, count, cursor.skipBlank.ofCursor_eq]
    exact containers_closeAfter_congr closed b.count _

variable {ts us : List Token}

theorem keepsBlanks_of_flush (flush : Token.Flush ts us) : KeepsBlanks ts us := by
  intro i n mark raw blank _ _ _ _ _
  rw [Token.Narrow, Token.Narrow, (flush.take n).endColumn_eq]

theorem keepsSides_of_containers (same : s.containers = s'.containers) (line : List Token) :
    s.KeepsSides s' line := by
  intro outer inner outer' inner' column column' stand front front' length _ _
  rw [← same, front] at front'
  obtain ⟨_, rest⟩ := List.append_inj front' length
  cases rest
  exact Or.inr ⟨Iff.rfl, Or.inr (Or.inr Iff.rfl)⟩

theorem keepsSides_of_blank {line : List Token} (blank : (⟨line, 0, 0⟩ : Cursor).skipBlank.rest = []) :
    s.KeepsSides s' line := by
  intro outer inner outer' inner' column column' stand _ _ _ found some_left
  cases quotes : outer.count .quote with
  | zero =>
    rw [quotes] at found
    cases found
    exact absurd blank some_left
  | succ n =>
    rw [quotes, Cursor.behindQuotes, blank] at found
    cases found

/-- Tokens of the same widths leave the same blocks open, with their content in the same columns. -/
theorem flush_lines (flush : Token.Flush ts us) (raw : ∀ t ∈ ts, t.Raw) (spread : Token.Spread ts) :
    (empty.lines ts).Alike (empty.lines us) ∧
      (empty.lines ts).containers = (empty.lines us).containers := by
  apply @line_induction ts us (fun above above' => (empty.lines above).Alike (empty.lines above') ∧
    (empty.lines above).containers = (empty.lines above').containers) flush.aligned
  · rw [Stack.lines]
    exact ⟨alike_empty, rfl⟩
  · rintro above above' tokens tokens' ending behind ⟨alike, same⟩
    refine ⟨behind.alike_lines (keepsBlanks_of_flush flush) raw spread alike
      (keepsSides_of_containers same tokens), ?_⟩
    have line : Token.Flush tokens tokens' := by
      obtain ⟨later, _, parts⟩ := behind.parts
      obtain ⟨later', _, parts'⟩ := behind.parts'
      have rest := (flush.drop above.length).take tokens.length
      rw [parts, List.drop_left, List.take_left, parts', behind.read.length_eq, List.drop_left,
        behind.line.length_eq, List.take_left] at rest
      exact rest
    rw [behind.lines_eq.1, behind.lines_eq.2]
    exact containers_addLine_congr alike same line

/-- A text whose numbers keep their widths is steady. -/
theorem steady_of_flush (flush : Token.Flush ts us) (raw : ∀ t ∈ ts, t.Raw)
    (spread : Token.Spread ts) : Steady ts us where
  blanks := keepsBlanks_of_flush flush
  lines n _ _ _ := by
    have above := flush_lines (flush.take (n + 1))
      (fun t member => raw t (List.mem_of_mem_take member)) (spread.take _)
    exact keepsSides_of_containers above.2 _

end Stack

end MarkdownEditing
