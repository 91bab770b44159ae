import MarkdownEditing.Proofs.Syntax.Steady

namespace MarkdownEditing

open Token (Aligned)

namespace Stack

open Token (Spread endColumn)

variable {ts ts' : List Token} {s s' : Stack} {c c' : Cursor} {ending : List Token}
  {more : List Visit}

def openQuote (s : Stack) (c : Cursor) (t : Token) (us : List Token) : Stack :=
  ((s.emit (c.blank.map Tree.leaf)).push .quote).emit
    (Tree.token .quoteMark [t] :: (Cursor.afterQuoteMark c.skipBlank.column us).blank.map Tree.leaf)

def openItem (s : Stack) (c : Cursor) (style : ListStyle) (marker : List Token) (next : Cursor) :
    Stack :=
  ((if (s.emit (c.blank.map Tree.leaf)).inList style then s.emit (c.blank.map Tree.leaf)
    else (s.emit (c.blank.map Tree.leaf)).push (.list style)).push (.item next.base)).emit
      (Tree.glue .listMark marker ++ next.blank.map Tree.leaf)

theorem openBlocks_of_quote {t : Token} {us : List Token} (s : Stack) (ending : List Token)
    (starts : BlockStart.ofCursor c.skipBlank = .quote) (shape : c.skipBlank.rest = t :: us) :
    s.openBlocks c ending = (s.openQuote c t us).openBlocks
      (Cursor.afterQuoteMark c.skipBlank.column us).skipBlank ending := by
  rw [openBlocks]
  split
  · rename_i shape'
    rw [shape] at shape'
    cases shape'
    rfl
  · rename_i starts' _
    rw [starts] at starts'
    cases starts'
  · rename_i no_quote _
    exact absurd shape (no_quote t us starts)

theorem openBlocks_of_item {t : Token} {us : List Token} {style : ListStyle} {bare : Bool}
    (s : Stack) (ending : List Token) (starts : BlockStart.ofCursor c.skipBlank = .item style bare)
    (shape : c.skipBlank.rest = t :: us) {column : Nat}
    (reached : column = Text.advance Cursor.tabStop c.skipBlank.column
      (Token.join ((t :: us).take style.markerWidth)))
    {rest : List Token} (left : rest = us.drop (style.markerWidth - 1)) :
    s.openBlocks c ending =
      (s.openItem c style ((t :: us).take style.markerWidth)
        ⟨rest, column, contentColumn column rest⟩).openBlocks
          (⟨rest, column, contentColumn column rest⟩ : Cursor).skipBlank ending := by
  subst reached left
  rw [openBlocks]
  split
  · rename_i starts' _
    rw [starts] at starts'
    cases starts'
  · rename_i starts' shape'
    rw [starts] at starts'
    rw [shape] at shape'
    cases starts'
    cases shape'
    rfl
  · rename_i no_item
    exact absurd shape (no_item style bare t us starts)

theorem openBlocks_of_leaf (s : Stack) (ending : List Token)
    (no_quote : ∀ t us, BlockStart.ofCursor c.skipBlank = .quote → c.skipBlank.rest = t :: us → False)
    (no_item : ∀ style bare t us, BlockStart.ofCursor c.skipBlank = .item style bare →
      c.skipBlank.rest = t :: us → False) :
    s.openBlocks c ending = (s.emit (c.blank.map Tree.leaf)).openLeaf
      (BlockStart.ofCursor c.skipBlank) c.skipBlank.rest ending := by
  rw [openBlocks]
  split
  · rename_i quote shape
    exact (no_quote _ _ quote shape).elim
  · rename_i item shape
    exact (no_item _ _ _ _ item shape).elim
  · rfl

theorem exists_walk_before {whole : List Visit} (closed : s.leaf = none)
    (walk : whole = (s.openBlocks c ending).walk ++ more) : ∃ later, whole = s.walk ++ later := by
  obtain ⟨added, opened, _⟩ := @extends_openBlocks s ending c closed
  exact ⟨added ++ more, by rw [walk, opened, List.append_assoc]⟩

theorem Alike.emit_blank (alike : s.Alike s') (rest : Aligned c.rest c'.rest) :
    (s.emit (c.blank.map Tree.leaf)).Alike (s'.emit (c'.blank.map Tree.leaf)) := by
  rw [← Cursor.blank_congr rest]
  exact alike.emit (Tree.aligned_leaves (Token.aligned_refl _))

/-- Of two texts the same is read, up to numbers, and the same block begins at the cursors. -/
structure Abreast (ts ts' behind behind' : List Token) (s s' : Stack) (c c' : Cursor) : Prop where
  alike : s.Alike s'
  rest : Aligned c.rest c'.rest
  reading : Midway ts behind s c
  reading' : Midway ts' behind' s' c'
  starts : BlockStart.ofCursor c.skipBlank = BlockStart.ofCursor c'.skipBlank

namespace Abreast

variable {behind behind' us : List Token} {t : Token}

theorem of_openQuote (abreast : Abreast ts ts' behind behind' s s' c c') (keeps : KeepsBlanks ts ts')
    (ends : behind.takeWhile (·.kind != .newline) = [])
    (begins : BlockStart.ofCursor c.skipBlank = .quote) (shape : c.skipBlank.rest = t :: us)
    (walk : (Tree.ofTokens ts).walk = (s.openQuote c t us).walk ++ more) :
    ∃ vs, c'.skipBlank.rest = t :: vs ∧
      Abreast ts ts' behind behind' (s.openQuote c t us) (s'.openQuote c' t vs)
        (Cursor.afterQuoteMark c.skipBlank.column us).skipBlank
        (Cursor.afterQuoteMark c'.skipBlank.column vs).skipBlank := by
  have left := Cursor.aligned_skipBlank abreast.rest
  rw [shape] at left
  obtain ⟨u, vs, alike_mark, later, shape'⟩ := List.forall₂_cons_left_iff.mp left
  have mark : t.kind = .gt := by
    obtain ⟨_, _, same, mark⟩ : BlockStart.quote.Reads (t :: us) := by
      rw [← begins, ← shape]
      exact BlockStart.ofCursor_reads _
    cases same
    exact mark
  obtain rfl := alike_mark.eq_of_kind (by rw [mark]; decide)
  have read := abreast.reading.emit_blank.push .quote
  have read' := abreast.reading'.emit_blank.push .quote
  have glyph : Token.join [t] = ['>'] := by
    have raw := read.raw t (by rw [shape]; exact List.mem_cons_self)
    simpa using raw.text_of_glyph (c := '>') (by rw [mark]; rfl)
  have column : ∀ (column : Nat) (us : List Token), (Cursor.afterQuoteMark column us).column =
      Text.advance Cursor.tabStop column (Token.join [t]) := by
    intro column us
    rw [glyph]
    rfl
  have pushed := (abreast.alike.emit_blank abreast.rest).push .quote
  have next_blank := Cursor.blank_congr (c := Cursor.afterQuoteMark c.skipBlank.column us)
    (d := Cursor.afterQuoteMark c'.skipBlank.column vs) later
  have glyphs : Tree.rawAll [Tree.token .quoteMark [t]] = [t] := rfl
  have token : Tree.walkAll [Tree.token .quoteMark [t]] = [.leaf .quoteMark [t]] := by simp
  refine ⟨vs, shape', ?_, Cursor.aligned_skipBlank later,
    read.emit_marker_blank shape (column _ _) glyphs,
    read'.emit_marker_blank shape' (column _ _) glyphs, ?_⟩
  · rw [openQuote, openQuote, ← next_blank]
    exact pushed.emit ((Tree.aligned_token .quoteMark (Token.aligned_refl [t])).append
      (Tree.aligned_leaves (Token.aligned_refl _)))
  · exact read.ofCursor_eq keeps read' ends (Or.inl rfl) token shape shape' (column _ _) (column _ _)
      pushed.raw_aligned (Token.aligned_refl [t]) later (Cursor.marked_afterQuoteMark _ _)
      (Cursor.marked_afterQuoteMark _ _) walk

theorem of_openItem {style : ListStyle} {column : Nat} {left_over : List Token}
    (abreast : Abreast ts ts' behind behind' s s' c c') (keeps : KeepsBlanks ts ts')
    (ends : behind.takeWhile (·.kind != .newline) = []) (shape : c.skipBlank.rest = t :: us)
    (reached : column = Text.advance Cursor.tabStop c.skipBlank.column
      (Token.join ((t :: us).take style.markerWidth)))
    (left : left_over = us.drop (style.markerWidth - 1))
    (walk : (Tree.ofTokens ts).walk = (s.openItem c style ((t :: us).take style.markerWidth)
      ⟨left_over, column, contentColumn column left_over⟩).walk ++ more) :
    ∃ u vs column' left_over', c'.skipBlank.rest = u :: vs ∧
      column' = Text.advance Cursor.tabStop c'.skipBlank.column
        (Token.join ((u :: vs).take style.markerWidth)) ∧
      left_over' = vs.drop (style.markerWidth - 1) ∧
      Abreast ts ts' behind behind'
        (s.openItem c style ((t :: us).take style.markerWidth)
          ⟨left_over, column, contentColumn column left_over⟩)
        (s'.openItem c' style ((u :: vs).take style.markerWidth)
          ⟨left_over', column', contentColumn column' left_over'⟩)
        (⟨left_over, column, contentColumn column left_over⟩ : Cursor).skipBlank
        (⟨left_over', column', contentColumn column' left_over'⟩ : Cursor).skipBlank := by
  have aligned := Cursor.aligned_skipBlank abreast.rest
  rw [shape] at aligned
  obtain ⟨u, vs, alike_mark, later, shape'⟩ := List.forall₂_cons_left_iff.mp aligned
  have parts : ∀ (t : Token) (us : List Token), t :: us =
      (t :: us).take style.markerWidth ++ us.drop (style.markerWidth - 1) := fun t us => by
    rw [← drop_marker style t us, List.take_append_drop]
  have opening := Token.Aligned.take (List.Forall₂.cons alike_mark later) style.markerWidth
  have behind_opening := Token.Aligned.drop later (style.markerWidth - 1)
  have some_marker : (t :: us).take style.markerWidth ≠ [] := by
    cases style <;> simp [ListStyle.markerWidth]
  have token : Tree.walkAll (Tree.glue .listMark ((t :: us).take style.markerWidth)) =
      [.leaf .listMark ((t :: us).take style.markerWidth)] := by
    rw [Tree.glue, if_neg some_marker, if_pos (markerWidth_le style _)]
    simp
  subst left
  have front := shape.trans (parts t us)
  have front' := shape'.trans (parts u vs)
  generalize reached' : Text.advance Cursor.tabStop c'.skipBlank.column
    (Token.join ((u :: vs).take style.markerWidth)) = column'
  refine ⟨u, vs, column', _, shape', reached'.symm, rfl, ?_⟩
  generalize us.drop (style.markerWidth - 1) = left_over at *
  generalize vs.drop (style.markerWidth - 1) = left_over' at *
  have read := (abreast.reading.emit_blank.push_list style).push
    (.item (contentColumn column left_over))
  have read' := (abreast.reading'.emit_blank.push_list style).push
    (.item (contentColumn column' left_over'))
  have pushed := ((abreast.alike.emit_blank abreast.rest).push_list style).push
    (Container.Alike.item (contentColumn column left_over) (contentColumn column' left_over'))
  have next_blank := Cursor.blank_congr (c := ⟨left_over, column, contentColumn column left_over⟩)
    (d := ⟨left_over', column', contentColumn column' left_over'⟩) behind_opening
  refine ⟨?_, Cursor.aligned_skipBlank behind_opening,
    read.emit_marker_blank front reached (Tree.rawAll_glue _ _),
    read'.emit_marker_blank front' reached'.symm (Tree.rawAll_glue _ _), ?_⟩
  · rw [openItem, openItem, ← next_blank]
    exact pushed.emit ((Tree.aligned_glue .listMark opening).append
      (Tree.aligned_leaves (Token.aligned_refl _)))
  · exact read.ofCursor_eq keeps read' ends (Or.inr rfl) token front front' reached reached'.symm
      pushed.raw_aligned opening behind_opening (Cursor.marked_contentColumn _ _)
      (Cursor.marked_contentColumn _ _) walk

end Abreast

theorem aligned_openBlocks {behind behind' : List Token} (keeps : KeepsBlanks ts ts')
    (walk : (Tree.ofTokens ts).walk = (s.openBlocks c ending).walk ++ more)
    (abreast : Abreast ts ts' behind behind' s s' c c')
    (ends : behind.takeWhile (·.kind != .newline) = []) :
    (s.openBlocks c ending).Alike (s'.openBlocks c' ending) := by
  -- Markers that are read stay in the walk of the whole text, from which both sides go on alike.
  fun_induction openBlocks s c ending generalizing s' c' with
  | case1 =>
    rename_i s c led t us shape begins next inner ih
    obtain ⟨later, here⟩ := exists_walk_before (leaf_emit_eq_none rfl _) walk
    obtain ⟨vs, shape', inside⟩ := abreast.of_openQuote keeps ends begins shape here
    rw [openBlocks_of_quote s' ending (abreast.starts.symm.trans begins) shape']
    exact ih walk inside
  | case2 =>
    rename_i s c led style bare t us shape begins marker column left_over next listed inner ih
    obtain ⟨later, here⟩ := exists_walk_before (leaf_emit_eq_none rfl _) walk
    obtain ⟨u, vs, column', left_over', shape', reached', left', inside⟩ :=
      abreast.of_openItem keeps ends shape rfl rfl here
    rw [openBlocks_of_item s' ending (abreast.starts.symm.trans begins) shape' reached' left']
    exact ih walk inside
  | case3 =>
    rename_i s c led no_quote no_item
    have left := Cursor.aligned_skipBlank abreast.rest
    have leaf := @openBlocks_of_leaf c' s' ending
      (fun t us quote shape' => by
        rw [shape'] at left
        obtain ⟨v, vs, _, _, shape⟩ := List.forall₂_cons_right_iff.mp left
        exact no_quote v vs (abreast.starts.trans quote) shape)
      (fun style bare t us item shape' => by
        rw [shape'] at left
        obtain ⟨v, vs, _, _, shape⟩ := List.forall₂_cons_right_iff.mp left
        exact no_item style bare v vs (abreast.starts.trans item) shape)
    rw [leaf, ← abreast.starts]
    exact (abreast.alike.emit_blank abreast.rest).openLeaf _ left ending

/-- The blanks and quote marks that a line goes on with containers by lead up to the cursor. -/
theorem column_ofLine (containers : List Container) (c : Cursor) (raw : ∀ t ∈ c.rest, t.Raw) :
    (Continuation.ofLine containers c).cursor.column = Text.advance Cursor.tabStop c.column
      (Token.join (Tree.rawAll (Continuation.ofLine containers c).lead)) := by
  induction containers generalizing c with
  | nil => rfl
  | cons container containers ih =>
    cases container with
    | quote =>
      rw [Continuation.ofLine]
      split
      · rename_i t ts shape
        split
        · rename_i mark
          have inside : ∀ u ∈ t :: ts, u.Raw := fun u member =>
            raw u (Cursor.mem_of_mem_skipBlank (by rw [shape]; exact member))
          have glyph := (inside t List.mem_cons_self).text_of_glyph (c := '>') (by rw [mark.1]; rfl)
          have later := ih (Cursor.afterQuoteMark c.skipBlank.column ts)
            fun u member => inside u (List.mem_cons_of_mem _ member)
          simp only [Tree.rawAll_append, Tree.rawAll_map_leaf, Tree.rawAll_cons, Tree.raw_token,
            Token.join_append, Token.join_cons, Token.join_nil, List.append_nil, glyph,
            Text.advance_append]
          exact later
        · rfl
      · rfl
    | list style =>
      rw [Continuation.ofLine_list]
      exact ih c raw
    | item column =>
      rw [Continuation.ofLine]
      split
      · rfl
      · exact ih { c with base := max c.base column } raw

theorem closesFence_congr {mark : Kind} {length : Nat} (rest : Aligned c.rest c'.rest)
    (near : c.nearBase = c'.nearBase) : closesFence mark length c = closesFence mark length c' := by
  have run := @Inline.runLength_congr _ _ mark rest.map_kind_eq
  have left := rest.drop (Inline.runLength mark c'.rest)
  have blanks : ∀ ts : List Token,
      ts.all (·.kind == .whitespace) = (ts.map Token.kind).all (· == .whitespace) := by
    intro ts
    rw [List.all_map]
    rfl
  simp only [closesFence, near, run, blanks, left.map_kind_eq, left.length_eq]

theorem closesFence_of_near {mark : Kind} {length : Nat}
    (near : closesFence mark length { c with base := c.column } = false) :
    closesFence mark length c = false := by
  have here : ({ c with base := c.column } : Cursor).nearBase = true := by simp [Cursor.nearBase]
  rw [closesFence, here] at near
  rw [closesFence]
  cases c.nearBase with
  | false => rfl
  | true => exact near

theorem closesFence_eq {mark : Kind} {length : Nat} {held : List Tree} (fenced : s.Fenced)
    (leaf : s.leaf = some (.fence mark length, held)) (rest : Aligned c.rest c'.rest)
    (near : s.Inert c ∨ (c.rest ≠ [] → c.nearBase = c'.nearBase)) :
    closesFence mark length c = closesFence mark length c' := by
  rcases near with inert | near
  · have here := inert.2 mark length held leaf
    have there : closesFence mark length { c' with base := c'.column } = false := by
      rw [← here]
      exact (@closesFence_congr { c with base := c.column } { c' with base := c'.column } _ _ rest
        (by simp [Cursor.nearBase])).symm
    rw [closesFence_of_near here, closesFence_of_near there]
  · by_cases none_left : c.rest = []
    · have none_left' : c'.rest = [] := by
        rw [none_left] at rest
        exact List.forall₂_nil_left_iff.mp rest
      have some_marks := fenced mark length held leaf
      have short : ¬length ≤ Inline.runLength mark [] := Nat.not_le.mpr some_marks
      simp [closesFence, none_left, none_left', short]
    · exact closesFence_congr rest (near none_left)

theorem Alike.fenceLine (alike : s.Alike s') (rest : Aligned c.rest c'.rest) {mark : Kind}
    {length : Nat} (closes : closesFence mark length c.skipBlank = closesFence mark length c'.skipBlank)
    (ending : List Token) :
    (s.fenceLine mark length c ending).Alike (s'.fenceLine mark length c' ending) := by
  have left := Cursor.aligned_skipBlank rest
  have run := @Inline.runLength_congr _ _ mark left.map_kind_eq
  have ended := Tree.aligned_leaves (Token.aligned_refl ending)
  have blanks := Tree.aligned_leaves (Token.aligned_refl c.blank)
  simp only [Stack.fenceLine, closes, run, ← Cursor.blank_congr rest]
  split
  · exact (alike.emit (((blanks.append (Tree.aligned_glue _ (left.take _))).append
      (Tree.aligned_leaves (left.drop _))).append ended)).closeLeaf
  · exact alike.emit ((Tree.aligned_leaves rest).append ended)

theorem Alike.leaf_some (alike : s.Alike s') {leaf : OpenLeaf} {held : List Tree}
    (here : s.leaf = some (leaf, held)) : ∃ held', s'.leaf = some (leaf, held') := by
  have leaves := alike.leaf
  rw [here] at leaves
  cases other : s'.leaf with
  | none =>
    rw [other] at leaves
    cases leaves
  | some both =>
    rw [other] at leaves
    obtain ⟨leaf', held'⟩ := both
    cases leaves with
    | some same =>
      cases same.1
      exact ⟨held', rfl⟩

theorem goesOn_of_text {held : List Tree} {a : Continuation}
    (paragraph : s.leaf = some (.paragraph, held))
    (words : BlockStart.ofCursor a.cursor.skipBlank = .text) : s.goesOn a = true := by
  rw [goesOn, paragraph, words]
  rfl

theorem Alike.goesOn (alike : s.Alike s') {a b : Continuation} (count : a.count = b.count)
    (starts : BlockStart.ofCursor a.cursor.skipBlank = BlockStart.ofCursor b.cursor.skipBlank) :
    s.goesOn a = s'.goesOn b := by
  unfold Stack.goesOn
  rw [count, starts, alike.length_eq]
  cases leaf : s.leaf with
  | none => rw [alike.leaf_none leaf]
  | some open_leaf =>
    obtain ⟨kind, held⟩ := open_leaf
    obtain ⟨held', leaf'⟩ := alike.leaf_some leaf
    rw [leaf']
    cases kind <;> rfl

/-- Lines that match begin alike, and both go on with the open leaf or none of them does. They go on
with as many containers, unless both go on with an open paragraph. -/
theorem Alike.goesOn_of_matches (alike : s.Alike s') {a b : Continuation}
    (matched : Continuation.Matches s.Inert (∃ held, s.leaf = some (.paragraph, held)) a b) :
    BlockStart.ofCursor a.cursor.skipBlank = BlockStart.ofCursor b.cursor.skipBlank ∧
      s.goesOn a = s'.goesOn b ∧
        ((s.goesOn a = true ∧ ∃ held, s.leaf = some (.paragraph, held)) ∨ (a.count = b.count ∧
          (s.Inert a.cursor.stand ∨ (a.cursor.skipBlank.rest ≠ [] →
            a.cursor.skipBlank.nearBase = b.cursor.skipBlank.nearBase)))) := by
  have left := Cursor.aligned_skipBlank matched.rest
  rcases matched.count with ⟨inert, ⟨held, lazy⟩, some_left⟩ | ⟨count, near⟩
  · have starts := inert.1.ofCursor_congr (c := a.cursor.skipBlank) left
    have words := inert.1.ofCursor_eq_text (c := a.cursor.skipBlank) some_left
    obtain ⟨held', lazy'⟩ := alike.leaf_some lazy
    have here := goesOn_of_text lazy words
    have there := goesOn_of_text lazy' (starts.symm.trans words)
    exact ⟨starts, here.trans there.symm, Or.inl ⟨here, held, lazy⟩⟩
  · have starts : BlockStart.ofCursor a.cursor.skipBlank = BlockStart.ofCursor b.cursor.skipBlank := by
      rcases near with inert | near
      · exact inert.1.ofCursor_congr (c := a.cursor.skipBlank) left
      · exact BlockStart.ofCursor_congr left near
    exact ⟨starts, alike.goesOn count starts, Or.inr ⟨count, near⟩⟩

theorem Midway.of_closeAfter {tokens behind : List Token} {trees : List Tree} {count : Nat}
    {start : BlockStart} (parts : ts = s.raw ++ (tokens ++ behind))
    (line : Tree.rawAll trees ++ c.rest = tokens)
    (column : c.column = Text.advance Cursor.tabStop 0 (Token.join (Tree.rawAll trees)))
    (fresh : endColumn s.raw = 0) (raw : ∀ t ∈ tokens, t.Raw)
    (plain : ∀ t ∈ tokens, t.kind ≠ .newline) (spread : Spread tokens) :
    Midway ts behind ((s.closeLeaf.closeAfter count start).emit trees) c := by
  subst line
  have front : ∀ t ∈ Tree.rawAll trees, t ∈ Tree.rawAll trees ++ c.rest :=
    fun t => List.mem_append_left _
  have clean := Token.clean_join (fun t member => raw t (front t member))
    fun t member => plain t (front t member)
  constructor
  · exact leaf_emit_eq_none (leaf_closeAfter (leaf_closeLeaf s) count start) _
  · rw [raw_emit, raw_closeAfter, raw_closeLeaf, parts]
    simp only [List.append_assoc]
  · rw [raw_emit, raw_closeAfter, raw_closeLeaf, Token.endColumn_append clean, fresh]
    exact column
  · exact fun t member => raw t (List.mem_append_right _ member)
  · exact fun t member => plain t (List.mem_append_right _ member)
  · exact spread.right_of_append

theorem aligned_addLine {tokens tokens' behind behind' : List Token}
    (keeps : KeepsBlanks ts ts')
    (walk : (Tree.ofTokens ts).walk = (s.addLine tokens ending).walk ++ more)
    (alike : s.Alike s') (aligned : Aligned tokens tokens') (sides : s.KeepsSides s' tokens)
    (increasing : Container.Increasing 0 s.containers)
    (increasing' : Container.Increasing 0 s'.containers) (fenced : s.Fenced)
    (parts : ts = s.raw ++ (tokens ++ behind)) (parts' : ts' = s'.raw ++ (tokens' ++ behind'))
    (fresh : endColumn s.raw = 0) (fresh' : endColumn s'.raw = 0)
    (raw : ∀ t ∈ tokens, t.Raw) (plain : ∀ t ∈ tokens, t.kind ≠ .newline) (spread : Spread tokens)
    (ends : behind.takeWhile (·.kind != .newline) = []) :
    (s.addLine tokens ending).Alike (s'.addLine tokens' ending) := by
  have matched := @Continuation.matches_ofLine _ _ ⟨tokens, 0, 0⟩ ⟨tokens', 0, 0⟩ s.Inert
    (∃ held, s.leaf = some (.paragraph, held)) 0 0 0 (fun c inert => inert.1)
      alike.forall_container_alike
    aligned rfl rfl rfl increasing increasing' sides fun _ => Or.inr (Or.inr Iff.rfl)
  have spec' := Continuation.ofLine_spec s'.containers ⟨tokens', 0, 0⟩
  have column := column_ofLine s.containers ⟨tokens, 0, 0⟩ raw
  have column' := column_ofLine s'.containers ⟨tokens', 0, 0⟩ (aligned.forall_raw raw)
  obtain ⟨a, _, read, made, step, line, _⟩ := s.exists_lineStep tokens ending
  generalize read' : Continuation.ofLine s'.containers ⟨tokens', 0, 0⟩ = b at matched spec' column'
  rw [read] at matched column
  rw [made] at walk ⊢
  obtain ⟨starts, both, goes_further⟩ := alike.goesOn_of_matches matched
  cases step with
  | fence open_leaf goes_on =>
    obtain ⟨held', leaf'⟩ := alike.leaf_some open_leaf
    rw [addLine_of_fence read' ending leaf' (both.symm.trans goes_on)]
    rcases goes_further with ⟨_, held, lazy⟩ | ⟨_, near⟩
    · rw [open_leaf] at lazy
      cases lazy
    · exact (alike.emit matched.lead).fenceLine matched.rest (closesFence_eq fenced open_leaf
        (Cursor.aligned_skipBlank matched.rest) near) ending
  | paragraph open_leaf goes_on =>
    obtain ⟨held', leaf'⟩ := alike.leaf_some open_leaf
    rw [addLine_of_paragraph read' ending leaf' (both.symm.trans goes_on)]
    exact alike.emit ((matched.lead.append (Tree.aligned_parse matched.rest)).append
      (Tree.aligned_leaves (Token.aligned_refl ending)))
  | reopen stops =>
    rw [addLine_of_ends read' ending (both.symm.trans stops)]
    rcases goes_further with ⟨goes_on, _⟩ | ⟨count, _⟩
    · rw [stops] at goes_on
      cases goes_on
    · have kept := (alike.closeLeaf.closeAfter a.count
        (BlockStart.ofCursor a.cursor.skipBlank)).emit matched.lead
      rw [cutBack, cutBack, ← starts, ← count]
      exact aligned_openBlocks keeps walk ⟨kept, matched.rest,
        Midway.of_closeAfter parts line column fresh raw plain spread,
        Midway.of_closeAfter parts' spec'.1 column' fresh' (aligned.forall_raw raw)
          (aligned.forall_not_newline plain)
          (aligned.spread spread), starts⟩ ends

end Stack

end MarkdownEditing
