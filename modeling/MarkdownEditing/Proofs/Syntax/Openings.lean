import MarkdownEditing.Proofs.Syntax.Led

namespace MarkdownEditing

namespace Stack

open Visit (Led Calm)

def walkLayers : List Layer → List Visit
  | [] => [.enter .root]
  | layer :: layers =>
    walkLayers layers ++ Tree.walkAll layer.before ++ [.enter layer.container.kind]

def walk (s : Stack) : List Visit :=
  walkLayers s.layers ++ Tree.walkAll s.done ++
    ((s.leaf.map fun leaf => Visit.enter leaf.1.kind :: Tree.walkAll leaf.2).getD [])

variable {s s' s'' : Stack} {tokens ending : List Token}

theorem text_walkLayers (layers : List Layer) :
    Visit.text (walkLayers layers) = Token.join (rawLayers layers) := by
  induction layers with
  | nil => rfl
  | cons layer layers ih => simp [walkLayers, rawLayers, ih]

theorem text_walk (s : Stack) : Visit.text s.walk = Token.join s.raw := by
  cases leaf : s.leaf <;> simp [walk, raw, text_walkLayers, leaf]

@[simp] theorem walk_emit (s : Stack) (trees : List Tree) :
    (s.emit trees).walk = s.walk ++ Tree.walkAll trees := by
  cases leaf : s.leaf <;> simp [emit, walk, leaf]

theorem walk_push (closed : s.leaf = none) (c : Container) :
    (s.push c).walk = s.walk ++ [.enter c.kind] := by
  simp [push, walk, walkLayers, closed]

theorem walk_closeLeaf (s : Stack) :
    ∃ n, s.closeLeaf.walk = s.walk ++ List.replicate n .leave := by
  cases leaf : s.leaf with
  | none => exact ⟨0, by simp [closeLeaf, leaf]⟩
  | some held => exact ⟨1, by simp [closeLeaf, walk, leaf]⟩

theorem walk_pop (s : Stack) : ∃ n, s.pop.walk = s.walk ++ List.replicate n .leave := by
  obtain ⟨n, before⟩ := walk_closeLeaf s
  have closed := leaf_closeLeaf s
  rw [pop]
  generalize s.closeLeaf = s' at closed before
  cases layers : s'.layers with
  | nil => exact ⟨n, before⟩
  | cons layer outer =>
    refine ⟨n + 1, ?_⟩
    rw [List.replicate_succ', ← List.append_assoc, ← before]
    simp [walk, walkLayers, layers, closed]

theorem walk_popMany (s : Stack) (k : Nat) :
    ∃ n, (s.popMany k).walk = s.walk ++ List.replicate n .leave := by
  induction k generalizing s with
  | zero => exact ⟨0, (List.append_nil _).symm⟩
  | succ k ih =>
    obtain ⟨m, first⟩ := walk_pop s
    obtain ⟨n, later⟩ := ih s.pop
    refine ⟨m + n, ?_⟩
    rw [popMany, later, first, List.append_assoc, List.replicate_append_replicate]

/-- What is read after `s` opens no quote and no list item. -/
def Grows (s s' : Stack) : Prop := ∃ more, s'.walk = s.walk ++ more ∧ Calm more

theorem Grows.refl (s : Stack) : s.Grows s := ⟨[], (List.append_nil _).symm, Visit.calm_nil⟩

theorem Grows.trans (first : s.Grows s') (second : s'.Grows s'') : s.Grows s'' := by
  obtain ⟨more, walk, calm⟩ := first
  obtain ⟨more', walk', calm'⟩ := second
  exact ⟨more ++ more', by rw [walk', walk, List.append_assoc], calm.append calm'⟩

theorem Grows.led (grows : s.Grows s') (led : Led s.walk) : Led s'.walk := by
  obtain ⟨more, walk, calm⟩ := grows
  rw [walk]
  exact led.append_plain calm.plain

theorem grows_emit (s : Stack) {trees : List Tree} (calm : Calm (Tree.walkAll trees)) :
    s.Grows (s.emit trees) := ⟨_, walk_emit s trees, calm⟩

theorem grows_leaf (closed : s.leaf = none) (leaf : OpenLeaf) {held : List Tree}
    (calm : Calm (Tree.walkAll held)) : s.Grows { s with leaf := some (leaf, held) } := by
  refine ⟨.enter leaf.kind :: Tree.walkAll held, by simp [walk, closed], calm.enter ?_⟩
  cases leaf <;> exact ⟨by rintro ⟨⟩, by rintro ⟨⟩⟩

theorem grows_closeLeaf (s : Stack) : s.Grows s.closeLeaf := by
  obtain ⟨n, walk⟩ := walk_closeLeaf s
  exact ⟨_, walk, Visit.calm_replicate_leave n⟩

theorem grows_popMany (s : Stack) (k : Nat) : s.Grows (s.popMany k) := by
  obtain ⟨n, walk⟩ := walk_popMany s k
  exact ⟨_, walk, Visit.calm_replicate_leave n⟩

theorem grows_cutBack (s : Stack) {c : Continuation}
    (single : ∀ tree ∈ c.lead, Continuation.IsLead tree) : s.Grows (s.cutBack c) :=
  (grows_closeLeaf s).trans ((grows_popMany _ _).trans (grows_emit _ (Tree.calm_lead single)))

theorem grows_listed (closed : s.leaf = none) (style : ListStyle) :
    s.Grows (if s.inList style then s else s.push (.list style)) := by
  split
  · exact Grows.refl s
  · refine ⟨_, walk_push closed _, Visit.calm_nil.enter ?_⟩
    cases style <;> exact ⟨by rintro ⟨⟩, by rintro ⟨⟩⟩

theorem grows_openLeaf (closed : s.leaf = none) (start : BlockStart) (tokens ending : List Token) :
    s.Grows (s.openLeaf start tokens ending) := by
  have ended := Tree.calm_leaves ending
  have block : ∀ {kind : Kind} {held : List Tree}, kind ≠ .blockQuote ∧ kind ≠ .listItem →
      Calm (Tree.walkAll held) → s.Grows (s.emit [Tree.node kind held]) := fun other calm =>
    grows_emit s (Tree.calm_cons (Tree.calm_node other calm) Visit.calm_nil)
  have paragraph := grows_leaf closed .paragraph (Tree.calm_append (Tree.calm_parse tokens) ended)
  cases start with
  | blank => exact grows_emit s ended
  | heading level =>
    exact block (by decide) (Tree.calm_append
      (Tree.calm_append (Tree.calm_glue _ _) (Tree.calm_parse _)) ended)
  | thematicBreak => exact block (by decide) (Tree.calm_append (Tree.calm_leaves _) ended)
  | fence mark length =>
    exact grows_leaf closed (.fence mark length) (Tree.calm_append
      (Tree.calm_append (Tree.calm_glue _ _) (Tree.calm_leaves _)) ended)
  | quote => exact paragraph
  | item style bare => exact paragraph
  | text => exact paragraph

theorem grows_fenceLine (s : Stack) (mark : Kind) (length : Nat) (c : Cursor)
    (ending : List Token) : s.Grows (s.fenceLine mark length c ending) := by
  obtain ⟨leaves, _, single, made⟩ := s.fenceLine_leaves mark length c ending
  have emitted := grows_emit s (Tree.calm_of_leaves single)
  rcases made with same | same
  · rw [same]
    exact emitted
  · rw [same]
    exact emitted.trans (grows_closeLeaf _)

/-- A line that goes on with the open leaf opens nothing, and otherwise it opens its blocks where all
that it does not go on with is closed. -/
theorem grows_addLine (s : Stack) (tokens ending : List Token) :
    s.Grows (s.addLine tokens ending) ∨
      ∃ c, Continuation.ofLine s.containers ⟨tokens, 0, 0⟩ = c ∧
        s.addLine tokens ending = (s.cutBack c).openBlocks c.cursor ending ∧
        Tree.rawAll c.lead ++ c.cursor.rest = tokens ∧
        (∀ tree ∈ c.lead, Continuation.IsLead tree) ∧ s.goesOn c = false := by
  obtain ⟨c, s', read, made, step, parts, single⟩ := s.exists_lineStep tokens ending
  rw [made]
  have lead := Tree.calm_lead single
  cases step with
  | fence => exact Or.inl ((grows_emit s lead).trans (grows_fenceLine _ _ _ _ _))
  | paragraph =>
    exact Or.inl (grows_emit s (Tree.calm_append (Tree.calm_append lead (Tree.calm_parse _))
      (Tree.calm_leaves _)))
  | reopen ends => exact Or.inr ⟨c, read, rfl, parts, single, ends⟩

/-- Every container opens as it should, and so would one that is opened now. -/
structure Clear (s : Stack) : Prop where
  led : Led s.walk
  clear : (Visit.text s.walk).lastLine.all isErasable = true

theorem Clear.of_raw (clear : s.Clear) (led : Led s'.walk) (same : s'.raw = s.raw) :
    s'.Clear := by
  refine ⟨led, ?_⟩
  rw [text_walk, same, ← text_walk]
  exact clear.clear

theorem Clear.emit (clear : s.Clear) {trees : List Tree} (calm : Calm (Tree.walkAll trees))
    (markup : ∀ c ∈ Token.join (Tree.rawAll trees), c ≠ '\n' ∧ isErasable c = true) :
    (s.emit trees).Clear := by
  constructor
  · exact (grows_emit s calm).led clear.led
  · have clean : '\n' ∉ Token.join (Tree.rawAll trees) := fun member => (markup _ member).1 rfl
    rw [walk_emit, Visit.text_append, Tree.text_walkAll, Text.lastLine_append _ clean,
      List.all_append, clear.clear, Bool.true_and, List.all_eq_true]
    exact fun c member => (markup c member).2

theorem blank_markup (blanks : List Token) (raw : ∀ t ∈ blanks, t.Raw)
    (white : ∀ t ∈ blanks, t.kind = .whitespace) :
    ∀ c ∈ Token.join blanks, c ≠ '\n' ∧ isErasable c = true := by
  intro c member
  obtain ⟨t, inside, member⟩ := List.mem_flatMap.mp member
  have indent := (raw t inside).isIndent_of_whitespace (white t inside) c member
  exact ⟨isIndent_ne_feed indent, isErasable_of_isWhite (isWhite_of_isIndent c indent)⟩

theorem Clear.emit_blank (clear : s.Clear) {c : Cursor} (raw : ∀ t ∈ c.rest, t.Raw) :
    (s.emit (c.blank.map Tree.leaf)).Clear := by
  apply clear.emit (Tree.calm_leaves _)
  rw [Tree.rawAll_map_leaf]
  exact blank_markup _ (fun t member => raw t (Cursor.mem_of_mem_blank member))
    fun t member => Cursor.kind_of_mem_blank member

theorem Clear.emit_lead (clear : s.Clear) {lead : List Tree}
    (single : ∀ tree ∈ lead, Continuation.IsLead tree)
    (raw : ∀ t ∈ Tree.rawAll lead, t.Raw) : (s.emit lead).Clear := by
  apply clear.emit (Tree.calm_lead single)
  clear clear
  induction lead with
  | nil => simp
  | cons tree lead ih =>
    obtain ⟨t, shape⟩ := single tree List.mem_cons_self
    have here : tree.raw = [t] := by rcases shape with ⟨rfl, _⟩ | ⟨rfl, _⟩ <;> simp [Tree.leaf]
    rw [Tree.rawAll_cons, here, List.singleton_append] at raw
    have later := ih (fun u member => single u (List.mem_cons_of_mem _ member))
      fun u member => raw u (List.mem_cons_of_mem _ member)
    intro c member
    rw [Tree.rawAll_cons, here, List.singleton_append, Token.join_cons] at member
    rcases List.mem_append.mp member with member | member
    · rcases shape with ⟨_, blank⟩ | ⟨_, mark⟩
      · exact blank_markup [t] (by simpa using raw t List.mem_cons_self)
          (by simpa using blank) c (by simpa using member)
      · rw [(raw t List.mem_cons_self).text_of_glyph (c := '>') (by rw [mark]; rfl)] at member
        have same := List.mem_singleton.mp member
        subst same
        decide
    · exact later c member

theorem Clear.push_marker (clear : s.Clear) (closed : s.leaf = none) {container : Container}
    {mark : Kind} {opening blanks : List Token} (some_tokens : opening ≠ [])
    (short : opening.length ≤ Tree.glueLimit)
    (opens : Visit.Opens (Visit.text s.walk).lastLine container.kind [.leaf mark opening])
    (markup : ∀ c ∈ Token.join opening, c ≠ '\n' ∧ isErasable c = true)
    (raw : ∀ t ∈ blanks, t.Raw) (white : ∀ t ∈ blanks, t.kind = .whitespace) :
    ((s.push container).emit (Tree.glue mark opening ++ blanks.map Tree.leaf)).Clear := by
  have glued : Tree.glue mark opening = [Tree.token mark opening] := by
    rw [Tree.glue, if_neg some_tokens, if_pos short]
  have walk : ((s.push container).emit (Tree.glue mark opening ++ blanks.map Tree.leaf)).walk =
      s.walk ++ .enter container.kind :: ([.leaf mark opening] ++
        Tree.walkAll (blanks.map Tree.leaf)) := by
    rw [walk_emit, walk_push closed, glued]
    simp
  have calm : Calm ([.leaf mark opening] ++ Tree.walkAll (blanks.map Tree.leaf)) := by
    have marked := Tree.IsLeaf.calm ⟨mark, opening, some_tokens, rfl⟩
    rw [Tree.walk_token] at marked
    exact marked.append (Tree.calm_leaves blanks)
  have inside : ∀ c ∈ Token.join opening ++ Token.join blanks, c ≠ '\n' ∧ isErasable c = true := by
    intro c member
    rcases List.mem_append.mp member with member | member
    · exact markup c member
    · exact blank_markup blanks raw white c member
  have text : Visit.text (.enter container.kind :: ([.leaf mark opening] ++
      Tree.walkAll (blanks.map Tree.leaf))) = Token.join opening ++ Token.join blanks := by
    simp
  constructor
  · rw [walk]
    exact clear.led.append_enter (opens.append _) calm.plain
  · have clean : '\n' ∉ Token.join opening ++ Token.join blanks := fun member =>
      (inside _ member).1 rfl
    rw [walk, Visit.text_append, text, Text.lastLine_append _ clean, List.all_append, clear.clear,
      Bool.true_and, List.all_eq_true]
    exact fun c member => (inside c member).2

theorem Clear.push_quote (clear : s.Clear) (closed : s.leaf = none) {t : Token} {next : Cursor}
    (glyph : t.text = ['>']) (raw : ∀ u ∈ next.rest, u.Raw) :
    ((s.push .quote).emit (Tree.token .quoteMark [t] :: next.blank.map Tree.leaf)).Clear := by
  have join : Token.join [t] = ['>'] := by simpa using glyph
  have quote : ∀ c ∈ Token.join [t], c ≠ '\n' ∧ isErasable c = true := by
    intro c member
    rw [join, List.mem_singleton] at member
    rw [member]
    decide
  exact clear.push_marker closed (List.cons_ne_nil t []) (by simp [Tree.glueLimit])
    ⟨clear.clear, [t], [], rfl, join⟩ quote
    (fun u member => raw u (Cursor.mem_of_mem_blank member))
    fun u member => Cursor.kind_of_mem_blank member

theorem Clear.push_item (clear : s.Clear) (closed : s.leaf = none) (column : Nat)
    {marker : List Token} {next : Cursor} (text : IsItemMarker (Token.join marker))
    (short : marker.length ≤ Tree.glueLimit) (raw : ∀ u ∈ next.rest, u.Raw) :
    ((s.push (.item column)).emit
      (Tree.glue .listMark marker ++ next.blank.map Tree.leaf)).Clear := by
  have some_tokens : marker ≠ [] := by
    rintro rfl
    exact text.ne_nil rfl
  have markup : ∀ c ∈ Token.join marker, c ≠ '\n' ∧ isErasable c = true := by
    intro c member
    refine ⟨?_, text.isErasable c member⟩
    rintro rfl
    exact text.no_line_break (Or.inl rfl) member
  exact clear.push_marker closed some_tokens short ⟨clear.clear, marker, [], rfl, text⟩ markup
    (fun u member => raw u (Cursor.mem_of_mem_blank member))
    fun u member => Cursor.kind_of_mem_blank member

theorem Clear.push_list (clear : s.Clear) (closed : s.leaf = none) (style : ListStyle) :
    (if s.inList style then s else s.push (.list style)).Clear :=
  clear.of_raw ((grows_listed closed style).led clear.led) (raw_listed closed style)

theorem markerWidth_le (style : ListStyle) (tokens : List Token) :
    (tokens.take style.markerWidth).length ≤ Tree.glueLimit := by
  have short : style.markerWidth ≤ 2 := by cases style <;> simp [ListStyle.markerWidth]
  rw [List.length_take, Tree.glueLimit]
  omega

theorem led_openBlocks {c : Cursor} (clear : s.Clear) (closed : s.leaf = none)
    (raw : ∀ t ∈ c.rest, t.Raw) : Led (s.openBlocks c ending).walk := by
  fun_induction openBlocks s c ending with
  | case1 s c led t ts shape quote next inner ih =>
    have still_closed := leaf_emit_eq_none closed (c.blank.map Tree.leaf)
    have still_clear := clear.emit_blank raw
    have later : ∀ u ∈ t :: ts, u.Raw := fun u member =>
      raw u (Cursor.mem_of_mem_skipBlank (by rw [shape]; exact member))
    obtain ⟨u, us, same, mark⟩ : ∃ u us, t :: ts = u :: us ∧ u.kind = .gt := by
      have fits := BlockStart.ofCursor_reads c.skipBlank
      rw [quote, shape] at fits
      exact fits
    obtain ⟨rfl, rfl⟩ := List.cons.inj same
    have glyph := (later t List.mem_cons_self).text_of_glyph (c := '>') (by rw [mark]; rfl)
    have rest : ∀ u ∈ next.rest, u.Raw := fun u member => later u (List.mem_cons_of_mem _ member)
    exact ih (still_clear.push_quote still_closed glyph rest) (leaf_emit_eq_none rfl _)
      fun u member => rest u (Cursor.mem_of_mem_skipBlank member)
  | case2 s c led style bare t ts shape item marker column rest next listed inner ih =>
    have still_closed := leaf_emit_eq_none closed (c.blank.map Tree.leaf)
    have still_clear := clear.emit_blank raw
    have later : ∀ u ∈ t :: ts, u.Raw := fun u member =>
      raw u (Cursor.mem_of_mem_skipBlank (by rw [shape]; exact member))
    have opens : style.Opens (t :: ts) := by
      have fits := BlockStart.ofCursor_reads c.skipBlank
      rw [item, shape] at fits
      exact fits
    have beyond : ∀ u ∈ next.rest, u.Raw := fun u member =>
      later u (List.mem_cons_of_mem _ (List.mem_of_mem_drop member))
    have opened := (still_clear.push_list still_closed style).push_item
      (leaf_listed still_closed style)
      next.base (opens.marks later).isItemMarker (markerWidth_le style _) beyond
    exact ih opened (leaf_emit_eq_none rfl _)
      fun u member => beyond u (Cursor.mem_of_mem_skipBlank member)
  | case3 s c led no_quote no_item =>
    exact (grows_openLeaf (leaf_emit_eq_none closed _) _ _ _).led (clear.emit_blank raw).led

theorem led_addLine (led : Led s.walk) (fresh : (Visit.text s.walk).lastLine = [])
    (raw : ∀ t ∈ tokens, t.Raw) : Led (s.addLine tokens ending).walk := by
  rcases s.grows_addLine tokens ending with grows | ⟨c, _, made, parts, single, _⟩
  · exact grows.led led
  · rw [made]
    rw [← parts, List.forall_mem_append] at raw
    have clear : (s.closeLeaf.closeAfter c.count (BlockStart.ofCursor c.cursor.skipBlank)).Clear := by
      refine ⟨((grows_closeLeaf s).trans (grows_popMany _ _)).led led, ?_⟩
      rw [text_walk, raw_closeAfter, raw_closeLeaf, ← text_walk, fresh]
      rfl
    exact led_openBlocks (clear.emit_lead single raw.1) (leaf_cutBack s c) raw.2

theorem lastLine_line {t : Token} {ts : List Token} (raw : ∀ u ∈ t :: ts, u.Raw)
    (more : (s.line (t :: ts)).2 ≠ []) :
    (Visit.text (s.line (t :: ts)).1.walk).lastLine = [] := by
  have lined := Token.Lined.first_line (t :: ts)
  rcases lined.ends with ⟨u, ending, feed⟩ | ⟨_, none_left⟩
  · have member : u ∈ t :: ts := by
      have inside : u ∈ ((t :: ts).drop ((t :: ts).takeWhile (·.kind != .newline)).length).take 1 := by
        rw [ending]
        exact List.mem_singleton_self u
      exact List.mem_of_mem_drop (List.mem_of_mem_take inside)
    obtain ⟨start, text⟩ := (raw u member).ends_of_newline feed
    have whole : Token.join (s.raw ++ ((t :: ts).takeWhile (·.kind != .newline) ++ [u])) =
        Token.join (s.raw ++ (t :: ts).takeWhile (·.kind != .newline)) ++ start ++ ['\n'] := by
      simp [text]
    rw [text_walk, line]
    dsimp only
    rw [raw_addLine, ending, whole, Text.lastLine_feed]
  · exact absurd none_left more

theorem led_lines (led : Led s.walk)
    (fresh : tokens ≠ [] → (Visit.text s.walk).lastLine = []) (raw : ∀ t ∈ tokens, t.Raw) :
    Led (s.lines tokens).walk := by
  fun_induction lines s tokens with
  | case1 s => exact led
  | case2 s t ts ih =>
    have content : ∀ u ∈ (t :: ts).takeWhile (·.kind != .newline), u.Raw := fun u member =>
      raw u ((List.takeWhile_sublist _).mem member)
    have below : ∀ u ∈ (s.line (t :: ts)).2, u.Raw := fun u member =>
      raw u (List.mem_of_mem_drop (List.mem_of_mem_drop member))
    exact ih (led_addLine led (fresh (by simp)) content) (fun more => lastLine_line raw more) below

theorem led_scan (t : Text) : Led (empty.lines (Token.scan t)).walk := by
  have begun : Led empty.walk := by
    have root : Led ([] ++ [.enter .root]) :=
      Visit.Led.append_plain (by intro before kind after parts; simp at parts)
        (Visit.calm_nil.plain.enter (by decide))
    exact root
  exact led_lines begun (fun _ => rfl) fun token member => Token.raw_of_mem_scan member

end Stack

theorem Tree.led_ofText (t : Text) : Visit.Led (Tree.ofText t).walk := by
  have closed := ((Stack.grows_closeLeaf _).trans (Stack.grows_popMany _
    (Stack.empty.lines (Token.scan t)).layers.length)).led (Stack.led_scan t)
  have layers := Stack.layers_finish (Stack.empty.lines (Token.scan t))
  have leaf := Stack.leaf_finish (Stack.empty.lines (Token.scan t))
  rw [Stack.walk, layers, leaf] at closed
  have whole := closed.append_plain Visit.calm_leave.plain
  rw [Tree.ofText, Tree.ofTokens, Tree.walk_node]
  simpa [Stack.walkLayers, Stack.finish] using whole

end MarkdownEditing
