import MarkdownEditing.Proofs.Syntax.Lossless
import MarkdownEditing.Proofs.Syntax.Recorder

namespace MarkdownEditing

namespace Stack

def heldEvents : List Layer → List Event
  | [] => [.placeholder]
  | layer :: layers => heldEvents layers ++ Tree.eventsAll layer.before ++ [.placeholder]

def places : List Layer → List (Container × Nat)
  | [] => []
  | layer :: layers =>
    (layer.container, (heldEvents layers ++ Tree.eventsAll layer.before).length) :: places layers

def doneEvents (s : Stack) : List Event := heldEvents s.layers ++ Tree.eventsAll s.done

def leafEvents (s : Stack) : List Event :=
  (s.leaf.map fun leaf => Event.placeholder :: Tree.eventsAll leaf.2).getD []

/-- The recording of the blocks read so far. -/
def recorded (s : Stack) (tokens : List Token) : Recording where
  recorder := ⟨tokens, s.raw.length, s.doneEvents ++ s.leafEvents⟩
  layers := places s.layers
  leaf := s.leaf.map fun leaf => (leaf.1, s.doneEvents.length)

variable {s : Stack} {tokens rest ending after : List Token}

theorem recorded_ahead (reads : tokens = s.raw ++ rest) :
    (s.recorded tokens).recorder.ahead = rest := by
  rw [Recorder.ahead, recorded, reads, List.drop_left]

theorem recorded_lineAhead (lined : Token.LineAhead rest ending after)
    (reads : tokens = s.raw ++ (rest ++ (ending ++ after))) :
    (s.recorded tokens).recorder.lineAhead = rest :=
  Recorder.lineAhead_eq lined (recorded_ahead reads)

theorem recorded_record (s : Stack) (tokens : List Token) (trees : List Tree) :
    (s.recorded tokens).read (·.record trees) = (s.emit trees).recorded tokens := by
  unfold Recording.read recorded Recorder.record emit
  cases leaf : s.leaf with
  | none => simp [raw, doneEvents, leafEvents, leaf, Nat.add_assoc]
  | some held => simp [raw, doneEvents, leafEvents, leaf, Nat.add_assoc]

theorem recorded_push (closed : s.leaf = none) (tokens : List Token) (c : Container) :
    (s.recorded tokens).push c = (s.push c).recorded tokens := by
  simp [Recording.push, recorded, Recorder.start, push, places, doneEvents, leafEvents, raw,
    rawLayers, heldEvents, closed]

theorem complete?_held (r : Recorder) (before inside : List Event) (kind : Kind)
    (events : r.events = before ++ .placeholder :: inside) :
    r.complete? before.length kind =
      some { r with events := before ++ .start kind :: (inside ++ [.finish]) } := by
  have held : r.events[before.length]? = some .placeholder := by simp [events]
  rw [Recorder.complete?, if_pos held]
  simp [Recorder.complete, events]

theorem recorded_closeLeaf (s : Stack) (tokens : List Token) :
    (s.recorded tokens).closeLeaf? = some (s.closeLeaf.recorded tokens) := by
  cases opened : s.leaf with
  | none => simp [Recording.closeLeaf?, recorded, closeLeaf, opened]
  | some held =>
    obtain ⟨leaf, trees⟩ := held
    have same := raw_closeLeaf s
    have ends := complete?_held (s.recorded tokens).recorder s.doneEvents (Tree.eventsAll trees)
      leaf.kind (by simp_all [recorded, leafEvents])
    have place : (s.recorded tokens).leaf = some (leaf, s.doneEvents.length) := by
      simp_all [recorded]
    rw [Recording.closeLeaf?, place]
    dsimp only
    rw [ends, Option.map_some]
    simp_all [recorded, closeLeaf, doneEvents, leafEvents]

theorem recorded_pop (s : Stack) (tokens : List Token) :
    (s.recorded tokens).pop? = some (s.pop.recorded tokens) := by
  have closed := leaf_closeLeaf s
  rw [Recording.pop?, recorded_closeLeaf, pop]
  generalize s.closeLeaf = s at closed
  cases layers : s.layers with
  | nil => simp [recorded, layers, places]
  | cons layer layers' =>
    have ends := complete?_held (s.recorded tokens).recorder
      (heldEvents layers' ++ Tree.eventsAll layer.before) (Tree.eventsAll s.done)
      layer.container.kind (by simp [recorded, doneEvents, leafEvents, closed, layers, heldEvents])
    have open_layers : (s.recorded tokens).layers =
        (layer.container, (heldEvents layers' ++ Tree.eventsAll layer.before).length) ::
          places layers' := by
      simp [recorded, layers, places]
    simp only [Option.bind_eq_bind, Option.bind_some, open_layers, ends, Option.map_some]
    simp [recorded, raw, layers, closed, rawLayers, doneEvents, leafEvents]

theorem recorded_popMany (s : Stack) (tokens : List Token) (n : Nat) :
    (s.recorded tokens).popMany? n = some ((s.popMany n).recorded tokens) := by
  induction n generalizing s with
  | zero => rfl
  | succ n ih =>
    rw [Recording.popMany?, recorded_pop]
    exact ih s.pop

theorem map_places (layers : List Layer) :
    (places layers).map Prod.fst = layers.map Layer.container := by
  induction layers with
  | nil => rfl
  | cons layer layers ih => rw [places, List.map_cons, List.map_cons, ih]

@[simp] theorem length_places (layers : List Layer) : (places layers).length = layers.length := by
  have sizes := congrArg List.length (map_places layers)
  simpa using sizes

theorem recorded_containers (s : Stack) (tokens : List Token) :
    (s.recorded tokens).containers = s.containers := by
  rw [Recording.containers, containers, recorded, map_places]

theorem recorded_inList (s : Stack) (tokens : List Token) (style : ListStyle) :
    (s.recorded tokens).inList style = s.inList style := by
  unfold Recording.inList inList recorded
  cases s.layers with
  | nil => rfl
  | cons layer layers =>
    obtain ⟨container, before⟩ := layer
    cases container <;> rfl

theorem recorded_closeAfter (s : Stack) (tokens : List Token) (count : Nat) (start : BlockStart) :
    (s.recorded tokens).closeAfter? count start =
      some ((s.closeAfter count start).recorded tokens) := by
  have layers : (s.recorded tokens).layers.length = s.layers.length := length_places s.layers
  unfold Recording.closeAfter? closeAfter
  dsimp only
  rw [recorded_containers, layers]
  exact recorded_popMany s tokens _

theorem recorded_start (closed : s.leaf = none) (tokens : List Token) (trees : List Tree) :
    (s.recorded tokens).recorder.start.1.record trees =
      ⟨tokens, (s.raw ++ Tree.rawAll trees).length,
        s.doneEvents ++ .placeholder :: Tree.eventsAll trees⟩ := by
  simp [recorded, Recorder.start, Recorder.record, leafEvents, closed]

theorem recorded_hold (tokens : List Token) (leaf : OpenLeaf) (trees : List Tree)
    (closed : s.leaf = none) :
    Recording.hold? ((s.recorded tokens).read fun r => r.start.1.record trees) leaf
        (s.recorded tokens).recorder.start.2 =
      some (recorded { s with leaf := some (leaf, trees) } tokens) := by
  rw [Recording.read, recorded_start closed]
  simp [Recording.hold?, recorded, Recorder.start, raw, doneEvents, leafEvents, closed]

theorem recorded_complete (s : Stack) (tokens : List Token) (trees : List Tree) (kind : Kind) :
    (((s.recorded tokens).recorder.start.1.record trees).complete?
        (s.recorded tokens).recorder.start.2 kind).map
      (fun r => { s.recorded tokens with recorder := r }) =
      some ((s.emit [Tree.node kind trees]).recorded tokens) := by
  rw [Recorder.complete?_record, Option.map_some, ← recorded_record]
  rfl

theorem paragraphLine?_record (q : Recording) (lined : Token.LineAhead rest ending after)
    (reads : q.recorder.ahead = rest ++ (ending ++ after)) :
    q.paragraphLine? =
      some (q.read (·.record (Inline.parse rest ++ ending.map Tree.leaf))) := by
  have inline := Recorder.inlineLine?_record lined reads
  have ends := Recorder.endLine_record lined (Inline.rawAll_parse rest) reads
  rw [Recording.paragraphLine?, inline, Option.map_some, ends]
  rfl

theorem recorded_openLeaf {start : BlockStart} (closed : s.leaf = none)
    (lined : Token.LineAhead rest ending after) (fits : start.Reads rest)
    (reads : tokens = s.raw ++ (rest ++ (ending ++ after))) :
    (s.recorded tokens).openLeaf? start =
      some ((s.openLeaf start rest ending).recorded tokens) := by
  have ahead := recorded_ahead reads
  have begun : (s.recorded tokens).recorder.start.1.ahead = rest ++ (ending ++ after) := ahead
  have paragraph : ((s.recorded tokens).read fun r => r.start.1).paragraphLine?.bind
      (fun q => q.hold? .paragraph (s.recorded tokens).recorder.start.2) =
        some (recorded { s with
          leaf := some (.paragraph, Inline.parse rest ++ ending.map Tree.leaf) } tokens) := by
    have line := paragraphLine?_record ((s.recorded tokens).read fun r => r.start.1) lined begun
    rw [line, Option.bind_some]
    exact recorded_hold tokens .paragraph _ closed
  cases start with
  | blank =>
    have none_left : rest = [] := fits
    subst none_left
    have ends := Recorder.eat_newline_record lined ahead
    rw [Recording.openLeaf?, openLeaf, ← recorded_record, Recording.read, ends]
    rfl
  | heading level =>
    obtain ⟨marked, left⟩ := Recorder.bumpGlued_take .headerMark fits begun
    have line := paragraphLine?_record ((s.recorded tokens).read fun r =>
      r.start.1.record (Tree.glue .headerMark (rest.take level))) (lined.drop level) left
    have whole := recorded_complete s tokens (Tree.glue .headerMark (rest.take level) ++
      (Inline.parse (rest.drop level) ++ ending.map Tree.leaf)) .heading
    simp only [Recording.openLeaf?, Recording.read, marked, Option.bind_eq_bind] at line ⊢
    rw [line, Option.bind_some, openLeaf, List.append_assoc]
    simpa only [Recorder.record_record] using whole
  | thematicBreak =>
    have line := Recorder.restOfLine_record lined begun
    have whole := recorded_complete s tokens (rest.map Tree.leaf ++ ending.map Tree.leaf)
      .thematicBreak
    simp only [Recording.openLeaf?, Recording.read, line, openLeaf]
    exact whole
  | fence mark length =>
    obtain ⟨marked, left⟩ := Recorder.bumpGlued_take .codeMark fits begun
    have line := Recorder.restOfLine_record (lined.drop length) left
    have whole := recorded_hold tokens (.fence mark length)
      (Tree.glue .codeMark (rest.take length) ++
        ((rest.drop length).map Tree.leaf ++ ending.map Tree.leaf)) closed
    simp only [Recording.openLeaf?, Recording.read, marked, line, openLeaf,
      Recorder.record_record, List.append_assoc] at whole ⊢
    exact whole
  | quote => exact paragraph
  | item style bare => exact paragraph
  | text => exact paragraph

theorem recorded_blank (c : Cursor) (reads : tokens = s.raw ++ (c.rest ++ rest)) :
    (s.recorded tokens).read (·.bumpEach c.blank.length) =
        (s.emit (c.blank.map Tree.leaf)).recorded tokens ∧
      tokens = (s.emit (c.blank.map Tree.leaf)).raw ++ (c.skipBlank.rest ++ rest) := by
  have parts := c.blank_append
  have split : (s.recorded tokens).recorder.ahead = c.blank ++ (c.skipBlank.rest ++ rest) := by
    rw [recorded_ahead reads, ← List.append_assoc, parts]
  constructor
  · rw [Recording.read, Recorder.bumpEach_record _ split, ← recorded_record]
    rfl
  · rw [raw_emit, Tree.rawAll_map_leaf, List.append_assoc, ← List.append_assoc c.blank, parts]
    exact reads

theorem recorded_marker {width : Nat} (container : Container) (mark : Kind) (next : Cursor)
    (closed : s.leaf = none) (fits : width ≤ rest.length) (left : rest.drop width = next.rest)
    (lined : Token.LineAhead next.rest ending after)
    (reads : tokens = s.raw ++ (rest ++ (ending ++ after))) :
    ((s.recorded tokens).push container).read
        (fun r => ((r.bumpGlued width mark).eat .whitespace).1) =
        ((s.push container).emit (Tree.glue mark (rest.take width) ++
          next.blank.map Tree.leaf)).recorded tokens ∧
      tokens = ((s.push container).emit (Tree.glue mark (rest.take width) ++
          next.blank.map Tree.leaf)).raw ++ (next.skipBlank.rest ++ (ending ++ after)) := by
  have begun : tokens = (s.push container).raw ++ (rest ++ (ending ++ after)) := by
    rw [raw_push closed]
    exact reads
  obtain ⟨marked, ahead⟩ := Recorder.bumpGlued_take mark fits (recorded_ahead begun)
  rw [left] at ahead
  constructor
  · rw [recorded_push closed, ← recorded_record, Recording.read, marked,
      Recorder.eat_whitespace_record next lined ahead, Recorder.record_record]
    rfl
  · have parts := List.take_append_drop width rest
    rw [left, ← next.blank_append] at parts
    rw [raw_emit, Tree.rawAll_append, Tree.rawAll_glue, Tree.rawAll_map_leaf, List.append_assoc,
      ← List.append_assoc (rest.take width ++ next.blank), List.append_assoc (rest.take width),
      parts]
    exact begun

/-- What the reading of blocks relies on: no leaf is open, and the cursor is at the rest of the line
that is read next. -/
structure Reading (s : Stack) (tokens : List Token) (c : Cursor) (ending after : List Token) :
    Prop where
  closed : s.leaf = none
  lined : Token.LineAhead c.rest ending after
  reads : tokens = s.raw ++ (c.rest ++ (ending ++ after))

namespace Reading

variable {c : Cursor}

theorem ahead_eq (reading : s.Reading tokens c ending after) :
    (s.recorded tokens).recorder.ahead = c.rest ++ (ending ++ after) :=
  recorded_ahead reading.reads

theorem cursor_eq (reading : s.Reading tokens c ending after) :
    (⟨(s.recorded tokens).recorder.lineAhead, c.column, c.base⟩ : Cursor) = c := by
  rw [recorded_lineAhead reading.lined reading.reads]

theorem skipBlank (reading : s.Reading tokens c ending after) :
    (s.emit (c.blank.map Tree.leaf)).Reading tokens c.skipBlank ending after := by
  have lined := reading.lined
  rw [← c.blank_append] at lined
  exact ⟨leaf_emit_eq_none reading.closed _, lined.of_append, (recorded_blank c reading.reads).2⟩

theorem push (reading : s.Reading tokens c ending after) (container : Container) :
    (s.push container).Reading tokens c ending after :=
  ⟨rfl, reading.lined, by rw [raw_push reading.closed]; exact reading.reads⟩

theorem push_marker {width : Nat} (reading : s.Reading tokens c ending after) (container : Container)
    (mark : Kind) (next : Cursor) (some_tokens : 1 ≤ width) (fits : width ≤ c.rest.length)
    (left : c.rest.drop width = next.rest) {inner : Stack}
    (opened : inner = (s.push container).emit (Tree.glue mark (c.rest.take width) ++
      next.blank.map Tree.leaf)) :
    inner.Reading tokens next.skipBlank ending after ∧
      ((s.recorded tokens).push container).read
        (fun r => ((r.bumpGlued width mark).eat .whitespace).1) = inner.recorded tokens ∧
      next.skipBlank.rest.length < c.rest.length := by
  have lined : Token.LineAhead next.rest ending after := by
    rw [← left]
    exact reading.lined.drop width
  obtain ⟨marked, reads⟩ :=
    recorded_marker container mark next reading.closed fits left lined reading.reads
  rw [← opened] at marked reads
  refine ⟨⟨?_, ?_, reads⟩, marked, ?_⟩
  · rw [opened]
    exact leaf_emit_eq_none rfl _
  · rw [← next.blank_append] at lined
    exact lined.of_append
  · have sizes := congrArg List.length left
    have shorter := next.length_skipBlank_le
    rw [List.length_drop] at sizes
    omega

theorem ahead_length_lt {s' : Stack} {c' : Cursor} (reading : s.Reading tokens c ending after)
    (reading' : s'.Reading tokens c' ending after) (less : c'.rest.length < c.rest.length) :
    (s'.recorded tokens).recorder.ahead.length < (s.recorded tokens).recorder.ahead.length := by
  rw [reading.ahead_eq, reading'.ahead_eq]
  simp only [List.length_append]
  omega

end Reading

theorem recorded_quote {c : Cursor} {t : Token} {ts : List Token}
    (reading : s.Reading tokens c ending after) (shape : c.skipBlank.rest = t :: ts)
    (quote : BlockStart.ofCursor c.skipBlank = .quote) {next : Cursor}
    (same : next = Cursor.afterQuoteMark c.skipBlank.column ts) {inner : Stack}
    (opened : inner = ((s.emit (c.blank.map Tree.leaf)).push .quote).emit
      (Tree.token .quoteMark [t] :: next.blank.map Tree.leaf)) :
    inner.Reading tokens next.skipBlank ending after ∧
      (s.recorded tokens).openBlocks? c.column c.base =
        (inner.recorded tokens).openBlocks? next.skipBlank.column next.skipBlank.base := by
  have glued : Tree.token .quoteMark [t] :: next.blank.map Tree.leaf =
      Tree.glue .quoteMark (c.skipBlank.rest.take 1) ++ next.blank.map Tree.leaf := by
    rw [shape]
    rfl
  rw [glued] at opened
  obtain ⟨further, marked, shorter⟩ := reading.skipBlank.push_marker .quote .quoteMark next
    (Nat.le_refl 1)
    (by simp [shape]) (by rw [same, shape]; rfl) opened
  have less := reading.ahead_length_lt further (Nat.lt_of_lt_of_le shorter c.length_skipBlank_le)
  refine ⟨further, ?_⟩
  rw [Recording.openBlocks?]
  simp only [reading.cursor_eq, (recorded_blank c reading.reads).1, quote, marked, dif_pos less,
    shape, List.drop_one, List.tail_cons, ← same]
  rfl

theorem recorded_item {c : Cursor} {style : ListStyle} {bare : Bool}
    (reading : s.Reading tokens c ending after)
    (item : BlockStart.ofCursor c.skipBlank = .item style bare) (next : Cursor)
    (same : next =
      ⟨c.skipBlank.rest.drop style.markerWidth,
        Text.advance Cursor.tabStop c.skipBlank.column
          (Token.join (c.skipBlank.rest.take style.markerWidth)),
        contentColumn (Text.advance Cursor.tabStop c.skipBlank.column
          (Token.join (c.skipBlank.rest.take style.markerWidth)))
          (c.skipBlank.rest.drop style.markerWidth)⟩)
    (listed inner : Stack)
    (list : listed = if (s.emit (c.blank.map Tree.leaf)).inList style then
      s.emit (c.blank.map Tree.leaf) else (s.emit (c.blank.map Tree.leaf)).push (.list style))
    (opened : inner = (listed.push (.item next.base)).emit
      (Tree.glue .listMark (c.skipBlank.rest.take style.markerWidth) ++
        next.blank.map Tree.leaf)) :
    inner.Reading tokens next.skipBlank ending after ∧
      (s.recorded tokens).openBlocks? c.column c.base =
        (inner.recorded tokens).openBlocks? next.skipBlank.column next.skipBlank.base := by
  have opens : style.Opens c.skipBlank.rest := by
    have fits := BlockStart.ofCursor_reads c.skipBlank
    rw [item] at fits
    exact fits
  have positive : 1 ≤ style.markerWidth := by cases style <;> simp [ListStyle.markerWidth]
  have led := reading.skipBlank
  have listing : listed.Reading tokens c.skipBlank ending after := by
    rw [list]
    split
    · exact led
    · exact led.push _
  have recorded_list : listed.recorded tokens =
      if ((s.emit (c.blank.map Tree.leaf)).recorded tokens).inList style then
        (s.emit (c.blank.map Tree.leaf)).recorded tokens
      else ((s.emit (c.blank.map Tree.leaf)).recorded tokens).push (.list style) := by
    rw [list, recorded_inList, recorded_push led.closed]
    split <;> rfl
  obtain ⟨further, marked, shorter⟩ := listing.push_marker (.item next.base) .listMark next positive
    opens.width_le (by rw [same]) opened
  have less := reading.ahead_length_lt further (Nat.lt_of_lt_of_le shorter c.length_skipBlank_le)
  refine ⟨further, ?_⟩
  rw [Recording.openBlocks?]
  subst same
  simp only [reading.cursor_eq, (recorded_blank c reading.reads).1, item, ← recorded_list, marked,
    dif_pos less]
  rfl

theorem recorded_openBlocks {c : Cursor} (reading : s.Reading tokens c ending after) :
    (s.recorded tokens).openBlocks? c.column c.base =
      some ((s.openBlocks c ending).recorded tokens) := by
  fun_induction Stack.openBlocks s c ending with
  | case1 s c led t ts shape quote next inner ih =>
    obtain ⟨further, step⟩ := recorded_quote reading shape quote rfl rfl
    rw [step]
    exact ih further
  | case2 s c led style bare t ts shape item marker column rest next listed inner ih =>
    have wide : style.markerWidth = style.markerWidth - 1 + 1 := by
      cases style <;> rfl
    have left : rest = c.skipBlank.rest.drop style.markerWidth := by
      rw [shape, wide, List.drop_succ_cons]
    have taken : marker = c.skipBlank.rest.take style.markerWidth := by rw [shape]
    obtain ⟨further, step⟩ := recorded_item reading item next (by rw [← left, ← taken]) _ inner rfl
      (by rw [← taken]; rfl)
    rw [step]
    exact ih further
  | case3 s c led no_quote no_item =>
    have led := reading.skipBlank
    have fits := BlockStart.ofCursor_reads c.skipBlank
    have leaf := recorded_openLeaf led.closed led.lined fits led.reads
    rw [Recording.openBlocks?]
    simp only [reading.cursor_eq, (recorded_blank c reading.reads).1]
    -- The two starts that open a container are gone; every other one opens a leaf on both sides.
    cases start : BlockStart.ofCursor c.skipBlank with
    | quote =>
      rw [start] at fits
      obtain ⟨t, ts, shape, _⟩ := fits
      exact absurd shape (no_quote t ts start)
    | item style bare =>
      rw [start] at fits
      obtain ⟨t, ts, shape⟩ := List.exists_cons_of_ne_nil (ListStyle.Opens.ne_nil fits)
      exact absurd shape (no_item style bare t ts start)
    | blank | heading level | thematicBreak | fence mark length | text =>
      rw [start] at leaf
      exact leaf

theorem recorded_lead (s : Stack) {lead : List Tree} (plain : ∀ tree ∈ lead, Continuation.IsLead tree)
    (reads : tokens = s.raw ++ (Tree.rawAll lead ++ rest)) :
    (s.recorded tokens).read (·.takeLead (lead.map Tree.kind)) =
        (s.emit lead).recorded tokens ∧
      tokens = (s.emit lead).raw ++ rest := by
  constructor
  · rw [Recording.read, Recorder.takeLead_record lead plain (recorded_ahead reads),
      ← recorded_record]
    rfl
  · rw [raw_emit, List.append_assoc]
    exact reads

theorem recorded_fenceLine {mark : Kind} {length : Nat} {c : Cursor}
    (lined : Token.LineAhead c.rest ending after)
    (reads : tokens = s.raw ++ (c.rest ++ (ending ++ after))) :
    (s.recorded tokens).fenceLine? mark length c.column c.base =
      some ((s.fenceLine mark length c ending).recorded tokens) := by
  have cursor : (⟨(s.recorded tokens).recorder.lineAhead, c.column, c.base⟩ : Cursor) = c := by
    rw [recorded_lineAhead lined reads]
  have ahead := recorded_ahead reads
  rw [Recording.fenceLine?, fenceLine]
  simp only [cursor]
  split
  · have parts := c.blank_append
    have later := lined
    rw [← parts] at later
    have split : (s.recorded tokens).recorder.ahead =
        c.blank ++ (c.skipBlank.rest ++ (ending ++ after)) := by
      rw [ahead, ← parts, List.append_assoc]
    have blank := Recorder.bumpEach_record c.blank split
    have left : ((s.recorded tokens).recorder.record (c.blank.map Tree.leaf)).ahead =
        c.skipBlank.rest ++ (ending ++ after) :=
      Recorder.ahead_record (by rw [Tree.rawAll_map_leaf, split])
    obtain ⟨marked, rest⟩ := Recorder.bumpGlued_take .codeMark
      (Inline.runLength_le mark c.skipBlank.rest) left
    have line := Recorder.restOfLine_record (later.of_append.drop _) rest
    rw [Recording.read, blank, marked, line, Recorder.record_record, Recorder.record_record]
    have whole := recorded_record s tokens (c.blank.map Tree.leaf ++
      Tree.glue .codeMark (c.skipBlank.rest.take (Inline.runLength mark c.skipBlank.rest)) ++
        (c.skipBlank.rest.drop (Inline.runLength mark c.skipBlank.rest)).map Tree.leaf ++
          ending.map Tree.leaf)
    rw [← recorded_closeLeaf, ← whole, Recording.read]
    simp only [List.append_assoc]
  · have line := Recorder.restOfLine_record lined ahead
    rw [Recording.read, line, ← recorded_record]
    rfl

theorem recorded_addLine (tokens : List Token) (lined : Token.LineAhead rest ending after)
    (reads : tokens = s.raw ++ (rest ++ (ending ++ after))) :
    (s.recorded tokens).line? = some ((s.addLine rest ending).recorded tokens) := by
  obtain ⟨c, s', read, made, step, parts, plain⟩ := s.exists_lineStep rest ending
  have line := recorded_lineAhead lined reads
  have layers : (s.recorded tokens).layers.length = s.layers.length := length_places s.layers
  rw [made, Recording.line?]
  simp only [recorded_containers, line, layers, read]
  have left : tokens = s.raw ++ (Tree.rawAll c.lead ++ (c.cursor.rest ++ (ending ++ after))) := by
    rw [reads, ← parts, List.append_assoc]
  have later : Token.LineAhead c.cursor.rest ending after := by
    rw [← parts] at lined
    exact lined.of_append
  have leaf : (s.recorded tokens).leaf = s.leaf.map fun leaf => (leaf.1, s.doneEvents.length) := rfl
  rw [leaf]
  obtain ⟨led, ahead⟩ := recorded_lead s plain left
  cases step with
  | fence open_leaf goes_on =>
    rw [goesOn, open_leaf] at goes_on
    rw [open_leaf]
    refine (if_pos goes_on).trans ?_
    rw [led, recorded_fenceLine later ahead]
  | paragraph open_leaf goes_on =>
    rw [goesOn, open_leaf] at goes_on
    rw [open_leaf]
    refine (if_pos goes_on).trans ?_
    rw [led, paragraphLine?_record _ later (recorded_ahead ahead), recorded_record]
    simp only [emit_emit, List.append_assoc]
  | reopen ends =>
    have reopened : ((s.recorded tokens).closeLeaf?.bind fun s =>
        (s.closeAfter? c.count (BlockStart.ofCursor c.cursor.skipBlank)).bind fun s =>
          (s.read (·.takeLead (c.lead.map Tree.kind))).openBlocks? c.cursor.column c.cursor.base) =
        some (((s.cutBack c).openBlocks c.cursor ending).recorded tokens) := by
      have same : tokens = (s.closeLeaf.closeAfter c.count
          (BlockStart.ofCursor c.cursor.skipBlank)).raw ++
            (Tree.rawAll c.lead ++ (c.cursor.rest ++ (ending ++ after))) := by
        rw [raw_closeAfter, raw_closeLeaf]
        exact left
      obtain ⟨led, ahead⟩ := recorded_lead _ plain same
      have reading : Reading (s.cutBack c) tokens c.cursor ending after :=
        ⟨leaf_cutBack s c, later, ahead⟩
      rw [recorded_closeLeaf, Option.bind_some, recorded_closeAfter, Option.bind_some, led]
      exact recorded_openBlocks reading
    rw [goesOn] at ends
    cases open_leaf : s.leaf with
    | none => exact reopened
    | some both =>
      obtain ⟨leaf, held⟩ := both
      rw [open_leaf] at ends
      cases leaf with
      | fence mark length => exact (if_neg (ne_true_of_eq_false ends)).trans reopened
      | paragraph => exact (if_neg (ne_true_of_eq_false ends)).trans reopened

/-- The first line of what is left is recorded as it is read. -/
theorem recorded_line (reads : tokens = s.raw ++ rest) (inside : ∀ t ∈ rest, t.kind ≠ .eof) :
    (s.recorded tokens).line? = some ((s.line rest).1.recorded tokens) ∧
      tokens = (s.line rest).1.raw ++ (s.line rest).2 := by
  have parts := line_parts rest
  constructor
  · refine recorded_addLine (s := s) tokens ((Token.Lined.first_line rest).lineAhead ?_)
      (by rw [← parts]; exact reads)
    intro t member
    exact inside t (List.takeWhile_subset _ member)
  · rw [raw_line]
    exact reads

theorem mem_of_mem_line (s : Stack) {t : Token} (member : t ∈ (s.line rest).2) : t ∈ rest :=
  List.mem_of_mem_drop (List.mem_of_mem_drop member)

theorem recorded_lines (tokens rest : List Token) (reads : tokens = s.raw ++ rest)
    (inside : ∀ t ∈ rest, t.kind ≠ .eof) :
    (s.recorded tokens).lines? = some ((s.lines rest).recorded tokens) := by
  fun_induction lines s rest with
  | case1 s =>
    have at_end : (s.recorded tokens).recorder.atEnd = true := by
      simp [Recorder.atEnd, recorded, reads]
    rw [Recording.lines?, if_pos at_end]
  | case2 s t ts ih =>
    have not_over : (s.recorded tokens).recorder.atEnd = false := by
      simp [Recorder.atEnd, recorded, reads]
    obtain ⟨step, below⟩ := recorded_line reads inside
    have less : ((s.line (t :: ts)).1.recorded tokens).recorder.ahead.length <
        (s.recorded tokens).recorder.ahead.length := by
      rw [recorded_ahead reads, recorded_ahead below]
      exact length_line_lt s t ts
    rw [Recording.lines?, not_over, step]
    simp only [Bool.false_eq_true, if_false, dif_pos less]
    exact ih below fun u member => inside u (s.mem_of_mem_line member)

end Stack

namespace Recording

/-- Recording the tokens of a document gives the events of its tree. -/
theorem document?_eq {tokens : List Token} (inside : ∀ t ∈ tokens, t.kind ≠ .eof) :
    document? tokens = some ⟨tokens, tokens.length, (Tree.ofTokens tokens).events⟩ := by
  have begun : (⟨(Recorder.ofTokens tokens).start.1, [], none⟩ : Recording) =
      Stack.empty.recorded tokens := rfl
  have lines := Stack.recorded_lines (s := Stack.empty) tokens tokens rfl inside
  have layers : ((Stack.empty.lines tokens).closeLeaf.recorded tokens).layers.length =
      (Stack.empty.lines tokens).layers.length := by
    rw [Stack.recorded, Stack.length_places, Stack.layers_closeLeaf]
  have whole := Stack.raw_popMany (Stack.empty.lines tokens).closeLeaf
    (Stack.empty.lines tokens).layers.length
  have open_layers := Stack.layers_finish (Stack.empty.lines tokens)
  have open_leaf := Stack.leaf_finish (Stack.empty.lines tokens)
  have held : ((Stack.empty.lines tokens).closeLeaf.popMany
      (Stack.empty.lines tokens).layers.length).recorded tokens =
        ⟨⟨tokens, tokens.length, .placeholder :: Tree.eventsAll (Stack.empty.lines tokens).finish⟩,
          [], none⟩ := by
    rw [Stack.recorded, whole, Stack.raw_closeLeaf, Stack.raw_lines, Stack.doneEvents,
      Stack.leafEvents, open_layers, open_leaf]
    simp [Stack.raw, Stack.rawLayers, Stack.empty, Stack.heldEvents, Stack.places, Stack.finish]
  have ends := Stack.complete?_held
    ⟨tokens, tokens.length, .placeholder :: Tree.eventsAll (Stack.empty.lines tokens).finish⟩ []
    (Tree.eventsAll (Stack.empty.lines tokens).finish) .root rfl
  have place : (Recorder.ofTokens tokens).start.2 = ([] : List Event).length := rfl
  rw [document?]
  simp only [begun, lines, Option.bind_eq_bind, Option.bind_some, Stack.recorded_closeLeaf, layers,
    Stack.recorded_popMany, held, List.isEmpty_nil, Option.isNone_none, Bool.and_self, if_true,
    place, ends]
  simp [Tree.ofTokens]

end Recording

end MarkdownEditing
