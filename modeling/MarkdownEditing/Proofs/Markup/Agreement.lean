import MarkdownEditing.Proofs.Markup.Frames
import MarkdownEditing.Proofs.Syntax.Containers

namespace MarkdownEditing

namespace Tree

variable {t : Tree}

theorem wellShaped_of_rebuild (above : List Level) (shaped : (Place.rebuild t above).WellShaped) :
    t.WellShaped := by
  induction above generalizing t with
  | nil => exact shaped
  | cons level above ih =>
    cases ih shaped with
    | node shape children => exact children t (by simp)

theorem IsItemOf.exists_mark {style : ListStyle} (item : t.IsItemOf style) :
    ∃ mark later, t.text = mark ++ later ∧ style.Marks mark := by
  obtain ⟨raw, rest, rfl, marks⟩ := item
  exact ⟨Token.join raw, Token.join (rawAll rest), by simp [Tree.text], marks⟩

theorem IsListOf.item_of_mem {style : ListStyle} {kind : Kind} {children : List Tree}
    (list : (node kind children).IsListOf style) (member : t ∈ children) (isNode : t.isNode = true) :
    t.IsItemOf style ∧ kind = style.listKind := by
  obtain ⟨first, rest, same, item, items⟩ := list
  cases same
  rcases List.mem_cons.mp member with rfl | member
  · exact ⟨item, rfl⟩
  · exact ⟨items t member isNode, rfl⟩

end Tree

namespace Place

variable {t : Text} {p q : Place}

theorem In.shape_of_parent (inside : p.In (Tree.ofText t)) (found : p.parent? = some q) :
    ∃ children, q.tree = .node q.kind children ∧ Tree.Shape q.kind children ∧ p.tree ∈ children := by
  obtain ⟨tree, start, above⟩ := p
  cases above with
  | nil => cases found
  | cons level above =>
    cases found
    have shaped := Tree.wellShaped_ofText t
    rw [← inside.whole] at shaped
    cases Tree.wellShaped_of_rebuild above shaped with
    | node shape _ => exact ⟨_, rfl, shape, by simp⟩

theorem In.item_of_list (inside : p.In (Tree.ofText t)) (found : p.parent? = some q)
    (list : q.kind.isList = true) (isNode : p.isNode = true) :
    ∃ style : ListStyle, q.kind = style.listKind ∧ p.tree.IsItemOf style := by
  obtain ⟨children, _, shape, member⟩ := inside.shape_of_parent found
  obtain ⟨style, of_style⟩ := shape.list list
  obtain ⟨item, kind⟩ := of_style.item_of_mem member isNode
  exact ⟨style, kind, item⟩

theorem In.exists_list (inside : p.In (Tree.ofText t)) (isNode : p.isNode = true)
    (item : p.kind = .listItem) :
    ∃ list style, p.parent? = some list ∧ list.kind = style.listKind ∧ p.tree.IsItemOf style := by
  cases found : p.parent? with
  | none =>
    rw [inside.eq_root found] at item
    cases item
  | some list =>
    obtain ⟨children, _, shape, member⟩ := inside.shape_of_parent found
    obtain ⟨style, kind, of_style⟩ :=
      inside.item_of_list found (shape.itemInList _ member isNode item) isNode
    exact ⟨list, style, rfl, kind, of_style⟩

/-- A list item, a quote or a fenced code block, unless it is an item of a bullet list whose bullet
is not directly followed by a space. -/
def showsFrame (p : Place) (t : Text) : Bool :=
  match p.kind with
  | .blockQuote | .fencedCode => true
  | .listItem =>
    p.parent?.map kind != some .bulletList || (t.dropBytes (p.start + 1)).head? == some ' '
  | _ => false

end Place

namespace Place

variable {t : Text} {lineBreak : LineBreak} {p : Place}

theorem In.tail_on_line (inside : p.In (Tree.ofText t)) {lead mark tail : Text}
    (starts : p.StartsOn ((Document.ofText t lineBreak).lineAt p.start) lead mark tail) :
    (t.dropBytes (p.start + mark.size)).head? = some ' ' ↔ tail.head? = some ' ' := by
  obtain ⟨before, after, whole, lies, _⟩ := @Document.lineAt_lies t lineBreak _ inside.start_le
  have left : t.dropBytes (p.start + mark.size) = tail ++ after := by
    have size : p.start + mark.size = (before ++ lead ++ mark).size := by
      rw [Text.size_append, Text.size_append, ← lies.start, starts.start]
    have parts : t = (before ++ lead ++ mark) ++ (tail ++ after) := by
      rw [starts.text] at whole
      simpa using whole
    rw [size]
    exact (congrArg (Text.dropBytes · _) parts).trans (Text.dropBytes_left _ _)
  rw [left]
  cases tail with
  | cons c tail => rfl
  | nil =>
    rcases lies.closes with rfl | ⟨rest, rfl, _⟩ | ⟨rest, rfl⟩ <;> simp

end Place

namespace Frame

variable {t : Text} {lineBreak : LineBreak} {p : Place} {f : Frame} {l : Line}
  {lead glyphs tail rest : Text}

structure Spans (f : Frame) (l : Line) (glyphs : Text) : Prop where
  start_le : f.start ≤ f.markerStop
  markerStop_le : f.markerStop ≤ f.stop
  stop_le : f.stop ≤ l.text.size
  after_le : f.after.size ≤ f.stop
  marker : l.text.cut? f.start f.markerStop = some glyphs
  space : l.text.cut? f.markerStop f.stop = some f.after
  blank : (f.blank none true).size = f.stop - f.start

inductive Marks (f : Frame) (p : Place) (l : Line) : Text → Prop
  | quote : p.kind = .blockQuote → f.node = p → f.item = none → f.glyphs = ['>'] →
    f.Marks p l ['>']
  | number (list : Place) (digits : Text) (c : Char) : p.kind = .listItem →
    p.parent? = some list → list.kind = .orderedList → f.node = list → f.item = some p →
    digits ≠ [] → digits.all Char.isDigit = true → c = '.' ∨ c = ')' → f.glyphs = [c] →
    f.Marks p l (digits ++ [c])
  | bullet (list : Place) (c : Char) (box : Text) : p.kind = .listItem →
    p.parent? = some list → list.kind = .bulletList → f.node = list → f.item = some p →
    c = '-' ∨ c = '+' ∨ c = '*' → Marker.BeginsWithBox (l.text.dropBytes (f.start + 1)) box →
    f.glyphs = c :: Marker.cleared box → f.Marks p l (c :: box)

/-- The frame is that of the container `p`, measured on the first line of `p`. -/
structure Shows (d : Document) (p : Place) (f : Frame) : Prop where
  container : f.container = p
  column : (d.lineAt p.start).start + f.start = p.start
  fence : p.kind = .fencedCode →
    f.node = p ∧ f.item = none ∧ f.stop = f.start ∧ f.before = [] ∧ f.glyphs = [] ∧ f.after = []
  marker : p.kind ≠ .fencedCode →
    ∃ glyphs, f.Marks p (d.lineAt p.start) glyphs ∧ f.Spans (d.lineAt p.start) glyphs

theorem On.markerStop (on : f.On l lead glyphs rest) : f.markerStop = lead.size + glyphs.size := by
  rw [Frame.markerStop, on.stop]
  omega

theorem On.size_blank (on : f.On l lead glyphs rest) (no_indent : f.before = []) :
    (f.blank none true).size = f.stop - f.start := by
  have some_glyph : 1 ≤ glyphs.size := by
    obtain ⟨c, member, _⟩ := on.visible
    cases glyphs with
    | nil => cases member
    | cons d glyphs =>
      have positive := d.utf8Size_pos
      rw [Text.size_cons]
      omega
  have head : (if f.isQuote then ['>'] else [] : Text).size ≤ 1 := by
    split <;> decide
  simp only [blank, no_indent, List.nil_append, ↓reduceIte, Text.size_append, Text.size_spaces]
  rw [on.start, on.stop]
  omega

theorem On.spans (on : f.On l lead glyphs rest) (no_indent : f.before = []) : f.Spans l glyphs where
  start_le := by rw [on.markerStop, on.start]; omega
  markerStop_le := by rw [on.markerStop, on.stop]; omega
  stop_le := by
    rw [on.text, on.stop]
    simp only [Text.size_append]
    omega
  after_le := by rw [on.stop]; omega
  marker := by
    rw [on.markerStop, on.start, on.text, ← List.append_assoc]
    exact Text.cut?_middle _ _ _
  space := by
    rw [on.markerStop, on.stop, on.text, ← Nat.add_assoc, ← Text.size_append]
    simp only [← List.append_assoc]
    exact Text.cut?_middle _ _ _
  blank := on.size_blank no_indent

theorem ofNode?_fence (inside : p.In (Tree.ofText t)) (kind : p.kind = .fencedCode) :
    ∃ f, ofNode? p (Document.ofText t lineBreak) = some f ∧
      f.Shows (Document.ofText t lineBreak) p := by
  obtain ⟨_, _, _, _, reaches, _⟩ := @Document.lineAt_lies t lineBreak _ inside.start_le
  refine ⟨_, by rw [ofNode?, kind], rfl, ?_, fun _ => ⟨rfl, rfl, rfl, rfl, rfl, rfl⟩,
    fun other => absurd kind other⟩
  have low := reaches.1
  dsimp only
  omega

theorem shows_ofMarker {node : Place} {item : Option Place} {m : Marker} {mark : Text}
    (starts : p.StartsOn ((Document.ofText t lineBreak).lineAt p.start) lead mark tail)
    (takes : m.Takes (mark ++ tail) glyphs rest) (no_indent : m.before = [])
    (container : item.getD node = p) (no_fence : p.kind ≠ .fencedCode)
    (marks : (ofMarker node item (p.start - ((Document.ofText t lineBreak).lineAt p.start).start)
      m).Marks p ((Document.ofText t lineBreak).lineAt p.start) glyphs) :
    (ofMarker node item (p.start - ((Document.ofText t lineBreak).lineAt p.start).start) m).Shows
      (Document.ofText t lineBreak) p where
  container := container
  column := by
    have start := starts.start
    dsimp only [ofMarker]
    omega
  fence kind := absurd kind no_fence
  marker _ := ⟨glyphs, marks, (ofMarker_on starts takes).spans no_indent⟩

theorem ofNode?_quote (inside : p.In (Tree.ofText t)) (isNode : p.isNode = true)
    (kind : p.kind = .blockQuote) :
    ∃ f, ofNode? p (Document.ofText t lineBreak) = some f ∧
      f.Shows (Document.ofText t lineBreak) p := by
  obtain ⟨lead, mark, tail, starts, is_mark⟩ := inside.mark_on_line lineBreak isNode (Or.inl kind)
  rw [kind] at is_mark
  cases is_mark
  obtain ⟨m, read, before, glyphs⟩ := Marker.quote?_eq tail
  obtain ⟨rest, takes⟩ := Marker.quote?_takes read
  refine ⟨ofMarker p none _ m, ?_, shows_ofMarker starts takes before rfl (by simp [kind])
    (.quote kind rfl rfl glyphs)⟩
  simp only [ofNode?, kind, starts.dropBytes_start]
  rw [List.singleton_append, read]
  rfl

section Ordered

variable (inside : p.In (Tree.ofText t)) (isNode : p.isNode = true) (kind : p.kind = .listItem)
  {list : Place} (parent : p.parent? = some list) (ordered : list.kind = .orderedList)
  {digits later : Text} {c : Char} (item : p.tree.text = (digits ++ [c]) ++ later)
  (some_digit : digits ≠ []) (all : digits.all Char.isDigit = true) (glyph : c = '.' ∨ c = ')')

include inside isNode kind parent ordered item some_digit all glyph

theorem ofNode?_number :
    ∃ lead tail, p.StartsOn ((Document.ofText t lineBreak).lineAt p.start) lead (digits ++ [c]) tail ∧
      ofNode? p (Document.ofText t lineBreak) = some (ofMarker list (some p)
        (p.start - ((Document.ofText t lineBreak).lineAt p.start).start)
        (Marker.withSpaces [] [c] (digits.size + 1) (Text.leadingSpaces tail) 3)) := by
  obtain ⟨lead, tail, starts⟩ :=
    inside.item_on_line lineBreak isNode kind item (.number digits c some_digit all glyph)
  refine ⟨lead, tail, starts, ?_⟩
  simp only [ofNode?, kind, parent, ordered, starts.dropBytes_start]
  rw [Marker.ordered?_eq some_digit all glyph tail]
  rfl

theorem ofNode?_ordered : ∃ f, ofNode? p (Document.ofText t lineBreak) = some f ∧
    f.Shows (Document.ofText t lineBreak) p := by
  obtain ⟨lead, tail, starts, found⟩ := @ofNode?_number t lineBreak p inside isNode
    kind list parent ordered digits later c item some_digit all glyph
  obtain ⟨rest, takes⟩ := Marker.number_takes some_digit all glyph tail
  exact ⟨_, found, shows_ofMarker starts takes rfl rfl (by simp [kind])
    (.number list digits c kind parent ordered rfl rfl some_digit all glyph rfl)⟩

end Ordered

theorem ofNode?_bullet (inside : p.In (Tree.ofText t)) (isNode : p.isNode = true)
    (kind : p.kind = .listItem) {list : Place} (parent : p.parent? = some list)
    (bullets : list.kind = .bulletList) {later : Text} {c : Char}
    (item : p.tree.text = [c] ++ later) (glyph : c = '-' ∨ c = '+' ∨ c = '*') :
    ((t.dropBytes (p.start + 1)).head? = some ' ' →
      ∃ f, ofNode? p (Document.ofText t lineBreak) = some f ∧
        f.Shows (Document.ofText t lineBreak) p) ∧
      ((t.dropBytes (p.start + 1)).head? ≠ some ' ' →
        ofNode? p (Document.ofText t lineBreak) = none) := by
  obtain ⟨lead, tail, starts⟩ := inside.item_on_line lineBreak isNode kind item (.bullet c glyph)
  have one : Text.size [c] = 1 := by
    rcases glyph with rfl | rfl | rfl <;> rfl
  have next := inside.tail_on_line starts
  rw [one] at next
  obtain ⟨box, parts, cleared, begins, space⟩ := Marker.splitTask_cases tail
  have spaced := next.trans space.symm
  have found : ofNode? p (Document.ofText t lineBreak) =
      (Marker.bullet? (c :: tail)).map (ofMarker list (some p)
        (p.start - ((Document.ofText t lineBreak).lineAt p.start).start)) := by
    simp only [ofNode?, kind, parent, bullets, starts.dropBytes_start]
    rfl
  rw [found, Marker.bullet?_eq glyph tail]
  constructor
  · intro directly
    rw [if_pos (spaced.mp directly), cleared]
    obtain ⟨rest, takes⟩ := Marker.bullet_takes glyph parts begins.length_cleared begins.isErasable
    refine ⟨_, rfl, shows_ofMarker starts takes rfl rfl (by simp [kind]) ?_⟩
    refine .bullet list c box kind parent bullets rfl rfl glyph ?_ rfl
    have after_bullet : ((Document.ofText t lineBreak).lineAt p.start).text.dropBytes
        (lead.size + 1) = tail := by
      rw [starts.text, Text.dropBytes_append, ← one, Text.dropBytes_left]
    dsimp only [ofMarker]
    rw [starts.start_sub, after_bullet]
    exact begins
  · intro apart
    rw [if_neg fun space => apart (spaced.mpr space)]
    rfl

/-- A container has the frame that is measured on its first line, and nothing else has a frame. -/
theorem ofNode?_shows (inside : p.In (Tree.ofText t)) (isNode : p.isNode = true) :
    (p.showsFrame t = true → ∃ f, ofNode? p (Document.ofText t lineBreak) = some f ∧
      f.Shows (Document.ofText t lineBreak) p) ∧
    (p.showsFrame t = false → ofNode? p (Document.ofText t lineBreak) = none) := by
  by_cases fence : p.kind = .fencedCode
  · refine ⟨fun _ => ofNode?_fence inside fence, fun hidden => ?_⟩
    simp [Place.showsFrame, fence] at hidden
  by_cases quote : p.kind = .blockQuote
  · refine ⟨fun _ => ofNode?_quote inside isNode quote, fun hidden => ?_⟩
    simp [Place.showsFrame, quote] at hidden
  by_cases item : p.kind = .listItem
  · obtain ⟨list, style, parent, kind, of_style⟩ := inside.exists_list isNode item
    obtain ⟨mark, later, text, marks⟩ := of_style.exists_mark
    rcases marks.cases with ⟨ordered, digits, c, rfl, some_digit, all, glyph⟩ | ⟨bullets, c, rfl, glyph⟩
    · rw [ordered] at kind
      refine ⟨fun _ => ofNode?_ordered inside isNode item parent kind text some_digit all glyph,
        fun hidden => ?_⟩
      simp [Place.showsFrame, item, parent, kind] at hidden
    · rw [bullets] at kind
      have bullet := @ofNode?_bullet t lineBreak p inside isNode item list parent kind later c text glyph
      simpa [Place.showsFrame, item, parent, kind] using bullet
  · have hidden : p.showsFrame t = false := by
      unfold Place.showsFrame
      split <;> simp_all
    refine ⟨fun shown => absurd shown (by simp [hidden]), fun _ => ?_⟩
    unfold ofNode?
    split <;> simp_all

theorem forall₂_filterMap {α β : Type} {shown : α → Bool} {read : α → Option β}
    {related : α → β → Prop} (l : List α)
    (each : ∀ a ∈ l, (shown a = true → ∃ b, read a = some b ∧ related a b) ∧
      (shown a = false → read a = none)) :
    List.Forall₂ related (l.filter shown) (l.filterMap read) := by
  induction l with
  | nil => exact .nil
  | cons a l ih =>
    have rest := ih fun b member => each b (List.mem_cons_of_mem a member)
    obtain ⟨found, missed⟩ := each a List.mem_cons_self
    cases shows : shown a with
    | true =>
      obtain ⟨b, same, this⟩ := found shows
      rw [List.filter_cons_of_pos shows, List.filterMap_cons_some same]
      exact .cons this rest
    | false =>
      rw [List.filter_cons_of_neg (by simp [shows]), List.filterMap_cons_none (missed shows)]
      exact rest

/-- The containers around a place and the frames read off the lines are the same, from the outermost
in. -/
theorem around_agrees (t : Text) (lineBreak : LineBreak) {p : Place}
    (element : p ∈ (Place.root (Tree.ofText t)).descendants) :
    List.Forall₂ (fun container f => f.Shows (Document.ofText t lineBreak) container)
      (p.enclosing.reverse.filter (·.showsFrame t)) (around p (Document.ofText t lineBreak)) := by
  have inside := (Place.root_in (Tree.ofText t)).descendant element
  refine forall₂_filterMap _ fun container member => ?_
  have encloses := List.mem_reverse.mp member
  exact ofNode?_shows (inside.enclosing encloses) (List.mem_filter.mp encloses).2

def nestedTask : Text := ['>', ' ', '1', '.', ' ', 'a', '\n', '>', ' ', ' ', ' ', ' ', '-', ' ', '[', 'x',
  ']', ' ', 'b']

/-- A checked task in a numbered item in a quote has three frames, and they stand on two lines. -/
theorem around_nestedTask :
    ∃ p, p ∈ (Place.root (Tree.ofText nestedTask)).descendants ∧
      (around p (Document.ofText nestedTask .lf)).map (fun f => (f.start, f.glyphs, f.stop)) =
        [(0, ['>'], 2), (2, ['.'], 5), (5, ['-', ' ', '[', ' ', ']'], 11)] ∧
      List.Forall₂ (fun container f => f.Shows (Document.ofText nestedTask .lf) container)
        (p.enclosing.reverse.filter (·.showsFrame nestedTask))
        (around p (Document.ofText nestedTask .lf)) := by
  have last : (Place.root (Tree.ofText nestedTask)).descendants.getLast?.map (fun p =>
      (around p (Document.ofText nestedTask .lf)).map fun f => (f.start, f.glyphs, f.stop)) =
      some [(0, ['>'], 2), (2, ['.'], 5), (5, ['-', ' ', '[', ' ', ']'], 11)] := by decide +kernel
  obtain ⟨p, found, frames⟩ := Option.map_eq_some_iff.mp last
  have member := List.mem_of_getLast? found
  exact ⟨p, member, frames, around_agrees nestedTask .lf member⟩

end Frame

end MarkdownEditing
