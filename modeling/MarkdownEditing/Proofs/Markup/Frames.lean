import MarkdownEditing.Proofs.Markup.Markers
import MarkdownEditing.Proofs.Syntax.Openings
import MarkdownEditing.Proofs.Syntax.Order
import MarkdownEditing.Proofs.Text.Lines

namespace MarkdownEditing

inductive IsMarkOf : Kind → Text → Prop
  | quote : IsMarkOf .blockQuote ['>']
  | item (mark : Text) : IsItemMarker mark → IsMarkOf .listItem mark

namespace IsMarkOf

variable {kind : Kind} {mark : Text}

theorem ne_nil (is_mark : IsMarkOf kind mark) : mark ≠ [] := by
  cases is_mark with
  | quote => simp
  | item _ marker => exact marker.ne_nil

theorem no_line_break (is_mark : IsMarkOf kind mark) : ∀ c, c = '\n' ∨ c = '\r' → c ∉ mark := by
  intro c control
  cases is_mark with
  | quote => rcases control with rfl | rfl <;> simp
  | item _ marker => exact marker.no_line_break control

theorem isItemMarker (is_mark : IsMarkOf .listItem mark) : IsItemMarker mark := by
  cases is_mark with
  | item _ marker => exact marker

end IsMarkOf

namespace Place

variable {t : Text} {p : Place}

theorem In.start_le (inside : p.In (Tree.ofText t)) : p.start ≤ t.size := by
  have reach := Text.le_size_of_isBoundary inside.isBoundary_start
  rwa [Tree.text_ofText] at reach

theorem In.stop_le (inside : p.In (Tree.ofText t)) : p.stop ≤ t.size := by
  have reach := Text.le_size_of_isBoundary inside.isBoundary_stop
  rwa [Tree.text_ofText] at reach

theorem leaf_first {ts : List Tree} {later rest : List Visit} {kind : Kind} {raw : List Token}
    (same : Tree.walkAll ts ++ .leave :: later = .leaf kind raw :: rest) :
    ∃ ts', ts = .token kind raw :: ts' := by
  cases ts with
  | nil => simp at same
  | cons first ts =>
    cases first with
    | node kind' inner => simp at same
    | token kind' raw' =>
      simp only [Tree.walkAll_cons, Tree.walk_token, List.cons_append,
        List.cons.injEq, Visit.leaf.injEq] at same
      obtain ⟨⟨rfl, rfl⟩, _⟩ := same
      exact ⟨ts, rfl⟩

theorem In.mark_first (inside : p.In (Tree.ofText t)) (node : p.isNode = true)
    (container : p.kind = .blockQuote ∨ p.kind = .listItem) :
    (∀ c ∈ (Visit.text (before p.above)).lastLine, isErasable c = true) ∧
      ∃ kind raw ts, p.tree = .node p.kind (.token kind raw :: ts) ∧
        (kind = .quoteMark ∨ kind = .listMark) ∧ IsMarkOf p.kind (Token.join raw) := by
  obtain ⟨tree, start, above⟩ := p
  cases tree with
  | token => cases node
  | node kind ts =>
    have walk := inside.walk_eq
    rw [Tree.walk_node, List.append_assoc, List.cons_append, List.append_assoc] at walk
    have opens := Tree.led_ofText t (before above) kind _ walk
    change kind = _ ∨ kind = _ at container
    rcases container with rfl | rfl
    · obtain ⟨erasable, raw, rest, same, mark⟩ := opens
      obtain ⟨ts', rfl⟩ := leaf_first same
      exact ⟨List.all_eq_true.mp erasable, .quoteMark, raw, ts', rfl, Or.inl rfl, mark ▸ .quote⟩
    · obtain ⟨erasable, raw, rest, same, mark⟩ := opens
      obtain ⟨ts', rfl⟩ := leaf_first same
      exact ⟨List.all_eq_true.mp erasable, .listMark, raw, ts', rfl, Or.inr rfl, .item _ mark⟩

theorem In.first_leaf (inside : p.In (Tree.ofText t)) (node : p.isNode = true)
    (container : p.kind = .blockQuote ∨ p.kind = .listItem) :
    ∃ leaf ∈ p.leaves, leaf ∈ p.children ∧ leaf.kind.isTrivia = false ∧ leaf.start = p.start ∧
      leaf.start < leaf.stop := by
  obtain ⟨_, kind, raw, ts, shape, mark, text⟩ := inside.mark_first node container
  have first : ⟨.token kind raw, p.start, ⟨p.kind, p.start, [], ts⟩ :: p.above⟩ ∈ p.children := by
    rw [children, shape]
    exact List.mem_cons_self
  refine ⟨_, leaves_of_child first ?_, first, ?_, rfl, ?_⟩
  · rw [leaves_eq, if_neg (by simp [isNode, Tree.isNode])]
    exact List.mem_singleton_self _
  · rcases mark with rfl | rfl <;> rfl
  · have some_bytes := Text.size_pos text.ne_nil
    rw [stop_eq]
    simp only [Tree.text, Tree.raw_token]
    omega

/-- The line on which a place starts, for text that the place begins with and that stays on it. -/
theorem In.text_on_line (lineBreak : LineBreak) (inside : p.In (Tree.ofText t)) {mark later : Text}
    (text : p.tree.text = mark ++ later) (some_text : mark ≠ [])
    (clean : ∀ c, c = '\n' ∨ c = '\r' → c ∉ mark) :
    ∃ tail, ((Document.ofText t lineBreak).lineAt p.start).text =
        (Visit.text (before p.above)).lastLine ++ (mark ++ tail) ∧
      ((Document.ofText t lineBreak).lineAt p.start).start +
        (Visit.text (before p.above)).lastLine.size = p.start := by
  have parts := inside.text_eq
  rw [Tree.text_ofText, text, ← List.append_assoc, List.append_assoc] at parts
  obtain ⟨tail, text, start⟩ := @Document.lineAt_of_parts _ lineBreak _ _ _ parts some_text clean
  rw [inside.size_before] at text start
  exact ⟨tail, by rw [text, List.append_assoc], start⟩

/-- The line on which a place starts is cut at the place: markup stands before it, and it begins with
`mark`. -/
structure StartsOn (p : Place) (l : Line) (lead mark tail : Text) : Prop where
  text : l.text = lead ++ (mark ++ tail)
  start : l.start + lead.size = p.start
  erasable : ∀ c ∈ lead, isErasable c = true

theorem StartsOn.start_sub {l : Line} {lead mark tail : Text}
    (starts : p.StartsOn l lead mark tail) :
    p.start - l.start = lead.size := by
  have start := starts.start
  omega

theorem StartsOn.dropBytes_start {l : Line} {lead mark tail : Text}
    (starts : p.StartsOn l lead mark tail) :
    l.text.dropBytes (p.start - l.start) = mark ++ tail := by
  rw [starts.start_sub, starts.text, Text.dropBytes_left]

theorem In.mark_on_line (lineBreak : LineBreak) (inside : p.In (Tree.ofText t)) (node : p.isNode = true)
    (container : p.kind = .blockQuote ∨ p.kind = .listItem) :
    ∃ lead mark tail, p.StartsOn ((Document.ofText t lineBreak).lineAt p.start) lead mark tail ∧
      IsMarkOf p.kind mark := by
  obtain ⟨erasable, kind, raw, ts, shape, -, mark⟩ := inside.mark_first node container
  have text : p.tree.text = Token.join raw ++ Token.join (Tree.rawAll ts) := by
    rw [shape, Tree.text, Tree.raw_node, Tree.rawAll_cons, Tree.raw_token, Token.join_append]
  obtain ⟨tail, text, start⟩ := inside.text_on_line lineBreak text mark.ne_nil mark.no_line_break
  exact ⟨_, _, tail, ⟨text, start, erasable⟩, mark⟩

theorem In.item_on_line (lineBreak : LineBreak) (inside : p.In (Tree.ofText t))
    (node : p.isNode = true) (item : p.kind = .listItem) {mark later : Text}
    (text : p.tree.text = mark ++ later) (marker : IsItemMarker mark) :
    ∃ lead tail, p.StartsOn ((Document.ofText t lineBreak).lineAt p.start) lead mark tail := by
  obtain ⟨tail, text, start⟩ :=
    inside.text_on_line lineBreak text marker.ne_nil fun _ control => marker.no_line_break control
  exact ⟨_, tail, text, start, (inside.mark_first node (Or.inr item)).1⟩

end Place

namespace Frame

def container (f : Frame) : Place := f.item.getD f.node

structure On (f : Frame) (l : Line) (lead glyphs tail : Text) : Prop where
  text : l.text = lead ++ (glyphs ++ (f.after ++ tail))
  start : f.start = lead.size
  stop : f.stop = lead.size + (glyphs.size + f.after.size)
  lead_erasable : ∀ c ∈ lead, isErasable c = true
  glyphs_erasable : ∀ c ∈ glyphs, isErasable c = true
  visible : ∃ c ∈ glyphs, isWhite c = false
  spaces : ∃ n, f.after = Text.spaces n

theorem ofMarker_on {p node : Place} {item : Option Place} {m : Marker} {l : Line}
    {lead mark tail glyphs rest : Text} (starts : p.StartsOn l lead mark tail)
    (takes : m.Takes (mark ++ tail) glyphs rest) :
    (ofMarker node item (p.start - l.start) m).On l lead glyphs rest where
  text := by rw [starts.text, takes.parts]; rfl
  start := starts.start_sub
  stop := by simp only [ofMarker, takes.size, starts.start_sub]
  lead_erasable := starts.erasable
  glyphs_erasable := takes.erasable
  visible := takes.visible
  spaces := takes.spaces

variable {t : Text} {lineBreak : LineBreak} {p : Place} {f : Frame}

/-- What the frame of a node is read from: the marker at its start, which for an item is one of its
list. A fenced code block has none. -/
inductive Reads (p : Place) (d : Document) : Frame → Prop
  | fence (kind : p.kind = .fencedCode) :
    Reads p d ⟨p, none, p.start - (d.lineAt p.start).start, p.start - (d.lineAt p.start).start,
      [], [], []⟩
  | quote {m : Marker} (kind : p.kind = .blockQuote)
    (read : Marker.quote? ((d.lineAt p.start).text.dropBytes
      (p.start - (d.lineAt p.start).start)) = some m) :
    Reads p d (ofMarker p none (p.start - (d.lineAt p.start).start) m)
  | ordered {list : Place} {m : Marker} (kind : p.kind = .listItem)
    (parent : p.parent? = some list) (ordered : list.kind = .orderedList)
    (read : Marker.ordered? ((d.lineAt p.start).text.dropBytes
      (p.start - (d.lineAt p.start).start)) = some m) :
    Reads p d (ofMarker list (some p) (p.start - (d.lineAt p.start).start) m)
  | bullet {list : Place} {m : Marker} (kind : p.kind = .listItem)
    (parent : p.parent? = some list) (bullets : list.kind = .bulletList)
    (read : Marker.bullet? ((d.lineAt p.start).text.dropBytes
      (p.start - (d.lineAt p.start).start)) = some m) :
    Reads p d (ofMarker list (some p) (p.start - (d.lineAt p.start).start) m)

theorem ofNode?_reads {d : Document} (found : ofNode? p d = some f) : f.Reads p d := by
  unfold ofNode? at found
  dsimp only at found
  split at found
  · rename_i kind
    cases found
    exact .fence kind
  · rename_i kind
    obtain ⟨m, read, rfl⟩ := Option.map_eq_some_iff.mp found
    exact .quote kind read
  · rename_i kind
    split at found
    · cases found
    · rename_i list parent
      split at found
      · rename_i ordered
        obtain ⟨m, read, rfl⟩ := Option.map_eq_some_iff.mp found
        exact .ordered kind parent ordered read
      · rename_i bullets
        obtain ⟨m, read, rfl⟩ := Option.map_eq_some_iff.mp found
        exact .bullet kind parent bullets read
      · cases found
  · cases found

/-- A frame is that of a fenced code block and has no marker, or it is that of a quote or a list
item, and its marker stands where the container starts. -/
theorem ofNode?_cases (inside : p.In (Tree.ofText t)) (node : p.isNode = true)
    (found : ofNode? p (Document.ofText t lineBreak) = some f) :
    (f.item = none ∧ f.isQuote = false ∧ f.stop = f.start ∧ f.after = []) ∨
      ∃ lead glyphs rest, f.On ((Document.ofText t lineBreak).lineAt p.start) lead glyphs rest ∧
        ((Document.ofText t lineBreak).lineAt p.start).start + lead.size = p.start ∧
        f.container = p ∧ (p.kind = .blockQuote ∨ p.kind = .listItem) ∧
        f.item.isSome = !f.isQuote := by
  cases ofNode?_reads found with
  | fence kind => exact Or.inl ⟨rfl, by simp [isQuote, kind], rfl, rfl⟩
  | quote kind read =>
    obtain ⟨lead, mark, tail, starts, is_mark⟩ := inside.mark_on_line lineBreak node (Or.inl kind)
    rw [kind] at is_mark
    cases is_mark
    rw [starts.dropBytes_start] at read
    obtain ⟨rest, takes⟩ := Marker.quote?_takes read
    exact Or.inr ⟨lead, _, rest, ofMarker_on starts takes, starts.start, rfl, Or.inl kind,
      by simp [ofMarker, isQuote, kind]⟩
  | ordered kind _ ordered read =>
    obtain ⟨lead, mark, tail, starts, is_mark⟩ := inside.mark_on_line lineBreak node (Or.inr kind)
    rw [kind] at is_mark
    rw [starts.dropBytes_start] at read
    obtain ⟨glyphs, rest, takes⟩ := Marker.ordered?_takes is_mark.isItemMarker read
    exact Or.inr ⟨lead, glyphs, rest, ofMarker_on starts takes, starts.start, rfl, Or.inr kind,
      by simp [ofMarker, isQuote, ordered]⟩
  | bullet kind _ bullets read =>
    obtain ⟨lead, mark, tail, starts, is_mark⟩ := inside.mark_on_line lineBreak node (Or.inr kind)
    rw [kind] at is_mark
    rw [starts.dropBytes_start] at read
    obtain ⟨glyphs, rest, takes⟩ := Marker.bullet?_takes is_mark.isItemMarker read
    exact Or.inr ⟨lead, glyphs, rest, ofMarker_on starts takes, starts.start, rfl, Or.inr kind,
      by simp [ofMarker, isQuote, bullets]⟩

end Frame

end MarkdownEditing
