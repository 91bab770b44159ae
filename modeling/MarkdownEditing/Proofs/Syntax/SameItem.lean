import MarkdownEditing.Proofs.Syntax.ItemLine

namespace MarkdownEditing

namespace Tree

def itemStarts (pos : Nat) : List Tree → List Nat
  | [] => []
  | t :: ts =>
    if t.isNode && t.kind == .listItem then pos :: itemStarts (pos + t.size) ts
    else itemStarts (pos + t.size) ts

theorem itemStarts_append (pos : Nat) (ts us : List Tree) :
    itemStarts pos (ts ++ us) = itemStarts pos ts ++ itemStarts (pos + sizeAll ts) us := by
  induction ts generalizing pos with
  | nil => simp [itemStarts, sizeAll]
  | cons t ts ih =>
    rw [List.cons_append, itemStarts, itemStarts, ih, sizeAll, Nat.add_assoc]
    split
    · rfl
    · rfl

end Tree

namespace Place

variable {kind : Kind} {start pos : Nat} {above : List Level} {left done us cs : List Tree}
  {l p : Place}

theorem map_start_neighbours (ts : List Tree) :
    ((neighbours kind start above left pos ts).filter fun p => p.isNode && p.kind == .listItem).map
      Place.start = Tree.itemStarts pos ts := by
  induction ts generalizing left pos with
  | nil => rfl
  | cons t ts ih =>
    rw [neighbours, Tree.itemStarts]
    by_cases item : (t.isNode && t.kind == .listItem) = true
    · rw [List.filter_cons_of_pos (by exact item), if_pos item, List.map_cons, ih]
    · rw [List.filter_cons_of_neg (by exact item), if_neg item, ih]

theorem map_start_items (shape : l.tree = .node kind (done ++ .node .listItem cs :: us)) :
    l.items.map Place.start = Tree.itemStarts l.start done ++
      (l.childAfter kind done (.node .listItem cs) us).start ::
        (l.childAfter kind done (.node .listItem cs) us).followingItems.map Place.start := by
  rw [items, children, shape]
  dsimp only
  rw [map_start_neighbours, Tree.itemStarts_append, followingItems, following]
  dsimp only [childAfter, Place.stop]
  rw [map_start_neighbours]
  rfl

end Place

namespace Tree

open Stack (empty ItemLine)
open Token (scan firstLine)
open Continuation (Arrives Content)
open Text (BeginsWord)

variable {a b own mark rest : Text} {k column base : Nat} {style : ListStyle}
  {done above : List Tree} {layers : List Layer}

theorem join_lines (a : Text) : Token.join (empty.lines (scan a)).raw = a := by
  rw [Stack.raw_lines]
  exact Token.join_scan a

theorem size_layers
    (line : (empty.lines (scan a)).ItemLine (scan own) style done above layers column base) :
    Text.size (Token.join (Stack.rawLayers (⟨.list style, above⟩ :: layers))) + sizeAll done =
      (a ++ own).size := by
  have raw := congrArg (Text.size ∘ Token.join) line.raw
  simp only [Function.comp_apply, Token.join_append, Text.size_append, join_lines,
    Token.join_scan] at raw
  rw [sizeAll_eq, raw, Text.size_append]

theorem lines_line {z : Text} (ends : a = [] ∨ a.getLast? = some '\n') (whole : b = z ++ ['\n'])
    (single : '\n' ∉ z) : ∃ ending,
      empty.lines (scan (a ++ b)) = (empty.lines (scan a)).addLine (firstLine b) ending := by
  rw [Token.scan_append ends, Stack.lines_append _ (Token.scan_ends ends), firstLine]
  have join := Token.join_scan b
  have visible : ∀ t ∈ scan b, t.text ≠ [] := fun _ member => Token.text_ne_nil_of_mem_scan member
  have raw : ∀ t ∈ scan b, t.Raw := fun _ member => Token.raw_of_mem_scan member
  have lined := Token.Lined.first_line (scan b)
  have parts := Stack.line_parts (scan b)
  cases tokens : scan b with
  | nil =>
    rw [tokens, whole] at join
    cases z <;> cases join
  | cons t ts =>
    rw [Stack.lines, Stack.line, ← tokens]
    dsimp only
    generalize (scan b).drop ((scan b).takeWhile (·.kind != .newline)).length = later at *
    have none_left : later.drop 1 = [] := by
      rcases lined.ends with ⟨last, ending, newline⟩ | ⟨_, nothing⟩
      · -- the break is the only one, so nothing follows it
        rw [ending] at parts
        obtain ⟨u, text⟩ := (raw last (by rw [parts]; simp)).ends_of_newline newline
        rcases List.eq_nil_or_concat (later.drop 1) with nothing | ⟨init, final, more⟩
        · exact nothing
        · rw [more, List.concat_eq_append] at parts
          have some_text := visible final (by rw [parts]; simp)
          rcases List.eq_nil_or_concat final.text with nothing | ⟨y, d, last_text⟩
          · exact absurd nothing some_text
          · rw [parts, whole] at join
            simp only [Token.join_append, Token.join_cons, Token.join_nil, text, last_text,
              List.concat_eq_append, ← List.append_assoc, List.append_nil] at join
            rw [← (List.append_inj' join rfl).1] at single
            simp at single
      · exact nothing
    exact ⟨later.take 1, by rw [none_left, Stack.lines]⟩

/-- The lines `a`, and what the next line begins with: quote marks and blanks, the marker of an item
and `k` spaces. -/
structure ItemFront (a own mark : Text) (k : Nat) (style : ListStyle) : Prop where
  ends : a = [] ∨ a.getLast? = some '\n'
  markup : ∀ c ∈ own, c = '>' ∨ isIndent c = true
  marks : style.Marks mark
  some_space : k ≠ 0

namespace ItemFront

variable (front : ItemFront a own mark k style)

include front

theorem exists_head : ∃ c t, mark = c :: t ∧ isIndent c = false ∧ c ≠ '>' ∧ c ≠ '\n' ∧ c ≠ '\r' := by
  rcases front.marks.cases with ⟨_, digits, d, rfl, some_digit, all, _⟩ | ⟨_, c, rfl, bullet⟩
  · obtain ⟨c, t, rfl⟩ := List.exists_cons_of_ne_nil some_digit
    have digit := List.all_eq_true.mp all c List.mem_cons_self
    exact ⟨c, t ++ [d], rfl, digit_visible digit⟩
  · refine ⟨c, [], rfl, ?_⟩
    rcases bullet with rfl | rfl | rfl <;> decide

theorem content_firstLine (rest : Text) : Content (firstLine (mark ++ (Text.spaces k ++ rest))) := by
  obtain ⟨c, t, rfl, indent, other⟩ := front.exists_head
  exact (Token.content_of_visible indent other _).2

theorem firstLine_eq (rest : Text) : firstLine (own ++ (mark ++ (Text.spaces k ++ rest))) =
    scan own ++ firstLine (mark ++ (Text.spaces k ++ rest)) := by
  obtain ⟨c, t, rfl, indent, _⟩ := front.exists_head
  refine Token.firstLine_markup front.markup ?_
  rintro _ ⟨⟩
  exact indent

theorem lt_firstLine (rest : Text) : (a ++ own).size <
    a.size + Text.size (Token.join (firstLine (own ++ (mark ++ (Text.spaces k ++ rest))))) := by
  have marker := front.marks.isItemMarker
  have clean : ∀ c ∈ mark, c ≠ '\n' ∧ c ≠ '\r' := by
    intro c member
    constructor <;> rintro rfl
    · exact marker.no_line_break (Or.inl rfl) member
    · exact marker.no_line_break (Or.inr rfl) member
  have some_bytes := Text.size_pos marker.ne_nil
  have reach := Token.size_le_firstLine clean (Text.spaces k ++ rest)
  rw [front.firstLine_eq, Token.join_append, Token.join_scan, Text.size_append, Text.size_append]
  omega

/-- An item of the tree behind such a front is put in its list whatever it holds. -/
theorem exists_itemLine (word : rest.BeginsWord) {q : Place}
    (inside : q.In (ofText (a ++ (own ++ (mark ++ (Text.spaces k ++ rest))))))
    (item : q.isNode = true ∧ q.kind = .listItem) (start : q.start = (a ++ own).size) :
    ∃ done above layers column base, column - base ≤ Cursor.maxIndent ∧
      (empty.lines (scan a)).ItemLine (scan own) style done above layers column base := by
  have content := front.content_firstLine rest
  have high := front.lt_firstLine rest
  have low := Text.size_append a own
  obtain ⟨c, t, shape, indent, _⟩ := front.exists_head
  have markup := (@Token.scan_markup own mark front.markup (by
    rw [shape]
    rintro _ ⟨⟩
    exact indent)).2
  have some_text : own ++ (mark ++ (Text.spaces k ++ rest)) ≠ [] := by simp [shape]
  by_cases line : ∃ style' bare done above layers column base,
      BlockStart.ofCursor ⟨firstLine (mark ++ (Text.spaces k ++ rest)), column, base⟩ =
        .item style' bare ∧
      (empty.lines (scan a)).ItemLine (scan own) style' done above layers column base
  · obtain ⟨style', bare, done, above, layers, column, base, starts, line⟩ := line
    have near := BlockStart.near_of_item starts
    rw [BlockStart.ofCursor_marks front.marks front.some_space word near] at starts
    cases starts
    exact ⟨done, above, layers, column, base, near, line⟩
  · -- otherwise the line would begin no item
    have none_begun : ∀ ending, (empty.lines (scan a)).Begins ((empty.lines (scan a)).addLine
        (firstLine (own ++ (mark ++ (Text.spaces k ++ rest)))) ending) fun _ => False := by
      intro ending
      rw [front.firstLine_eq]
      exact (Stack.itemLine_or_none (Stack.between_scan a) markup (Token.spread_scan own) content
        ending).resolve_left line
    have impossible : False := holds_of_begins front.ends some_text inside item (by omega) (by omega)
      none_begun
    exact impossible.elim

section

variable (near : column - base ≤ Cursor.maxIndent) (line :
  (empty.lines (scan a)).ItemLine (scan own) style done above layers column base)

include near line

theorem addLine_layers (word : rest.BeginsWord) (ending : List Token) :
    ∃ inner start, column < start ∧ ((empty.lines (scan a)).addLine
      (firstLine (own ++ (mark ++ (Text.spaces k ++ rest)))) ending).layers =
        inner ++ ⟨.item start, done⟩ :: ⟨.list style, above⟩ :: layers := by
  rw [front.firstLine_eq]
  refine line.opens _ ending (front.content_firstLine rest) ?_
    (BlockStart.ofCursor_marks front.marks front.some_space word near)
  intro token member
  exact Token.text_ne_nil_of_mem_scan ((List.takeWhile_sublist _).mem member)

theorem arrives_marker {start : Nat} (left : column < start) {marker : Text}
    (content : Content (scan marker)) (stops : ∀ c ∈ marker.head?, isIndent c = false) :
    Arrives (layers.map Layer.container).reverse start (scan (own ++ marker)) (scan marker) := by
  obtain ⟨count, cursor⟩ := line.arrives (scan marker) content
  rw [(Token.scan_markup front.markup stops).1]
  refine ⟨by rw [count, List.length_reverse, List.length_map], by rw [cursor], ?_,
    by rw [cursor]; exact left⟩
  rw [cursor]
  exact decide_eq_true near

theorem openItem {z : Text} (word : rest.BeginsWord)
    (whole : own ++ (mark ++ (Text.spaces k ++ rest)) = z ++ ['\n']) (single : '\n' ∉ z) :
    ∃ start, column < start ∧
      (empty.lines (scan (a ++ (own ++ (mark ++ (Text.spaces k ++ rest)))))).OpenItem
        (layers.map Layer.container).reverse style start (a ++ own).size := by
  obtain ⟨ending, read⟩ := lines_line front.ends whole single
  obtain ⟨inner, start, right, shape⟩ := front.addLine_layers near line word ending
  refine ⟨start, right, inner, done, above, layers, by rw [read, shape], rfl, ?_⟩
  show _ = Text.size (Token.join (Stack.rawLayers (⟨.list style, above⟩ :: layers) ++ rawAll done))
  rw [← size_layers line, Token.join_append, Text.size_append, sizeAll_eq]

/-- Of the list with the item, the part up to the item is the same in all texts that begin so. -/
theorem exists_items (word : rest.BeginsWord) : ∃ l q : Place,
    l.In (ofText (a ++ (own ++ (mark ++ (Text.spaces k ++ rest))))) ∧ l.kind = style.listKind ∧
      q ∈ l.items ∧ q.start = (a ++ own).size ∧
      l.items.map Place.start = itemStarts (Text.size
          (Token.join (Stack.rawLayers (⟨.list style, above⟩ :: layers)))) done ++
        q.start :: q.followingItems.map Place.start ∧
      a.size + Text.size (Token.join (firstLine (own ++ (mark ++ (Text.spaces k ++ rest))))) ≤
        q.stop := by
  have some_text : own ++ (mark ++ (Text.spaces k ++ rest)) ≠ [] := by
    simp [front.marks.isItemMarker.ne_nil]
  obtain ⟨ending, more, walk⟩ := walk_of_line front.ends some_text
  obtain ⟨inner, start, _, shape⟩ := front.addLine_layers near line word ending
  obtain ⟨innermost, _, _, deepest, _, reach⟩ := Stack.stands_of_walk walk
  have inside := deepest.place_in
  rw [shape] at deepest
  obtain ⟨q, stands, around⟩ := deepest.exists_ancestor
  have q_reach := (Place.span_of_ancestor inside around).2
  cases stands with
  | @layer _ _ l kind cs us stands shape =>
    have list_start := stands.start_eq
    have starts := Place.map_start_items shape
    rw [list_start] at starts
    refine ⟨l, _, stands.place_in, stands.kind_eq,
      List.mem_filter.mpr ⟨Place.childAfter_mem shape, rfl⟩, ?_, starts, ?_⟩
    · rw [← size_layers line, ← list_start]
      rfl
    · refine Nat.le_trans ?_ q_reach
      rw [Stack.raw_addLine, ← List.append_assoc] at reach
      simp only [Token.join_append, Text.size_append, join_lines] at reach
      omega

end

end ItemFront

end Tree

end MarkdownEditing
