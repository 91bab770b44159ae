import MarkdownEditing.Proofs.Markup.Enter
import MarkdownEditing.Proofs.Markup.Items
import MarkdownEditing.Proofs.Text.Indentation

namespace MarkdownEditing

namespace Tree

variable {t : Text} {lineBreak : LineBreak} {pos : Nat} {leaf : Place}

theorem resolve_leaf (inside : pos ≤ t.size) :
    (ofText t).resolve (Document.ofText t lineBreak) pos = Place.root (ofText t) ∨
      ∃ leaf ∈ (Place.root (ofText t)).leaves, leaf.start < pos ∧ pos ≤ leaf.stop ∧
        (ofText t).resolve (Document.ofText t lineBreak) pos ∈ leaf.ancestors := by
  have same_pos : min pos (Document.ofText t lineBreak).size = pos := Nat.min_eq_left inside
  rw [resolve, same_pos]
  split
  · exact Or.inl rfl
  · rename_i leaf found
    obtain ⟨member, low, high⟩ := Place.leafBefore?_spec found
    split
    · exact Or.inr ⟨leaf, member, low, high, List.mem_cons_self⟩
    · cases chosen : leaf.enclosing.find? (fun node =>
          node.above.isEmpty || pos ≤ node.contentStop (Document.ofText t lineBreak)) with
      | none => exact Or.inl rfl
      | some node =>
        have around := (List.mem_filter.mp (List.mem_of_find?_eq_some chosen)).1
        exact Or.inr ⟨leaf, member, low, high, around⟩

theorem resolve_mark (inside : pos ≤ t.size) (member : leaf ∈ (Place.root (ofText t)).leaves)
    (mark : leaf.kind.isMark = true) (low : leaf.start < pos) (high : pos ≤ leaf.stop) :
    (ofText t).resolve (Document.ofText t lineBreak) pos = leaf := by
  have same_pos : min pos (Document.ofText t lineBreak).size = pos := Nat.min_eq_left inside
  rw [resolve, same_pos]
  split
  · rename_i nowhere
    have missed := List.find?_eq_none.mp nowhere leaf member
    simp [low, high] at missed
  · rename_i other found
    obtain ⟨other_member, other_low, other_high⟩ := Place.leafBefore?_spec found
    have same : other = leaf := by
      rcases Place.leaves_cases other_member member with before | same | behind
      · omega
      · exact same
      · omega
    rw [same, if_pos mark]

end Tree

namespace Frame

variable {p q : Place} {d : Document} {f : Frame}

theorem before_of_ofNode? (found : ofNode? p d = some f) : ∀ c ∈ f.before, c = ' ' := by
  have none_before : ∀ c ∈ ([] : Text), c = ' ' := fun c member => absurd member List.not_mem_nil
  cases ofNode?_reads found with
  | fence => exact none_before
  | quote _ read =>
    rw [← Marker.before_of_quote? read] at none_before
    exact none_before
  | @ordered _ m _ _ _ read =>
    show ∀ c ∈ m.before, c = ' '
    rw [Marker.before_of_ordered? read]
    exact fun c member => Text.mem_spaces member
  | @bullet _ m _ _ _ read =>
    show ∀ c ∈ m.before, c = ' '
    rw [Marker.before_of_bullet? read]
    exact fun c member => Text.mem_spaces member

theorem blank_markup (spaces : ∀ c ∈ f.before, c = ' ') (width : Nat) :
    ∀ c ∈ f.blank (some width) true, c = '>' ∨ isIndent c = true := by
  have quote : ∀ c ∈ f.before ++ (if f.isQuote then ['>'] else []), c = '>' ∨ isIndent c = true := by
    intro c member
    rcases List.mem_append.mp member with before | mark
    · rw [spaces c before]
      exact Or.inr rfl
    · split at mark
      · exact Or.inl (List.mem_singleton.mp mark)
      · cases mark
  intro c member
  rcases List.mem_append.mp member with head | space
  · exact quote c head
  · rw [Text.mem_spaces space]
    exact Or.inr rfl

theorem item_of_ofNode? (found : ofNode? p d = some f) (shown : f.item = some q) :
    q = p ∧ p.kind = .listItem ∧ p.parent? = some f.node := by
  cases ofNode?_reads found with
  | fence | quote => cases shown
  | ordered kind parent | bullet kind parent =>
    cases shown
    exact ⟨rfl, kind, parent⟩

end Frame

namespace Text

theorem normalizeIndent_append (t : Text) {m : Text} (settings : EditorSettings) {c : Char}
    (head : m.head? = some c) (visible : isIndent c = false) :
    ∃ front, (t ++ m).normalizeIndent settings = front ++ m ∧
      ∀ d ∈ front, d ∈ t ∨ isIndent d = true := by
  unfold normalizeIndent
  dsimp only
  split
  · exact ⟨t, rfl, fun d member => Or.inl member⟩
  · have stays : m.dropWhile isIndent = m := by
      cases m with
      | nil => rfl
      | cons d m =>
        cases head
        rw [List.dropWhile_cons_of_neg (by simp [visible])]
    rw [List.dropWhile_append]
    split
    · rw [stays]
      exact ⟨_, rfl, fun d member => Or.inr (isIndent_tabs_spaces _ _ d member)⟩
    · refine ⟨_, by rw [← List.append_assoc], fun d member => ?_⟩
      rcases List.mem_append.mp member with blank | kept
      · exact Or.inr (isIndent_tabs_spaces _ _ d blank)
      · exact Or.inl ((List.dropWhile_sublist _).mem kept)

end Text

namespace Enter

variable {s : EditState} {r r' : Range} {x x' : Site} {e : RangeEdit} {p q : Place} {c : Change}
  {digits : Text} {glyph : Char}

theorem site_caret (found : site s r = .ok x) : r = Range.caret x.pos := by
  obtain ⟨caret, pos, _⟩ := site_ok found
  rw [Range.isCaret, beq_iff_eq] at caret
  rw [pos, Range.caret]
  obtain ⟨anchor, head⟩ := r
  cases caret
  rfl

theorem site_unique (found : site s r = .ok x) (found' : site s r' = .ok x')
    (same : x.pos = x'.pos) : x = x' := by
  rw [site_caret found] at found
  rw [site_caret found', ← same, found] at found'
  cases found'
  rfl

namespace Site

/-- A caret of the selection is at the site, and the innermost frame there is that of `item`. -/
structure At (x : Site) (s : EditState) (item : Place) : Prop where
  caret : ∃ r ∈ s.selection.ranges, site s r = .ok x
  inner : x.inner.item = some item

end Site

theorem At.frame_of_item (coherent : s.Coherent) (here : x.At s p)
    (numbered : p.IsNumbered digits glyph) :
    Frame.ofNode? p s.doc = some x.inner ∧ p.start < x.pos ∧ x.pos ≤ p.stop := by
  obtain ⟨r, range, found⟩ := here.caret
  obtain ⟨q, encloses, frame⟩ := site_frame found List.mem_cons_self
  have inside := (coherent.inside r range).2
  have ancestor := (List.mem_filter.mp encloses).1
  obtain ⟨rfl, _⟩ := Frame.item_of_ofNode? frame here.inner
  rw [site_pos found]
  rw [coherent.resolve_eq r.head] at ancestor
  refine ⟨frame, ?_⟩
  rcases @Tree.resolve_leaf s.text s.doc.lineBreak _ inside with
    root | ⟨leaf, member, low, high, above⟩
  · rw [root] at ancestor
    obtain ⟨list, parent, _⟩ := numbered.listed
    have same : p = Place.root (Tree.ofText s.text) := by
      simpa [Place.ancestors, Place.around, Place.root] using ancestor
    rw [same] at parent
    cases parent
  · have leaf_inside := (Place.root_in (Tree.ofText s.text)).leaf member
    have inner := Place.span_of_ancestor leaf_inside above
    have outer := Place.span_of_ancestor (leaf_inside.ancestor above) ancestor
    omega

theorem lineAt_mark (coherent : s.Coherent) (numbered : q.IsNumbered digits glyph)
    (inside : q.In (Tree.ofText s.text)) {pos : Nat} (reaches : pos ≤ s.text.size)
    (low : q.start ≤ pos) (high : pos < q.start + (digits.size + 1)) :
    s.doc.lineAt q.start = s.doc.lineAt pos := by
  obtain ⟨before, after, parts, size⟩ := numbered.exists_parts inside
  obtain ⟨_, _, _, _, _, stable⟩ := coherent.lies_lineAt reaches
  have single : '\n' ∉ digits ++ [glyph] := numbered.isItemMarker.no_line_break (Or.inl rfl)
  have first := @Document.lineAt_start_le _ s.doc.lineBreak pos _ _ _ parts single
    (by rw [numbered.size_mark]; omega)
  rw [← coherent.lineAt, size] at first
  exact stable q.start first low

theorem frames_of_mark {d : Document} {f : Frame} {leaf : Place} {tree : Tree}
    (member : leaf ∈ (Place.root tree).leaves) (child : leaf ∈ q.children) (isNode : q.isNode = true)
    (shown : Frame.ofNode? q d = some f) : ∃ rest, (Frame.around leaf d).reverse = f :: rest := by
  have single := Place.isNode_of_mem_leaves member
  rw [Frame.around, List.filterMap_reverse, List.reverse_reverse, Place.enclosing,
    Place.ancestors_of_mem_children child, Place.ancestors,
    List.filter_cons_of_neg (by simp [single]), List.filter_cons_of_pos isNode,
    List.filterMap_cons, shown]
  exact ⟨_, rfl⟩

theorem outside_mark (coherent : s.Coherent) (range : r ∈ s.selection.ranges)
    (found : site s r = .ok x) (numbered : q.IsNumbered digits glyph)
    (inside : q.In (Tree.ofText s.text)) :
    x.pos ≤ q.start ∨ q.start + (digits.size + 1) ≤ x.pos := by
  by_contra within
  have reaches := (coherent.inside r range).2
  have pos := site_pos found
  obtain ⟨leaf, member, child, start, stop, mark⟩ := numbered.exists_mark_leaf inside
  have here : s.tree.resolve s.doc r.head = leaf := by
    rw [coherent.resolve_eq]
    exact Tree.resolve_mark reaches member mark (by omega) (by omega)
  obtain ⟨f, n, shown, _, _, _, _, _, column, markerStop⟩ :=
    @Place.IsNumbered.exists_frame s.text s.doc.lineBreak q _ _ numbered inside
  obtain ⟨rest, frames⟩ := frames_of_mark member child numbered.isNode shown
  rw [← coherent.lineAt,
    lineAt_mark coherent numbered inside reaches (by omega) (by omega)] at column
  -- the column of the caret is behind the start of that frame and before the end of its marker
  obtain ⟨_, _, _, chosen, behind⟩ := site_ok found
  rw [here, coherent.doc, frames, ← coherent.doc,
    List.dropWhile_cons_of_neg (by simp; omega)] at chosen
  obtain ⟨same, _⟩ := List.cons.inj chosen
  rw [← same] at behind
  omega

/-- A split keeps the marks of items whole. -/
theorem split_keeps_mark (coherent : s.Coherent) (range : r ∈ s.selection.ranges)
    (found : site s r = .ok x) (made : x.split s = .ok e) (numbered : q.IsNumbered digits glyph)
    (inside : q.In (Tree.ofText s.text)) :
    x.trimStop ≤ x.pos ∧ (x.pos ≤ q.start ∨ q.start + (digits.size + 1) ≤ x.trimStop) := by
  have sound := site_sound coherent (coherent.inside r range) found
  obtain ⟨before, blank, after, parts, size, pos, white⟩ := split_span coherent sound made
  refine ⟨by omega, ?_⟩
  rcases outside_mark coherent range found numbered inside with apart | passed
  · exact Or.inl apart
  · right
    by_contra crossed
    -- the delimiter, which is not white, would be in the blank part
    obtain ⟨above, below, mark_parts, mark_size⟩ := numbered.exists_parts inside
    have delimiter : s.text = (above ++ digits) ++ glyph :: below := by
      rw [mark_parts]
      simp only [List.append_assoc, List.singleton_append]
    have one : glyph.utf8Size = 1 := by
      rcases numbered.delimiter with rfl | rfl <;> rfl
    have member : glyph ∈ s.text.touched x.trimStop x.pos := by
      refine Text.mem_touched.mpr ⟨_, _, delimiter, ?_, ?_, ?_⟩
      · omega
      · rw [Text.size_append]
        omega
      · rw [Text.size_append]
        omega
    have stop : x.pos ≤ before.size + blank.size := by omega
    have all := Text.touched_all parts (Nat.le_of_eq size) stop white
    have is_white := List.all_eq_true.mp all glyph member
    have visible := (glyph_facts (c := glyph) (by have := numbered.delimiter; grind)).2.2.1
    rw [visible] at is_white
    cases is_white

theorem leadOf_ends (line : Line) (lead : Text) (frames : List Frame) (inner : Frame) :
    ∃ front, Site.leadOf s line false lead (frames ++ [inner]) =
        lead ++ (front ++ inner.marker s.doc 1) ∧
      ((∀ f ∈ frames, ∀ c ∈ f.before, c = ' ') → ∀ c ∈ front, c = '>' ∨ isIndent c = true) := by
  induction frames generalizing lead with
  | nil => exact ⟨[], rfl, fun _ c member => absurd member List.not_mem_nil⟩
  | cons frame frames ih =>
    have further : ∀ blank, ∃ front,
        Site.leadOf s line false (lead ++ frame.blank (some blank) true) (frames ++ [inner]) =
            lead ++ (front ++ inner.marker s.doc 1) ∧
          ((∀ f ∈ frame :: frames, ∀ c ∈ f.before, c = ' ') →
            ∀ c ∈ front, c = '>' ∨ isIndent c = true) := by
      intro blank
      obtain ⟨front, ends, markup⟩ := ih (lead ++ frame.blank (some blank) true)
      refine ⟨frame.blank (some blank) true ++ front, ?_, fun spaces => ?_⟩
      · rw [ends]
        simp only [List.append_assoc]
      · obtain ⟨here, later⟩ := List.forall_mem_cons.mp spaces
        exact List.forall_mem_append.mpr ⟨Frame.blank_markup here _, markup later⟩
    cases frames with
    | nil => exact further _
    | cons next frames => exact further _

/-- A new line begins with quote marks and blanks and then the marker of the next item. -/
theorem lead_ends (found : site s r = .ok x) (fresh : x.isContinued = false)
    {first : Char} (head : (x.inner.marker s.doc 1).head? = some first)
    (visible : isIndent first = false) :
    ∃ front, (x.lead s).normalizeIndent s.settings = front ++ x.inner.marker s.doc 1 ∧
      ∀ d ∈ front, d = '>' ∨ isIndent d = true := by
  obtain ⟨front, ends, markup⟩ := @leadOf_ends s x.line [] x.outer.reverse x.inner
  have lead : x.lead s = front ++ x.inner.marker s.doc 1 := by
    rw [Site.lead, fresh, List.reverse_cons, ends]
    simp
  have spaces : ∀ f ∈ x.outer.reverse, ∀ d ∈ f.before, d = ' ' := by
    intro f member
    obtain ⟨_, _, frame⟩ := site_frame found (List.mem_cons_of_mem _ (List.mem_reverse.mp member))
    exact Frame.before_of_ofNode? frame
  obtain ⟨front', normal, kept⟩ := Text.normalizeIndent_append front s.settings head visible
  refine ⟨front', by rw [lead, normal], fun d member => ?_⟩
  rcases kept d member with old | indent
  · exact markup spaces d old
  · exact Or.inr indent

theorem lineSplit_ends (coherent : s.Coherent) (here : x.At s p)
    (numbered : p.IsNumbered digits glyph) (inside : p.In (Tree.ofText s.text))
    (fresh : x.isContinued = false) {n : ItemNumber}
    (read : ItemNumber.ofItem? s.doc p.start = some n) :
    ∃ front k, (x.lineSplit s).insert = front ++ x.inner.marker s.doc 1 ∧ front ≠ [] ∧
      x.inner.marker s.doc 1 = Text.ofNat (n.value + 1) ++ [glyph] ++ Text.spaces k := by
  obtain ⟨frame, _⟩ := At.frame_of_item coherent here numbered
  obtain ⟨k, marker⟩ : ∃ k, x.inner.marker s.doc 1 =
      Text.ofNat (n.value + 1) ++ [glyph] ++ Text.spaces k := by
    rw [coherent.doc] at frame read ⊢
    exact numbered.marker_eq inside frame read 1
  obtain ⟨d, head, digit⟩ : ∃ d, (x.inner.marker s.doc 1).head? = some d ∧ d.isDigit = true := by
    rw [marker]
    cases digits : Text.ofNat (n.value + 1) with
    | nil => exact absurd digits (Text.ofNat_ne_nil _)
    | cons d rest =>
      refine ⟨d, rfl, Text.isDigit_of_mem_ofNat (n := n.value + 1) ?_⟩
      rw [digits]
      exact List.mem_cons_self
  obtain ⟨_, _, found⟩ := here.caret
  obtain ⟨front, normal, _⟩ := lead_ends found fresh head (digit_visible digit).1
  refine ⟨s.lineBreak ++ front, k, ?_, ?_, marker⟩
  · rw [Site.lineSplit, normal, List.append_assoc]
  · intro empty
    have no_break := List.append_eq_nil_iff.mp empty
    cases kind : s.doc.lineBreak <;> simp [EditState.lineBreak, kind, LineBreak.text] at no_break

end Enter

end MarkdownEditing
