import MarkdownEditing.Markup.Enter
import MarkdownEditing.Proofs.Markup.Context

namespace MarkdownEditing

namespace Enter

theorem quoteTail?_parts {t : Text} {offset : Nat} (found : quoteTail? t = some offset) :
    ∃ above blank, t = above ++ ('>' :: blank) ∧ above.size = offset ∧
      ∀ c ∈ blank, isWhite c = true := by
  unfold quoteTail? at found
  dsimp only at found
  split at found
  · rename_i shape
    obtain ⟨shorter, white⟩ := shape
    cases found
    have whole := List.takeWhile_append_dropWhile (p := (· != '>')) (l := t.reverse)
    generalize tail_eq : t.reverse.takeWhile (· != '>') = tail at whole shorter white ⊢
    cases rest : t.reverse.dropWhile (· != '>') with
    | nil =>
      rw [rest, List.append_nil] at whole
      rw [whole, List.length_reverse] at shorter
      omega
    | cons c above =>
      have mark : c = '>' := by
        have head := List.head?_dropWhile_not (· != '>') t.reverse
        simpa [rest] using head
      rw [rest, mark] at whole
      have parts := congrArg List.reverse whole
      rw [List.reverse_reverse, List.reverse_append, List.reverse_cons, List.append_assoc,
        List.singleton_append] at parts
      refine ⟨above.reverse, tail.reverse, parts.symm, ?_, ?_⟩
      · have length : t.length - tail.length - 1 = above.reverse.length := by
          have sizes := congrArg List.length parts
          simp only [List.length_append, List.length_cons, List.length_reverse] at sizes ⊢
          omega
        rw [length, ← parts, List.take_left]
      · intro d member
        exact List.all_eq_true.mp white d (List.mem_reverse.mp member)
  · cases found

namespace Site

def outdentColumn (x : Site) : Nat :=
  match x.outer.head? with
  | some next => if next.item.isSome then next.start else next.stop
  | none => 0

def cleared (x : Site) (d : Document) : Nat × Nat :=
  match x.inner.item, x.isEmptyLine with
  | some _, true =>
    if x.inFirstItem || x.afterBlank d then (min (x.line.start + x.outdentColumn) x.pos, x.pos)
    else (x.line.start, x.line.stop)
  | _, empty =>
    if x.inner.isQuote && empty && 0 < x.line.start &&
        quoteTail? (d.lineAt (x.line.start - 1)).text == some x.inner.start then
      (x.line.start + x.inner.start, x.line.stop)
    else (x.line.start + (Text.trimEnd (x.line.text.takeBytes x.column)).size, x.pos)

def trimStop (x : Site) : Nat :=
  x.line.start + (Text.trimEnd (x.line.text.takeBytes x.column)).size

def lineSplit (x : Site) (s : EditState) : Change :=
  ⟨x.trimStop, x.pos, s.lineBreak ++ (x.lead s).normalizeIndent s.settings⟩

/-- The caret's line is not the one on which the innermost container starts, and what Enter takes
away of it is not all white space and markup. -/
def LosesText (x : Site) (s : EditState) : Prop :=
  x.inner.container.start < x.line.start ∧
    (s.text.touched (x.cleared s.doc).1 (x.cleared s.doc).2).all isErasable = false

/-- How a caret divides the text: what is before its line, the line up to the caret in two parts, of
which the second is the white space at the end, the rest of the line, and what is behind it. -/
structure Divides (x : Site) (s : EditState) (before held blank rest after : Text) : Prop where
  text : s.text = before ++ (held ++ blank ++ rest) ++ after
  line : x.line.text = held ++ blank ++ rest
  lies : x.line.Lies before after
  trimStop : x.trimStop = before.size + held.size
  pos : x.pos = before.size + (held ++ blank).size
  white : ∀ c ∈ blank, isWhite c = true

structure Sound (x : Site) (s : EditState) : Prop where
  inside : x.pos ≤ s.doc.size
  line : x.line = s.doc.lineAt x.pos
  inner : x.inner.Around s x.pos
  outer : ∀ f ∈ x.outer, f.Around s x.pos

end Site

variable {s : EditState} {r : Range} {x : Site} {e : RangeEdit} {c : Change}

/-- Where Enter applies: at a caret behind the marker of the innermost frame that begins on or before
its column. -/
theorem site_ok (found : site s r = .ok x) :
    r.isCaret = true ∧ x.pos = r.head ∧ x.line = s.doc.lineAt r.head ∧
      (Frame.around (s.tree.resolve s.doc r.head) s.doc).reverse.dropWhile
        (r.head - (s.doc.lineAt r.head).start < ·.start) = x.inner :: x.outer ∧
      x.inner.markerStop ≤ r.head - (s.doc.lineAt r.head).start := by
  unfold site at found
  split at found
  · cases found
  · rename_i caret
    split at found
    · cases found
    · dsimp only at found
      split at found
      · cases found
      · rename_i inner outer frames
        split at found
        · cases found
        · rename_i behind
          cases found
          exact ⟨not_not.mp caret, rfl, rfl, frames, Nat.le_of_not_lt behind⟩

theorem site_pos (found : site s r = .ok x) : x.pos = r.head := (site_ok found).2.1

theorem site_of_map {β : Type} {f : Site → β} {b : β} (shown : (site s r).map f = .ok b) :
    ∃ x, site s r = .ok x ∧ f x = b := by
  cases found : site s r with
  | error why =>
    rw [found] at shown
    cases shown
  | ok x =>
    rw [found] at shown
    exact ⟨x, rfl, Except.ok.inj shown⟩

theorem site_frame (found : site s r = .ok x) {f : Frame} (member : f ∈ x.inner :: x.outer) :
    ∃ p ∈ (s.tree.resolve s.doc r.head).enclosing, Frame.ofNode? p s.doc = some f := by
  obtain ⟨_, _, _, frames, _⟩ := site_ok found
  rw [← frames] at member
  exact Frame.mem_around (List.mem_reverse.mp ((List.dropWhile_sublist _).mem member))

theorem site_sound (coherent : s.Coherent) (inside : r.Inside s.doc.size)
    (found : site s r = .ok x) : x.Sound s := by
  have around : ∀ f ∈ x.inner :: x.outer, f.Around s x.pos := by
    intro f member
    obtain ⟨p, enclosing, shown⟩ := site_frame found member
    obtain ⟨place_inside, low, _⟩ := Tree.resolve_cases inside.2 (coherent.resolve_eq r.head).symm
    obtain ⟨ancestor, isNode⟩ := List.mem_filter.mp enclosing
    rw [site_pos found]
    exact ⟨p, place_inside.ancestor ancestor, isNode, shown,
      fun _ => Nat.le_trans (Place.start_le_of_ancestor place_inside ancestor) low⟩
  obtain ⟨_, pos, line, _⟩ := site_ok found
  refine ⟨?_, ?_, around _ List.mem_cons_self, fun f member => ?_⟩
  · rw [pos]
    exact inside.2
  · rw [pos]
    exact line
  · exact around f (List.mem_cons_of_mem _ member)

theorem renumber_harmless_of_around (coherent : s.Coherent) {f : Frame} {pos : Nat}
    (inside : pos ≤ s.doc.size) (frame : f.Around s pos) {item : Place} (shown : f.item = some item)
    {offset : Int} {c : Change} (member : c ∈ renumber item s.doc offset) : c.Harmless s.text := by
  rw [coherent.doc] at member
  exact renumber_harmless (frame.item_in coherent inside shown) member

theorem leaveItem_changes (coherent : s.Coherent) (sound : x.Sound s) {item : Place}
    (shown : x.inner.item = some item) :
    ∃ insert counted, (x.leaveItem s.doc item).changes =
        ⟨min (x.line.start + x.outdentColumn) x.pos, x.pos, insert⟩ :: counted ∧
      ∀ c ∈ counted, c.Harmless s.text := by
  have closing : ∀ c ∈ (if x.inner.isOrdered then renumber item s.doc (-2) else []),
      c.Harmless s.text := by
    intro c member
    split at member
    · exact renumber_harmless_of_around coherent sound.inside sound.inner shown member
    · cases member
  cases next : x.outer.head? with
  | none =>
    refine ⟨[], _, ?_, closing⟩
    simp only [Site.leaveItem, Site.outdentColumn, next, Nat.add_zero, List.append_nil]
  | some outer =>
    have around := sound.outer outer (List.mem_of_mem_head? next)
    cases outer_item : outer.item with
    | none =>
      refine ⟨[], _, ?_, closing⟩
      simp [Site.leaveItem, Site.outdentColumn, next, outer_item]
    | some outer_place =>
      refine ⟨outer.marker s.doc 1, (if x.inner.isOrdered then renumber item s.doc (-2) else []) ++
        (if outer.isOrdered then renumber outer_place s.doc 0 else []), ?_, ?_⟩
      · simp only [Site.leaveItem, Site.outdentColumn, next, outer_item, Option.isSome_some,
          ↓reduceIte]
        cases outer.isOrdered <;> rfl
      · intro c member
        rcases List.mem_append.mp member with member | member
        · exact closing c member
        · split at member
          · exact renumber_harmless_of_around coherent sound.inside around outer_item member
          · cases member

theorem split_divides (coherent : s.Coherent) (sound : x.Sound s) (made : x.split s = .ok e) :
    ∃ before held blank rest after, x.Divides s before held blank rest after := by
  obtain ⟨before, after, parts, lies, reaches, -⟩ := coherent.lies_lineAt sound.inside
  rw [← sound.line] at parts lies reaches
  unfold Site.split at made
  split at made
  · rename_i boundary
    obtain ⟨u, v, text, size⟩ := Text.isBoundary_iff.mp boundary
    obtain ⟨blank, trimmed, white⟩ := Text.trimEnd_parts u
    have head : x.line.text.takeBytes x.column = u := by rw [← size, text, Text.takeBytes_left]
    have low := reaches.1
    refine ⟨before, u.trimEnd, blank, v, after, ⟨?_, ?_, lies, ?_, ?_, white⟩⟩
    · rw [← trimmed, ← text]
      exact parts
    · rw [← trimmed, ← text]
    · rw [Site.trimStop, head, lies.start]
    · rw [← trimmed, size, Site.column, ← lies.start]
      omega
  · cases made

/-- The part of a line before the caret that a split takes away is blank. -/
theorem split_span (coherent : s.Coherent) (sound : x.Sound s) (made : x.split s = .ok e) :
    ∃ before blank after : Text, s.text = before ++ blank ++ after ∧ before.size = x.trimStop ∧
      x.pos = x.trimStop + blank.size ∧ ∀ c ∈ blank, isWhite c = true := by
  obtain ⟨before, held, blank, rest, after, divides⟩ := split_divides coherent sound made
  refine ⟨before ++ held, blank, rest ++ after, ?_, ?_, ?_, divides.white⟩
  · rw [divides.text]
    simp only [List.append_assoc]
  · rw [divides.trimStop, Text.size_append]
  · rw [divides.pos, divides.trimStop, Text.size_append, Nat.add_assoc]

theorem split_changes_eq (made : x.split s = .ok e) :
    c ∈ e.changes ↔ c = x.lineSplit s ∨
      ∃ item, x.inner.item = some item ∧ x.inner.isOrdered = true ∧ c ∈ renumber item s.doc 0 := by
  unfold Site.split at made
  split at made
  · cases made
    rw [List.mem_append, List.mem_singleton, or_comm]
    refine or_congr Iff.rfl ?_
    cases x.inner.item with
    | none => simp
    | some item => cases x.inner.isOrdered <;> simp
  · cases made

theorem split_changes (coherent : s.Coherent) (sound : x.Sound s) (made : x.split s = .ok e) :
    (∀ c ∈ e.changes, c.Harmless s.text) ∧ ∃ insert, ⟨x.trimStop, x.pos, insert⟩ ∈ e.changes := by
  refine ⟨fun c member => ?_, _, (split_changes_eq made).mpr (Or.inl rfl)⟩
  rcases (split_changes_eq made).mp member with rfl | ⟨item, shown, _, counted⟩
  · obtain ⟨before, blank, after, parts, size, pos, white⟩ := split_span coherent sound made
    refine .of_parts parts size.symm (by rw [size]; exact pos) fun d inside => ?_
    exact isErasable_of_isWhite (white d inside)
  · exact renumber_harmless_of_around coherent sound.inside sound.inner shown counted

theorem quoteTail?_harmless (coherent : s.Coherent) {pos offset : Nat} (inside : pos ≤ s.doc.size)
    (found : quoteTail? (s.doc.lineAt pos).text = some offset) :
    (Change.delete ((s.doc.lineAt pos).start + offset) (s.doc.lineAt pos).stop).Harmless s.text := by
  obtain ⟨above, blank, text, size, white⟩ := quoteTail?_parts found
  obtain ⟨before, after, parts, lies, -⟩ := coherent.lies_lineAt inside
  have erasable : ∀ d ∈ '>' :: blank, isErasable d = true := by
    intro d member
    rcases List.mem_cons.mp member with rfl | member
    · decide
    · exact isErasable_of_isWhite (white d member)
  have no_tail : (s.doc.lineAt pos).text = above ++ (('>' :: blank) ++ []) := by
    rw [text, List.append_nil]
  have harmless := lies.harmless_of_erasable parts no_tail erasable []
  have stop : (s.doc.lineAt pos).stop =
      (s.doc.lineAt pos).start + (above.size + Text.size ('>' :: blank)) := by
    rw [lies.stop, lies.start, text, Text.size_append]
  rw [← stop, size] at harmless
  exact harmless

theorem closeQuote?_changes (coherent : s.Coherent) (sound : x.Sound s)
    (made : x.closeQuote? s.doc = some (.ok e)) :
    (∀ c ∈ e.changes, c.Harmless s.text ∨
        (c.start, c.stop) = (x.line.start + x.inner.start, x.line.stop)) ∧
      (x.line.start + x.inner.start = x.line.stop ∨
        ∃ c ∈ e.changes, (c.start, c.stop) = (x.line.start + x.inner.start, x.line.stop)) := by
  have line_start : x.line.start - 1 ≤ s.doc.size := by
    obtain ⟨_, _, _, _, reaches, -⟩ := coherent.lies_lineAt sound.inside
    rw [← sound.line] at reaches
    have low := reaches.1
    have inside := sound.inside
    omega
  unfold Site.closeQuote? at made
  dsimp only at made
  split at made
  · rename_i ends
    split at made
    · rename_i set found
      cases made
      constructor
      · intro c member
        obtain ⟨member, _⟩ := (ChangeSet.mem_ofChanges found).mp member
        rcases List.mem_cons.mp member with rfl | member
        · exact Or.inl (quoteTail?_harmless coherent line_start ends)
        · rw [List.mem_singleton.mp member]
          exact Or.inr rfl
      · by_cases same : x.line.start + x.inner.start = x.line.stop
        · exact Or.inl same
        · refine Or.inr ⟨Change.delete (x.line.start + x.inner.start) x.line.stop, ?_, rfl⟩
          apply (ChangeSet.mem_ofChanges found).mpr
          exact ⟨by simp, by simp [Change.isNoop, Change.delete, same]⟩
    · cases made
  · cases made

/-- An edit leaves or blanks an empty item or ends a quote, or else it splits the line. -/
theorem editAt_cases (s : EditState) (x : Site) :
    (x.isEmptyLine = true ∧ (x.inner.item.isSome = true ∨ x.inner.isQuote = true) ∧
      ((∃ item, x.inner.item = some item ∧ editAt s x = .ok (x.leaveItem s.doc item) ∧
          x.cleared s.doc = (min (x.line.start + x.outdentColumn) x.pos, x.pos)) ∨
        (editAt s x = .ok (x.blankLine s.lineBreak) ∧
          x.cleared s.doc = (x.line.start, x.line.stop)) ∨
        (∃ edit, x.closeQuote? s.doc = some edit ∧ editAt s x = edit.mapError .declined ∧
          x.cleared s.doc = (x.line.start + x.inner.start, x.line.stop)))) ∨
    (editAt s x = x.split s ∧ x.cleared s.doc = (x.trimStop, x.pos)) := by
  unfold editAt Site.cleared
  cases shown : x.inner.item with
  | some item =>
    cases empty : x.isEmptyLine with
    | true =>
      refine Or.inl ⟨rfl, Or.inl rfl, ?_⟩
      by_cases leaves : (x.inFirstItem || x.afterBlank s.doc) = true
      · refine Or.inl ⟨item, rfl, ?_⟩
        exact ⟨if_pos leaves, if_pos leaves⟩
      · refine Or.inr (Or.inl ?_)
        exact ⟨if_neg leaves, if_neg leaves⟩
    | false =>
      refine Or.inr ?_
      simp [Site.trimStop]
  | none =>
    dsimp only
    by_cases ends : (x.inner.isQuote && x.isEmptyLine && decide (0 < x.line.start)) = true
    · rw [if_pos ends, ends, Bool.true_and]
      by_cases above : quoteTail? (s.doc.lineAt (x.line.start - 1)).text = some x.inner.start
      · simp only [Bool.and_eq_true] at ends
        obtain ⟨edit, closes⟩ : ∃ edit, x.closeQuote? s.doc = some edit := by
          rw [Site.closeQuote?, if_pos above]
          exact ⟨_, rfl⟩
        refine Or.inl ⟨ends.1.2, Or.inr ends.1.1, Or.inr (Or.inr ⟨edit, closes, ?_⟩)⟩
        simp only [closes, above, beq_self_eq_true, ↓reduceIte, and_self]
      · refine Or.inr ?_
        simp [Site.closeQuote?, above, Site.trimStop]
    · refine Or.inr ?_
      rw [if_neg ends, Bool.eq_false_iff.mpr ends, Bool.false_and]
      exact ⟨rfl, rfl⟩

/-- What the edit at a site takes away besides what is cleared of the caret's line is harmless. -/
theorem editAt_changes (coherent : s.Coherent) (sound : x.Sound s) (made : editAt s x = .ok e) :
    (∀ c ∈ e.changes, c.Harmless s.text ∨ (c.start, c.stop) = x.cleared s.doc) ∧
      ((x.cleared s.doc).1 = (x.cleared s.doc).2 ∨
        ∃ c ∈ e.changes, (c.start, c.stop) = x.cleared s.doc) := by
  rcases editAt_cases s x with ⟨_, _, ⟨item, shown, edit, span⟩ | ⟨edit, span⟩ |
    ⟨closed, closes, edit, span⟩⟩ | ⟨edit, span⟩
  · rw [edit] at made
    cases made
    rw [span]
    obtain ⟨insert, counted, changes, harmless⟩ := leaveItem_changes coherent sound shown
    rw [changes]
    refine ⟨?_, Or.inr ⟨_, List.mem_cons_self, rfl⟩⟩
    intro c member
    rcases List.mem_cons.mp member with rfl | member
    · exact Or.inr rfl
    · exact Or.inl (harmless c member)
  · rw [edit] at made
    cases made
    rw [span]
    refine ⟨?_, Or.inr ⟨_, List.mem_singleton_self _, rfl⟩⟩
    intro c member
    rw [List.mem_singleton.mp member]
    exact Or.inr rfl
  · rw [edit] at made
    rw [Refusal.ok_of_mapError made] at closes
    rw [span]
    exact closeQuote?_changes coherent sound closes
  · rw [edit] at made
    obtain ⟨harmless, insert, present⟩ := split_changes coherent sound made
    rw [span]
    exact ⟨fun c member => Or.inl (harmless c member), Or.inr ⟨_, present, rfl⟩⟩

theorem cleared_span (coherent : s.Coherent) (sound : x.Sound s) :
    x.line.start ≤ (x.cleared s.doc).1 ∧
      ((x.cleared s.doc).2 = x.pos ∨ (x.cleared s.doc).2 = x.line.stop) := by
  obtain ⟨_, _, _, _, reaches, -⟩ := coherent.lies_lineAt sound.inside
  rw [← sound.line] at reaches
  have low := reaches.1
  rcases editAt_cases s x with ⟨_, _, ⟨_, _, _, span⟩ | ⟨_, span⟩ | ⟨_, _, _, span⟩⟩ | ⟨_, span⟩
  · rw [span]
    exact ⟨by dsimp only; omega, Or.inl rfl⟩
  · rw [span]
    exact ⟨Nat.le_refl _, Or.inr rfl⟩
  · rw [span]
    exact ⟨Nat.le_add_right _ _, Or.inr rfl⟩
  · rw [span]
    exact ⟨Nat.le_add_right _ _, Or.inl rfl⟩

theorem cleared_erasable (coherent : s.Coherent) (sound : x.Sound s) (made : editAt s x = .ok e)
    (own_line : x.line.start ≤ x.inner.container.start) :
    (s.text.touched (x.cleared s.doc).1 (x.cleared s.doc).2).all isErasable = true := by
  rcases editAt_cases s x with ⟨empty, marked, _⟩ | ⟨edit, span⟩
  · rcases sound.inner.cases coherent sound.inside with ⟨no_item, no_quote, _⟩ | ⟨_, _, _, _, on_line⟩
    · rw [no_item, no_quote] at marked
      rcases marked with failed | failed <;> cases failed
    · obtain ⟨before, after, parts, lies, reaches, -⟩ := coherent.lies_lineAt sound.inside
      rw [← sound.line] at parts lies reaches on_line
      obtain ⟨lead, glyphs, rest, on⟩ := on_line own_line
      obtain ⟨text, content⟩ := on.text_eq
      rw [Site.isEmptyLine, content] at empty
      have erasable : ∀ d ∈ x.line.text, isErasable d = true := by
        intro d member
        rw [text] at member
        rcases List.mem_append.mp member with member | member
        · exact on.markup_erasable d member
        · exact isErasable_of_isWhite (List.all_eq_true.mp empty d member)
      obtain ⟨low, high⟩ := cleared_span coherent sound
      refine lies.touched_erasable parts low ?_ erasable
      rcases high with same | same
      · rw [same]
        exact reaches
      · rw [same]
        exact ⟨by rw [lies.start, lies.stop]; exact Nat.le_add_right _ _, Or.inl (Nat.le_refl _)⟩
  · rw [edit] at made
    obtain ⟨harmless, insert, present⟩ := split_changes coherent sound made
    rw [span]
    exact (harmless _ present).erasable

theorem edit_ok : edit s r = .ok e ↔ ∃ x, site s r = .ok x ∧ editAt s x = .ok e := by
  unfold edit
  cases found : site s r with
  | error why => simp [Except.mapError, bind, Except.bind]
  | ok x => simp [Except.mapError, bind, Except.bind]

theorem edit_site (coherent : s.Coherent) (range : r ∈ s.selection.ranges)
    (edited : edit s r = .ok e) : ∃ x, site s r = .ok x ∧ x.Sound s ∧ editAt s x = .ok e := by
  obtain ⟨x, found, at_site⟩ := edit_ok.mp edited
  exact ⟨x, found, site_sound coherent (coherent.inside r range) found, at_site⟩

variable {t : Transaction}

theorem site_edit (coherent : s.Coherent) (made : run s = .ok t) (range : r ∈ s.selection.ranges)
    (found : site s r = .ok x) : x.Sound s ∧ ∃ e, edit s r = .ok e ∧ editAt s x = .ok e := by
  obtain ⟨e, edited⟩ := Transaction.byRange_each made range
  obtain ⟨x', found', sound, at_site⟩ := edit_site coherent range edited
  rw [found] at found'
  cases found'
  exact ⟨sound, e, edited, at_site⟩

theorem editAt_erasable_iff (coherent : s.Coherent) (sound : x.Sound s)
    (made : editAt s x = .ok e) :
    (∀ c ∈ e.changes, (s.text.touched c.start c.stop).all isErasable = true) ↔ ¬x.LosesText s := by
  obtain ⟨others, present⟩ := editAt_changes coherent sound made
  constructor
  · intro all loses
    have cleared_all :
        (s.text.touched (x.cleared s.doc).1 (x.cleared s.doc).2).all isErasable = true := by
      rcases present with same | ⟨c, member, span⟩
      · rw [same, Text.touched_of_le (Nat.le_refl _)]
        rfl
      · rw [← span]
        exact all c member
    rw [loses.2] at cleared_all
    cases cleared_all
  · intro keeps c member
    rcases others c member with harmless | span
    · exact harmless.erasable
    · have start : c.start = (x.cleared s.doc).1 := congrArg Prod.fst span
      have stop : c.stop = (x.cleared s.doc).2 := congrArg Prod.snd span
      rw [start, stop]
      by_cases own_line : x.line.start ≤ x.inner.container.start
      · exact cleared_erasable coherent sound made own_line
      · cases all : (s.text.touched (x.cleared s.doc).1 (x.cleared s.doc).2).all isErasable with
        | true => rfl
        | false => exact absurd ⟨by omega, all⟩ keeps

/-- Enter takes only white space and markup away unless it empties a line, below the one that shows
the marker, on which text stands. What it does not take away stays in order. -/
theorem erasable_iff_keeps_text (coherent : s.Coherent) (made : run s = .ok t) :
    ((t.changes.covered s.text).all isErasable = true ↔
      ∀ r ∈ s.selection.ranges, ∀ x, site s r = .ok x → ¬x.LosesText s) ∧
      ∀ s', s.next? t = some s' → (t.changes.survivors s.text).Sublist s'.text := by
  constructor
  · rw [Transaction.byRange_covered_all_iff made]
    constructor
    · intro all r range x found
      obtain ⟨sound, e, edited, at_site⟩ := site_edit coherent made range found
      exact (editAt_erasable_iff coherent sound at_site).mp (all r range e edited)
    · intro keeps r range e edited
      obtain ⟨x, found, sound, at_site⟩ := edit_site coherent range edited
      exact (editAt_erasable_iff coherent sound at_site).mpr (keeps r range x found)
  · exact fun s' next => EditState.survivors_of_byRange made next

def emptyItem : EditState :=
  .ofText ['-', ' ', 'a', '\n', '-', ' '] (Selection.caret 6) {}

theorem emptyItem_loses_nothing : ∃ t, run emptyItem = .ok t ∧
    t.changes.covered emptyItem.text = ['-', ' '] ∧
    ∀ r ∈ emptyItem.selection.ranges, ∀ x, site emptyItem r = .ok x → ¬x.LosesText emptyItem := by
  have made : run emptyItem =
      .ok ⟨⟨[⟨4, 6, ['\n']⟩], 6⟩, some (Selection.caret 5)⟩ := by decide +kernel
  have all := erasable_iff_keeps_text (EditState.coherent_ofText _ _ _) made
  exact ⟨_, made, by decide +kernel, all.1.mp (by decide +kernel)⟩

def lazyItem : EditState :=
  .ofText ['-', ' ', 'a', '\n', ' ', ' ', '-', ' ', 'a', 'b', 'c', '\n', 'u', 's', 'e', 'r']
    (Selection.caret 16) {}

/-- Enter can take text away: on this line it takes the whole line for an empty item. -/
theorem takes_user_text : ¬∀ (s : EditState) (t : Transaction), s.Coherent → run s = .ok t →
    (t.changes.covered s.text).all isErasable = true := by
  intro all
  have made : run lazyItem =
      .ok ⟨⟨[⟨12, 16, ['-', ' ']⟩], 16⟩, some (Selection.caret 14)⟩ := by decide +kernel
  have kept := all lazyItem _ (EditState.coherent_ofText _ _ _) made
  have content : ((⟨[⟨12, 16, ['-', ' ']⟩], 16⟩ : ChangeSet).covered lazyItem.text).all
      isErasable = false := by decide +kernel
  rw [content] at kept
  cases kept

end Enter

end MarkdownEditing
