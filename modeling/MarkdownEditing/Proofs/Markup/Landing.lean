import MarkdownEditing.Proofs.Markup.Local

namespace MarkdownEditing

theorem Selection.caret_inj {a b : Nat} : Selection.caret a = Selection.caret b ↔ a = b := by
  simp [caret, Range.caret]

theorem ChangeSet.mapFrom_of_deletions {changes : List Change} {pos : Nat} {side side' : Side}
    {shift : Int} (deletions : ∀ c ∈ changes, c.insert = [] ∧ c.start < c.stop) :
    mapFrom pos side shift changes = mapFrom pos side' shift changes := by
  induction changes generalizing shift with
  | nil => rfl
  | cons c rest ih =>
    obtain ⟨⟨nothing, some_bytes⟩, later⟩ := List.forall_mem_cons.mp deletions
    have apart (side : Side) : ¬(c.start = pos ∧ c.stop = pos ∧ side = .before) := by omega
    simp only [mapFrom, apart, or_false, nothing, Text.size_nil, Nat.add_zero, ite_self, ih later]

namespace Enter

variable {s : EditState} {r : Range} {x : Site} {e : RangeEdit} {pos : Nat}

theorem start_lt_of_item (coherent : s.Coherent) (range : r ∈ s.selection.ranges)
    (found : site s r = .ok x) (shown : x.inner.item.isSome = true) : x.line.start < x.pos := by
  have sound := site_sound coherent (coherent.inside r range) found
  obtain ⟨_, pos, line, _, behind⟩ := site_ok found
  rw [← line, ← pos, Frame.markerStop] at behind
  rcases sound.inner.cases coherent sound.inside with ⟨no_item, _⟩ | ⟨_, _, _, width, _⟩
  · rw [no_item] at shown
    cases shown
  · omega

theorem size_lineBreak_pos (s : EditState) : 0 < Text.size s.lineBreak := by
  apply Text.size_pos
  cases kind : s.doc.lineBreak <;> simp [EditState.lineBreak, kind, LineBreak.text]

variable (coherent : s.Coherent) (range : r ∈ s.selection.ranges) (found : site s r = .ok x)
  (apart : ¬s.text.SplitsBreak x.pos)

include coherent range found apart

/-- Blanking a line takes the length of the whole line off the caret, as if it were at its end. -/
theorem blankLine_lands_iff (blanks : x.BlanksLine s.doc) {set : ChangeSet}
    (accepted : ChangeSet.ofChanges (x.blankLine s.lineBreak).changes s.doc.size = .ok set) :
    (x.blankLine s.lineBreak).range = Range.caret (set.mapPos x.pos .after) ↔
      ¬x.pos < x.line.stop := by
  obtain ⟨low, high, _⟩ := site_bounds coherent range found apart
  obtain ⟨own, parts, rfl⟩ := blankLine_local coherent range found apart s.lineBreak
  have behind := start_lt_of_item coherent range found blanks.1
  have some_break := size_lineBreak_pos s
  rw [parts.surrounds.mapPos_eq (Or.inl behind) accepted]
  simp only [Site.blankLine, Range.caret, Range.mk.injEq, and_self, Text.size_append]
  omega

theorem closeQuote_lands (closes : x.ClosesQuote s.doc)
    (changes : e.changes = (x.quoteChanges s.doc).filter (!·.isNoop)) {set : ChangeSet}
    (accepted : ChangeSet.ofChanges e.changes s.doc.size = .ok set) :
    ChangeSet.mapPos ⟨(x.quoteChanges s.doc).filter (!·.isNoop), s.doc.size⟩ x.pos .before =
      set.mapPos x.pos .after := by
  obtain ⟨before, each⟩ := quoteChanges_local coherent range found apart closes
  rw [changes, ChangeSet.ofChanges_of_before (before.filter _) fun c member =>
    (each c (List.mem_filter.mp member).1).1, List.filter_filter] at accepted
  simp only [Bool.and_self] at accepted
  cases accepted
  apply ChangeSet.mapFrom_of_deletions
  intro c member
  obtain ⟨among, effective⟩ := List.mem_filter.mp member
  have forward := (each c among).1.1
  have nothing : c.insert = [] := by
    rcases List.mem_cons.mp among with rfl | among
    · rfl
    · rw [List.mem_singleton.mp among]
      rfl
  refine ⟨nothing, Nat.lt_of_le_of_ne forward fun same => ?_⟩
  simp [Change.isNoop, same, nothing] at effective

theorem lands_iff (made : editAt s x = .ok e) {set : ChangeSet}
    (accepted : ChangeSet.ofChanges e.changes s.doc.size = .ok set) :
    e.range = Range.caret (set.mapPos x.pos .after) ↔
      ¬(x.BlanksLine s.doc ∧ x.pos < x.line.stop) := by
  rcases editAt_parts coherent range found apart made with
    ⟨own, numbers, parts, ⟨blanks, rfl, _⟩ | ⟨kept, stop, caret⟩⟩ | ⟨kept, closes, changes, caret⟩
  · rw [blankLine_lands_iff coherent range found apart blanks accepted]
    simp only [blanks, true_and]
  · rw [parts.surrounds.mapPos_eq (Or.inr stop) accepted]
    exact iff_of_true caret fun blanks => kept blanks.1
  · rw [caret, closeQuote_lands coherent range found apart closes changes accepted]
    exact iff_of_true rfl fun blanks => kept blanks.1

end Enter

variable {s : EditState} {pos : Nat}

/-- A single caret lands where the changes carry it to, on every path of both keys but for Enter at an
empty item that makes room for a blank line when the caret is not at the end of its line. -/
theorem caret_lands_iff (coherent : s.Coherent) (only : s.selection.ranges = [Range.caret pos])
    (apart : ¬s.text.SplitsBreak pos) :
    (∀ tr, Enter.run s = .ok tr →
      (tr.selection = some (Selection.caret (tr.changes.mapPos pos .after)) ↔
        ¬∃ x, Enter.site s (Range.caret pos) = .ok x ∧ x.BlanksLine s.doc ∧ pos < x.line.stop)) ∧
    ∀ tr, Backspace.run s = .ok tr →
      tr.selection = some (Selection.caret (tr.changes.mapPos pos .after)) := by
  refine ⟨fun tr made => ?_, fun tr made => ?_⟩
  · obtain ⟨x, e, target, found, at_site, accepted, caret, lands, _⟩ :=
      Enter.run_caret coherent only apart made
    have range : Range.caret pos ∈ s.selection.ranges := by simp [only]
    have same : x.pos = pos := Enter.site_pos found
    have lands_iff := Enter.lands_iff coherent range found (by rw [same]; exact apart) at_site accepted
    have sites : (∃ y, Enter.site s (Range.caret pos) = .ok y ∧ y.BlanksLine s.doc ∧
        pos < y.line.stop) ↔ x.BlanksLine s.doc ∧ pos < x.line.stop := by
      constructor
      · rintro ⟨y, found', blanks⟩
        rw [found] at found'
        cases found'
        exact blanks
      · exact fun blanks => ⟨x, found, blanks⟩
    rw [caret, same] at lands_iff
    rw [sites, ← lands_iff, lands, Option.some.injEq, Selection.caret_inj]
    simp [Range.caret]
  · obtain ⟨e, c, alone, accepted, lands⟩ := Backspace.run_caret coherent only apart made
    have inside := (coherent.line_bounds (coherent.caret_inside only) apart).2.2
    rw [lands, (alone.surrounds inside).mapPos_eq alone.touch accepted]

/-- At the end of an empty item the caret goes behind the line break of the blank line. -/
theorem emptyItem_lands : ∃ tr, Enter.run Enter.emptyItem = .ok tr ∧
    tr.changes.changes = [⟨4, 6, ['\n']⟩] ∧ tr.changes.mapPos 6 .after = 5 ∧
    tr.selection = some (Selection.caret (tr.changes.mapPos 6 .after)) := by
  have made : Enter.run Enter.emptyItem =
      .ok ⟨⟨[⟨4, 6, ['\n']⟩], 6⟩, some (Selection.caret 5)⟩ := by decide +kernel
  have only : Enter.emptyItem.selection.ranges = [Range.caret 6] := by decide +kernel
  have apart : ¬Enter.emptyItem.text.SplitsBreak 6 := Text.not_splitsBreak (by decide)
  have place : (Enter.site Enter.emptyItem (Range.caret 6)).map (·.line.stop) = .ok 6 := by decide +kernel
  obtain ⟨x, found, stop⟩ := Enter.site_of_map place
  have coherent : Enter.emptyItem.Coherent := EditState.coherent_ofText _ _ _
  have lands := (caret_lands_iff coherent only apart).1 _ made
  refine ⟨_, made, rfl, rfl, lands.mpr ?_⟩
  rintro ⟨y, found', _, short⟩
  rw [found] at found'
  cases found'
  omega

def spacedItem : EditState :=
  .ofText ['-', ' ', 'a', '\n', '-', ' ', ' '] (Selection.caret 6) {}

/-- Enter can leave the caret in front of the line break that it puts in. -/
theorem lands_elsewhere : ¬∀ (s : EditState) (pos : Nat) (tr : Transaction), s.Coherent →
    s.selection.ranges = [Range.caret pos] → ¬s.text.SplitsBreak pos → Enter.run s = .ok tr →
    tr.selection = some (Selection.caret (tr.changes.mapPos pos .after)) := by
  intro all
  have made : Enter.run spacedItem =
      .ok ⟨⟨[⟨4, 7, ['\n']⟩], 7⟩, some (Selection.caret 4)⟩ := by decide +kernel
  have only : spacedItem.selection.ranges = [Range.caret 6] := by decide +kernel
  have lands := all spacedItem 6 _ (EditState.coherent_ofText _ _ _) only
    (Text.not_splitsBreak (by decide)) made
  have carried : ChangeSet.mapPos ⟨[⟨4, 7, ['\n']⟩], 7⟩ 6 .after = 5 := by decide
  rw [carried, Option.some.injEq, Selection.caret_inj] at lands
  cases lands

end MarkdownEditing
