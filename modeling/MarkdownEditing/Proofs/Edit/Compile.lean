import MarkdownEditing.Edit.Command
import MarkdownEditing.Proofs.Edit.Toggles
import MarkdownEditing.Proofs.Markup.Backspace
import MarkdownEditing.Proofs.Markup.Enter

namespace MarkdownEditing

def Text.CaretStop (t : Text) (pos : Nat) : Prop :=
  t.isBoundary pos = true ∧ ∀ a b : Text, t = a ++ '\r' :: '\n' :: b → pos ≠ a.size + 1

def EditState.CaretStops (s : EditState) : Prop :=
  ∀ r ∈ s.selection.ranges, s.text.CaretStop r.anchor ∧ s.text.CaretStop r.head

/-- No change of the command begins inside a character: neither what Enter clears of a caret's line
nor the surplus spaces that Backspace deletes. -/
def Command.CutsCleanly (c : Command) (s : EditState) : Prop :=
  match c with
  | enter => ∀ r ∈ s.selection.ranges, ∀ x, Enter.site s r = .ok x →
      s.text.isBoundary (x.cleared s.doc).1 = true
  | backspace => ∀ r ∈ s.selection.ranges, ∀ start, Backspace.Surplus s r.head start →
      s.text.isBoundary start = true
  | _ => True

variable {s : EditState} {t : Transaction}

theorem EditState.CaretStops.forall_whole (stops : s.CaretStops) :
    ∀ r ∈ s.selection.ranges, r.Whole s.text :=
  fun r range => ⟨(stops r range).1.1, (stops r range).2.1⟩

theorem EditState.caretStops_of_caret {pos : Nat} (single : s.selection.ranges = [Range.caret pos])
    (boundary : s.text.isBoundary pos = true) (clean : '\r' ∉ s.text) : s.CaretStops := by
  have stop : s.text.CaretStop pos := by
    refine ⟨boundary, ?_⟩
    intro a b parts
    rw [parts] at clean
    exact absurd (by simp) clean
  intro r range
  rw [single] at range
  rw [List.mem_singleton.mp range]
  exact ⟨stop, stop⟩

theorem Transaction.fits_byRange {edit : Range → Except Refusal RangeEdit}
    (made : byRange s edit = .ok t) : t.changes.Fits s.doc.size := by
  obtain ⟨changes, found⟩ := byRange_ofChanges made
  exact ChangeSet.fits_of_ofChanges found

theorem Change.whole_of_isNoop {c : Change} {u : Text} (noop : c.isNoop = true)
    (stop : u.isBoundary c.stop = true) : u.isBoundary c.start = true := by
  simp only [isNoop, Bool.and_eq_true, beq_iff_eq] at noop
  rw [noop.1]
  exact stop

namespace Enter

theorem split_ne_splitsCharacter (coherent : s.Coherent) {x : Site} (sound : x.Sound s)
    (stop : s.text.CaretStop x.pos) : x.split s ≠ .error .splitsCharacter := by
  obtain ⟨boundary, no_break⟩ := stop
  obtain ⟨before, after, parts, lies, reaches, -⟩ := coherent.lies_lineAt sound.inside
  rw [← sound.line] at parts lies reaches
  obtain ⟨a, b, split, size⟩ := Text.isBoundary_iff.mp boundary
  rw [← size] at reaches
  -- the one boundary of the document that is none of the line lies inside a break of two characters
  have on_line : x.line.text.isBoundary x.column = true := by
    rcases lies.cut_cases (parts.symm.trans split) reaches with ⟨u, v, same, text, _⟩ |
      ⟨rest, same, later⟩
    · have column : x.column = u.size := by
        rw [Site.column, ← size, same, Text.size_append, lies.start]
        omega
      rw [column, text]
      exact Text.isBoundary_left u v
    · have one : '\r'.utf8Size = 1 := rfl
      refine absurd ?_ (no_break (before ++ x.line.text) rest ?_)
      · rw [← size, same, Text.size_append (before ++ x.line.text), Text.size_cons, Text.size_nil, one]
      · rw [split, same, later]
        simp
  rw [Site.split, if_pos on_line]
  intro failed
  cases failed

theorem run_ne_splitsCharacter (coherent : s.Coherent) (stops : s.CaretStops) :
    run s ≠ .error .splitsCharacter := by
  intro failed
  obtain ⟨r, range, refused⟩ := Transaction.byRange_splitsCharacter failed
  unfold edit at refused
  cases found : site s r with
  | error why =>
    rw [found] at refused
    cases refused
  | ok x =>
    rw [found] at refused
    change editAt s x = _ at refused
    have sound := site_sound coherent (coherent.inside r range) found
    have kept : x.split s ≠ .error .splitsCharacter := by
      apply split_ne_splitsCharacter coherent sound
      rw [site_pos found]
      exact (stops r range).2
    rcases editAt_cases s x with ⟨_, _, ⟨_, _, edit, _⟩ | ⟨edit, _⟩ | ⟨closed, _, edit, _⟩⟩ | ⟨edit, _⟩
    · rw [edit] at refused
      cases refused
    · rw [edit] at refused
      cases refused
    · rw [edit] at refused
      exact Refusal.mapError_ne_splitsCharacter closed refused
    · rw [edit] at refused
      exact kept refused

theorem isBoundary_cleared_stop (coherent : s.Coherent) {x : Site} (sound : x.Sound s)
    (stop : s.text.isBoundary x.pos = true) : s.text.isBoundary (x.cleared s.doc).2 = true := by
  obtain ⟨before, after, parts, lies, -⟩ := coherent.lies_lineAt sound.inside
  rw [← sound.line] at parts lies
  rcases (cleared_span coherent sound).2 with same | same
  · rw [same]
    exact stop
  · rw [same]
    exact lies.isBoundary_stop parts

theorem run_whole_iff (coherent : s.Coherent) (whole : ∀ r ∈ s.selection.ranges, r.Whole s.text)
    (made : run s = .ok t) :
    (∀ c ∈ t.changes.changes, c.Whole s.text) ↔ Command.enter.CutsCleanly s := by
  constructor
  · intro all r range x found
    obtain ⟨sound, e, edited, at_site⟩ := site_edit coherent made range found
    have stop := isBoundary_cleared_stop coherent sound (by rw [site_pos found]; exact (whole r range).2)
    rcases (editAt_changes coherent sound at_site).2 with same | ⟨c, member, span⟩
    · rw [same]
      exact stop
    · rw [← span] at stop ⊢
      cases effective : c.isNoop with
      | false => exact (all c ((Transaction.mem_byRange made).mpr
          ⟨⟨r, range, e, edited, member⟩, effective⟩)).1
      | true => exact Change.whole_of_isNoop effective stop
  · intro cleanly c member
    obtain ⟨⟨r, range, e, edited, inside⟩, _⟩ := (Transaction.mem_byRange made).mp member
    obtain ⟨x, found, sound, at_site⟩ := edit_site coherent range edited
    have stop := isBoundary_cleared_stop coherent sound (by rw [site_pos found]; exact (whole r range).2)
    rcases (editAt_changes coherent sound at_site).1 c inside with harmless | span
    · exact harmless.whole
    · have start := cleanly r range x found
      rw [← span] at start stop
      exact ⟨start, stop⟩

end Enter

namespace Backspace

theorem run_ne_splitsCharacter (s : EditState) : run s ≠ .error .splitsCharacter := by
  intro failed
  obtain ⟨r, _, refused⟩ := Transaction.byRange_splitsCharacter failed
  exact Refusal.mapError_ne_splitsCharacter _ refused

theorem run_whole_iff (coherent : s.Coherent) (whole : ∀ r ∈ s.selection.ranges, r.Whole s.text)
    (made : run s = .ok t) :
    (∀ c ∈ t.changes.changes, c.Whole s.text) ↔ Command.backspace.CutsCleanly s := by
  have stop : ∀ {r : Range} {c : Change}, r ∈ s.selection.ranges → Deletes s r.head c →
      s.text.isBoundary c.stop = true := by
    intro r c range deletes
    rcases deletes.stop with same | boundary
    · rw [same]
      exact (whole r range).2
    · exact boundary
  constructor
  · intro all r range start surplus
    obtain ⟨e, mapped⟩ := Transaction.byRange_each made range
    obtain ⟨c, changes, deletes⟩ := range_deletes coherent range mapped
    rw [← deletes.surplus start surplus]
    cases effective : c.isNoop with
    | false =>
      refine (all c ((Transaction.mem_byRange made).mpr ⟨⟨r, range, e, mapped, ?_⟩, effective⟩)).1
      rw [changes]
      exact List.mem_singleton_self _
    | true => exact Change.whole_of_isNoop effective (stop range deletes)
  · intro cleanly c member
    obtain ⟨⟨r, range, e, mapped, inside⟩, _⟩ := (Transaction.mem_byRange made).mp member
    obtain ⟨d, changes, deletes⟩ := range_deletes coherent range mapped
    rw [changes] at inside
    rw [List.mem_singleton.mp inside]
    refine ⟨?_, stop range deletes⟩
    rcases deletes.start with boundary | surplus
    · exact boundary
    · exact cleanly r range _ surplus

end Backspace

namespace Command

theorem compile_ne_splitsCharacter (coherent : s.Coherent) (stops : s.CaretStops) (c : Command) :
    c.compile s ≠ .error .splitsCharacter := by
  cases c with
  | enter => exact Enter.run_ne_splitsCharacter coherent stops
  | backspace => exact Backspace.run_ne_splitsCharacter s
  | replace | horizontalRule | codeBlock | mathBlock => exact Refusal.mapError_ne_splitsCharacter _
  | _ =>
    intro failed
    cases failed

theorem whole_of_compile (coherent : s.Coherent) (whole : ∀ r ∈ s.selection.ranges, r.Whole s.text)
    {c : Command} (other : c ≠ enter ∧ c ≠ backspace) (made : c.compile s = .ok t) : t.Whole s := by
  cases c with
  | enter => exact absurd rfl other.1
  | backspace => exact absurd rfl other.2
  | bold | italic | strikethrough | inlineCode | inlineMath =>
    cases made
    exact MarkPair.toggle_whole coherent whole _
  | heading | blockquote =>
    cases made
    exact LeadingMark.toggle_whole coherent _ _
  | bullet | numbering | todo =>
    cases made
    exact ListKind.toggle_whole coherent _
  | replace | horizontalRule | codeBlock | mathBlock =>
    exact replaceRanges_whole whole (Refusal.ok_of_mapError made)
  | format =>
    cases made
    exact formatContent_whole coherent _ _ _

/-- A command is never refused for a caret inside a character, and its changes fit the document.
They begin and end at character boundaries, so that they can be made, unless Enter or Backspace
takes a column of one line for a column of another and cuts a character there. -/
theorem compile_boundaries_iff (coherent : s.Coherent) (stops : s.CaretStops) (c : Command) :
    c.compile s ≠ .error .splitsCharacter ∧
      ∀ t, c.compile s = .ok t →
        t.changes.size = s.doc.size ∧
          (∀ x ∈ t.changes.changes, x.start ≤ x.stop ∧ x.stop ≤ s.doc.size) ∧
          ((∀ x ∈ t.changes.changes,
              s.text.isBoundary x.start = true ∧ s.text.isBoundary x.stop = true) ↔
            c.CutsCleanly s) ∧
          (c.CutsCleanly s → ∃ s', s.next? t = some s') := by
  refine ⟨compile_ne_splitsCharacter coherent stops c, ?_⟩
  intro t made
  have fits : t.changes.Fits s.doc.size ∧
      ((∀ x ∈ t.changes.changes, x.Whole s.text) ↔ c.CutsCleanly s) := by
    by_cases enters : c = enter
    · subst enters
      exact ⟨Transaction.fits_byRange made, Enter.run_whole_iff coherent stops.forall_whole made⟩
    · by_cases deletes : c = backspace
      · subst deletes
        exact ⟨Transaction.fits_byRange made, Backspace.run_whole_iff coherent stops.forall_whole
          made⟩
      · have all := whole_of_compile coherent stops.forall_whole ⟨enters, deletes⟩ made
        refine ⟨all.1, iff_of_true all.2 ?_⟩
        unfold CutsCleanly
        split
        · exact absurd rfl enters
        · exact absurd rfl deletes
        · exact True.intro
  obtain ⟨⟨size, bounds⟩, whole⟩ := fits
  exact ⟨size, bounds, whole, fun cleanly => EditState.next?_isSome size (whole.mpr cleanly)⟩

def accentedItem : EditState := .ofText ['-', ' ', 'é'] (Selection.caret 4) {}

theorem accentedItem_next : ∃ t s', enter.compile accentedItem = .ok t ∧
    enter.CutsCleanly accentedItem ∧ accentedItem.next? t = some s' := by
  have made : enter.compile accentedItem =
      .ok ⟨⟨[⟨4, 4, ['\n', '-', ' ']⟩], 4⟩, some (Selection.caret 7)⟩ := by cbv
  have stops : accentedItem.CaretStops :=
    EditState.caretStops_of_caret (by cbv) (by cbv) (by decide)
  have all := compile_boundaries_iff (EditState.coherent_ofText _ _ _) stops enter
  obtain ⟨_, _, whole, next⟩ := all.2 _ made
  have cleanly : enter.CutsCleanly accentedItem := by
    apply whole.mp
    intro x member
    rw [List.mem_singleton.mp member]
    exact ⟨by cbv, by cbv⟩
  obtain ⟨s', applied⟩ := next cleanly
  exact ⟨_, s', made, cleanly, applied⟩

def wideQuote : EditState :=
  .ofText ['>', ' ', 'q', '\n', '\u3000', '\u3000'] (Selection.caret 10) {}

/-- Commands can cut characters: Backspace deletes from the second byte of this line on. -/
theorem cuts_character : ¬∀ (s : EditState) (c : Command) (t : Transaction), s.Coherent →
    s.CaretStops → c.compile s = .ok t → ∀ x ∈ t.changes.changes,
      s.text.isBoundary x.start = true ∧ s.text.isBoundary x.stop = true := by
  intro all
  have made : backspace.compile wideQuote =
      .ok ⟨⟨[⟨6, 10, []⟩], 10⟩, some (Selection.caret 6)⟩ := by cbv
  have stops : wideQuote.CaretStops :=
    EditState.caretStops_of_caret (by cbv) (by cbv) (by decide)
  have boundary := (all wideQuote backspace _ (EditState.coherent_ofText _ _ _) stops made _
    (List.mem_singleton_self _)).1
  have inside : wideQuote.text.isBoundary 6 = false := by cbv
  rw [inside] at boundary
  cases boundary

end Command

end MarkdownEditing
