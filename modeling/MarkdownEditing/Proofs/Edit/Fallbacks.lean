import MarkdownEditing.Proofs.Edit.Formatted
import MarkdownEditing.Proofs.Edit.Reaching
import MarkdownEditing.Proofs.Edit.Replaced
import MarkdownEditing.Proofs.Markup.Local
import MarkdownEditing.Proofs.Toggle.LeadingMarks
import MarkdownEditing.Proofs.Toggle.Regrouped

namespace MarkdownEditing

theorem ChangeSet.newSize_single {c : Change} {size : Nat} {own : ChangeSet}
    (made : ofChanges [c] size = .ok own) : (own.newSize : Int) = size + c.growth := by
  rw [newSize_eq made, (ofChanges_ok made).1]
  cases noop : c.isNoop with
  | true =>
    obtain ⟨empty, nothing⟩ := Change.isNoop_iff.mp noop
    simp [noop, dropRepeats, totalGrowth, Change.growth, empty, nothing, Text.size_nil]
  | false => simp [noop, dropRepeats, totalGrowth]

namespace RangeEdit

open ChangeSet

variable {e : RangeEdit} {own c : Change} {behind changes : List Change} {q r : Range}
  {pos size : Nat} {set : ChangeSet}

theorem lands_single (inside : q.Inside (c.start + c.insert.size))
    (reach : c.start ≤ size ∨ c.start < c.stop)
    (near : c.start = c.stop → c.start ≤ r.start ∧ r.stop ≤ c.start + 1) :
    Lands ⟨[c], q⟩ r size where
  inside own made := by
    have growth := newSize_single made
    rw [Change.growth] at growth
    apply inside.mono
    cases noop : c.isNoop with
    | true =>
      obtain ⟨empty, nothing⟩ := Change.isNoop_iff.mp noop
      rw [nothing, Text.size_nil] at growth ⊢
      omega
    | false =>
      obtain ⟨forward, stop⟩ := (conflictFree_of_ofChanges made).within c List.mem_cons_self noop
      omega
  near := by
    refine ⟨c.start, fun d member inserts => ?_⟩
    obtain rfl := List.mem_singleton.mp member
    exact ⟨rfl, near inserts.1⟩

theorem lands_deletions (made : ofChanges changes size = .ok set)
    (deletes : ∀ c ∈ changes, c.insert = []) (inside : q.Inside size) :
    Lands ⟨set.changes, q.map set⟩ r size where
  inside own again := by
    rw [ofChanges_again made] at again
    cases again
    exact inside.map made
  near := ⟨0, fun c member inserts =>
    absurd (deletes c ((mem_ofChanges made).mp member).1) inserts.2⟩

theorem lands_nothing (inside : r.Inside size) : Lands ⟨[], r⟩ r size where
  inside own made := by
    rw [ofChanges_nil] at made
    cases made
    have unchanged : (empty size).newSize = size := by simp [newSize, empty, totalGrowth]
    rwa [unchanged]
  near := ⟨0, fun c member => nomatch member⟩

theorem Surrounds.lands_caret (surrounds : e.Surrounds pos size own behind) (stop : own.stop = pos)
    (range : e.range = Range.caret (own.start + own.insert.size)) :
    e.Lands (Range.caret pos) size where
  inside set made := by
    have reach := surrounds.reach
    have below : set.mapPos pos .after ≤ set.newSize := mapPos_le made (by omega)
    rw [surrounds.mapPos_eq (Or.inr stop) made] at below
    rw [range]
    exact ⟨below, below⟩
  near := by
    refine ⟨pos, fun c member inserts => ?_⟩
    have empty := inserts.1
    rcases (surrounds.changes c).mp member with rfl | numbers
    · refine ⟨by omega, ?_, ?_⟩ <;> simp [Range.caret, Range.start, Range.stop]
    · have wide := (surrounds.ahead c numbers).2.1
      omega

end RangeEdit

theorem EditState.size_next? {s s' : EditState} {t : Transaction} {changes : List Change}
    (made : ChangeSet.ofChanges changes s.doc.size = .ok t.changes) (next : s.next? t = some s') :
    s'.doc.size = t.changes.newSize := by
  obtain ⟨applied, doc, -⟩ := EditState.next?_changed (ChangeSet.ofChanges_size made) next
  rw [doc]
  exact (ChangeSet.size_applyTo? made applied).1

namespace Transaction

/-- The changes of a transaction are made of a list for a text of `size` bytes, and its selection, if
it has one, of ranges in the changed text. -/
structure Places (t : Transaction) (size : Nat) : Prop where
  made : ∃ changes, ChangeSet.ofChanges changes size = .ok t.changes
  selects : ∀ selection, t.selection = some selection → ∃ ranges main, ranges ≠ [] ∧
    selection = Selection.ofRanges ranges main ∧ ∀ r ∈ ranges, r.Inside t.changes.newSize

variable {s s' : EditState} {t : Transaction} {edits : List RangeEdit} {selection : Selection}

theorem Places.selection_next (places : t.Places s.doc.size)
    (selected : t.selection = some selection) :
    (∀ r ∈ selection.ranges, r.Inside t.changes.newSize) ∧
      selection.clamp t.changes.newSize = selection ∧
      ∀ s', s.next? t = some s' → s'.selection = selection := by
  obtain ⟨changes, made⟩ := places.made
  obtain ⟨ranges, main, given, rfl, inside⟩ := places.selects selection selected
  have kept := Selection.clamp_ofRanges given main inside
  refine ⟨Selection.inside_ofRanges main inside, kept, fun s' next => ?_⟩
  have size := EditState.size_next? made next
  obtain ⟨applied, doc, -⟩ := EditState.next?_changed (ChangeSet.ofChanges_size made) next
  obtain ⟨s'', next', -, selection⟩ :=
    EditState.exists_next? (ChangeSet.ofChanges_size made) applied
  rw [next] at next'
  cases next'
  rw [selection, selected, Option.getD_some]
  rw [doc] at size
  exact (congrArg _ size).trans kept

theorem places_of_none (made : ∃ changes, ChangeSet.ofChanges changes s.doc.size = .ok t.changes)
    (unselected : t.selection = none) : t.Places s.doc.size where
  made := made
  selects selection selected := by
    rw [unselected] at selected
    cases selected

theorem places_ofEdits (reached : s.Reachable) (made : ofEdits s edits = .ok t)
    (lands : List.Forall₂ (fun r e => e.Lands r s.doc.size) s.selection.ranges edits) :
    t.Places s.doc.size := by
  have accepted := ofEdits_ok made
  rw [ofEdits_accepted accepted] at made
  have selects := congrArg Transaction.selection (Except.ok.inj made)
  refine ⟨⟨_, accepted⟩, fun selection selected => ?_⟩
  rw [← selects] at selected
  cases selected
  refine ⟨_, _, ?_, rfl, RangeEdit.inside_carryAll accepted reached.pairwise_apart lands⟩
  intro nothing
  have length := lands.length_eq
  have none_left := congrArg List.length nothing
  rw [carryAll, List.length_map, List.length_zipIdx, ← length] at none_left
  exact reached.selection_sound.nonempty (List.eq_nil_of_length_eq_zero none_left)

theorem places_byRange {edit : Range → Except Refusal RangeEdit} (reached : s.Reachable)
    (made : byRange s edit = .ok t)
    (lands : ∀ r ∈ s.selection.ranges, ∀ e, edit r = .ok e → e.Lands r s.doc.size) :
    t.Places s.doc.size := by
  obtain ⟨edits, each, made⟩ := byRange_edits made
  exact places_ofEdits reached made (forall₂_imp_mem each lands)

end Transaction

namespace MarkPair

variable {s : EditState} {pair : MarkPair} {r : Range} {e : RangeEdit} {ranges : List Range}

theorem unwrapSurrounding?_lands (inside : r.Inside s.doc.size)
    (found : pair.unwrapSurrounding? s r = some e) : e.Lands r s.doc.size := by
  unfold unwrapSurrounding? at found
  dsimp only at found
  split at found
  · split at found
    · cases found
      have order := r.start_le_stop
      have reach := inside.stop_le
      apply RangeEdit.lands_single
      · exact ⟨Nat.le_add_right _ _, Nat.le_refl _⟩
      · dsimp only
        omega
      · dsimp only
        omega
    · cases found
  · cases found

theorem wrap_lands (inside : r.Inside s.doc.size) : (pair.wrap s r).Lands r s.doc.size := by
  have order := r.start_le_stop
  have reach := inside.stop_le
  apply RangeEdit.lands_single
  · simp only [Text.size_append]
    constructor <;> dsimp only <;> omega
  · dsimp only
    omega
  · dsimp only
    omega

theorem Edits.lands (inside : r.Inside s.doc.size) (edits : pair.Edits s r e) :
    e.Lands r s.doc.size := by
  cases edits with
  | surrounding found => exact unwrapSurrounding?_lands inside found
  | handled => exact RangeEdit.lands_nothing inside
  | element _ made =>
    apply RangeEdit.lands_deletions made _ inside
    intro c member
    obtain ⟨mark, _, rfl⟩ := List.mem_map.mp member
    rfl
  | wrapped => exact wrap_lands inside

theorem toggle_places (reached : s.Reachable) (pair : MarkPair) :
    (pair.toggle s).Places s.doc.size := by
  rcases toggle_cases pair s with ⟨edits, each, made⟩ | nothing
  · apply Transaction.places_ofEdits reached made
    exact forall₂_imp_mem each fun r range e edits => edits.lands (reached.coherent.inside r range)
  · rw [nothing]
    exact Transaction.places_of_none ⟨[], ChangeSet.ofChanges_nil _⟩ rfl

end MarkPair

namespace Enter

variable {s : EditState} {r : Range} {x : Site} {e : RangeEdit}

theorem blankLine_lands (coherent : s.Coherent) (sound : x.Sound s) (lineBreak : Text) :
    (x.blankLine lineBreak).Lands (Range.caret x.pos) s.doc.size := by
  obtain ⟨low, high, stop⟩ := coherent.line_span sound.inside
  rw [← sound.line] at low high stop
  have inside := sound.inside
  obtain ⟨insert, shape⟩ : ∃ insert : Text, x.blankLine lineBreak =
      ⟨[⟨x.line.start, x.line.stop, insert⟩],
        Range.caret (x.pos + insert.size - (x.line.stop - x.line.start))⟩ := ⟨_, rfl⟩
  rw [shape]
  constructor
  · intro own made
    have growth := ChangeSet.newSize_single made
    rw [Change.growth] at growth
    dsimp only at growth
    have below : x.pos + insert.size - (x.line.stop - x.line.start) ≤ own.newSize := by omega
    exact ⟨below, below⟩
  · refine ⟨x.line.start, fun c member inserts => ?_⟩
    obtain rfl := List.mem_singleton.mp member
    have empty : x.line.start = x.line.stop := inserts.1
    refine ⟨rfl, ?_, ?_⟩ <;> simp only [Range.caret, Range.start, Range.stop] <;> omega

theorem closeQuote?_lands (inside : x.pos ≤ s.doc.size)
    (made : x.closeQuote? s.doc = some (.ok e)) : e.Lands (Range.caret x.pos) s.doc.size := by
  unfold Site.closeQuote? at made
  dsimp only at made
  split at made
  · split at made
    · rename_i set accepted
      cases made
      apply RangeEdit.lands_deletions accepted _ ⟨inside, inside⟩
      intro c member
      rcases List.mem_cons.mp member with rfl | member
      · rfl
      · rw [List.mem_singleton.mp member]
        rfl
    · cases made
  · cases made

theorem edit_lands (coherent : s.Coherent) (range : r ∈ s.selection.ranges)
    (made : edit s r = .ok e) : e.Lands r s.doc.size := by
  obtain ⟨x, found, made⟩ := edit_ok.mp made
  have sound := site_sound coherent (coherent.inside r range) found
  have caret := site_caret found
  rcases editAt_cases s x with
    ⟨_, _, ⟨item, shown, leave, _⟩ | ⟨blank, _⟩ | ⟨edit, close, closed, _⟩⟩ | ⟨split, _⟩
  · rw [leave] at made
    cases made
    obtain ⟨own, numbers, clears⟩ := leaveItem_clears coherent range found shown
    rw [caret]
    exact clears.surrounds.lands_caret clears.stop clears.range
  · rw [blank] at made
    cases made
    rw [caret]
    exact blankLine_lands coherent sound s.lineBreak
  · rw [closed] at made
    rw [Refusal.ok_of_mapError made] at close
    rw [caret]
    exact closeQuote?_lands sound.inside close
  · rw [split] at made
    obtain ⟨own, numbers, clears⟩ := split_clears coherent range found made
    rw [caret]
    exact clears.surrounds.lands_caret clears.stop clears.range

end Enter

namespace Backspace

variable {s : EditState} {r : Range} {e : RangeEdit}

theorem edit_lands (coherent : s.Coherent) (inside : r.Inside s.doc.size)
    (made : edit s r = .ok e) : e.Lands r s.doc.size := by
  have head := inside.2
  cases edit_makes coherent inside made with
  | takes low high =>
    apply RangeEdit.lands_single
    · exact ⟨Nat.le_refl _, Nat.le_refl _⟩
    · exact Or.inr high
    · intro empty
      dsimp only [Change.delete] at empty
      omega
  | blanks _ _ on _ =>
    have width := on.start_lt
    apply RangeEdit.lands_single
    · exact ⟨Nat.le_refl _, Nat.le_refl _⟩
    · dsimp only
      omega
    · intro empty
      dsimp only at empty
      omega

end Backspace

theorem replaceRanges_places {s : EditState} {t : Text} {offset : Option Nat} {made : Transaction}
    (reached : s.Reachable) (replaced : replaceRanges t offset s = .ok made) :
    made.Places s.doc.size := by
  apply Transaction.places_ofEdits reached replaced
  rw [List.forall₂_map_right_iff, List.forall₂_same]
  intro r range
  have order := r.start_le_stop
  have reach := (reached.coherent.inside r range).stop_le
  apply RangeEdit.lands_single
  · simp only [Range.Inside, Range.caret]
    omega
  · dsimp only
    omega
  · dsimp only
    omega

namespace LeadingMark

theorem toggle_places {s : EditState} (reached : s.Reachable) (mark : LeadingMark) (level : Nat) :
    (mark.toggle level s).Places s.doc.size := by
  have coherent := reached.coherent
  have made := ofChanges_changeLine mark level coherent
  rw [toggle_eq coherent]
  refine ⟨⟨_, made⟩, fun selection selected => ?_⟩
  dsimp only [caret?] at selected
  split at selected
  · rename_i l only
    split at selected
    · rename_i empty
      cases selected
      have below := caret_le_newSize mark level coherent only empty
      refine ⟨[Range.caret (l.start + level + 1)], 0, List.cons_ne_nil _ _,
        (Selection.ofRanges_caret _ _).symm, ?_⟩
      intro r single
      rw [List.mem_singleton.mp single]
      exact ⟨below, below⟩
    · cases selected
  · cases selected

end LeadingMark

namespace ListKind

variable {s : EditState}

theorem exists_toggle_changes (reached : s.Reachable) (kind : ListKind) : ∃ set,
    ChangeSet.ofChanges ((LineGroup.ofState s).map fun g => g.change s kind) s.doc.size = .ok set ∧
      (kind.toggle s).changes = set := by
  obtain ⟨parts, rest, rows, cut⟩ := EditState.exists_parts reached.coherent reached.pairwise_apart
  have made := ofChanges_toggle rows cut kind
  rw [← toggle_changes rows cut reached.coherent] at made
  refine ⟨_, made, ?_⟩
  rw [toggle, made]

theorem toggle_places (reached : s.Reachable) (kind : ListKind) :
    (kind.toggle s).Places s.doc.size := by
  obtain ⟨set, made, changes⟩ := exists_toggle_changes reached kind
  rw [← changes] at made
  obtain ⟨s', _, lists, next, -, spread, -, given, selects, -⟩ := exists_regrouped reached kind
  refine ⟨⟨_, made⟩, fun selection selected => ?_⟩
  rw [selects] at selected
  cases selected
  refine ⟨_, _, given, rfl, ?_⟩
  rw [← EditState.size_next? made next]
  exact spread.inside

end ListKind

namespace Command

variable {s : EditState} {t : Transaction}

theorem compile_places (reached : s.Reachable) {c : Command} (made : c.compile s = .ok t) :
    t.Places s.doc.size := by
  have coherent := reached.coherent
  cases c with
  | enter =>
    exact Transaction.places_byRange reached made fun r range e => Enter.edit_lands coherent range
  | backspace =>
    exact Transaction.places_byRange reached made fun r range e edited =>
      Backspace.edit_lands coherent (coherent.inside r range) (Refusal.ok_of_mapError edited)
  | bold | italic | strikethrough | inlineCode | inlineMath =>
    cases made
    exact MarkPair.toggle_places reached _
  | heading | blockquote =>
    cases made
    exact LeadingMark.toggle_places reached _ _
  | bullet | numbering | todo =>
    cases made
    exact ListKind.toggle_places reached _
  | replace | horizontalRule | codeBlock | mathBlock =>
    exact replaceRanges_places reached (Refusal.ok_of_mapError made)
  | format user =>
    cases made
    obtain ⟨accepted, content⟩ := EditState.ofChanges_format coherent
      s.settings.format.insertFinalNewline s.settings.format.trimTrailingWhitespace user
    rw [content]
    exact Transaction.places_of_none ⟨_, accepted⟩ rfl

theorem exists_compile (reached : s.Reachable) {c : Command}
    (inserts : c = horizontalRule ∨ c = codeBlock ∨ c = mathBlock) :
    ∃ t, c.compile s = .ok t := by
  have replaces : ∀ (text : Text) (offset : Option Nat), text ≠ [] →
      ∃ t, (replaceRanges text offset s).mapError Refusal.declined = .ok t := by
    intro text offset some_text
    obtain ⟨t, made⟩ := exists_replaceRanges reached some_text offset
    exact ⟨t, by rw [made]; rfl⟩
  rcases inserts with rfl | rfl | rfl
  · exact replaces _ _ (by simp)
  · exact replaces _ _ (by simp)
  · exact replaces _ _ (by simp)

/-- No command comes to what it keeps ready for a failure. The changes of the toggles over lines and
of formatting can always be made and are the ones made, a rule or an empty block is never declined,
and the selection of a command lies in the changed text, so that it is not moved back there. -/
theorem fallbacks_unreachable (reached : s.Reachable) :
    (∀ kind : ListKind, ∃ set,
      ChangeSet.ofChanges ((LineGroup.ofState s).map fun g => g.change s kind) s.doc.size =
          .ok set ∧ (kind.toggle s).changes = set) ∧
    (∀ (mark : LeadingMark) level, ∃ set,
      ChangeSet.ofChanges (s.coveredLines.filterMap (mark.changeLine level
          (s.coveredLines.all (mark.atLevel level)) (s.coveredLines.length == 1))) s.doc.size =
          .ok set ∧ (mark.toggle level s).changes = set) ∧
    (∀ final trim user, ∃ set,
      ChangeSet.ofChanges (s.formatChanges final trim user) s.doc.size = .ok set ∧
        formatContent final trim user s = ⟨set, none⟩) ∧
    (∀ c, c = horizontalRule ∨ c = codeBlock ∨ c = mathBlock → ∃ t, c.compile s = .ok t) ∧
    ∀ (c : Command) t selection, c.compile s = .ok t → t.selection = some selection →
      (∀ r ∈ selection.ranges, r.anchor ≤ t.changes.newSize ∧ r.head ≤ t.changes.newSize) ∧
      selection.clamp t.changes.newSize = selection ∧
      ∀ s', s.next? t = some s' → s'.selection = selection := by
  have coherent := reached.coherent
  refine ⟨ListKind.exists_toggle_changes reached, fun mark level => ?_, fun final trim user => ?_,
    fun c => exists_compile reached, fun c t selection made selected => ?_⟩
  · refine ⟨_, LeadingMark.ofChanges_changeLine mark level coherent, ?_⟩
    rw [LeadingMark.toggle_eq coherent]
  · exact ⟨_, EditState.ofChanges_format coherent final trim user⟩
  · exact (compile_places reached made).selection_next selected

def looseEnd : EditState := .ofText ['a', '\n', 'b', ' '] ⟨[⟨0, 1⟩, ⟨4, 4⟩], 1⟩ {}

def emptyBlocks : Transaction :=
  let block : Text := ['\x60', '\x60', '\x60', '\n', '\n', '\x60', '\x60', '\x60']
  ⟨⟨[⟨0, 1, block⟩, ⟨4, 4, block⟩], 4⟩, some ⟨[⟨4, 4⟩, ⟨15, 15⟩], 1⟩⟩

/-- The missing line break goes behind the white space that is trimmed, and both blocks keep their
carets. -/
theorem looseEnd_fallbacks :
    (∃ set, ChangeSet.ofChanges (looseEnd.formatChanges true true true) 4 = .ok set ∧
      set.changes = [.delete 3 4, .insertAt 4 ['\n']]) ∧
    codeBlock.compile looseEnd = .ok emptyBlocks ∧ emptyBlocks.changes.newSize = 19 ∧
    ∃ s', looseEnd.next? emptyBlocks = some s' ∧ s'.selection = ⟨[⟨4, 4⟩, ⟨15, 15⟩], 1⟩ := by
  have reached : looseEnd.Reachable := .ofText _ _ _
  obtain ⟨-, -, formats, -, selects⟩ := fallbacks_unreachable reached
  constructor
  · obtain ⟨set, made, -⟩ := formats true true true
    refine ⟨set, made, ?_⟩
    have found : ChangeSet.ofChanges (looseEnd.formatChanges true true true) 4 =
        .ok ⟨[.delete 3 4, .insertAt 4 ['\n']], 4⟩ := by cbv
    cases found.symm.trans made
    rfl
  · have made : codeBlock.compile looseEnd = .ok emptyBlocks := by cbv
    obtain ⟨-, -, kept⟩ := selects codeBlock _ _ made rfl
    obtain ⟨s', next⟩ : ∃ s', looseEnd.next? emptyBlocks = some s' :=
      Option.isSome_iff_exists.mp (by cbv)
    exact ⟨made, by decide, s', next, kept s' next⟩

end Command

end MarkdownEditing
