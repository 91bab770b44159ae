import MarkdownEditing.Proofs.Edit.Accepted
import MarkdownEditing.Proofs.Edit.Mapping

namespace MarkdownEditing

theorem Selection.ranges_ofRanges_single (r : Range) (main : Nat) :
    (Selection.ofRanges [r] main).ranges = [r] := by
  simp [ofRanges, mergeInto]

theorem Selection.ofRanges_caret (pos main : Nat) :
    Selection.ofRanges [Range.caret pos] main = Selection.caret pos := by
  simp [ofRanges, mergeInto, caret]

theorem ChangeSet.applyTo?_replace (a m b insert : Text) :
    (⟨[⟨a.size, a.size + m.size, insert⟩], (a ++ m ++ b).size⟩ : ChangeSet).applyTo?
      (a ++ m ++ b) = some (a ++ insert ++ b) := by
  have front := gap?_middle [] a (m ++ b)
  have back := gap?_middle (a ++ m) b []
  rw [Text.size_nil, Nat.zero_add, List.nil_append, ← List.append_assoc] at front
  rw [List.append_nil, ← Text.size_append, Text.size_append a m] at back
  simp only [applyTo?, applyFrom?, front, back, Option.bind_eq_bind, Option.bind_some, pure]

theorem ChangeSet.ofChanges_of_before {changes : List Change} {size : Nat}
    (apart : changes.Pairwise Change.Before)
    (inside : ∀ c ∈ changes, c.start ≤ c.stop ∧ c.stop ≤ size) :
    ofChanges changes size = .ok ⟨changes.filter (!·.isNoop), size⟩ := by
  apply ofChanges_of_mem (apart.filter _)
  · exact fun c member => inside c (List.mem_filter.mp member).1
  · intro c
    rw [List.mem_filter, Bool.not_eq_true']

namespace RangeEdit

variable {e : RangeEdit} {own : Change} {behind : List Change} {pos size : Nat}

/-- A caret that is edited alone ends up where its edit puts it. -/
theorem carry_alone (caret : e.range = Range.caret pos)
    (size : Nat) : e.carry [] size = Range.caret pos := by
  unfold carry
  rw [caret]
  split
  · rfl
  · split
    · rfl
    · rename_i shifted made
      obtain ⟨none_made, _⟩ := ChangeSet.ofChanges_ok made
      have empty : shifted.changes = [] := by
        simpa [others, ChangeSet.dropRepeats] using none_made
      simp [Range.map, Range.isCaret, Range.caret, ChangeSet.mapPos, empty, ChangeSet.mapFrom]

/-- An edit of a change around the offset `pos` and of changes behind that. -/
structure Surrounds (e : RangeEdit) (pos size : Nat) (own : Change) (behind : List Change) :
    Prop where
  changes : ∀ c, c ∈ e.changes ↔ c = own ∨ c ∈ behind
  low : own.start ≤ pos
  high : pos ≤ own.stop
  reach : own.stop ≤ size
  ahead : ∀ c ∈ behind, own.stop ≤ c.start ∧ c.start < c.stop ∧ c.stop ≤ size
  apart : behind.Pairwise Change.Before

namespace Surrounds

variable (surrounds : e.Surrounds pos size own behind)

include surrounds

theorem ofChanges_eq :
    ChangeSet.ofChanges e.changes size = .ok ⟨(own :: behind).filter (!·.isNoop), size⟩ := by
  have low := surrounds.low
  have high := surrounds.high
  have apart : (own :: behind).Pairwise Change.Before := by
    refine List.pairwise_cons.mpr ⟨fun c member => ?_, surrounds.apart⟩
    have ahead := surrounds.ahead c member
    rw [Change.Before]
    omega
  apply ChangeSet.ofChanges_of_mem (apart.filter _)
  · intro c member
    rcases List.mem_cons.mp (List.mem_filter.mp member).1 with rfl | member
    · exact ⟨Nat.le_trans low high, surrounds.reach⟩
    · have ahead := surrounds.ahead c member
      exact ⟨Nat.le_of_lt ahead.2.1, ahead.2.2⟩
  · intro c
    rw [List.mem_filter, Bool.not_eq_true', List.mem_cons, surrounds.changes c]

/-- An offset inside the change goes to the end of the text put in there. -/
theorem mapPos_eq (touch : own.start < pos ∨ own.stop = pos) {set : ChangeSet}
    (made : ChangeSet.ofChanges e.changes size = .ok set) :
    set.mapPos pos .after = own.start + own.insert.size := by
  have low := surrounds.low
  have high := surrounds.high
  rw [surrounds.ofChanges_eq] at made
  cases made
  have later : ∀ shift : Int, ChangeSet.mapFrom pos .after shift (behind.filter (!·.isNoop)) =
      (pos + shift).toNat := by
    intro shift
    refine ChangeSet.mapFrom_ahead fun c member => ?_
    have ahead := surrounds.ahead c (List.mem_filter.mp member).1
    omega
  rw [ChangeSet.mapPos, List.filter_cons]
  split
  · have forward : own.start ≤ own.stop := Nat.le_trans low high
    have growth := Change.growth_eq forward
    rcases ChangeSet.mapFrom_cons pos .after 0 own (behind.filter (!·.isNoop)) with
      ⟨before, _⟩ | ⟨_, inside, image⟩ | ⟨_, passed, _, image⟩
    · omega
    · have short : pos < own.stop := by simpa using inside
      have other : pos ≠ own.start := by omega
      rw [image, if_neg (by simpa using other)]
      omega
    · rw [image, later]
      omega
  · rename_i noop
    rw [later]
    simp only [Change.isNoop, Bool.not_eq_true', Bool.not_eq_false, Bool.and_eq_true, beq_iff_eq,
      List.isEmpty_iff] at noop
    rw [noop.2, Text.size_nil]
    omega

end Surrounds

end RangeEdit

namespace Transaction

variable {s : EditState} {r : Range} {edit : Range → Except Refusal RangeEdit} {e : RangeEdit}
  {set : ChangeSet} {target : Nat}

theorem byRange_refused {why : Refusal} (only : s.selection.ranges = [r])
    (refused : edit r = .error why) : byRange s edit = .error why := by
  simp only [byRange, only, List.mapM_cons, refused]
  rfl

theorem byRange_caret (only : s.selection.ranges = [r]) (edited : edit r = .ok e)
    (accepted : ChangeSet.ofChanges e.changes s.doc.size = .ok set)
    (caret : e.range = Range.caret target) :
    byRange s edit = .ok ⟨set, some (Selection.caret target)⟩ := by
  have single : [e].flatMap RangeEdit.changes = e.changes := by
    rw [List.flatMap_singleton]
  have carried : carryAll [e] s.doc.size = [Range.caret target] := by
    simp [carryAll, RangeEdit.carry_alone caret]
  simp only [byRange, only, List.mapM_cons, List.mapM_nil, edited]
  change (ofEdits s [e]).mapError Refusal.declined = _
  rw [ofEdits, single, accepted, carried, Selection.ofRanges_caret]
  rfl

end Transaction

end MarkdownEditing
