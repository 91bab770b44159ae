import Mathlib.Algebra.Order.BigOperators.Group.List
import MarkdownEditing.Proofs.Toggle.Regrouped

namespace MarkdownEditing

namespace LineGroup

variable {s : EditState} {g : LineGroup} {front behind : List LineGroup} {ranges : List Range}
  {p : Nat × Nat} {i : Nat}

theorem width_le (some_range : g.ranges ≠ []) : g.width ≤ g.ranges.length := by
  rw [width]
  split
  · exact Nat.le_refl _
  · exact List.length_pos_of_ne_nil some_range

theorem sum_width_le (tight : ∀ g ∈ front, g.Tight s) :
    (front.map width).sum ≤ (front.flatMap LineGroup.ranges).length := by
  rw [List.length_flatMap]
  exact List.sum_le_sum fun g member => width_le (tight g member).some_range

theorem sum_width_eq_zero_iff (tight : ∀ g ∈ behind, g.Tight s) :
    (behind.map width).sum = 0 ↔ behind = [] := by
  constructor
  · intro none_left
    by_contra some_group
    obtain ⟨g, member⟩ := List.exists_mem_of_ne_nil _ some_group
    have positive := width_pos (tight g member).some_range
    have zero := List.sum_eq_zero_iff.mp none_left g.width (List.mem_map_of_mem member)
    omega
  · rintro rfl
    rfl

/-- A range of a group has a place behind those of the groups in front. -/
theorem le_of_getElem? {r : Range} (grouped : Grouped s ranges (front ++ g :: behind))
    (distinct : ranges.Nodup) (held : r ∈ g.ranges) (found : ranges[i]? = some r) :
    (front.map width).sum ≤ i := by
  have widths := sum_width_le fun h member => grouped.tight h (List.mem_append_left _ member)
  have parts := grouped.ranges
  rw [List.flatMap_append, List.flatMap_cons] at parts
  refine widths.trans (Nat.le_of_not_lt fun before => ?_)
  rw [← parts] at found distinct
  rw [List.getElem?_append_left before] at found
  exact (List.nodup_append.mp distinct).2.2 r (List.mem_of_getElem? found) r
    (List.mem_append_left _ held) rfl

theorem span_eq_iff (grouped : Grouped s ranges (front ++ g :: behind))
    (low : (front.map width).sum ≤ i)
    (found : ((front ++ g :: behind).flatMap fun g => List.replicate g.width g.span)[i]? = some p) :
    p = g.span ↔ i < (front.map width).sum + g.width := by
  have length : (front.flatMap fun g => List.replicate g.width g.span).length =
      (front.map width).sum := by
    rw [List.length_flatMap]
    simp only [List.length_replicate]
  rw [List.flatMap_append, List.getElem?_append_right (length ▸ low), length,
    List.flatMap_cons] at found
  by_cases inside : i < (front.map width).sum + g.width
  · rw [List.getElem?_append_left (by rw [List.length_replicate]; omega)] at found
    exact iff_of_true (List.eq_of_mem_replicate (List.mem_of_getElem? found)) inside
  · refine iff_of_false ?_ inside
    rintro rfl
    rw [List.getElem?_append_right (by rw [List.length_replicate]; omega)] at found
    obtain ⟨h, member, copied⟩ := List.mem_flatMap.mp (List.mem_of_getElem? found)
    have same := congrArg Prod.fst (List.eq_of_mem_replicate copied)
    have below := List.rel_of_pairwise_cons (List.pairwise_append.mp grouped.apart).2.1 member
    have forward := (grouped.tight g (by simp)).forward
    rw [span, span] at same
    omega

/-- The main range is on the lines of a span exactly if the range that it is chosen for is. -/
theorem within_mainRange_iff {spans : List (Nat × Nat)} (coherent : s.Coherent)
    (apart : spans.Pairwise fun p q => p.2 < q.1) (spread : Spread s spans ranges)
    {main : Nat} {chosen : Range} (found : ranges[min main (ranges.length - 1)]? = some chosen)
    (member : s.lineSpan chosen ∈ spans) (span : p ∈ spans) :
    Within (s.lineSpan (Selection.ofRanges ranges main).mainRange) p ↔ s.lineSpan chosen = p := by
  have given := List.ne_nil_of_mem (List.mem_of_getElem? found)
  obtain ⟨kept, contains⟩ := Selection.contains_mainRange found
  have merged := spread.ofRanges apart coherent given main
  obtain ⟨q, span', within⟩ := merged.within _ kept
  have inside := (merged.inside _ kept).stop_le
  have inside' := (spread.inside chosen (List.mem_of_getElem? found)).stop_le
  have forward := coherent.number_lineAt_mono chosen.start_le_stop inside'
  have low := coherent.number_lineAt_mono contains.1 (chosen.start_le_stop.trans inside')
  have high := coherent.number_lineAt_mono contains.2 inside
  simp only [Within, EditState.lineSpan] at within ⊢
  have same : s.lineSpan chosen = q := by
    refine eq_of_meet apart member span' ?_ ?_ <;> dsimp only [EditState.lineSpan] <;> omega
  constructor
  · intro keeps
    refine eq_of_meet apart member span ?_ ?_ <;> dsimp only [EditState.lineSpan] <;> omega
  · intro here
    have meets : q = p := same.symm.trans here
    rwa [← meets]

end LineGroup

namespace ListKind

open LineGroup

/-- After a list style is toggled, the main range is on the lines of the group that it was in exactly
if that is the last group or the place of the main range is not beyond the ranges that this group
and those in front of it have now. -/
theorem main_stays_iff {s : EditState} (reached : s.Reachable) (kind : ListKind) :
    ∃ s', s.next? (kind.toggle s) = some s' ∧ ∀ front g behind,
      LineGroup.ofState s = front ++ g :: behind → s.selection.mainRange ∈ g.ranges →
        (Within (s'.lineSpan s'.selection.mainRange) g.span ↔
          behind = [] ∨ s.selection.main < (front.map width).sum + g.width) := by
  obtain ⟨s', _, lists, next, -, spread, spans, -, -, selection⟩ := exists_regrouped reached kind
  generalize lists.flatten = ranges at spread spans selection
  have coherent' := (reached.next next).coherent
  have grouped := grouped_ofState reached.coherent reached.pairwise_apart
  have apart := grouped.spans_pairwise
  refine ⟨s', next, fun front g behind groups held => ?_⟩
  have on_group : ∀ q ∈ ranges, s'.lineSpan q ∈ (LineGroup.ofState s).map span := fun q =>
    lineSpan_mem spans
  rw [groups] at grouped spans
  have main_in := reached.selection_sound.getElem?_main
  rw [selection]
  generalize s.selection.main = main at main_in
  have distinct : s.selection.ranges.Nodup := reached.pairwise_apart.imp fun {a b} free => by
    rintro rfl
    exact Std.Irrefl.irrefl (r := Range.Apart) a free
  have low := le_of_getElem? grouped distinct held main_in
  have positive := width_pos (grouped.tight g (by simp)).some_range
  have length : ranges.length = (front.map width).sum + (g.width + (behind.map width).sum) := by
    have lengths := congrArg List.length spans
    simpa [List.length_flatMap] using lengths
  have ends : (behind.map width).sum = 0 ↔ behind = [] :=
    sum_width_eq_zero_iff fun h member => grouped.tight h (by simp [member])
  obtain ⟨chosen, found⟩ : ∃ chosen, ranges[min main (ranges.length - 1)]? = some chosen :=
    ⟨_, List.getElem?_eq_getElem (by omega)⟩
  have place : s'.lineSpan chosen = g.span ↔ _ :=
    span_eq_iff (i := min main (ranges.length - 1)) grouped (by omega) (by
      rw [← spans, List.getElem?_map, found, Option.map_some])
  have group : g.span ∈ (LineGroup.ofState s).map span := by
    rw [groups]
    exact List.mem_map_of_mem (by simp)
  rw [within_mainRange_iff coherent' apart spread found
    (on_group chosen (List.mem_of_getElem? found)) group, place, ← ends]
  omega

def twoOnOneLine : EditState :=
  .ofText ['a', '\n', 'b', '\n', 'c', '\n', 'd'] ⟨[⟨0, 0⟩, ⟨1, 1⟩, ⟨2, 4⟩, ⟨6, 6⟩], 2⟩ {}

theorem twoOnOneLine_main_stays : ∃ s',
    twoOnOneLine.next? (ListKind.bullet.toggle twoOnOneLine) = some s' ∧
      Within (s'.lineSpan s'.selection.mainRange) (2, 3) := by
  have groups : LineGroup.ofState twoOnOneLine =
      [⟨1, 1, [⟨0, 0⟩, ⟨1, 1⟩]⟩] ++ ⟨2, 3, [⟨2, 4⟩]⟩ :: [⟨4, 4, [⟨6, 6⟩]⟩] := by cbv
  have main : twoOnOneLine.selection.mainRange = ⟨2, 4⟩ ∧ twoOnOneLine.selection.main = 2 := by cbv
  have reached : twoOnOneLine.Reachable := .ofText _ _ _
  obtain ⟨s', next, stays⟩ := main_stays_iff reached .bullet
  refine ⟨s', next, (stays _ _ _ groups ?_).mpr (Or.inr ?_)⟩
  · rw [main.1]
    exact List.mem_cons_self
  · rw [main.2]
    decide

def twoOnTwoLines : EditState :=
  .ofText ['a', '\n', 'b', '\n', 'c'] ⟨[⟨0, 2⟩, ⟨3, 3⟩, ⟨4, 4⟩], 1⟩ {}

/-- The first two lines end up with one range, and the main range goes to the last line. -/
theorem main_leaves_lines : ∃ s',
    twoOnTwoLines.next? (ListKind.bullet.toggle twoOnTwoLines) = some s' ∧
    LineGroup.ofState twoOnTwoLines = [⟨1, 2, [⟨0, 2⟩, ⟨3, 3⟩]⟩, ⟨3, 3, [⟨4, 4⟩]⟩] ∧
    twoOnTwoLines.selection.mainRange = ⟨3, 3⟩ ∧
    s'.text = ['-', ' ', 'a', '\n', '-', ' ', 'b', '\n', '-', ' ', 'c'] ∧
    s'.selection = ⟨[⟨0, 7⟩, ⟨10, 10⟩], 1⟩ ∧
    ¬Within (s'.lineSpan s'.selection.mainRange) (1, 2) := by
  have toggled : (twoOnTwoLines.next? (ListKind.bullet.toggle twoOnTwoLines)).map
      (fun s' => (s'.text, s'.selection, s'.lineSpan s'.selection.mainRange)) =
        some (['-', ' ', 'a', '\n', '-', ' ', 'b', '\n', '-', ' ', 'c'],
          ⟨[⟨0, 7⟩, ⟨10, 10⟩], 1⟩, (3, 3)) := by cbv
  obtain ⟨s', next, found⟩ := Option.map_eq_some_iff.mp toggled
  simp only [Prod.mk.injEq] at found
  obtain ⟨text, selection, span⟩ := found
  refine ⟨s', next, by cbv, by cbv, text, selection, ?_⟩
  rw [span]
  exact fun within => absurd within.2 (by decide)

end ListKind

end MarkdownEditing
