import Mathlib.Data.List.Sort
import MarkdownEditing.Proofs.Toggle.Groups
import MarkdownEditing.Proofs.Edit.Merging

namespace MarkdownEditing

namespace LineGroup

variable {s : EditState} {g group : LineGroup} {p q : Nat × Nat} {spans : List (Nat × Nat)}
  {ranges rest : List Range} {a b : Range}

def Within (p q : Nat × Nat) : Prop := q.1 ≤ p.1 ∧ p.2 ≤ q.2

/-- Ranges of which each keeps to the lines of one span, and some have all lines of a span. -/
structure Spread (s : EditState) (spans : List (Nat × Nat)) (ranges : List Range) : Prop where
  inside : ∀ r ∈ ranges, r.Inside s.doc.size
  within : ∀ r ∈ ranges, ∃ p ∈ spans, Within (s.lineSpan r) p
  reached : ∀ p ∈ spans, ∃ r ∈ ranges, s.lineSpan r = p

section Apart

variable (apart : spans.Pairwise fun p q => p.2 < q.1)

include apart

theorem eq_of_meet (first : p ∈ spans) (second : q ∈ spans) (below : p.1 ≤ q.2) (above : q.1 ≤ p.2) :
    p = q := by
  induction spans with
  | nil => cases first
  | cons span spans ih =>
    rcases List.mem_cons.mp first with here | first <;>
      rcases List.mem_cons.mp second with here' | second
    · rw [here, here']
    · have order := List.rel_of_pairwise_cons apart second
      rw [← here] at order
      omega
    · have order := List.rel_of_pairwise_cons apart first
      rw [← here'] at order
      omega
    · exact ih apart.of_cons first second

section Lines

variable (coherent : s.Coherent)

include coherent

theorem within_merge (order : a.start ≤ b.start) (joined : a.joins b = true)
    (first : a.Inside s.doc.size ∧ ∃ p ∈ spans, Within (s.lineSpan a) p)
    (second : b.Inside s.doc.size ∧ ∃ p ∈ spans, Within (s.lineSpan b) p) :
    (a.merge b).Inside s.doc.size ∧ ∃ p ∈ spans, Within (s.lineSpan (a.merge b)) p := by
  obtain ⟨inside, p, member, within⟩ := first
  obtain ⟨inside', q, member', within'⟩ := second
  have meets : b.start ≤ a.stop := by
    rw [Range.joins_iff] at joined
    omega
  have down := coherent.number_lineAt_mono order (Nat.le_trans b.start_le_stop inside'.stop_le)
  have up := coherent.number_lineAt_mono meets inside.stop_le
  have same : p = q := by
    have forward := coherent.number_lineAt_mono b.start_le_stop inside'.stop_le
    simp only [Within, EditState.lineSpan] at within within'
    exact eq_of_meet apart member member' (by omega) (by omega)
  refine ⟨inside.merge inside', p, member, ?_⟩
  rw [← same] at within'
  rw [Within, EditState.lineSpan, Range.start_merge, Range.stop_merge]
  refine ⟨within.1, ?_⟩
  rcases Nat.le_total a.stop b.stop with below | above
  · rw [Nat.max_eq_right below]
    exact within'.2
  · rw [Nat.max_eq_left above]
    exact within.2

/-- Merging ranges keeps them spread over the spans. -/
theorem Spread.ofRanges (spread : Spread s spans ranges) (given : ranges ≠ []) (main : Nat) :
    Spread s spans (Selection.ofRanges ranges main).ranges := by
  have kept := Selection.forall_ofRanges main (P := fun r => r.Inside s.doc.size ∧
    ∃ p ∈ spans, Within (s.lineSpan r) p)
    (fun a b order joined => within_merge apart coherent order joined) given
    fun r member => ⟨spread.inside r member, spread.within r member⟩
  refine ⟨fun r member => (kept r member).1, fun r member => (kept r member).2, fun p member => ?_⟩
  obtain ⟨r, given, reaches⟩ := spread.reached p member
  obtain ⟨q, made, contains⟩ := Selection.contains_ofRanges main given
  obtain ⟨inside, p', member', within⟩ := kept q made
  have forward := coherent.number_lineAt_mono r.start_le_stop (spread.inside r given).stop_le
  have low := coherent.number_lineAt_mono contains.1
    (Nat.le_trans r.start_le_stop (spread.inside r given).stop_le)
  have high := coherent.number_lineAt_mono contains.2 inside.stop_le
  have first : (s.doc.lineAt r.start).number = p.1 := congrArg Prod.fst reaches
  have last : (s.doc.lineAt r.stop).number = p.2 := congrArg Prod.snd reaches
  simp only [Within, EditState.lineSpan] at within
  have same : p = p' := eq_of_meet apart member member' (by omega) (by omega)
  refine ⟨q, made, ?_⟩
  rw [← same] at within
  exact Prod.ext (by dsimp only [EditState.lineSpan]; omega) (by dsimp only [EditState.lineSpan]; omega)

end Lines

theorem within_gather (group_in : ∃ p ∈ spans, Within group.span p)
    (stacked : Stacked s rest) (behind : ∀ r ∈ rest, group.last ≤ (s.lineSpan r).1)
    (forward : group.first ≤ group.last)
    (within : ∀ r ∈ rest, ∃ p ∈ spans, Within (s.lineSpan r) p) :
    ∀ g ∈ gather s group rest, ∃ p ∈ spans, Within g.span p := by
  induction rest generalizing group with
  | nil =>
    intro g member
    rw [List.mem_singleton.mp member]
    exact group_in
  | cons r rest ih =>
    have onward := stacked.forward r List.mem_cons_self
    have later := stacked.of_cons
    have further := stacked.forall_le
    have first := behind r List.mem_cons_self
    rw [List.forall_mem_cons] at within
    obtain ⟨p, member, kept⟩ := group_in
    obtain ⟨q, member', kept'⟩ := within.1
    simp only [gather]
    split
    · rename_i meets
      have same : p = q := by
        simp only [Within, span] at kept kept'
        exact eq_of_meet apart member member' (by omega) (by omega)
      refine ih ⟨p, member, ?_⟩ later (fun q member => ?_) (by dsimp only; omega) within.2
      · rw [← same] at kept'
        exact ⟨kept.1, Nat.max_le.mpr ⟨kept.2, kept'.2⟩⟩
      · exact Nat.max_le.mpr ⟨behind q (List.mem_cons_of_mem _ member), further q member⟩
    · exact List.forall_mem_cons.mpr ⟨⟨p, member, kept⟩,
        ih ⟨q, member', kept'⟩ later further onward within.2⟩

end Apart

section Selection

variable (coherent : s.Coherent)

include coherent

theorem Spread.span_forward (spread : Spread s spans ranges) (member : p ∈ spans) : p.1 ≤ p.2 := by
  obtain ⟨r, held, rfl⟩ := spread.reached p member
  exact coherent.number_lineAt_mono r.start_le_stop (spread.inside r held).stop_le

variable (separate : s.selection.ranges.Pairwise Range.Apart)
  (apart : spans.Pairwise fun p q => p.2 < q.1) (spread : Spread s spans s.selection.ranges)

include separate apart spread

theorem within_ofState : ∀ g ∈ ofState s, ∃ p ∈ spans, Within g.span p := by
  have stacked := stacked_of_apart coherent separate
  have each := spread.within
  unfold ofState
  cases ranges : s.selection.ranges with
  | nil => exact fun g member => nomatch member
  | cons r rest =>
    rw [ranges] at stacked each
    rw [List.forall_mem_cons] at each
    exact within_gather apart each.1 stacked.of_cons stacked.forall_le
      (stacked.forward r List.mem_cons_self) each.2

theorem exists_group (member : p ∈ spans) : ∃ g ∈ ofState s, g.span = p := by
  have grouped := grouped_ofState coherent separate
  have forward := spread.span_forward coherent member
  obtain ⟨r, held, reaches⟩ := spread.reached p member
  rw [← grouped.ranges] at held
  obtain ⟨g, group, held⟩ := List.mem_flatMap.mp held
  obtain ⟨q, member', kept⟩ := within_ofState coherent separate apart spread g group
  have tight := grouped.tight g group
  have lines := tight.inside r held
  have order := tight.forward
  rw [reaches] at lines
  simp only [Within, span] at kept
  have same : p = q := eq_of_meet apart member member' (by omega) (by omega)
  rw [← same] at kept
  refine ⟨g, group, Prod.ext ?_ ?_⟩ <;> dsimp only [span] <;> omega

/-- The groups of a selection that is spread over spans have just these spans. -/
theorem map_span_ofState : (ofState s).map span = spans := by
  have grouped := grouped_ofState coherent separate
  have forward : ∀ g ∈ ofState s, g.first ≤ g.last := fun g group => (grouped.tight g group).forward
  have members : ∀ p, p ∈ (ofState s).map span ↔ p ∈ spans := by
    intro p
    constructor
    · intro member
      obtain ⟨g, group, rfl⟩ := List.mem_map.mp member
      obtain ⟨q, member', kept⟩ := within_ofState coherent separate apart spread g group
      obtain ⟨g', group', rfl⟩ := exists_group coherent separate apart spread member'
      have order := forward g group
      simp only [Within, span] at kept
      have same : g.span = g'.span := by
        apply eq_of_meet grouped.spans_pairwise (List.mem_map_of_mem group)
          (List.mem_map_of_mem group') <;> dsimp only [span] <;> omega
      rw [same]
      exact member'
    · intro member
      obtain ⟨g, group, rfl⟩ := exists_group coherent separate apart spread member
      exact List.mem_map_of_mem group
  -- both lists are in the order of the first lines
  have irrefl : Std.Irrefl fun p q : Nat × Nat => p.1 < q.1 := ⟨fun p => Nat.lt_irrefl p.1⟩
  have antisymm : Std.Antisymm fun p q : Nat × Nat => p.1 < q.1 :=
    ⟨fun p q first second => absurd first (Nat.lt_asymm second)⟩
  have groups_ordered : ((ofState s).map span).Pairwise fun p q => p.1 < q.1 :=
    List.pairwise_map.mpr (grouped.apart.imp_of_mem fun {g h} first _ below =>
      Nat.lt_of_le_of_lt (forward g first) below)
  have spans_ordered : spans.Pairwise fun p q => p.1 < q.1 :=
    apart.imp_of_mem fun {p q} first _ below =>
      Nat.lt_of_le_of_lt (spread.span_forward coherent first) below
  exact List.Pairwise.eq_of_mem_iff groups_ordered spans_ordered members

end Selection

end LineGroup

end MarkdownEditing
