import Mathlib.Data.Finset.Sort
import MarkdownEditing.Proofs.Markup.Counted

namespace MarkdownEditing

namespace Enter

variable {s s' : EditState} {tr : Transaction} {x y : Site} {p q list : Place} {m n : Nat}

/-- Where the items of a list begin after Enter: the ones it had are carried along, and the mark of
a new one ends what its caret puts in. -/
inductive Mark (s : EditState) (tr : Transaction) (list : Place) : Nat → Prop where
  | old {p : Place} (member : p ∈ list.items) : Mark s tr list (tr.changes.mapPos p.start .after)
  | new {p : Place} {x : Site} (member : p ∈ list.items) (here : x.At s p)
      (fresh : x.isContinued = false) :
      Mark s tr list (tr.changes.mapPos x.pos .after - (x.inner.marker s.doc 1).size)

section Positions

open Classical in
noncomputable def freshAt (s : EditState) (p : Place) : List Nat :=
  ((s.selection.ranges.map (·.head)).toFinset.filter fun n =>
    ∃ x : Site, x.At s p ∧ x.isContinued = false ∧ x.pos = n).sort (· ≤ ·)

open Classical in
theorem mem_freshAt :
    n ∈ freshAt s p ↔ ∃ x : Site, x.At s p ∧ x.isContinued = false ∧ x.pos = n := by
  rw [freshAt, Finset.mem_sort, Finset.mem_filter, List.mem_toFinset, List.mem_map]
  refine and_iff_right_of_imp ?_
  rintro ⟨x, here, _, rfl⟩
  obtain ⟨r, range, found⟩ := here.caret
  exact ⟨r, range, (site_pos found).symm⟩

theorem freshAt_sorted (s : EditState) (p : Place) : (freshAt s p).Pairwise (· < ·) := by
  unfold freshAt
  exact (Finset.sortedLT_sort _).pairwise

def markerSize (s : EditState) (p : Place) : Nat :=
  ((Frame.ofNode? p s.doc).map fun f => (f.marker s.doc 1).size).getD 0

theorem At.markerSize (coherent : s.Coherent) (here : x.At s p) {digits : Text} {glyph : Char}
    (numbered : p.IsNumbered digits glyph) :
    markerSize s p = (x.inner.marker s.doc 1).size := by
  rw [Enter.markerSize, (At.frame_of_item coherent here numbered).1]
  rfl

noncomputable def itemMarks (s : EditState) (tr : Transaction) (p : Place) : List Nat :=
  tr.changes.mapPos p.start .after ::
    (freshAt s p).map fun n => tr.changes.mapPos n .after - markerSize s p

theorem mem_itemMarks (coherent : s.Coherent) {digits : Text} {glyph : Char}
    (numbered : p.IsNumbered digits glyph) :
    m ∈ itemMarks s tr p ↔ m = tr.changes.mapPos p.start .after ∨
      ∃ x : Site, x.At s p ∧ x.isContinued = false ∧
        m = tr.changes.mapPos x.pos .after - (x.inner.marker s.doc 1).size := by
  rw [itemMarks, List.mem_cons, List.mem_map]
  refine or_congr Iff.rfl ⟨?_, ?_⟩
  · rintro ⟨n, position, rfl⟩
    obtain ⟨x, here, fresh, rfl⟩ := mem_freshAt.mp position
    exact ⟨x, here, fresh, by rw [At.markerSize coherent here numbered]⟩
  · rintro ⟨x, here, fresh, rfl⟩
    refine ⟨x.pos, mem_freshAt.mpr ⟨x, here, fresh, rfl⟩, ?_⟩
    rw [At.markerSize coherent here numbered]

end Positions

section Order

variable (splits : SplitsLines s tr) (inside : list.In (Tree.ofText s.text))
  (ordered : list.kind = .orderedList)

include splits inside ordered

theorem mem_marks : m ∈ list.items.flatMap (itemMarks s tr) ↔ Mark s tr list m := by
  rw [List.mem_flatMap]
  constructor
  · rintro ⟨p, member, mark⟩
    obtain ⟨_, digits, glyph, numbered⟩ := inside.numbered_of_mem_items ordered member
    rcases (mem_itemMarks splits.coherent numbered).mp mark with rfl | ⟨x, here, fresh, rfl⟩
    · exact .old member
    · exact .new member here fresh
  · rintro (member | ⟨member, here, fresh⟩)
    · exact ⟨_, member, List.mem_cons_self⟩
    · obtain ⟨_, digits, glyph, numbered⟩ := inside.numbered_of_mem_items ordered member
      exact ⟨_, member, (mem_itemMarks splits.coherent numbered).mpr (Or.inr ⟨_, here, fresh, rfl⟩)⟩

theorem lt_new_mark (member : p ∈ list.items) (here : x.At s p) (fresh : x.isContinued = false)
    (before : n ≤ x.trimStop) (less : n < x.pos) :
    tr.changes.mapPos n .after + (x.inner.marker s.doc 1).size <
      tr.changes.mapPos x.pos .after := by
  obtain ⟨_, digits, glyph, k, numbered, _, read, _⟩ := item_facts inside ordered member
  obtain ⟨change, _, room⟩ := new_item splits inside ordered member here fresh numbered read
  obtain ⟨⟨changes, accepted⟩, _⟩ := splits.applied_changes
  have further := ChangeSet.mapFrom_insert 0 (ChangeSet.ofChanges_follows accepted) change
    (Nat.zero_le n) before less (by decide)
  change tr.changes.mapPos n .after + _ ≤ tr.changes.mapPos x.pos .after at further
  omega

theorem trimStop_facts (member : p ∈ list.items) (here : x.At s p) (fresh : x.isContinued = false) :
    p.start < x.trimStop ∧ x.trimStop ≤ x.pos ∧ x.pos ≤ p.stop ∧
      ∀ y : Site, y.At s p → y.isContinued = false → y.pos < x.pos → y.pos ≤ x.trimStop := by
  obtain ⟨p_inside, digits, glyph, k, numbered, _, read, _⟩ := item_facts inside ordered member
  have kept : ∀ y : Site, y.At s p → y.trimStop ≤ y.pos ∧
      (y.pos ≤ p.start ∨ p.start + (digits.size + 1) ≤ y.trimStop) := by
    intro y there
    obtain ⟨r, range, found⟩ := there.caret
    exact splits.keeps_mark range found numbered p_inside
  obtain ⟨trimmed, mark⟩ := kept x here
  obtain ⟨_, begins, ends⟩ := At.frame_of_item splits.coherent here numbered
  refine ⟨by omega, trimmed, ends, fun y there fresh' less => ?_⟩
  obtain ⟨change, _⟩ := new_item splits inside ordered member here fresh numbered read
  obtain ⟨change', _⟩ := new_item splits inside ordered member there fresh' numbered read
  obtain ⟨_, apart⟩ := splits.applied_changes
  have separate : tr.changes.changes.Pairwise Change.Separate :=
    apart.imp fun before => Or.inr (Or.inl before)
  rcases Change.separate_of_pairwise separate change' change with
    same | ⟨before, _⟩ | ⟨behind, _⟩
  · have stops := congrArg Change.stop same
    simp only [Site.lineSplit] at stops
    omega
  · exact before
  · have trimmed' := (kept y there).1
    simp only [Site.lineSplit] at behind
    omega

theorem start_lt_new_mark (member : p ∈ list.items) (here : x.At s p)
    (fresh : x.isContinued = false) :
    tr.changes.mapPos p.start .after <
      tr.changes.mapPos x.pos .after - (x.inner.marker s.doc 1).size := by
  obtain ⟨begins, trimmed, _⟩ := trimStop_facts splits inside ordered member here fresh
  have room := lt_new_mark splits inside ordered member here fresh (Nat.le_of_lt begins) (by omega)
  omega

theorem itemMarks_sorted (member : p ∈ list.items) : (itemMarks s tr p).Pairwise (· < ·) := by
  obtain ⟨p_inside, digits, glyph, k, numbered, _⟩ := item_facts inside ordered member
  rw [itemMarks, List.pairwise_cons, List.forall_mem_map, List.pairwise_map]
  constructor
  · intro n position
    obtain ⟨x, here, fresh, rfl⟩ := mem_freshAt.mp position
    rw [At.markerSize splits.coherent here numbered]
    exact start_lt_new_mark splits inside ordered member here fresh
  · refine (freshAt_sorted s p).imp_of_mem fun {n k} first second less => ?_
    obtain ⟨y, there, fresh', rfl⟩ := mem_freshAt.mp first
    obtain ⟨x, here, fresh, rfl⟩ := mem_freshAt.mp second
    rw [At.markerSize splits.coherent here numbered]
    obtain ⟨_, _, _, reach⟩ := trimStop_facts splits inside ordered member here fresh
    have before := reach y there fresh' less
    have room := lt_new_mark splits inside ordered member here fresh before less
    omega

/-- All marks of an item and of the new ones behind it come before the mark of a later item. -/
theorem itemMarks_lt (first : p ∈ list.items) (apart : p.stop ≤ q.start)
    (mark : m ∈ itemMarks s tr p) : m < tr.changes.mapPos q.start .after := by
  obtain ⟨p_inside, digits, glyph, k, numbered, _, read, _⟩ := item_facts inside ordered first
  obtain ⟨⟨changes, accepted⟩, _⟩ := splits.applied_changes
  rcases (mem_itemMarks splits.coherent numbered).mp mark with rfl | ⟨x, here, fresh, rfl⟩
  · -- no change takes the delimiter of the earlier mark away
    have survives : ∀ c ∈ tr.changes.changes,
        ¬(c.start ≤ p.start + digits.size ∧ p.start + digits.size < c.stop) := by
      intro c change
      rcases splits.mark_cases numbered p_inside read change with before | behind | ⟨rfl, _⟩
      · omega
      · omega
      · dsimp only
        omega
    have room : p.start + digits.size < p.stop := by
      obtain ⟨later, text⟩ := numbered.exists_text
      rw [Place.stop_eq, text, Text.size_append, numbered.size_mark]
      omega
    exact ChangeSet.mapFrom_lt .after .after 0 (ChangeSet.ofChanges_follows accepted)
      (Nat.zero_le p.start) (Nat.le_add_right _ digits.size) (by omega) survives (by decide)
  · obtain ⟨_, _, reach, _⟩ := trimStop_facts splits inside ordered first here fresh
    have marker := (new_item splits inside ordered first here fresh numbered read).2.1
    have some_room := start_lt_new_mark splits inside ordered first here fresh
    have order : tr.changes.mapPos x.pos .after ≤ tr.changes.mapPos q.start .after :=
      ChangeSet.mapFrom_mono (ChangeSet.ofChanges_follows accepted) (Nat.zero_le x.pos) (by omega)
        (fun other => other) (by decide)
    omega

theorem marks_sorted : (list.items.flatMap (itemMarks s tr)).Pairwise (· < ·) := by
  rw [List.pairwise_flatMap]
  refine ⟨fun p member => itemMarks_sorted splits inside ordered member, ?_⟩
  refine list.items_apart.imp_of_mem fun {p q} first second apart m mark k later => ?_
  obtain ⟨_, digits, glyph, numbered⟩ := inside.numbered_of_mem_items ordered second
  have low := itemMarks_lt splits inside ordered first apart mark
  rcases (mem_itemMarks splits.coherent numbered).mp later with rfl | ⟨x, here, fresh, rfl⟩
  · exact low
  · have high := start_lt_new_mark splits inside ordered second here fresh
    omega

end Order

section Numbers

def numberOf (d : Document) (p : Place) : Nat := (d.numberAt? p.start).getD 0

def readable (n : Nat) : Option Nat := if n < ItemNumber.limit then some n else none

theorem consecutive_numbers {d : Document} {items : List Place} (counted : Counted d items) :
    (items.map (numberOf d)).IsChain fun m n => n = m + 1 := by
  rw [Counted, List.isChain_map] at counted
  rw [List.isChain_map]
  refine counted.imp fun p q succeeds => ?_
  obtain ⟨n, first, second⟩ := succeeds
  rw [numberOf, numberOf, first, second]
  rfl

theorem isChain_readable {numbers : List Nat} :
    (numbers.map readable).IsChain Succeeds ↔
      numbers.IsChain fun m n => n = m + 1 ∧ n < ItemNumber.limit := by
  rw [List.isChain_map]
  refine List.IsChain.iff fun m n => ⟨?_, ?_⟩
  · rintro ⟨k, first, second⟩
    rw [readable, Option.ite_none_right_eq_some] at first second
    have value := Option.some.inj first.2
    have value' := Option.some.inj second.2
    omega
  · rintro ⟨rfl, bound⟩
    exact ⟨m, if_pos (by omega), if_pos bound⟩

open Classical in
noncomputable def holdsCaret (s : EditState) (p : Place) : Bool := decide (∃ x : Site, x.At s p)

open Classical in
theorem holdsCaret_iff : holdsCaret s p = true ↔ ∃ x : Site, x.At s p := by
  rw [holdsCaret, decide_eq_true_eq]

variable (splits : SplitsLines s tr) (inside : list.In (Tree.ofText s.text))
  (ordered : list.kind = .orderedList)

include inside ordered

theorem bumped_iff_any {front back : List Place} (split : list.items = front ++ q :: back) :
    Bumped s list q ↔ front.any (holdsCaret s) = true := by
  have sorted := Place.items_sorted inside ordered
  rw [split] at sorted
  rw [List.any_eq_true]
  constructor
  · rintro ⟨p, member, order, x, here⟩
    rw [split] at member
    exact ⟨p, (Place.mem_split_iff sorted member).1.mpr order, holdsCaret_iff.mpr ⟨x, here⟩⟩
  · rintro ⟨p, before, held⟩
    have member := List.mem_append_left (q :: back) before
    refine ⟨p, ?_, (Place.mem_split_iff sorted member).1.mp before, holdsCaret_iff.mp held⟩
    rw [split]
    exact member

theorem numberOf_facts (member : p ∈ list.items) :
    numberOf s.doc p < ItemNumber.limit ∧ s.doc.numberAt? p.start = some (numberOf s.doc p) := by
  obtain ⟨_, digits, glyph, n, _, small, read, _⟩ := item_facts inside ordered member
  have number : s.doc.numberAt? p.start = some n := by
    rw [Document.numberAt?, read]
    rfl
  rw [numberOf, number]
  exact ⟨small, rfl⟩

variable (counted : Counted s.doc list.items) (next : tr.changes.applyTo? s.text = some s'.text)

include splits counted next

theorem map_itemMarks (member : p ∈ list.items) {bumped : Bool}
    (exact_bumped : Bumped s list p ↔ bumped = true) :
    (itemMarks s tr p).map s'.doc.numberAt? =
      ((numberOf s.doc p + if bumped then 1 else 0) ::
        List.replicate (freshAt s p).length (numberOf s.doc p + 1)).map readable := by
  obtain ⟨_, digits, glyph, n, numbered, small, read, value⟩ := item_facts inside ordered member
  have number : numberOf s.doc p = n := by
    rw [numberOf, Document.numberAt?, read]
    rfl
  rw [number, itemMarks, List.map_cons, List.map_cons, List.map_replicate, List.map_map]
  refine congrArg₂ List.cons ?_ ?_
  · cases bumped with
    | false =>
      have stays : ¬Bumped s list p := fun other => Bool.false_ne_true (exact_bumped.mp other)
      rw [number_of_unbumped splits inside ordered counted next member numbered read value stays]
      exact (if_pos small).symm
    | true =>
      have goes_up := exact_bumped.mpr rfl
      exact number_of_bumped splits inside ordered counted next member numbered read goes_up
  · refine List.eq_replicate_iff.mpr ⟨List.length_map _, ?_⟩
    refine List.forall_mem_map.mpr fun k position => ?_
    obtain ⟨x, here, fresh, rfl⟩ := mem_freshAt.mp position
    rw [Function.comp_apply, At.markerSize splits.coherent here numbered]
    exact number_of_new splits inside ordered member here fresh numbered read next

theorem map_marks {front back : List Place} (split : list.items = front ++ back) :
    (back.flatMap (itemMarks s tr)).map s'.doc.numberAt? =
      (renumbered (numberOf s.doc) (fun p => (freshAt s p).length) (holdsCaret s)
        (front.any (holdsCaret s)) back).map readable := by
  induction back generalizing front with
  | nil => rfl
  | cons p back ih =>
    have member : p ∈ list.items := by
      rw [split]
      exact List.mem_append_right _ List.mem_cons_self
    have later := @ih (front ++ [p]) (by rw [split, List.append_assoc, List.singleton_append])
    rw [List.any_append, List.any_cons, List.any_nil, Bool.or_false] at later
    rw [List.flatMap_cons, List.map_append, later, renumbered,
      map_itemMarks splits inside ordered counted next member (bumped_iff_any inside ordered split),
      ← List.map_append, List.cons_append]

end Numbers

end Enter

end MarkdownEditing
