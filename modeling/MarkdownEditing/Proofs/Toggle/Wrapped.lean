import Mathlib.Tactic.FinCases
import MarkdownEditing.Proofs.Edit.Abreast
import MarkdownEditing.Proofs.Edit.Restored
import MarkdownEditing.Proofs.Edit.Toggles

namespace MarkdownEditing

namespace Text

variable {t m : Text} {start stop : Nat}

theorem slice_front (a b : Text) (n : Nat) : (a ++ b).slice n a.size = a.dropBytes n := by
  rw [slice, takeBytes_left]

theorem slice_behind (a b : Text) (n : Nat) :
    (a ++ b).slice a.size (a.size + n) = b.takeBytes n := by
  rw [slice, takeBytes_append, dropBytes_left]

theorem cut?_parts (found : t.cut? start stop = some m) (order : start ≤ stop) :
    ∃ a c, t = a ++ m ++ c ∧ a.size = start ∧ start + m.size = stop := by
  rw [cut?] at found
  split at found
  · rename_i both
    obtain ⟨first, last⟩ := Bool.and_eq_true_iff.mp both
    cases found
    have parts := slice_of_isBoundary first order
    have sizes := congrArg size parts
    rw [size_append, size_takeBytes_of_isBoundary first, size_takeBytes_of_isBoundary last] at sizes
    refine ⟨t.takeBytes start, t.dropBytes stop, ?_, size_takeBytes_of_isBoundary first, sizes⟩
    rw [parts, takeBytes_append_dropBytes]
  · cases found

end Text

namespace EditState

def selectedTexts (s : EditState) : List Text :=
  s.selection.ranges.map fun r => s.doc.slice r.start r.stop

def selectedSpans (s : EditState) : List (Nat × Nat) :=
  s.selection.ranges.map fun r => (r.start, r.stop)

variable {s : EditState} {set : ChangeSet} {u : Text}

theorem next?_of_applied (selection : Selection) (fits : set.size = s.doc.size)
    (applied : set.applyTo? s.text = some u) :
    ∃ s', s.next? ⟨set, some selection⟩ = some s' ∧ s'.text = u ∧
      s'.selection = selection.clamp u.size :=
  exists_next? fits applied

end EditState

namespace Range.Whole

variable {r : Range} {s : EditState}

theorem exists_parts (whole : r.Whole s.text) :
    ∃ a c, s.text = a ++ s.doc.slice r.start r.stop ++ c ∧ a.size = r.start ∧
      r.start + (s.doc.slice r.start r.stop).size = r.stop := by
  apply Text.cut?_parts _ r.start_le_stop
  rw [Text.cut?, whole.isBoundary_start, whole.isBoundary_stop]
  rfl

end Range.Whole

namespace MarkPair

open RangeEdit ChangeSet

variable {pair : MarkPair} {s : EditState} {r : Range} {ranges : List Range} {u : Text}

/-- The marks of the pair stand directly around the range. -/
def Surrounds (pair : MarkPair) (t : Text) (r : Range) : Prop :=
  ∃ a m b, t = a ++ pair.left ++ m ++ pair.right ++ b ∧ (a ++ pair.left).size = r.start ∧
    (a ++ pair.left ++ m).size = r.stop

theorem Surrounds.whole (surrounds : pair.Surrounds u r) : r.Whole u := by
  obtain ⟨a, m, b, parts, start, stop⟩ := surrounds
  have first : u.isBoundary r.start = true := by
    rw [← start, parts, List.append_assoc _ pair.right, List.append_assoc _ m]
    exact Text.isBoundary_left _ _
  have last : u.isBoundary r.stop = true := by
    rw [← stop, parts, List.append_assoc _ pair.right]
    exact Text.isBoundary_left _ _
  rw [Range.start] at first
  rw [Range.stop] at last
  rcases Nat.le_total r.anchor r.head with order | order
  · rw [Nat.min_eq_left order] at first
    rw [Nat.max_eq_right order] at last
    exact ⟨first, last⟩
  · rw [Nat.min_eq_right order] at first
    rw [Nat.max_eq_left order] at last
    exact ⟨last, first⟩

def wrapped (pair : MarkPair) (s : EditState) (r : Range) : Change × Range :=
  let m := s.doc.slice r.start r.stop
  let start := r.start + pair.left.size
  (⟨r.start, r.stop, pair.left ++ m ++ pair.right⟩, ⟨start, start + m.size⟩)

def unwrapped (pair : MarkPair) (s : EditState) (r : Range) : Change × Range :=
  let m := s.doc.slice r.start r.stop
  let start := r.start - pair.left.size
  (⟨start, r.stop + pair.right.size, m⟩, ⟨start, start + m.size⟩)

theorem Surrounds.slice_eq {a m b : Text} (parts : s.text = a ++ pair.left ++ m ++ pair.right ++ b)
    (start : (a ++ pair.left).size = r.start) (stop : (a ++ pair.left ++ m).size = r.stop) :
    s.doc.slice (r.start - pair.left.size) r.start = pair.left ∧
      s.doc.slice r.start r.stop = m ∧
      s.doc.slice r.stop (r.stop + pair.right.size) = pair.right := by
  have begins : r.start - pair.left.size = a.size := by
    rw [← start, Text.size_append, Nat.add_sub_cancel]
  refine ⟨?_, ?_, ?_⟩
  · show s.text.slice _ _ = _
    rw [begins, ← start, Text.size_append, parts, List.append_assoc (a ++ pair.left),
      List.append_assoc (a ++ pair.left)]
    exact Text.slice_middle a pair.left _
  · show s.text.slice _ _ = _
    rw [← stop, ← start, Text.size_append (a ++ pair.left), parts, List.append_assoc _ pair.right]
    exact Text.slice_middle _ m _
  · show s.text.slice _ _ = _
    rw [← stop, parts]
    exact Text.slice_middle _ pair.right b

theorem unwrapSurrounding?_of_surrounds (surrounds : pair.Surrounds s.text r) :
    pair.unwrapSurrounding? s r = some (single (pair.unwrapped s r)) := by
  obtain ⟨a, m, b, parts, start, stop⟩ := surrounds
  obtain ⟨left, selected, right⟩ := Surrounds.slice_eq parts start stop
  have room : pair.left.size ≤ r.start := by
    rw [← start, Text.size_append]
    omega
  have inside : r.stop + pair.right.size ≤ s.doc.size := by
    have size : s.doc.size = _ := congrArg Text.size parts
    rw [Text.size_append, Text.size_append] at size
    omega
  rw [unwrapSurrounding?, if_pos room, if_pos ⟨inside, left, right⟩]
  rfl

theorem surrounds_of_unwrapSurrounding? {e : RangeEdit} (whole : r.Whole s.text)
    (found : pair.unwrapSurrounding? s r = some e) : pair.Surrounds s.text r := by
  obtain ⟨a, c, parts, start, stop⟩ := whole.exists_parts
  generalize s.doc.slice r.start r.stop = m at parts stop
  have behind : r.stop = (a ++ m).size := by rw [Text.size_append, start, stop]
  rw [unwrapSurrounding?] at found
  dsimp only at found
  split at found
  · split at found
    · rename_i shown
      obtain ⟨_, left, right⟩ := shown
      have lead := (a.takeBytes_append_dropBytes (r.start - pair.left.size)).symm
      rw [← Text.slice_front a (m ++ c), ← List.append_assoc, ← parts, start,
        show s.text.slice _ _ = pair.left from left] at lead
      have trail := (c.takeBytes_append_dropBytes pair.right.size).symm
      rw [← Text.slice_behind (a ++ m) c, ← parts, ← behind,
        show s.text.slice _ _ = pair.right from right] at trail
      generalize a.takeBytes (r.start - pair.left.size) = front at lead
      generalize c.dropBytes pair.right.size = back at trail
      subst lead trail
      exact ⟨front, m, back, by rw [parts, List.append_assoc _ pair.right], start, behind.symm⟩
    · cases found
  · cases found

theorem surrounds_of_empty (whole : r.Whole s.text) (empty : pair.left = [] ∧ pair.right = []) :
    pair.Surrounds s.text r := by
  obtain ⟨a, c, parts, start, stop⟩ := whole.exists_parts
  refine ⟨a, s.doc.slice r.start r.stop, c, ?_, ?_, ?_⟩
  · rw [empty.1, empty.2, List.append_nil, List.append_nil]
    exact parts
  · rw [empty.1, List.append_nil, start]
  · rw [empty.1, List.append_nil, Text.size_append, start, stop]

theorem edits_of_bare (bare : ∀ r ∈ ranges, pair.unwrapSurrounding? s r = none)
    (outside : ∀ r ∈ ranges, pair.element? s r = none) (handled : List (Nat × Nat)) :
    pair.edits s handled ranges = (ranges.map (pair.wrapped s)).map single := by
  induction ranges with
  | nil => rfl
  | cons r rest ih =>
    have later := ih (fun q member => bare q (List.mem_cons_of_mem _ member))
      fun q member => outside q (List.mem_cons_of_mem _ member)
    simp only [edits, unwrapElement?, bare r List.mem_cons_self, outside r List.mem_cons_self, later,
      List.map_cons]
    rfl

theorem edits_of_surrounds (surrounds : ∀ r ∈ ranges, pair.Surrounds s.text r)
    (handled : List (Nat × Nat)) :
    pair.edits s handled ranges = (ranges.map (pair.unwrapped s)).map single := by
  induction ranges with
  | nil => rfl
  | cons r rest ih =>
    have later := ih fun q member => surrounds q (List.mem_cons_of_mem _ member)
    simp only [edits, unwrapSurrounding?_of_surrounds (surrounds r List.mem_cons_self), later,
      List.map_cons]

section Wrap

variable (whole : ∀ r ∈ ranges, r.Whole s.text)

include whole

theorem wrapped_holds (bare : ∀ r ∈ ranges, ¬pair.Surrounds s.text r) :
    ∀ p ∈ ranges.map (pair.wrapped s), p.1.Holds p.2 s.doc.size := by
  intro p member
  obtain ⟨r, found, rfl⟩ := List.mem_map.mp member
  have inside := Text.le_size_of_isBoundary (whole r found).isBoundary_stop
  refine ⟨?_, r.start_le_stop, inside, Nat.le_add_right _ _, Nat.le_add_right _ _, ?_⟩
  · rw [Change.isNoop, Bool.and_eq_false_iff]
    right
    rw [List.isEmpty_eq_false_iff]
    intro empty
    obtain ⟨front, right⟩ := List.append_eq_nil_iff.mp empty
    exact bare r found (surrounds_of_empty (whole r found) ⟨(List.append_eq_nil_iff.mp front).1, right⟩)
  · simp only [wrapped, Text.size_append]
    omega

theorem wrapped_precedes (pair : MarkPair) (apart : ranges.Pairwise Range.Apart) :
    (ranges.map (pair.wrapped s)).Pairwise Precedes := by
  rw [List.pairwise_map]
  apply apart.imp_of_mem
  intro r q first second free
  rw [Range.apart_iff] at free
  obtain ⟨_, _, _, _, stop⟩ := (whole q second).exists_parts
  have order := r.start_le_stop
  have order' := q.start_le_stop
  refine ⟨⟨free.1, ?_⟩, ?_⟩ <;> dsimp only [wrapped] <;> omega

theorem wrapped_whole (pair : MarkPair) :
    ∀ c ∈ (ranges.map (pair.wrapped s)).map Prod.fst, c.Whole s.text := by
  intro c member
  obtain ⟨p, in_placed, rfl⟩ := List.mem_map.mp member
  obtain ⟨r, in_ranges, rfl⟩ := List.mem_map.mp in_placed
  exact ⟨(whole r in_ranges).isBoundary_start, (whole r in_ranges).isBoundary_stop⟩

end Wrap

def width (pair : MarkPair) : Nat := pair.left.size + pair.right.size

section Moved

variable {rest : List Range}

theorem growth_wrapped (whole : r.Whole s.text) : (pair.wrapped s r).1.growth = pair.width := by
  obtain ⟨_, _, _, _, stop⟩ := whole.exists_parts
  rw [Change.growth_eq r.start_le_stop, width]
  simp only [wrapped, Text.size_append]
  omega

theorem movedFrom_wrapped (whole : r.Whole s.text) (shift : Nat) :
    movedFrom shift ((r :: rest).map (pair.wrapped s)) =
      ⟨r.start + shift + pair.left.size, r.stop + shift + pair.left.size⟩ ::
        movedFrom (shift + pair.width : Nat) (rest.map (pair.wrapped s)) := by
  obtain ⟨_, _, _, _, stop⟩ := whole.exists_parts
  rw [List.map_cons, movedFrom, growth_wrapped whole, Int.natCast_add]
  congr 1
  simp only [wrapped, Range.moved, Range.mk.injEq]
  omega

/-- The spans that wrapping puts in are the new ranges with the marks around them. -/
theorem spansFrom_wrapped (pair : MarkPair) (whole : ∀ r ∈ ranges, r.Whole s.text)
    (shift : Nat) :
    spansFrom shift ((ranges.map (pair.wrapped s)).map Prod.fst) =
      (movedFrom shift (ranges.map (pair.wrapped s))).map fun r =>
        (r.start - pair.left.size, r.stop + pair.right.size) := by
  induction ranges generalizing shift with
  | nil => rfl
  | cons r rest ih =>
    have here := whole r List.mem_cons_self
    obtain ⟨_, _, _, _, stop⟩ := here.exists_parts
    have later := ih (fun q member => whole q (List.mem_cons_of_mem _ member)) (shift + pair.width)
    rw [movedFrom_wrapped here, List.map_cons, List.map_cons, List.map_cons, spansFrom,
      growth_wrapped here, ← Int.natCast_add shift, later]
    congr 1
    simp only [wrapped, Range.start, Range.stop, Text.size_append, Prod.mk.injEq] at stop ⊢
    omega

theorem movedFrom_wrapped_forward (pair : MarkPair) (whole : ∀ r ∈ ranges, r.Whole s.text)
    (shift : Nat) :
    ∀ q ∈ movedFrom shift (ranges.map (pair.wrapped s)),
      pair.left.size ≤ q.start ∧ q.start = q.anchor ∧ q.stop = q.head := by
  induction ranges generalizing shift with
  | nil =>
    intro q member
    cases member
  | cons r rest ih =>
    intro q member
    rw [movedFrom_wrapped (whole r List.mem_cons_self)] at member
    rcases List.mem_cons.mp member with rfl | later
    · have order := r.start_le_stop
      simp only [Range.start, Range.stop] at order ⊢
      omega
    · exact ih (fun q member => whole q (List.mem_cons_of_mem _ member)) _ q later

theorem movedFrom_unwrapped (pair : MarkPair) (s' : EditState)
    (whole : ∀ r ∈ ranges, r.Whole s.text) (shift : Nat)
    (whole' : ∀ q ∈ movedFrom shift (ranges.map (pair.wrapped s)), q.Whole s'.text) :
    movedFrom (-shift : Int)
        ((movedFrom shift (ranges.map (pair.wrapped s))).map (pair.unwrapped s')) =
      ranges.map Range.forwards := by
  induction ranges generalizing shift with
  | nil => rfl
  | cons r rest ih =>
    have here := whole r List.mem_cons_self
    rw [movedFrom_wrapped here] at whole' ⊢
    have first := whole' _ List.mem_cons_self
    obtain ⟨_, _, _, _, stop⟩ := first.exists_parts
    have order := r.start_le_stop
    have later := ih (fun q member => whole q (List.mem_cons_of_mem _ member)) (shift + pair.width)
      fun q member => whole' q (List.mem_cons_of_mem _ member)
    generalize there : (⟨r.start + shift + pair.left.size, r.stop + shift + pair.left.size⟩ : Range) =
      moved at *
    have anchor : moved.anchor = r.start + shift + pair.left.size := by rw [← there]
    have head : moved.head = r.stop + shift + pair.left.size := by rw [← there]
    have starts := Range.start_of_le (r := moved) (by omega)
    have stops := Range.stop_of_le (r := moved) (by omega)
    have growth : (pair.unwrapped s' moved).1.growth = -(pair.width : Int) := by
      rw [Change.growth, width]
      simp only [unwrapped]
      omega
    rw [List.map_cons, movedFrom, growth, List.map_cons, ← Int.neg_add, ← Int.natCast_add, later]
    congr 1
    simp only [unwrapped, Range.moved, Range.forwards, Range.mk.injEq]
    omega

end Moved

theorem surrounds_of_cut {q : Range} {m : Text} (low : pair.left.size ≤ q.start)
    (cut : u.cut? (q.start - pair.left.size) (q.stop + pair.right.size) =
      some (pair.left ++ m ++ pair.right)) :
    pair.Surrounds u q ∧ u.slice q.start q.stop = m := by
  obtain ⟨a, c, parts, start, size⟩ := Text.cut?_parts cut (by have order := q.start_le_stop; omega)
  have begins : (a ++ pair.left).size = q.start := by
    rw [Text.size_append]
    omega
  have ends : (a ++ pair.left ++ m).size = q.stop := by
    rw [Text.size_append, Text.size_append] at size
    rw [Text.size_append, begins]
    omega
  have shape : u = a ++ pair.left ++ m ++ pair.right ++ c := by
    rw [parts]
    simp only [List.append_assoc]
  refine ⟨⟨a, m, c, shape, begins, ends⟩, ?_⟩
  rw [← ends, ← begins, shape, List.append_assoc _ pair.right, Text.size_append (a ++ pair.left)]
  exact Text.slice_middle _ m _

theorem element?_eq_none (outside : ∀ kind mark, pair.node = some (kind, mark) →
    (Place.root s.tree).covering? r.start r.stop kind = none) : pair.element? s r = none := by
  rw [element?]
  split
  · rfl
  · rename_i kind mark node
    rw [outside kind mark node]

theorem toggle_of_bare (apart : s.selection.ranges.Pairwise Range.Apart)
    (whole : ∀ r ∈ s.selection.ranges, r.Whole s.text)
    (bare : ∀ r ∈ s.selection.ranges, ¬pair.Surrounds s.text r)
    (outside : ∀ r ∈ s.selection.ranges, pair.element? s r = none) :
    pair.toggle s =
      ⟨⟨(s.selection.ranges.map (pair.wrapped s)).map Prod.fst, s.doc.size⟩,
        some (Selection.ofRanges (movedFrom 0 (s.selection.ranges.map (pair.wrapped s)))
          s.selection.main)⟩ := by
  have plain : ∀ r ∈ s.selection.ranges, pair.unwrapSurrounding? s r = none := by
    intro r member
    rw [Option.eq_none_iff_forall_ne_some]
    intro e found
    exact bare r member (surrounds_of_unwrapSurrounding? (whole r member) found)
  rw [toggle, edits_of_bare plain outside,
    Transaction.ofEdits_single (wrapped_holds whole bare) (wrapped_precedes whole pair apart)]

section Unwrap

variable (some_mark : 0 < pair.width) (surrounds : ∀ r ∈ ranges, pair.Surrounds s.text r)

include some_mark surrounds

theorem unwrapped_holds : ∀ p ∈ ranges.map (pair.unwrapped s), p.1.Holds p.2 s.doc.size := by
  intro p member
  obtain ⟨r, found, rfl⟩ := List.mem_map.mp member
  obtain ⟨a, m, b, parts, start, stop⟩ := surrounds r found
  have size : s.doc.size = _ := congrArg Text.size parts
  have order := r.start_le_stop
  rw [width] at some_mark
  rw [Text.size_append] at start
  rw [Text.size_append, Text.size_append, stop] at size
  have nonempty : r.start - pair.left.size < r.stop + pair.right.size := by omega
  refine ⟨?_, Nat.le_of_lt nonempty, ?_, le_rfl, Nat.le_add_right _ _, le_rfl⟩
  · exact Bool.and_eq_false_iff.mpr (Or.inl (beq_false_of_ne (Nat.ne_of_lt nonempty)))
  · dsimp only [unwrapped]
    omega

theorem unwrapped_precedes (separate : ranges.Pairwise fun r q =>
    r.stop + pair.right.size ≤ q.start - pair.left.size) :
    (ranges.map (pair.unwrapped s)).Pairwise Precedes := by
  rw [List.pairwise_map]
  apply separate.imp_of_mem
  intro r q first second order
  obtain ⟨_, _, _, _, start, _⟩ := surrounds r first
  obtain ⟨_, _, _, _, start', _⟩ := surrounds q second
  have inside := r.start_le_stop
  have inside' := q.start_le_stop
  rw [width] at some_mark
  rw [Text.size_append] at start start'
  refine ⟨⟨order, ?_⟩, ?_⟩ <;> dsimp only [unwrapped] <;> omega

end Unwrap

/-- Marks around the ranges that do not overlap are taken away, each with the change of its own. -/
theorem toggle_of_surrounds (some_mark : 0 < pair.width)
    (surrounds : ∀ r ∈ s.selection.ranges, pair.Surrounds s.text r)
    (separate : s.selection.ranges.Pairwise fun r q =>
      r.stop + pair.right.size ≤ q.start - pair.left.size) :
    pair.toggle s =
      ⟨⟨(s.selection.ranges.map (pair.unwrapped s)).map Prod.fst, s.doc.size⟩,
        some (Selection.ofRanges (movedFrom 0 (s.selection.ranges.map (pair.unwrapped s)))
          s.selection.main)⟩ := by
  rw [toggle, edits_of_surrounds surrounds, Transaction.ofEdits_single
    (unwrapped_holds some_mark surrounds) (unwrapped_precedes some_mark surrounds separate)]

theorem surrounds_of_cuts {moved : List Range} {texts : List Text}
    (low : ∀ q ∈ moved, pair.left.size ≤ q.start)
    (cuts : moved.map (fun q => u.cut? (q.start - pair.left.size) (q.stop + pair.right.size)) =
      texts.map fun m => some (pair.left ++ m ++ pair.right)) :
    (∀ q ∈ moved, pair.Surrounds u q) ∧ moved.map (fun q => u.slice q.start q.stop) = texts := by
  have held : ∀ q ∈ moved, pair.Surrounds u q ∧
      u.cut? (q.start - pair.left.size) (q.stop + pair.right.size) =
        some (pair.left ++ u.slice q.start q.stop ++ pair.right) := by
    intro q member
    have image : u.cut? (q.start - pair.left.size) (q.stop + pair.right.size) ∈ moved.map
        fun q => u.cut? (q.start - pair.left.size) (q.stop + pair.right.size) :=
      List.mem_map_of_mem member
    rw [cuts] at image
    obtain ⟨m, _, same⟩ := List.mem_map.mp image
    obtain ⟨surrounds, slice⟩ := surrounds_of_cut (low q member) same.symm
    rw [slice]
    exact ⟨surrounds, same.symm⟩
  have wraps : Function.Injective fun m => some (pair.left ++ m ++ pair.right) := by
    intro m m' same
    exact List.append_cancel_left (List.append_cancel_right (Option.some.inj same))
  refine ⟨fun q member => (held q member).1, List.map_injective_iff.mpr wraps ?_⟩
  rw [← cuts, List.map_map]
  exact List.map_congr_left fun q member => (held q member).2.symm

theorem width_pos (whole : r.Whole s.text) (bare : ¬pair.Surrounds s.text r) : 0 < pair.width := by
  by_contra none_left
  rw [width] at none_left
  have left : pair.left = [] := Text.size_eq_zero_iff.mp (by omega)
  have right : pair.right = [] := Text.size_eq_zero_iff.mp (by omega)
  exact bare (surrounds_of_empty whole ⟨left, right⟩)

theorem clamp_ofRanges_of_separate {moved : List Range} {main : Nat} (some_mark : 0 < pair.width)
    (forward : ∀ q ∈ moved, pair.left.size ≤ q.start ∧ q.start = q.anchor ∧ q.stop = q.head)
    (separate : moved.Pairwise fun q q' => q.stop + pair.right.size ≤ q'.start - pair.left.size)
    (inside : ∀ q ∈ moved, q.stop + pair.right.size ≤ u.size) (main_in : main < moved.length) :
    (Selection.ofRanges moved main).clamp u.size = ⟨moved, main⟩ := by
  rw [width] at some_mark
  have apart : moved.Pairwise Range.Apart := by
    apply separate.imp_of_mem
    intro q q' _ second order
    have low := (forward q' second).1
    rw [Range.apart_iff]
    omega
  rw [Selection.ofRanges_of_apart apart main_in]
  apply Selection.clamp_of_apart apart main_in
  intro q member
  have reach := inside q member
  have ends := forward q member
  have order := q.start_le_stop
  rw [Range.Inside]
  omega

/-- Wrapping ranges leaves each of them on what it held, with the marks around it, and keeps the marks
of different ranges apart. -/
theorem next?_wrapped (apart : s.selection.ranges.Pairwise Range.Apart)
    (main : s.selection.main < s.selection.ranges.length)
    (whole : ∀ r ∈ s.selection.ranges, r.Whole s.text)
    (bare : ∀ r ∈ s.selection.ranges, ¬pair.Surrounds s.text r)
    (outside : ∀ r ∈ s.selection.ranges, pair.element? s r = none) :
    ∃ s', s.next? (pair.toggle s) = some s' ∧
      (⟨(s.selection.ranges.map (pair.wrapped s)).map Prod.fst, s.doc.size⟩ :
        ChangeSet).applyTo? s.text = some s'.text ∧
      s'.selection =
        ⟨movedFrom 0 (s.selection.ranges.map (pair.wrapped s)), s.selection.main⟩ ∧
      (∀ q ∈ s'.selection.ranges, pair.Surrounds s'.text q) ∧
      (s'.selection.ranges.Pairwise fun q q' =>
        q.stop + pair.right.size ≤ q'.start - pair.left.size) ∧
      s'.selectedTexts = s.selectedTexts := by
  have toggled := toggle_of_bare apart whole bare outside
  obtain ⟨r, found⟩ := List.exists_mem_of_length_pos (Nat.zero_lt_of_lt main)
  have some_mark := width_pos (whole r found) (bare r found)
  have accepted := accepted_single (wrapped_holds whole bare) (wrapped_precedes whole pair apart)
  obtain ⟨u, applied⟩ := applyTo?_isSome (s := ⟨_, s.doc.size⟩) (wrapped_whole whole pair) rfl
  obtain ⟨s', next, text, selection⟩ := EditState.next?_of_applied
    (Selection.ofRanges (movedFrom 0 (s.selection.ranges.map (pair.wrapped s)))
      s.selection.main) rfl applied
  obtain ⟨_, _, laid⟩ := interleaved_of_applied accepted (wrapped_whole whole pair) applied
  have forward := movedFrom_wrapped_forward pair whole 0
  have spans := spansFrom_wrapped pair whole 0
  have length := length_movedFrom 0 (s.selection.ranges.map (pair.wrapped s))
  rw [List.length_map] at length
  rw [Int.natCast_zero] at forward spans
  rw [changedSpans, spans] at laid
  generalize moved_eq : movedFrom 0 (s.selection.ranges.map (pair.wrapped s)) = moved at *
  have separate := List.pairwise_map.mp laid.spans_pairwise
  have inside : ∀ q ∈ moved, q.stop + pair.right.size ≤ u.size := by
    intro q member
    have reach := (laid.spans_within _ (List.mem_map_of_mem member)).2.2
    rwa [Nat.zero_add] at reach
  have cuts := laid.cut?_spans (a := []) rfl rfl
  rw [List.map_map, List.map_map, List.map_map, List.map_map] at cuts
  obtain ⟨around, texts⟩ := surrounds_of_cuts (fun q member => (forward q member).1)
    (cuts.trans (List.map_map (f := fun r : Range => s.doc.slice r.start r.stop)
      (g := fun m => some (pair.left ++ m ++ pair.right)) (l := s.selection.ranges)).symm)
  rw [clamp_ofRanges_of_separate some_mark forward separate inside (length ▸ main)] at selection
  refine ⟨s', ?_, ?_, ?_, ?_, ?_, ?_⟩
  · rw [toggled]
    exact next
  · rw [text]
    exact applied
  · exact selection
  · rw [selection, text]
    exact around
  · rw [selection]
    exact separate
  · rw [EditState.selectedTexts, selection]
    simp only [Document.slice]
    rw [show s'.doc.text = u from text]
    exact texts

/-- Toggling marks twice on ranges that have none around them and lie in no element of theirs changes
nothing: in between every range has the marks around it and selects what it did before, and then text
and ranges are back. -/
theorem toggle_toggle {s : EditState} (pair : MarkPair) (reached : s.Reachable)
    (whole : ∀ r ∈ s.selection.ranges, r.Whole s.text)
    (bare : ∀ r ∈ s.selection.ranges, ¬pair.Surrounds s.text r)
    (outside : ∀ r ∈ s.selection.ranges, ∀ kind mark, pair.node = some (kind, mark) →
      (Place.root s.tree).covering? r.start r.stop kind = none) :
    ∃ s' s'', s.next? (pair.toggle s) = some s' ∧ s'.next? (pair.toggle s') = some s'' ∧
      (∀ q ∈ s'.selection.ranges, pair.Surrounds s'.text q) ∧
      s'.selectedTexts = s.selectedTexts ∧ s''.text = s.text ∧
      s''.selectedSpans = s.selectedSpans := by
  have apart := reached.pairwise_apart
  have main := reached.selection_sound.main
  have in_none : ∀ r ∈ s.selection.ranges, pair.element? s r = none := fun r member =>
    element?_eq_none (outside r member)
  obtain ⟨s', next, applied, selection, around, separate, texts⟩ :=
    next?_wrapped apart main whole bare in_none
  obtain ⟨r, found⟩ := List.exists_mem_of_length_pos (Nat.zero_lt_of_lt main)
  have some_mark := width_pos (whole r found) (bare r found)
  have accepted := accepted_single (wrapped_holds whole bare) (wrapped_precedes whole pair apart)
  have accepted' := accepted_single (unwrapped_holds some_mark around)
    (unwrapped_precedes some_mark around separate)
  have restored := applyTo?_back accepted (wrapped_whole whole pair) applied accepted' (by
    have spans := spansFrom_wrapped pair whole 0
    rw [Int.natCast_zero] at spans
    rw [changedSpans, spans, List.map_map, List.map_map, selection]
    rfl) (by
    rw [List.map_map, List.map_map, List.map_map, List.map_map]
    exact texts)
  obtain ⟨s'', next', text, selection'⟩ := EditState.next?_of_applied
    (Selection.ofRanges (movedFrom 0 (s'.selection.ranges.map (pair.unwrapped s')))
      s'.selection.main) rfl restored
  have back := movedFrom_unwrapped pair s' whole 0 (by
    rw [Int.natCast_zero]
    intro q member
    rw [selection] at around
    exact (around q member).whole)
  rw [Int.natCast_zero, Int.neg_zero] at back
  rw [selection, back] at selection'
  have apart' := Range.pairwise_forwards apart
  have main' : s.selection.main < (s.selection.ranges.map Range.forwards).length := by
    rw [List.length_map]
    exact main
  have inside : ∀ q ∈ s.selection.ranges.map Range.forwards, q.Inside s.doc.size := by
    intro q member
    obtain ⟨r, found, rfl⟩ := List.mem_map.mp member
    exact ⟨Text.le_size_of_isBoundary (whole r found).isBoundary_start,
      Text.le_size_of_isBoundary (whole r found).isBoundary_stop⟩
  rw [Selection.ofRanges_of_apart apart' main'] at selection'
  have ranges := selection'.trans (Selection.clamp_of_apart apart' main' inside)
  refine ⟨s', s'', next, ?_, around, texts, text, ?_⟩
  · rw [toggle_of_surrounds some_mark around separate]
    exact next'
  · rw [EditState.selectedSpans, ranges, List.map_map]
    exact List.map_congr_left fun q _ => Prod.ext q.start_forwards q.stop_forwards

def touchingSelection : EditState := .ofText ['a', 'b', 'c', 'd'] ⟨[⟨0, 0⟩, ⟨2, 0⟩, ⟨2, 3⟩], 1⟩ {}

theorem bold_touchingSelection : ∃ s' s'',
    touchingSelection.next? (bold.toggle touchingSelection) = some s' ∧
      s'.next? (bold.toggle s') = some s'' ∧
      s'.text = ['*', '*', '*', '*', '*', '*', 'a', 'b', '*', '*', '*', '*', 'c', '*', '*', 'd'] ∧
      s'.selectedTexts = [[], ['a', 'b'], ['c']] ∧ s''.text = ['a', 'b', 'c', 'd'] ∧
      s''.selectedSpans = [(0, 0), (0, 2), (2, 3)] := by
  have ranges : touchingSelection.selection.ranges = [⟨0, 0⟩, ⟨2, 0⟩, ⟨2, 3⟩] := by cbv
  have text : touchingSelection.text = ['a', 'b', 'c', 'd'] := rfl
  have marked : (touchingSelection.next? (bold.toggle touchingSelection)).map EditState.text =
      some ['*', '*', '*', '*', '*', '*', 'a', 'b', '*', '*', '*', '*', 'c', '*', '*', 'd'] := by cbv
  have bare : ∀ r ∈ touchingSelection.selection.ranges,
      ¬bold.Surrounds touchingSelection.text r := by
    rintro r _ ⟨a, m, b, parts, _⟩
    have mark : '*' ∈ touchingSelection.text := by
      rw [parts]
      simp [bold]
    rw [text] at mark
    revert mark
    decide
  obtain ⟨s', s'', next, next', _, texts, restored, spans⟩ := toggle_toggle (s := touchingSelection) bold
    (.ofText _ _ _) (by rw [ranges, text]; decide) bare (by
      rw [ranges]
      intro r member kind mark found
      cases found
      fin_cases member <;> cbv)
  rw [next] at marked
  refine ⟨s', s'', next, next', Option.some.inj marked, texts.trans ?_, restored, spans.trans ?_⟩
  · rw [EditState.selectedTexts, ranges]
    rfl
  · rw [EditState.selectedSpans, ranges]
    rfl

end MarkPair

end MarkdownEditing
