import MarkdownEditing.Edit.Format
import MarkdownEditing.Proofs.Edit.Abreast
import MarkdownEditing.Proofs.Edit.Merging
import MarkdownEditing.Proofs.Edit.Restored
import MarkdownEditing.Proofs.Edit.Rows

namespace MarkdownEditing

open ChangeSet

namespace Range

variable {r q : Range} {ranges : List Range} {t : Text} {into size : Nat}

def replacing (t : Text) (into : Nat) (r : Range) : Change × Range :=
  (⟨r.start, r.stop, t⟩, caret (r.start + into))

theorem apart_caret {x y : Nat} : (caret x).Apart (caret y) ↔ x < y := by
  have ends : ∀ n, (caret n).start = n ∧ (caret n).stop = n :=
    fun n => ⟨Nat.min_self n, Nat.max_self n⟩
  rw [apart_iff, (ends x).2, (ends y).1, (ends y).2]
  omega

theorem holds_replacing (some_text : t ≠ []) (inner : into ≤ t.size) (inside : r.Inside size) :
    (r.replacing t into).1.Holds (r.replacing t into).2 size where
  effective := by simp [replacing, Change.isNoop, some_text]
  forward := r.start_le_stop
  inside := inside.stop_le
  low := Nat.le_add_right _ _
  order := Nat.le_refl _
  high := Nat.add_le_add_left inner _

theorem forall_holds_replacing (some_text : t ≠ []) (inner : into ≤ t.size)
    (inside : ∀ r ∈ ranges, r.Inside size) :
    ∀ p ∈ ranges.map (replacing t into), p.1.Holds p.2 size :=
  List.forall_mem_map.mpr fun r range => holds_replacing some_text inner (inside r range)

theorem ahead_replacing (t : Text) (into : Nat) (apart : ranges.Pairwise Apart) :
    ((ranges.map (replacing t into)).map Prod.fst).Pairwise Change.Ahead := by
  rw [List.map_map, List.pairwise_map]
  apply apart.imp
  intro r q free
  rw [apart_iff] at free
  exact ⟨free.1, fun empty => Nat.lt_of_le_of_ne free.1 fun touch => free.2 ⟨touch.symm, empty⟩⟩

/-- Of ranges apart from each other the first begins before the second, or it is a caret at the start
of a span. -/
theorem Apart.start_lt_or (apart : r.Apart q) :
    r.start < q.start ∨ r.isCaret = true ∧ q.isCaret = false ∧ q.start = r.head := by
  rw [apart_iff] at apart
  simp only [start, stop, isCaret, beq_iff_eq, beq_eq_false_iff_ne] at apart ⊢
  omega

end Range

namespace ChangeSet

variable {changes : List Change} {b : Nat} {shift : Int}

theorem le_of_mem_spansFrom (follows : Follows b changes) (room : 0 ≤ b + shift) :
    ∀ span ∈ spansFrom shift changes, b + shift ≤ span.1 := by
  induction changes generalizing b shift with
  | nil => exact fun span member => nomatch member
  | cons c rest ih =>
    obtain ⟨first, forward, later⟩ := follows
    have growth := Change.growth_eq forward
    have room' : 0 ≤ c.stop + (shift + c.growth) := by omega
    intro span member
    rcases List.mem_cons.mp member with rfl | member
    · dsimp only
      omega
    · have behind := ih later room' span member
      omega

theorem pairwise_spansFrom (follows : Follows b changes) (room : 0 ≤ b + shift)
    (some_text : ∀ c ∈ changes, c.insert ≠ []) :
    (spansFrom shift changes).Pairwise fun first second => first.1 < second.1 := by
  induction changes generalizing b shift with
  | nil => exact .nil
  | cons c rest ih =>
    obtain ⟨first, forward, later⟩ := follows
    have growth := Change.growth_eq forward
    have size := Text.size_pos (some_text c List.mem_cons_self)
    have room' : 0 ≤ c.stop + (shift + c.growth) := by omega
    refine .cons ?_ (ih later room' fun d member => some_text d (List.mem_cons_of_mem c member))
    intro span member
    have behind := le_of_mem_spansFrom later room' span member
    dsimp only
    omega

theorem length_spansFrom (shift : Int) (changes : List Change) :
    (spansFrom shift changes).length = changes.length := by
  induction changes generalizing shift with
  | nil => rfl
  | cons c rest ih => rw [spansFrom, List.length_cons, List.length_cons, ih]

end ChangeSet

namespace Selection

/-- No caret stands at the start of a span. -/
def SpansClear (s : Selection) : Prop :=
  ∀ r ∈ s.ranges, ∀ q ∈ s.ranges, r.isCaret = true → q.isCaret = false → q.start ≠ r.head

instance (s : Selection) : Decidable s.SpansClear :=
  inferInstanceAs (Decidable (∀ r ∈ s.ranges, ∀ q ∈ s.ranges,
    r.isCaret = true → q.isCaret = false → q.start ≠ r.head))

theorem length_ofRanges_lt {ranges : List Range} (main : Nat)
    (carets : ∀ r ∈ ranges, r.isCaret = true) (twice : ¬ranges.Nodup) :
    (ofRanges ranges main).ranges.length < ranges.length := by
  have given : ranges ≠ [] := by
    rintro rfl
    exact twice List.nodup_nil
  have among : ∀ q ∈ (ofRanges ranges main).ranges, q ∈ ranges := by
    apply forall_ofRanges main _ given fun r member => member
    intro a b order joined first second
    have caret := carets a first
    have caret' := carets b second
    rw [Range.joins_iff] at joined
    simp only [Range.isCaret, beq_iff_eq, Range.start, Range.stop] at caret caret' order joined
    have same : a.merge b = a := by
      cases a
      simp only [Range.merge, Range.start, Range.stop, Range.mk.injEq]
      dsimp only at caret order joined
      omega
    rw [same]
    exact first
  have distinct : (ofRanges ranges main).ranges.Nodup := by
    apply (ranges_ofRanges_apart given main).imp
    rintro a b apart rfl
    exact Std.Irrefl.irrefl (r := Range.Apart) _ apart
  by_contra many
  have perm := (List.subperm_of_subset distinct among).perm_of_length_le (Nat.le_of_not_lt many)
  exact twice (perm.nodup_iff.mp distinct)

end Selection

namespace RangeEdit

open Range (replacing)

variable {ranges front rest : List Range} {r q : Range} {t : Text} {into size b : Nat}

theorem movedFrom_replacing (shift : Int) (apart : ranges.Pairwise Range.Apart)
    (low : ∀ r ∈ ranges, b ≤ r.start) (room : 0 ≤ b + shift) :
    movedFrom shift (ranges.map (replacing t into)) =
      (spansFrom shift ((ranges.map (replacing t into)).map Prod.fst)).map
        fun span => Range.caret (span.1 + into) := by
  induction ranges generalizing b shift with
  | nil => rfl
  | cons r rest ih =>
    have first := low r List.mem_cons_self
    have forward := r.start_le_stop
    have growth : (replacing t into r).1.growth = t.size - (r.stop - r.start : Int) :=
      Change.growth_eq forward
    have behind : ∀ q ∈ rest, r.stop ≤ q.start := fun q member =>
      (Range.apart_iff.mp (List.rel_of_pairwise_cons apart member)).1
    have later := ih (shift + (replacing t into r).1.growth) apart.of_cons behind (by omega)
    rw [List.map_cons, List.map_cons, movedFrom, spansFrom, List.map_cons, later]
    congr 1
    simp only [replacing, Range.moved, Range.caret, Range.mk.injEq]
    omega

/-- Where all carets keep clear of the start of spans or are not to stand in front of their copies,
each comes to stand in its own. -/
theorem ofEdits_replacing {s : EditState} (apart : s.selection.ranges.Pairwise Range.Apart)
    (sound : s.selection.Sound s.doc.size) (some_text : t ≠ []) (inner : into ≤ t.size)
    (clear : 0 < into ∨ s.selection.SpansClear) :
    Transaction.ofEdits s ((s.selection.ranges.map (replacing t into)).map single) =
      .ok ⟨⟨(s.selection.ranges.map (replacing t into)).map Prod.fst, s.doc.size⟩,
        some ⟨(spansFrom 0 ((s.selection.ranges.map (replacing t into)).map Prod.fst)).map
          fun span => Range.caret (span.1 + into), s.selection.main⟩⟩ := by
  have holds := Range.forall_holds_replacing some_text inner sound.inside
  have ordered : (s.selection.ranges.map (replacing t into)).Pairwise Precedes := by
    have ahead := List.pairwise_map.mp (Range.ahead_replacing t into apart)
    rw [List.pairwise_map] at ahead ⊢
    apply (apart.and ahead).imp_of_mem
    intro r q first second both
    refine ⟨both.2, ?_⟩
    dsimp only [replacing, Range.caret]
    rcases both.1.start_lt_or with before | ⟨caret, span, touch⟩
    · omega
    · rcases clear with some_bytes | none_touch
      · have order := (Range.apart_iff.mp both.1).1
        have forward := r.start_le_stop
        omega
      · exact absurd touch (none_touch r first q second caret span)
  have spans_apart : ((spansFrom 0 ((s.selection.ranges.map (replacing t into)).map Prod.fst)).map
      fun span => Range.caret (span.1 + into)).Pairwise Range.Apart := by
    have follows := ofChanges_follows (accepted_single holds ordered)
    have texts : ∀ c ∈ (s.selection.ranges.map (replacing t into)).map Prod.fst, c.insert ≠ [] := by
      intro c member
      obtain ⟨p, placed, rfl⟩ := List.mem_map.mp member
      obtain ⟨r, range, rfl⟩ := List.mem_map.mp placed
      exact some_text
    have room : (0 : Int) ≤ (0 : Nat) + 0 := Int.le_refl 0
    have increasing := pairwise_spansFrom follows room texts
    rw [List.pairwise_map]
    apply increasing.imp
    intro first second order
    exact Range.apart_caret.mpr (Nat.add_lt_add_right order into)
  rw [Transaction.ofEdits_single holds ordered,
    movedFrom_replacing 0 apart (fun r _ => Nat.zero_le r.start) (by omega),
    Selection.ofRanges_of_apart spans_apart]
  rw [List.length_map, length_spansFrom, List.length_map, List.length_map]
  exact sound.main

theorem exists_touching (apart : ranges.Pairwise Range.Apart) (first : r ∈ ranges)
    (second : q ∈ ranges) (caret : r.isCaret = true) (span : q.isCaret = false)
    (touch : q.start = r.head) : ∃ front rest, ranges = front ++ r :: q :: rest := by
  have ends : r.start = r.head ∧ r.stop = r.head := by
    simp only [Range.isCaret, beq_iff_eq] at caret
    simp [Range.start, Range.stop, caret]
  have wide : q.start < q.stop := by
    simp only [Range.isCaret, beq_eq_false_iff_ne] at span
    simp only [Range.start, Range.stop]
    omega
  obtain ⟨front, behind, rfl⟩ := List.append_of_mem first
  obtain ⟨-, later, across⟩ := List.pairwise_append.mp apart
  rcases List.mem_append.mp second with before | after
  · have order := (Range.apart_iff.mp (across q before r List.mem_cons_self)).1
    omega
  · rcases List.mem_cons.mp after with rfl | after
    · rw [caret] at span
      cases span
    · obtain ⟨between, rest, rfl⟩ := List.append_of_mem after
      cases between with
      | nil => exact ⟨front, rest, rfl⟩
      | cons m between =>
        -- a range between both would be a caret where `r` is
        have order := m.start_le_stop
        have free := Range.apart_iff.mp (List.rel_of_pairwise_cons later List.mem_cons_self)
        have order' := Range.apart_iff.mp (List.rel_of_pairwise_cons later.of_cons
          (List.mem_append_right between List.mem_cons_self))
        omega

theorem map_shifted_touching {front rest : List (Change × Range)} {p p' : Change × Range}
    (holds : ∀ q ∈ front ++ [p] ++ p' :: rest, q.1.Holds q.2 size)
    (ordered : ((front ++ [p] ++ p' :: rest).map Prod.fst).Pairwise Change.Ahead)
    (empty : p.1.start = p.1.stop) (touch : p'.1.start = p.1.stop)
    (caret : p'.2 = Range.caret p'.1.start) :
    p'.2.map ((single p').shifted ⟨(front ++ [p] ++ p' :: rest).map Prod.fst, size⟩) =
      Range.caret (p.1.start + totalGrowth (front.map Prod.fst)).toNat := by
  have here := holds p (by simp)
  have passed : ∀ c ∈ front.map Prod.fst, c.start ≤ c.stop ∧ c.stop ≤ p'.1.start ∧
      (Side.before = .before → c.start < p'.1.start) := by
    intro c member
    obtain ⟨q, found, rfl⟩ := List.mem_map.mp member
    have forward := (holds q (by simp [found])).forward
    have ahead : q.1.Ahead p.1 := by
      rw [List.append_assoc] at ordered
      exact (List.pairwise_append.mp (List.pairwise_map.mp ordered)).2.2 q found p (by simp)
    have strict := ahead.2 empty
    exact ⟨forward, by omega, fun _ => by omega⟩
  have image : ((single p').shifted ⟨(front ++ [p] ++ p' :: rest).map Prod.fst, size⟩).mapPos
      p'.1.start .before = (p.1.start + totalGrowth (front.map Prod.fst)).toNat := by
    rw [mapPos, shifted_single holds ordered, List.map_append, List.append_assoc,
      mapFrom_append _ _ passed, List.map_singleton, List.singleton_append, mapFrom,
      if_neg (by omega), if_pos (Or.inr ⟨by omega, by omega, rfl⟩), if_pos (Or.inr rfl),
      Int.zero_add]
  rw [caret, Range.map]
  exact (if_pos (beq_self_eq_true _)).trans (congrArg Range.caret image)

theorem getElem?_carryAll (edits : List RangeEdit) (size i : Nat) :
    (Transaction.carryAll edits size)[i]? =
      edits[i]?.map fun e => e.carry (edits.eraseIdx i) size := by
  rw [Transaction.carryAll, List.getElem?_map, List.getElem?_zipIdx, Option.map_map]
  simp only [Nat.zero_add]
  rfl

theorem getElem?_carryAll_single {front rest : List (Change × Range)} {p : Change × Range}
    (holds : ∀ q ∈ front ++ p :: rest, q.1.Holds q.2 size)
    (ordered : ((front ++ p :: rest).map Prod.fst).Pairwise Change.Ahead) :
    (Transaction.carryAll ((front ++ p :: rest).map single) size)[front.length]? =
      some (p.2.map ((single p).shifted ⟨(front ++ p :: rest).map Prod.fst, size⟩)) := by
  rw [getElem?_carryAll, ← carry_single holds ordered, List.getElem?_map,
    List.getElem?_append_right le_rfl, Nat.sub_self]
  rfl

theorem isCaret_carry {e : RangeEdit} (caret : e.range.isCaret = true) (rest : List RangeEdit)
    (size : Nat) : (e.carry rest size).isCaret = true := by
  unfold carry
  split
  · exact caret
  · split
    · exact caret
    · rw [Range.map, if_pos caret]
      exact beq_self_eq_true _

theorem isCaret_carryAll {edits : List RangeEdit} (carets : ∀ e ∈ edits, e.range.isCaret = true)
    (size : Nat) : ∀ c ∈ Transaction.carryAll edits size, c.isCaret = true := by
  intro c member
  obtain ⟨i, found⟩ := List.mem_iff_getElem?.mp member
  rw [getElem?_carryAll] at found
  obtain ⟨e, edit, rfl⟩ := Option.map_eq_some_iff.mp found
  exact isCaret_carry (carets e (List.mem_of_getElem? edit)) _ _

/-- A caret and a span behind it that starts there leave their carets at one place, if these are to
stand in front of the copies. -/
theorem getElem?_carryAll_touching (apart : (front ++ r :: q :: rest).Pairwise Range.Apart)
    (inside : ∀ x ∈ front ++ r :: q :: rest, x.Inside size) (some_text : t ≠ [])
    (caret : r.isCaret = true) (touch : q.start = r.head) :
    let carried := Transaction.carryAll
      (((front ++ r :: q :: rest).map (replacing t 0)).map single) size
    carried[front.length]? = carried[front.length + 1]? := by
  intro carried
  have holds := Range.forall_holds_replacing some_text (Nat.zero_le t.size) inside
  have ordered := Range.ahead_replacing t 0 apart
  have shown : r.start = r.head ∧ r.stop = r.head := by
    simp only [Range.isCaret, beq_iff_eq] at caret
    simp [Range.start, Range.stop, caret]
  have placed : (front ++ r :: q :: rest).map (replacing t 0) =
      front.map (replacing t 0) ++ replacing t 0 r :: replacing t 0 q :: rest.map (replacing t 0) := by
    rw [List.map_append, List.map_cons, List.map_cons]
  have placed' : (front ++ r :: q :: rest).map (replacing t 0) =
      (front.map (replacing t 0) ++ [replacing t 0 r]) ++
        replacing t 0 q :: rest.map (replacing t 0) := by
    rw [placed, List.append_assoc, List.singleton_append]
  have clear : ∀ p ∈ front.map (replacing t 0), p.1.start < (replacing t 0 r).2.head := by
    intro p member
    obtain ⟨f, before, rfl⟩ := List.mem_map.mp member
    rcases ((List.pairwise_append.mp apart).2.2 f before r List.mem_cons_self).start_lt_or with
      order | ⟨-, wide, -⟩
    · exact order
    · rw [caret] at wide
      cases wide
  have at_caret : carried[front.length]? = some (Range.caret
      (r.start + totalGrowth ((front.map (replacing t 0)).map Prod.fst)).toNat) := by
    subst carried
    rw [placed] at holds ordered ⊢
    have found := getElem?_carryAll_single holds ordered
    rw [List.length_map, map_shifted_single holds ordered clear] at found
    exact found
  have at_span : carried[front.length + 1]? = some (Range.caret
      (r.start + totalGrowth ((front.map (replacing t 0)).map Prod.fst)).toNat) := by
    subst carried
    rw [placed'] at holds ordered ⊢
    have found := getElem?_carryAll_single holds ordered
    rw [List.length_append, List.length_map, List.length_singleton, map_shifted_touching holds ordered
      (shown.1.trans shown.2.symm) (touch.trans shown.2.symm) rfl] at found
    exact found
  exact at_caret.trans at_span.symm

theorem length_replacing_lt {s : EditState} (apart : s.selection.ranges.Pairwise Range.Apart)
    (sound : s.selection.Sound s.doc.size) (some_text : t ≠ []) (touches : ¬s.selection.SpansClear) :
    (Selection.ofRanges (Transaction.carryAll ((s.selection.ranges.map (replacing t 0)).map single)
      s.doc.size) s.selection.main).ranges.length < s.selection.ranges.length := by
  obtain ⟨r, first, q, second, caret, span, touch⟩ : ∃ r ∈ s.selection.ranges,
      ∃ q ∈ s.selection.ranges, r.isCaret = true ∧ q.isCaret = false ∧ q.start = r.head := by
    simpa [Selection.SpansClear] using touches
  obtain ⟨front, rest, parts⟩ := exists_touching apart first second caret span touch
  have inside := sound.inside
  rw [parts] at apart inside ⊢
  have same := getElem?_carryAll_touching apart inside some_text caret touch
  have carets : ∀ e ∈ ((front ++ r :: q :: rest).map (replacing t 0)).map single,
      e.range.isCaret = true := by
    rw [List.map_map]
    exact List.forall_mem_map.mpr fun x _ => beq_self_eq_true _
  have all_carets := isCaret_carryAll carets s.doc.size
  have length : (Transaction.carryAll (((front ++ r :: q :: rest).map (replacing t 0)).map single)
      s.doc.size).length = (front ++ r :: q :: rest).length := by
    simp [Transaction.carryAll]
  rw [← length]
  refine Selection.length_ofRanges_lt _ all_carets fun distinct => ?_
  have here : front.length < (Transaction.carryAll
      (((front ++ r :: q :: rest).map (replacing t 0)).map single) s.doc.size).length := by
    rw [length]
    simp
  have places := (List.getElem?_inj here distinct).mp same
  omega

end RangeEdit

section

variable {s : EditState} {t : Text}

theorem replaceRanges_eq (t : Text) (offset : Option Nat) (s : EditState) :
    replaceRanges t offset s = Transaction.ofEdits s ((s.selection.ranges.map
      (Range.replacing t (min (offset.getD t.size) t.size))).map RangeEdit.single) := by
  rw [List.map_map]
  rfl

theorem exists_replaceRanges (reached : s.Reachable) (some_text : t ≠ []) (offset : Option Nat) :
    ∃ made, replaceRanges t offset s = .ok made := by
  have holds := Range.forall_holds_replacing some_text (Nat.min_le_right (offset.getD t.size) t.size)
    reached.selection_sound.inside
  have accepted := RangeEdit.accepted_of_ahead holds
    (Range.ahead_replacing t _ reached.pairwise_apart)
  rw [replaceRanges_eq]
  exact ⟨_, Transaction.ofEdits_accepted (by rw [RangeEdit.flatMap_single]; exact accepted)⟩

/-- Replacing all ranges is never declined and puts one copy of the text in place of each. There are
as many carets as there were ranges, each in its own copy, unless the carets are to stand in front of
the copies and one of the ranges is a caret at the start of another. -/
theorem replaceRanges_carets_iff (reached : s.Reachable) (some_text : t ≠ []) (offset : Option Nat) :
    ∃ set selection, replaceRanges t offset s = .ok ⟨set, some selection⟩ ∧
      set = ⟨s.selection.ranges.map fun r => ⟨r.start, r.stop, t⟩, s.doc.size⟩ ∧
      (∀ s', s.next? ⟨set, some selection⟩ = some s' →
        Utf8.encode s'.text = set.splice (Utf8.encode s.text)) ∧
      ((∀ r ∈ s.selection.ranges, s.text.isBoundary r.start = true ∧
          s.text.isBoundary r.stop = true) →
        ∃ s' gaps, s.next? ⟨set, some selection⟩ = some s' ∧
          Text.Interleaved 0 gaps (s.selection.ranges.map fun r => s.text.slice r.start r.stop)
            (s.selection.ranges.map fun r => (r.start, r.stop)) s.text ∧
          Text.Interleaved 0 gaps (s.selection.ranges.map fun _ => t) set.changedSpans s'.text) ∧
      (selection.ranges.length = s.selection.ranges.length ↔
        0 < min (offset.getD t.size) t.size ∨ s.selection.SpansClear) ∧
      (0 < min (offset.getD t.size) t.size ∨ s.selection.SpansClear →
        selection = ⟨set.changedSpans.map fun span =>
          Range.caret (span.1 + min (offset.getD t.size) t.size), s.selection.main⟩) := by
  have apart := reached.pairwise_apart
  have sound := reached.selection_sound
  rw [replaceRanges_eq]
  generalize into_eq : min (offset.getD t.size) t.size = into
  have inner : into ≤ t.size := by omega
  have changes_eq : (s.selection.ranges.map (Range.replacing t into)).map Prod.fst =
      s.selection.ranges.map fun r => ⟨r.start, r.stop, t⟩ := by
    rw [List.map_map]
    rfl
  have holds := Range.forall_holds_replacing some_text inner sound.inside
  have accepted := RangeEdit.accepted_of_ahead holds (Range.ahead_replacing t into apart)
  have edits : Transaction.ofEdits s ((s.selection.ranges.map
      (Range.replacing t into)).map RangeEdit.single) = .ok _ :=
    Transaction.ofEdits_accepted (by rw [RangeEdit.flatMap_single]; exact accepted)
  rw [changes_eq] at accepted edits
  have in_copies : 0 < into ∨ s.selection.SpansClear →
      Selection.ofRanges (Transaction.carryAll ((s.selection.ranges.map
        (Range.replacing t into)).map RangeEdit.single) s.doc.size) s.selection.main =
      ⟨(spansFrom 0 (s.selection.ranges.map fun r => ⟨r.start, r.stop, t⟩)).map
        fun span => Range.caret (span.1 + into), s.selection.main⟩ := by
    intro clear
    have made := RangeEdit.ofEdits_replacing apart sound some_text inner clear
    rw [edits, changes_eq] at made
    exact Option.some.inj (Transaction.mk.inj (Except.ok.inj made)).2
  refine ⟨_, _, edits, rfl, ?_, ?_, ?_, in_copies⟩
  · intro s' next
    exact encode_applyTo? accepted (EditState.next?_changed rfl next).1
  · intro boundaries
    have whole : ∀ c ∈ s.selection.ranges.map fun r => (⟨r.start, r.stop, t⟩ : Change),
        c.Whole s.text := by
      intro c member
      obtain ⟨r, range, rfl⟩ := List.mem_map.mp member
      exact boundaries r range
    obtain ⟨s', next⟩ := EditState.next?_isSome (t := ⟨⟨_, s.doc.size⟩, _⟩) rfl whole
    have applied := (EditState.next?_changed rfl next).1
    obtain ⟨gaps, before, after⟩ := interleaved_of_applied accepted whole applied
    rw [List.map_map] at before after
    rw [List.map_map] at before
    exact ⟨s', gaps, next, before, after⟩
  · constructor
    · intro many
      by_contra touches
      rw [not_or] at touches
      have none_in : into = 0 := by omega
      subst none_in
      exact absurd many (RangeEdit.length_replacing_lt apart sound some_text touches.2).ne
    · intro clear
      rw [in_copies clear, List.length_map, length_spansFrom, List.length_map]

def caretAtSpan : EditState := .ofText ['a', 'b', 'c', 'd'] ⟨[⟨2, 2⟩, ⟨2, 4⟩], 1⟩ {}

theorem caretAtSpan_carets : ∃ set, replaceRanges ['X'] none caretAtSpan =
    .ok ⟨set, some ⟨[⟨3, 3⟩, ⟨4, 4⟩], 1⟩⟩ := by
  have reached : caretAtSpan.Reachable := .ofText _ _ _
  obtain ⟨set, selection, made, rfl, -, -, -, in_copies⟩ :=
    replaceRanges_carets_iff (t := ['X']) reached (by decide) none
  have selected : caretAtSpan.selection = ⟨[⟨2, 2⟩, ⟨2, 4⟩], 1⟩ := by cbv
  have carets := in_copies (Or.inl (by decide))
  rw [selected] at carets
  rw [made, carets]
  exact ⟨_, rfl⟩

theorem caretAtSpan_loses_caret : ¬∀ (s : EditState) (t : Text) (offset : Option Nat)
    (set : ChangeSet) (selection : Selection), s.Reachable → t ≠ [] →
    replaceRanges t offset s = .ok ⟨set, some selection⟩ →
    selection.ranges.length = s.selection.ranges.length := by
  intro all
  have made : replaceRanges ['X'] (some 0) caretAtSpan =
      .ok ⟨⟨[⟨2, 2, ['X']⟩, ⟨2, 4, ['X']⟩], 4⟩, some ⟨[⟨2, 2⟩], 0⟩⟩ := by cbv
  have many := all caretAtSpan ['X'] (some 0) _ _ (.ofText _ _ _) (by decide) made
  have ranges : caretAtSpan.selection.ranges.length = 2 := by cbv
  rw [ranges] at many
  cases many

end

end MarkdownEditing
