import Mathlib.Data.Rat.Cast.Order
import MarkdownEditing.Proofs.Edit.Session

namespace MarkdownEditing

namespace Range

variable {a b c last r q : Range}

/-- A place in the text or between two of its offsets lies in the range or at one of its ends. -/
def Covers (r : Range) (x : ℚ) : Prop := (r.start : ℚ) ≤ x ∧ x ≤ r.stop

def EndsAt (r : Range) (pos : Nat) : Prop := pos = r.anchor ∨ pos = r.head

def Contains (r q : Range) : Prop := r.start ≤ q.start ∧ q.stop ≤ r.stop

theorem joins_iff :
    last.joins r = true ↔ r.start < last.stop ∨ r.start = last.stop ∧ r.start = r.stop := by
  have caret : r.anchor = r.head ↔ r.start = r.stop := by
    rw [start, stop]
    omega
  rw [joins, isCaret, Bool.or_eq_true, Bool.and_eq_true, decide_eq_true_eq, beq_iff_eq, beq_iff_eq,
    caret]

theorem precedes_iff :
    a.precedes b = true ↔ a.start < b.start ∨ a.start = b.start ∧ a.stop ≤ b.stop := by
  rw [precedes, Bool.or_eq_true, Bool.and_eq_true, decide_eq_true_eq, beq_iff_eq, decide_eq_true_eq]

theorem start_le_of_precedes {rest : List Range}
    (order : (r :: rest).Pairwise fun a b => a.precedes b = true) :
    ∀ q ∈ rest, r.start ≤ q.start := by
  intro q member
  have behind := precedes_iff.mp (List.rel_of_pairwise_cons order member)
  omega

theorem precedes_trans (first : a.precedes b = true) (second : b.precedes c = true) :
    a.precedes c = true := by
  rw [precedes_iff] at *
  omega

theorem precedes_total (a b : Range) : a.precedes b = true ∨ b.precedes a = true := by
  rw [precedes_iff, precedes_iff]
  omega

theorem pairwise_mergeSort (ranges : List Range) :
    (ranges.mergeSort precedes).Pairwise fun a b => a.precedes b = true := by
  apply List.pairwise_mergeSort
  · exact fun a b c => precedes_trans
  · intro a b
    rw [Bool.or_eq_true]
    exact precedes_total a b

theorem stop_merge (last r : Range) : (last.merge r).stop = max last.stop r.stop := by
  have order := last.start_le_stop
  rw [merge]
  show max last.start (max last.stop r.stop) = max last.stop r.stop
  omega

theorem covers_merge (order : last.start ≤ r.start) (joined : last.joins r = true) {x : ℚ} :
    (last.merge r).Covers x ↔ last.Covers x ∨ r.Covers x := by
  have meet : (r.start : ℚ) ≤ last.stop := by
    rw [joins_iff] at joined
    exact_mod_cast (by omega : r.start ≤ last.stop)
  have first : (last.start : ℚ) ≤ r.start := by exact_mod_cast order
  rw [Covers, Covers, Covers, start_merge, stop_merge, Nat.cast_max, le_max_iff]
  constructor
  · rintro ⟨above, below | below⟩
    · exact Or.inl ⟨above, below⟩
    · rcases le_total (r.start : ℚ) x with inside | before
      · exact Or.inr ⟨inside, below⟩
      · exact Or.inl ⟨above, before.trans meet⟩
  · rintro (⟨above, below⟩ | ⟨above, below⟩)
    · exact ⟨above, Or.inl below⟩
    · exact ⟨first.trans above, Or.inr below⟩

theorem endsAt_start (r : Range) : r.EndsAt r.start := by
  rw [EndsAt, start]
  omega

theorem endsAt_stop (r : Range) : r.EndsAt r.stop := by
  rw [EndsAt, stop]
  omega

theorem endsAt_merge {pos : Nat} (ends : (last.merge r).EndsAt pos) :
    last.EndsAt pos ∨ r.EndsAt pos := by
  rcases ends with rfl | rfl
  · exact Or.inl last.endsAt_start
  · show last.EndsAt (max last.stop r.stop) ∨ r.EndsAt (max last.stop r.stop)
    rcases le_total last.stop r.stop with below | above
    · rw [max_eq_right below]
      exact Or.inr r.endsAt_stop
    · rw [max_eq_left above]
      exact Or.inl last.endsAt_stop

theorem Contains.refl (r : Range) : r.Contains r := ⟨le_rfl, le_rfl⟩

theorem Contains.merge (inside : last.Contains q) (r : Range) : (last.merge r).Contains q := by
  rw [Contains, start_merge, stop_merge]
  exact ⟨inside.1, le_max_of_le_left inside.2⟩

theorem contains_merge (order : last.start ≤ r.start) : (last.merge r).Contains r := by
  rw [Contains, start_merge, stop_merge]
  exact ⟨order, le_max_right _ _⟩

/-- One range lies apart before another: they do not overlap, and no caret sits at the end. -/
def Apart (a b : Range) : Prop := ¬a.joins b = true

theorem apart_iff : a.Apart b ↔ a.stop ≤ b.start ∧ ¬(b.start = a.stop ∧ b.start = b.stop) := by
  rw [Apart, joins_iff]
  omega

instance : Std.Irrefl Apart where
  irrefl a := by
    rw [apart_iff]
    have order := a.start_le_stop
    omega

theorem Apart.trans (first : a.Apart b) (second : b.Apart c) : a.Apart c := by
  rw [apart_iff] at *
  have order := b.start_le_stop
  omega

theorem Apart.merge (apart : a.Apart last) (r : Range) : a.Apart (last.merge r) := by
  rw [apart_iff] at *
  rw [start_merge, stop_merge]
  have order := last.start_le_stop
  omega

theorem Apart.precedes (apart : a.Apart b) : a.precedes b = true := by
  rw [apart_iff] at apart
  rw [precedes_iff]
  have order := a.start_le_stop
  have order' := b.start_le_stop
  omega

end Range

namespace Selection

open Range

variable {chosen r q : Range} {merged ranges ranges' : List Range} {main place : Nat}

def push : List Range → Range → List Range
  | [], r => [r]
  | last :: earlier, r => if last.joins r then last.merge r :: earlier else r :: last :: earlier

theorem mergeInto_cons (rest : List Range) : mergeInto chosen merged main (r :: rest) =
    mergeInto chosen (push merged r) (if r = chosen then (push merged r).length - 1 else main)
      rest := by
  cases merged <;> rfl

theorem ranges_mergeInto :
    (mergeInto chosen merged main ranges).ranges = (ranges.foldl push merged).reverse := by
  induction ranges generalizing merged main with
  | nil => rfl
  | cons r rest ih => rw [mergeInto_cons, ih, List.foldl_cons]

/-- The merged ranges (latest first) lie apart, and all of them start at or before `pos`. -/
structure Merged (merged : List Range) (pos : Nat) : Prop where
  apart : merged.Pairwise fun later earlier => earlier.Apart later
  before : ∀ r ∈ merged, r.start ≤ pos

theorem merged_nil (pos : Nat) : Merged [] pos := ⟨List.Pairwise.nil, by simp⟩

theorem Merged.push {pos : Nat} (sound : Merged merged pos) (order : pos ≤ r.start) :
    Merged (push merged r) r.start := by
  cases merged with
  | nil =>
    refine ⟨List.pairwise_singleton _ _, ?_⟩
    intro other member
    rw [List.mem_singleton.mp member]
  | cons last earlier =>
    have lower : ∀ other ∈ last :: earlier, other.start ≤ r.start := fun other member =>
      (sound.before other member).trans order
    rw [Selection.push]
    split
    · refine ⟨List.Pairwise.cons ?_ sound.apart.of_cons, ?_⟩
      · exact fun first member => (List.rel_of_pairwise_cons sound.apart member).merge r
      · intro other member
        rcases List.mem_cons.mp member with rfl | inside
        · rw [start_merge]
          exact lower last List.mem_cons_self
        · exact lower other (List.mem_cons_of_mem _ inside)
    · rename_i free
      refine ⟨List.Pairwise.cons ?_ sound.apart, ?_⟩
      · intro first member
        have next : last.Apart r := free
        rcases List.mem_cons.mp member with rfl | inside
        · exact next
        · exact (List.rel_of_pairwise_cons sound.apart inside).trans next
      · intro other member
        rcases List.mem_cons.mp member with rfl | inside
        · exact le_rfl
        · exact lower other inside

theorem covers_push {pos : Nat} (sound : Merged merged pos) (order : pos ≤ r.start) (x : ℚ) :
    (∃ q ∈ push merged r, q.Covers x) ↔ (∃ q ∈ merged, q.Covers x) ∨ r.Covers x := by
  cases merged with
  | nil => simp [push]
  | cons last earlier =>
    have first := (sound.before last List.mem_cons_self).trans order
    rw [push]
    split
    · rename_i joined
      simp only [List.exists_mem_cons_iff, covers_merge first joined]
      exact or_right_comm
    · simp only [List.exists_mem_cons_iff]
      exact or_comm

theorem endsAt_push {pos : Nat} (member : q ∈ push merged r) (ends : q.EndsAt pos) :
    (∃ p ∈ merged, p.EndsAt pos) ∨ r.EndsAt pos := by
  cases merged with
  | nil =>
    rw [List.mem_singleton.mp member] at ends
    exact Or.inr ends
  | cons last earlier =>
    rw [push] at member
    split at member
    · rcases List.mem_cons.mp member with rfl | inside
      · exact (endsAt_merge ends).imp_left fun here => ⟨last, List.mem_cons_self, here⟩
      · exact Or.inl ⟨q, List.mem_cons_of_mem _ inside, ends⟩
    · rcases List.mem_cons.mp member with rfl | inside
      · exact Or.inr ends
      · exact Or.inl ⟨q, inside, ends⟩

/-- Sorted ranges merge to ranges apart from each other that cover the same and end at ends of
theirs. -/
theorem foldl_push {pos : Nat} (sound : Merged merged pos)
    (order : ranges.Pairwise fun a b => a.precedes b = true)
    (after : ∀ r ∈ ranges, pos ≤ r.start) :
    (∃ last, Merged (ranges.foldl push merged) last) ∧
    (∀ x : ℚ, (∃ q ∈ ranges.foldl push merged, q.Covers x) ↔
      (∃ q ∈ merged, q.Covers x) ∨ ∃ q ∈ ranges, q.Covers x) ∧
    ∀ q ∈ ranges.foldl push merged, ∀ at_pos, q.EndsAt at_pos →
      (∃ p ∈ merged, p.EndsAt at_pos) ∨ ∃ p ∈ ranges, p.EndsAt at_pos := by
  induction ranges generalizing merged pos with
  | nil =>
    refine ⟨⟨pos, sound⟩, fun x => by simp, fun q member _ ends => Or.inl ⟨q, member, ends⟩⟩
  | cons r rest ih =>
    have first := after r List.mem_cons_self
    have later := start_le_of_precedes order
    obtain ⟨apart, covered, ended⟩ := ih (sound.push first) order.of_cons later
    refine ⟨apart, ?_, ?_⟩
    · intro x
      rw [List.foldl_cons, covered x, covers_push sound first x, List.exists_mem_cons_iff, or_assoc]
    · intro q member at_pos ends
      rcases ended q member at_pos ends with ⟨p, inside, here⟩ | ⟨p, inside, here⟩
      · rcases endsAt_push inside here with old | new
        · exact Or.inl old
        · exact Or.inr ⟨r, List.mem_cons_self, new⟩
      · exact Or.inr ⟨p, List.mem_cons_of_mem _ inside, here⟩

/-- The range at a place of the merged ones contains `q`. -/
def HoldsAt (merged : List Range) (place : Nat) (q : Range) : Prop :=
  ∃ r, merged.reverse[place]? = some r ∧ r.Contains q

theorem HoldsAt.push (holds : HoldsAt merged place q) (r : Range) :
    HoldsAt (push merged r) place q := by
  obtain ⟨p, found, inside⟩ := holds
  cases merged with
  | nil => simp at found
  | cons last earlier =>
    rw [List.reverse_cons] at found
    rw [Selection.push]
    split
    · rw [HoldsAt, List.reverse_cons]
      by_cases front : place < earlier.reverse.length
      · rw [List.getElem?_append_left front] at found ⊢
        exact ⟨p, found, inside⟩
      · rw [List.getElem?_append_right (by omega)] at found ⊢
        rw [List.getElem?_singleton] at found ⊢
        split at found
        · rename_i end_reached
          cases found
          rw [if_pos end_reached]
          exact ⟨_, rfl, inside.merge r⟩
        · cases found
    · refine ⟨p, ?_, inside⟩
      rw [List.reverse_cons, List.reverse_cons]
      exact (List.getElem?_append_left (List.getElem?_eq_some_iff.mp found).1).trans found

theorem holdsAt_pushed {pos : Nat} (sound : Merged merged pos) (order : pos ≤ r.start) :
    HoldsAt (push merged r) ((push merged r).length - 1) r := by
  cases merged with
  | nil => exact ⟨r, rfl, Contains.refl r⟩
  | cons last earlier =>
    have first := (sound.before last List.mem_cons_self).trans order
    rw [push]
    split
    · refine ⟨last.merge r, ?_, contains_merge first⟩
      simp
    · refine ⟨r, ?_, Contains.refl r⟩
      simp

theorem holdsAt_mergeInto {pos : Nat} (sound : Merged merged pos)
    (order : ranges.Pairwise fun a b => a.precedes b = true)
    (after : ∀ r ∈ ranges, pos ≤ r.start)
    (met : HoldsAt merged main chosen ∨ chosen ∈ ranges) :
    ∃ r, (mergeInto chosen merged main ranges).ranges[(mergeInto chosen merged main ranges).main]? =
      some r ∧ r.Contains chosen := by
  induction ranges generalizing merged main pos with
  | nil =>
    rcases met with holds | member
    · exact holds
    · cases member
  | cons r rest ih =>
    have first := after r List.mem_cons_self
    have later := start_le_of_precedes order
    rw [mergeInto_cons]
    apply ih (sound.push first) order.of_cons later
    split
    · rename_i same
      rw [← same]
      exact Or.inl (holdsAt_pushed sound first)
    · rename_i other
      rcases met with holds | member
      · exact Or.inl (holds.push r)
      · exact Or.inr ((List.mem_cons.mp member).resolve_left fun same => other same.symm)

/-- Two ranges with one span are put to the others in either order: if they are not carets, the later
one is merged into the earlier one, which loses its direction. -/
theorem push_comm (starts : r.start = q.start) (stops : r.stop = q.stop) (merged : List Range) :
    push (push merged r) q = push (push merged q) r := by
  have joined : ∀ last : Range, last.joins r = last.joins q := by
    intro last
    rw [Bool.eq_iff_iff, joins_iff, joins_iff, starts, stops]
  have merge_eq : ∀ last : Range, last.merge r = last.merge q := by
    intro last
    rw [merge, merge, stops]
  have same : r.merge q = q.merge r := by
    rw [merge, merge, starts, stops]
  have order := r.start_le_stop
  have self_joins : r.joins q = true ∧ q.joins r = true := by
    rw [joins_iff, joins_iff]
    omega
  cases merged with
  | nil => simp only [push, self_joins.1, self_joins.2, if_true, same]
  | cons last earlier =>
    by_cases free : last.joins q = true
    · have again : (last.merge q).joins q = true := by
        rw [joins_iff] at free
        rw [joins_iff, stop_merge]
        omega
      simp only [push, joined, merge_eq, free, again, if_true]
    · simp only [push, joined last, if_neg free, self_joins.1, self_joins.2, if_true, same]

theorem foldl_push_bubble (front back : List Range)
    (same : ∀ q ∈ front, r.start = q.start ∧ r.stop = q.stop) (merged : List Range) :
    (front ++ r :: back).foldl push merged = (front ++ back).foldl push (push merged r) := by
  induction front generalizing merged with
  | nil => rfl
  | cons q front ih =>
    obtain ⟨starts, stops⟩ := same q List.mem_cons_self
    have swapped := push_comm starts stops merged
    rw [List.cons_append, List.foldl_cons,
      ih (fun p member => same p (List.mem_cons_of_mem _ member)), List.cons_append,
      List.foldl_cons, swapped]

theorem foldl_push_perm (perm : ranges'.Perm ranges)
    (order : ranges.Pairwise fun a b => a.precedes b = true)
    (order' : ranges'.Pairwise fun a b => a.precedes b = true) (merged : List Range) :
    ranges'.foldl push merged = ranges.foldl push merged := by
  -- the head of one list stands in the other behind ranges with its span only
  induction ranges generalizing ranges' merged with
  | nil => rw [perm.eq_nil]
  | cons r rest ih =>
    obtain ⟨front, back, rfl⟩ := List.append_of_mem (perm.mem_iff.mpr List.mem_cons_self)
    have shorter : (front ++ back).Perm rest := (List.perm_middle.symm.trans perm).cons_inv
    have sorted : (front ++ back).Pairwise fun a b => a.precedes b = true :=
      order'.sublist ((List.Sublist.refl front).append (List.sublist_cons_self r back))
    rw [foldl_push_bubble front back ?_ merged, List.foldl_cons]
    · exact ih shorter order.of_cons sorted (push merged r)
    · intro q member
      have first := precedes_iff.mp ((List.pairwise_append.mp order').2.2 q member r
        List.mem_cons_self)
      have second := precedes_iff.mp (List.rel_of_pairwise_cons order
        (shorter.mem_iff.mp (List.mem_append_left back member)))
      omega

theorem mergeInto_of_apart (apart : (merged.reverse ++ ranges).Pairwise Apart)
    (found : (merged.reverse ++ ranges)[place]? = some chosen)
    (reached : place < merged.length → main = place) :
    mergeInto chosen merged main ranges = ⟨merged.reverse ++ ranges, place⟩ := by
  -- Nothing joins, so `merged` is always what has been read, last range first.
  induction ranges generalizing merged main with
  | nil =>
    rw [List.append_nil] at found ⊢
    have inside := (List.getElem?_eq_some_iff.mp found).1
    rw [mergeInto, reached (by rwa [List.length_reverse] at inside)]
  | cons r rest ih =>
    have pushed : push merged r = r :: merged := by
      cases merged with
      | nil => rfl
      | cons last earlier =>
        have free : last.Apart r := (List.pairwise_append.mp apart).2.2 last
          (List.mem_reverse.mpr List.mem_cons_self) r List.mem_cons_self
        exact if_neg free
    have shifted : (r :: merged).reverse ++ rest = merged.reverse ++ r :: rest := by
      rw [List.reverse_cons, List.append_assoc, List.singleton_append]
    have here : (merged.reverse ++ r :: rest)[merged.length]? = some r := by
      rw [List.getElem?_append_right (by rw [List.length_reverse]), List.length_reverse,
        Nat.sub_self, List.getElem?_cons_zero]
    rw [mergeInto_cons, pushed, ih (by rwa [shifted]) (by rwa [shifted]), shifted]
    intro before
    rw [List.length_cons] at before ⊢
    have distinct : (merged.reverse ++ r :: rest).Nodup :=
      apart.imp fun {a b} free => by
        rintro rfl
        exact Std.Irrefl.irrefl a free
    split
    · rename_i same
      rw [Nat.add_sub_cancel]
      have bound := (List.getElem?_eq_some_iff.mp here).1
      exact (List.getElem?_inj bound distinct).mp (by rw [here, found, same])
    · rename_i other
      apply reached
      have place_ne : place ≠ merged.length := by
        rintro rfl
        rw [here] at found
        exact other (Option.some.inj found)
      omega

theorem ofRanges_eq (found : ranges[min main (ranges.length - 1)]? = some chosen) :
    ofRanges ranges main = mergeInto chosen [] 0 (ranges.mergeSort precedes) := by
  rw [ofRanges, found]

theorem ranges_ofRanges (given : ranges ≠ []) (main : Nat) :
    (ofRanges ranges main).ranges = ((ranges.mergeSort precedes).foldl push []).reverse := by
  have inside : min main (ranges.length - 1) < ranges.length := by
    have length := List.length_pos_of_ne_nil given
    omega
  rw [ofRanges_eq (List.getElem?_eq_getElem inside), ranges_mergeInto]

theorem ranges_ofRanges_apart (given : ranges ≠ []) (main : Nat) :
    (ofRanges ranges main).ranges.Pairwise Apart := by
  obtain ⟨⟨_, merged⟩, _⟩ := foldl_push (merged_nil 0) (Range.pairwise_mergeSort ranges)
    fun r _ => Nat.zero_le r.start
  rw [ranges_ofRanges given main]
  exact List.pairwise_reverse.mpr merged.apart

theorem ranges_ofRanges_perm (given : ranges ≠ []) (perm : ranges'.Perm ranges)
    (main main' : Nat) : (ofRanges ranges' main').ranges = (ofRanges ranges main).ranges := by
  have given' : ranges' ≠ [] := by
    rintro rfl
    exact given perm.nil_eq.symm
  have sorted_perm := ((List.mergeSort_perm ranges' precedes).trans perm).trans
    (List.mergeSort_perm ranges precedes).symm
  rw [ranges_ofRanges given main, ranges_ofRanges given' main',
    foldl_push_perm sorted_perm (Range.pairwise_mergeSort ranges) (Range.pairwise_mergeSort ranges')]

theorem ofRanges_of_apart (apart : ranges.Pairwise Apart) (main_in : main < ranges.length) :
    ofRanges ranges main = ⟨ranges, main⟩ := by
  have found : ranges[main]? = some ranges[main] := List.getElem?_eq_getElem main_in
  have sorted : ranges.mergeSort precedes = ranges :=
    List.mergeSort_of_pairwise (apart.imp fun free => free.precedes)
  rw [ofRanges_eq (by rwa [Nat.min_eq_left (by omega)]), sorted]
  exact mergeInto_of_apart apart found fun none_merged => absurd none_merged (Nat.not_lt_zero _)

theorem clamp_of_apart {size : Nat} (apart : ranges.Pairwise Apart) (main_in : main < ranges.length)
    (inside : ∀ r ∈ ranges, r.Inside size) : clamp ⟨ranges, main⟩ size = ⟨ranges, main⟩ := by
  have same : ranges.map (·.clamp size) = ranges := by
    conv => rhs; rw [← List.map_id ranges]
    apply List.map_congr_left
    intro r member
    rw [Range.clamp, Nat.min_eq_left (inside r member).1, Nat.min_eq_left (inside r member).2]
    rfl
  rw [clamp, same]
  exact ofRanges_of_apart apart main_in

theorem apart_clamp (s : Selection) (size : Nat) : (s.clamp size).ranges.Pairwise Apart := by
  rw [clamp]
  by_cases given : s.ranges.map (·.clamp size) = []
  · rw [given]
    exact List.pairwise_singleton _ _
  · exact ranges_ofRanges_apart given s.main

/-- A selection is a normal form of the ranges it is made of: they are in order and apart, cover the
same places, end at given ends, and depend on nothing else. The main range contains the chosen one,
and made again from its own ranges the selection stays as it is. -/
theorem ofRanges_canonical {ranges : List Range} (given : ranges ≠ []) (main : Nat) :
    (ofRanges ranges main).ranges ≠ [] ∧
    ((ofRanges ranges main).ranges.Pairwise fun a b =>
      a.start < b.start ∨ a.start = b.start ∧ a.stop < b.stop) ∧
    ((ofRanges ranges main).ranges.Pairwise fun a b => a.stop ≤ b.start) ∧
    ((ofRanges ranges main).ranges.Pairwise fun a b => ¬(b.isCaret = true ∧ b.head = a.stop)) ∧
    (∀ x : ℚ, (∃ r ∈ (ofRanges ranges main).ranges, r.Covers x) ↔ ∃ r ∈ ranges, r.Covers x) ∧
    (∀ r ∈ (ofRanges ranges main).ranges, ∀ pos, r.EndsAt pos → ∃ q ∈ ranges, q.EndsAt pos) ∧
    (∃ chosen r, ranges[min main (ranges.length - 1)]? = some chosen ∧
      (ofRanges ranges main).ranges[(ofRanges ranges main).main]? = some r ∧ r.Contains chosen) ∧
    (∀ (ranges' : List Range) (main' : Nat), ranges'.Perm ranges →
      (ofRanges ranges' main').ranges = (ofRanges ranges main).ranges) ∧
    ofRanges (ofRanges ranges main).ranges (ofRanges ranges main).main = ofRanges ranges main := by
  have inside : min main (ranges.length - 1) < ranges.length := by
    have length := List.length_pos_of_ne_nil given
    omega
  have found := List.getElem?_eq_getElem inside
  generalize ranges[min main (ranges.length - 1)] = chosen at found
  have sorted := Range.pairwise_mergeSort ranges
  have members : ∀ r, r ∈ ranges.mergeSort precedes ↔ r ∈ ranges := fun _ => List.mem_mergeSort
  have first : ∀ r ∈ ranges.mergeSort precedes, 0 ≤ r.start := fun r _ => Nat.zero_le r.start
  have result := ranges_ofRanges given main
  obtain ⟨_, covered, ended⟩ := foldl_push (merged_nil 0) sorted first
  have apart := ranges_ofRanges_apart given main
  obtain ⟨r, main_found, contains⟩ := holdsAt_mergeInto (merged_nil 0) sorted first
    (Or.inr ((members chosen).mpr (List.mem_of_getElem? found)))
  rw [← ofRanges_eq found] at main_found
  have bound := (List.getElem?_eq_some_iff.mp main_found).1
  refine ⟨?_, ?_, ?_, ?_, ?_, ?_, ⟨chosen, r, found, main_found, contains⟩, ?_, ?_⟩
  · exact List.ne_nil_of_length_pos (by omega)
  · refine apart.imp fun {a b} free => ?_
    rw [apart_iff] at free
    have order := a.start_le_stop
    have order' := b.start_le_stop
    omega
  · exact apart.imp fun free => (apart_iff.mp free).1
  · refine apart.imp fun {a b} free => ?_
    rintro ⟨caret, here⟩
    rw [isCaret, beq_iff_eq] at caret
    rw [apart_iff, Range.start, Range.stop, Range.stop] at free
    rw [Range.stop] at here
    omega
  · intro x
    rw [result]
    simpa only [List.mem_reverse, members, List.not_mem_nil, false_and, exists_false, false_or]
      using covered x
  · intro r member pos ends
    rw [result, List.mem_reverse] at member
    rcases ended r member pos ends with ⟨_, none_merged, _⟩ | ⟨q, inside, here⟩
    · cases none_merged
    · exact ⟨q, (members q).mp inside, here⟩
  · exact fun ranges' main' perm => ranges_ofRanges_perm given perm main main'
  · -- ranges that are apart are sorted, and none joins the one before it
    have kept : (ofRanges ranges main).ranges.mergeSort precedes = (ofRanges ranges main).ranges :=
      List.mergeSort_of_pairwise (apart.imp fun free => free.precedes)
    rw [ofRanges_eq (by rwa [Nat.min_eq_left (by omega)]), kept]
    exact mergeInto_of_apart apart main_found fun none_merged =>
      absurd none_merged (Nat.not_lt_zero _)

def touchingRanges : List Range := [⟨7, 7⟩, ⟨4, 2⟩, ⟨4, 4⟩, ⟨2, 4⟩, ⟨2, 2⟩]

theorem touchingRanges_canonical :
    touchingRanges ≠ [] ∧ ofRanges touchingRanges 3 = ⟨[⟨2, 2⟩, ⟨2, 4⟩, ⟨7, 7⟩], 1⟩ ∧
      (ofRanges touchingRanges.reverse 0).ranges = [⟨2, 2⟩, ⟨2, 4⟩, ⟨7, 7⟩] := by
  have given : touchingRanges ≠ [] := by decide
  have made : ofRanges touchingRanges 3 = ⟨[⟨2, 2⟩, ⟨2, 4⟩, ⟨7, 7⟩], 1⟩ := by cbv
  obtain ⟨_, _, _, _, _, _, _, perm, _⟩ := ofRanges_canonical given 3
  refine ⟨given, made, ?_⟩
  rw [perm touchingRanges.reverse 0 (List.reverse_perm _), made]

end Selection

namespace EditState

variable {s : EditState}

theorem Reachable.pairwise_apart (reached : s.Reachable) :
    s.selection.ranges.Pairwise Range.Apart := by
  induction reached with
  | ofText t selection settings => exact selection.apart_clamp _
  | withSelection _ selection => exact selection.apart_clamp _
  | @withSettings s _ settings => exact s.selection.apart_clamp _
  | @next s s' t _ next apart =>
    rw [next?] at next
    split at next
    · cases next
      exact apart
    · obtain ⟨_, _, made⟩ := Option.bind_eq_some_iff.mp next
      cases made
      exact Selection.apart_clamp _ _

theorem Reachable.selection_sound (reached : s.Reachable) : s.selection.Sound s.doc.size := by
  induction reached with
  | ofText t selection settings => exact selection.sound_clamp _
  | withSelection _ selection => exact selection.sound_clamp _
  | @withSettings s _ settings => exact s.selection.sound_clamp _
  | @next s s' t _ next sound =>
    rw [next?] at next
    split at next
    · cases next
      exact sound
    · obtain ⟨_, _, made⟩ := Option.bind_eq_some_iff.mp next
      cases made
      exact Selection.sound_clamp _ _

end EditState

end MarkdownEditing
