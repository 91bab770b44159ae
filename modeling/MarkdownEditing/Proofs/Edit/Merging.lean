import Mathlib.Data.List.Pairwise
import MarkdownEditing.Proofs.Edit.Canonical

namespace MarkdownEditing

namespace Range

variable {a b p q r : Range}

def SameSpan (a b : Range) : Prop := a.start = b.start ∧ a.stop = b.stop

theorem apart_or {ranges : List Range} (apart : ranges.Pairwise Apart) (first : a ∈ ranges)
    (second : b ∈ ranges) (other : a ≠ b) : a.Apart b ∨ b.Apart a := by
  have symm : Std.Symm fun a b : Range => a.Apart b ∨ b.Apart a := ⟨fun _ _ => Or.symm⟩
  have either : ranges.Pairwise fun a b => a.Apart b ∨ b.Apart a := apart.imp Or.inl
  exact either.forall first second other

/-- A range in front of `q` that merging keeps from reaching beyond it. -/
def Yields (p q : Range) : Prop := p.Apart q ∨ q.Contains p

theorem Yields.merge (joined : a.joins b = true) (first : a.Yields q) (second : b.Yields q) :
    (a.merge b).Yields q := by
  rw [Yields, apart_iff, Contains] at *
  rw [start_merge, stop_merge]
  rw [joins_iff] at joined
  have forward := a.start_le_stop
  have forward' := b.start_le_stop
  omega

theorem SameSpan.merge (same : p.SameSpan q) (joined : p.joins r = true)
    (beside : r.Yields q ∨ q.Apart r) : (p.merge r).SameSpan q := by
  rw [SameSpan] at *
  rw [Yields, apart_iff, apart_iff, Contains] at beside
  rw [start_merge, stop_merge]
  rw [joins_iff] at joined
  have forward := q.start_le_stop
  have forward' := r.start_le_stop
  omega

end Range

namespace Selection

open Range

variable {P : Range → Prop} {r : Range} {merged ranges : List Range} {pos : Nat}

theorem forall_foldl_push (merges : ∀ a b, a.start ≤ b.start → a.joins b = true → P a → P b →
      P (a.merge b)) (sound : Merged merged pos)
    (order : ranges.Pairwise fun a b => a.precedes b = true) (after : ∀ r ∈ ranges, pos ≤ r.start)
    (done : ∀ q ∈ merged, P q) (left : ∀ r ∈ ranges, P r) :
    ∀ q ∈ ranges.foldl push merged, P q := by
  induction ranges generalizing merged pos with
  | nil => exact done
  | cons r rest ih =>
    have first := after r List.mem_cons_self
    have later := start_le_of_precedes order
    refine ih (sound.push first) order.of_cons later ?_ fun q member =>
      left q (List.mem_cons_of_mem _ member)
    have here := left r List.mem_cons_self
    cases merged with
    | nil =>
      intro q member
      rw [List.mem_singleton.mp member]
      exact here
    | cons last earlier =>
      rw [List.forall_mem_cons] at done
      have before := (sound.before last List.mem_cons_self).trans first
      rw [push]
      split
      · rename_i joined
        exact List.forall_mem_cons.mpr ⟨merges last r before joined done.1 here, done.2⟩
      · exact List.forall_mem_cons.mpr ⟨here, List.forall_mem_cons.mpr done⟩

theorem contains_push {q : Range} (sound : Merged merged pos) (order : pos ≤ r.start)
    (met : (∃ p ∈ merged, p.Contains q) ∨ r = q) : ∃ p ∈ push merged r, p.Contains q := by
  cases merged with
  | nil =>
    rcases met with ⟨p, member, _⟩ | rfl
    · cases member
    · exact ⟨r, List.mem_singleton_self r, .refl r⟩
  | cons last earlier =>
    have before := (sound.before last List.mem_cons_self).trans order
    rw [push]
    split <;> rcases met with ⟨p, member, inside⟩ | rfl
    · rcases List.mem_cons.mp member with rfl | member
      · exact ⟨p.merge r, List.mem_cons_self, inside.merge r⟩
      · exact ⟨p, List.mem_cons_of_mem _ member, inside⟩
    · exact ⟨last.merge r, List.mem_cons_self, contains_merge before⟩
    · exact ⟨p, List.mem_cons_of_mem _ member, inside⟩
    · exact ⟨r, List.mem_cons_self, .refl r⟩

theorem contains_foldl_push {q : Range} (sound : Merged merged pos)
    (order : ranges.Pairwise fun a b => a.precedes b = true) (after : ∀ r ∈ ranges, pos ≤ r.start)
    (met : (∃ p ∈ merged, p.Contains q) ∨ q ∈ ranges) :
    ∃ p ∈ ranges.foldl push merged, p.Contains q := by
  induction ranges generalizing merged pos with
  | nil => exact met.resolve_right List.not_mem_nil
  | cons r rest ih =>
    have first := after r List.mem_cons_self
    have later := start_le_of_precedes order
    refine ih (sound.push first) order.of_cons later ?_
    rcases met with held | member
    · exact Or.inl (contains_push sound first (Or.inl held))
    · rcases List.mem_cons.mp member with rfl | member
      · exact Or.inl (contains_push sound first (Or.inr rfl))
      · exact Or.inr member

theorem forall_ofRanges (main : Nat) (merges : ∀ a b, a.start ≤ b.start → a.joins b = true →
      P a → P b → P (a.merge b)) (given : ranges ≠ []) (each : ∀ r ∈ ranges, P r) :
    ∀ q ∈ (ofRanges ranges main).ranges, P q := by
  intro q member
  rw [ranges_ofRanges given, List.mem_reverse] at member
  exact forall_foldl_push merges (merged_nil 0) (pairwise_mergeSort ranges)
    (fun r _ => Nat.zero_le r.start) (fun q none => nomatch none)
    (fun r inside => each r (List.mem_mergeSort.mp inside)) q member

theorem contains_ofRanges (main : Nat) (member : r ∈ ranges) :
    ∃ q ∈ (ofRanges ranges main).ranges, q.Contains r := by
  obtain ⟨q, inside, contains⟩ := contains_foldl_push (merged_nil 0) (pairwise_mergeSort ranges)
    (fun r _ => Nat.zero_le r.start) (Or.inr (List.mem_mergeSort.mpr member))
  refine ⟨q, ?_, contains⟩
  rw [ranges_ofRanges (List.ne_nil_of_mem member), List.mem_reverse]
  exact inside

theorem sameSpan_push (done : ∀ p ∈ merged, p.Yields r) (before : ∀ p ∈ merged, p.start ≤ r.start) :
    ∃ p ∈ push merged r, p.SameSpan r := by
  cases merged with
  | nil => exact ⟨r, List.mem_singleton_self r, rfl, rfl⟩
  | cons last earlier =>
    have order := before last List.mem_cons_self
    rw [push]
    split
    · rename_i joined
      have inside : r.Contains last := (done last List.mem_cons_self).resolve_left fun apart =>
        apart joined
      refine ⟨last.merge r, List.mem_cons_self, ?_⟩
      rw [SameSpan, start_merge, stop_merge]
      exact ⟨Nat.le_antisymm order inside.1, Nat.max_eq_right inside.2⟩
    · exact ⟨r, List.mem_cons_self, rfl, rfl⟩

theorem sameSpan_foldl_push {q : Range} (beside : ∀ r ∈ ranges, r.Yields q ∨ q.Apart r)
    (held : ∃ p ∈ merged, p.SameSpan q) :
    ∃ p ∈ ranges.foldl push merged, p.SameSpan q := by
  induction ranges generalizing merged with
  | nil => exact held
  | cons r rest ih =>
    rw [List.forall_mem_cons] at beside
    refine ih beside.2 ?_
    obtain ⟨p, member, same⟩ := held
    cases merged with
    | nil => cases member
    | cons last earlier =>
      rw [push]
      split
      · rename_i joined
        rcases List.mem_cons.mp member with rfl | member
        · exact ⟨p.merge r, List.mem_cons_self, same.merge joined beside.1⟩
        · exact ⟨p, List.mem_cons_of_mem _ member, same⟩
      · exact ⟨p, List.mem_cons_of_mem _ member, same⟩

/-- A range keeps its span if each of the others is apart from it or lies in it. -/
theorem sameSpan_ofRanges {q : Range} (main : Nat) (member : q ∈ ranges)
    (beside : ∀ r ∈ ranges, r.Yields q ∨ q.Apart r) :
    ∃ p ∈ (ofRanges ranges main).ranges, p.SameSpan q := by
  have order := pairwise_mergeSort ranges
  obtain ⟨front, back, parts⟩ := List.append_of_mem (List.mem_mergeSort.mpr member)
  have beside' : ∀ r ∈ front ++ q :: back, r.Yields q ∨ q.Apart r := by
    rw [← parts]
    exact fun r inside => beside r (List.mem_mergeSort.mp inside)
  rw [ranges_ofRanges (List.ne_nil_of_mem member)]
  rw [parts] at order ⊢
  obtain ⟨ordered, ordered', across⟩ := List.pairwise_append.mp order
  -- a range that is sorted in front of `q` is not apart behind it
  have yields : ∀ r ∈ front, r.Yields q := by
    intro r inside
    refine (beside' r (List.mem_append_left _ inside)).resolve_right fun apart => ?_
    have first := precedes_iff.mp (across r inside q List.mem_cons_self)
    have forward := q.start_le_stop
    have forward' := r.start_le_stop
    rw [apart_iff] at apart
    omega
  have done := forall_foldl_push (fun a b _ => Yields.merge) (merged_nil 0) ordered
    (fun r _ => Nat.zero_le r.start) (fun p none => nomatch none) yields
  have before := forall_foldl_push (P := fun p => p.start ≤ q.start)
    (fun a b _ _ first _ => by rwa [start_merge]) (merged_nil 0) ordered
    (fun r _ => Nat.zero_le r.start) (fun p none => nomatch none) fun r inside => by
      have first := precedes_iff.mp (across r inside q List.mem_cons_self)
      omega
  obtain ⟨p, found, same⟩ := sameSpan_foldl_push
    (fun r inside => beside' r (List.mem_append_right _ (List.mem_cons_of_mem _ inside)))
    (sameSpan_push done before)
  refine ⟨p, ?_, same⟩
  rw [List.mem_reverse, List.foldl_append]
  exact found

theorem Sound.getElem?_main {s : Selection} {size : Nat} (sound : s.Sound size) :
    s.ranges[s.main]? = some s.mainRange := by
  rw [mainRange, List.getElem?_eq_getElem sound.main, Option.getD_some]

theorem contains_mainRange {chosen : Range} {main : Nat}
    (found : ranges[min main (ranges.length - 1)]? = some chosen) :
    (ofRanges ranges main).mainRange ∈ (ofRanges ranges main).ranges ∧
      (ofRanges ranges main).mainRange.Contains chosen := by
  have member : chosen ∈ ranges.mergeSort precedes :=
    List.mem_mergeSort.mpr (List.mem_of_getElem? found)
  obtain ⟨r, main_found, contains⟩ := holdsAt_mergeInto (merged_nil 0) (pairwise_mergeSort ranges)
    (fun r _ => Nat.zero_le r.start) (Or.inr member)
  rw [← ofRanges_eq found] at main_found
  rw [mainRange, main_found, Option.getD_some]
  exact ⟨List.mem_of_getElem? main_found, contains⟩

theorem clamp_ofRanges {size : Nat} (given : ranges ≠ []) (main : Nat)
    (inside : ∀ r ∈ ranges, r.Inside size) :
    (ofRanges ranges main).clamp size = ofRanges ranges main := by
  have sound := sound_ofRanges main inside
  exact clamp_of_apart (ranges_ofRanges_apart given main) sound.main sound.inside

end Selection

end MarkdownEditing
