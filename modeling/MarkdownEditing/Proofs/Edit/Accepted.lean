import Mathlib.Data.List.Pairwise
import Mathlib.Data.List.Sort
import MarkdownEditing.Proofs.Edit.Changes

namespace MarkdownEditing

namespace Change

def Before (a b : Change) : Prop := a.stop ≤ b.start ∧ a.start < b.stop

instance : Std.Irrefl Before where
  irrefl a := by
    intro before
    rw [Before] at before
    omega

instance : Std.Antisymm Before where
  antisymm a b := by
    intro first second
    rw [Before] at first second
    omega

variable {a b c : Change}

theorem precedes_iff :
    a.precedes b = true ↔ a.start < b.start ∨ (a.start = b.start ∧ a.stop ≤ b.stop) := by
  simp only [precedes, Bool.or_eq_true, Bool.and_eq_true, decide_eq_true_eq, beq_iff_eq]

theorem pairwise_sorted (changes : List Change) :
    (changes.mergeSort precedes).Pairwise fun a b => a.precedes b = true := by
  apply List.pairwise_mergeSort
  · intro a b c first second
    rw [precedes_iff] at *
    omega
  · intro a b
    rw [Bool.or_eq_true, precedes_iff, precedes_iff]
    omega

def Separate (a b : Change) : Prop := a = b ∨ a.Before b ∨ b.Before a

instance : Std.Symm Separate where
  symm a b := by
    rintro (same | before | behind)
    · exact Or.inl same.symm
    · exact Or.inr (Or.inr before)
    · exact Or.inr (Or.inl behind)

theorem separate_of_pairwise {changes : List Change} (separated : changes.Pairwise Separate)
    (first : a ∈ changes) (second : b ∈ changes) : a.Separate b := by
  by_cases same : a = b
  · exact Or.inl same
  · exact separated.forall first second same

theorem Separate.before (separate : a.Separate b) (other : a ≠ b) (order : a.precedes b = true)
    (forward : b.start ≤ b.stop) : a.Before b := by
  rcases separate with same | before | behind
  · exact absurd same other
  · exact before
  · rw [precedes_iff] at order
    rw [Before] at behind
    omega

end Change

namespace ChangeSet

variable {changes target : List Change} {size : Nat} {s : ChangeSet}

theorem pairwise_dropRepeats (sorted : changes.Pairwise fun a b => a.precedes b = true)
    (separate : ∀ a ∈ changes, ∀ b ∈ changes, a.Separate b)
    (forward : ∀ c ∈ changes, c.start ≤ c.stop) : (dropRepeats changes).Pairwise Change.Before := by
  fun_induction dropRepeats changes with
  | case1 => exact List.Pairwise.nil
  | case2 c => exact List.pairwise_singleton _ c
  | case3 d rest ih =>
    have later : ∀ e ∈ d :: rest, e ∈ d :: d :: rest := fun e member =>
      List.mem_cons_of_mem _ member
    exact ih sorted.of_cons
      (fun a first b second => separate a (later a first) b (later b second))
      fun e member => forward e (later e member)
  | case4 c d rest other ih =>
    have later : ∀ e ∈ d :: rest, e ∈ c :: d :: rest := fun e member =>
      List.mem_cons_of_mem _ member
    have head : c ∈ c :: d :: rest := List.mem_cons_self
    refine List.Pairwise.cons ?_ (ih sorted.of_cons
      (fun a first b second => separate a (later a first) b (later b second))
      fun e member => forward e (later e member))
    intro e member
    have inside := mem_dropRepeats.mp member
    have order := List.rel_of_pairwise_cons sorted inside
    refine (separate c head e (later e inside)).before ?_ order (forward e (later e inside))
    -- a change equal to `c` would have `d` between two changes with the same ends
    rintro rfl
    have first := List.rel_of_pairwise_cons sorted (List.mem_cons_self (a := d) (l := rest))
    have apart := (separate c head d (later d List.mem_cons_self)).before other first
      (forward d (later d List.mem_cons_self))
    rcases List.mem_cons.mp inside with same | behind
    · exact other same
    · have back := List.rel_of_pairwise_cons sorted.of_cons behind
      rw [Change.precedes_iff] at first back
      rw [Change.Before] at apart
      omega

theorem firstOverlap?_eq_none (apart : changes.Pairwise Change.Before) :
    firstOverlap? changes = none := by
  fun_induction firstOverlap? changes with
  | case1 c d rest overlaps =>
    have before := List.rel_of_pairwise_cons apart (List.mem_cons_self (a := d) (l := rest))
    rw [Change.Before] at before
    omega
  | case2 c d rest _ ih => exact ih apart.of_cons
  | case3 => rfl

theorem firstOutOfBounds?_eq_none (inside : ∀ c ∈ changes, c.start ≤ c.stop ∧ c.stop ≤ size) :
    firstOutOfBounds? size changes = none := by
  rw [firstOutOfBounds?, Option.map_eq_none_iff, List.find?_eq_none]
  intro c member
  have bounds := inside c member
  simp only [Bool.or_eq_true, decide_eq_true_eq]
  omega

theorem ofChanges_of_mem (apart : target.Pairwise Change.Before)
    (inside : ∀ c ∈ target, c.start ≤ c.stop ∧ c.stop ≤ size)
    (same : ∀ c, c ∈ target ↔ c ∈ changes ∧ c.isNoop = false) :
    ofChanges changes size = .ok ⟨target, size⟩ := by
  generalize sorted_eq : (changes.filter fun c => !c.isNoop).mergeSort Change.precedes = sorted
  have order : sorted.Pairwise fun a b => a.precedes b = true := by
    rw [← sorted_eq]
    exact Change.pairwise_sorted _
  have members : ∀ c, c ∈ sorted ↔ c ∈ target := by
    intro c
    rw [← sorted_eq, List.mem_mergeSort, List.mem_filter, same c]
    simp only [Bool.not_eq_eq_eq_not, Bool.not_true]
  have separate : ∀ a ∈ sorted, ∀ b ∈ sorted, a.Separate b := by
    intro a first b second
    have separated : target.Pairwise Change.Separate :=
      apart.imp fun before => Or.inr (Or.inl before)
    exact Change.separate_of_pairwise separated ((members a).mp first) ((members b).mp second)
  have result : dropRepeats sorted = target := by
    refine (pairwise_dropRepeats order separate fun c member =>
      (inside c ((members c).mp member)).1).eq_of_mem_iff apart ?_
    intro c
    rw [mem_dropRepeats, members c]
  simp only [ofChanges, sorted_eq, result, firstOutOfBounds?_eq_none inside,
    firstOverlap?_eq_none apart]

theorem ofChanges_before (made : ofChanges changes size = .ok s)
    (single : ∀ a ∈ s.changes, ∀ b ∈ s.changes, a.start = a.stop → b.start = b.stop →
      a.start = b.start → a = b) : s.changes.Pairwise Change.Before := by
  have bounds := ofChanges_bounds made
  have members : ∀ c, c ∈ (changes.filter fun c => !c.isNoop).mergeSort Change.precedes ↔
      c ∈ s.changes := by
    intro c
    rw [(ofChanges_ok made).1, mem_dropRepeats]
  rw [(ofChanges_ok made).1]
  apply pairwise_dropRepeats
  · exact Change.pairwise_sorted _
  · intro a first b second
    have separated : s.changes.Pairwise Change.Separate := by
      refine (ofChanges_follows made).pairwise.imp_of_mem fun {c d} inside inside' order => ?_
      have forward := (bounds c inside).1
      have forward' := (bounds d inside').1
      by_cases apart : c.start < d.stop
      · exact Or.inr (Or.inl ⟨order, apart⟩)
      · exact Or.inl (single c inside d inside' (by omega) (by omega) (by omega))
    exact Change.separate_of_pairwise separated ((members a).mp first) ((members b).mp second)
  · exact fun c member => (bounds c ((members c).mp member)).1

end ChangeSet

end MarkdownEditing
