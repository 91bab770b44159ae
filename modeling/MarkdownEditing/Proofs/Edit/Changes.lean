import Mathlib.Data.List.Forall2
import MarkdownEditing.Edit.ByRange

namespace MarkdownEditing

theorem Change.growth_eq {c : Change} (forward : c.start ≤ c.stop) :
    c.growth = c.insert.size - (c.stop - c.start : Int) := by
  rw [growth]
  omega

namespace ChangeSet

variable {changes : List Change} {size : Nat} {s : ChangeSet} {c : Change}

theorem mem_dropRepeats : c ∈ dropRepeats changes ↔ c ∈ changes := by
  fun_induction dropRepeats changes with
  | case1 => simp
  | case2 => simp
  | case3 d rest ih => rw [ih, List.mem_cons (b := d) (l := d :: rest)]; simp
  | case4 b d rest _ ih => rw [List.mem_cons, ih, List.mem_cons (b := b)]

def Ordered : List Change → Prop
  | [] => True
  | [_] => True
  | c :: d :: rest => c.stop ≤ d.start ∧ Ordered (d :: rest)

theorem ordered_of_firstOverlap? (clear : firstOverlap? changes = none) : Ordered changes := by
  fun_induction Ordered changes with
  | case1 => exact True.intro
  | case2 => exact True.intro
  | case3 c d rest ih =>
    simp only [firstOverlap?] at clear
    split at clear
    · cases clear
    · exact ⟨by omega, ih clear⟩

theorem bounds_of_firstOutOfBounds? (clear : firstOutOfBounds? size changes = none) :
    ∀ c ∈ changes, c.start ≤ c.stop ∧ c.stop ≤ size := by
  intro c member
  have nowhere := List.find?_eq_none.mp (Option.map_eq_none_iff.mp clear) c member
  simp only [Bool.or_eq_true, decide_eq_true_eq, not_or] at nowhere
  omega

theorem ofChanges_ok (made : ofChanges changes size = .ok s) :
    s.changes = dropRepeats ((changes.filter fun c => !c.isNoop).mergeSort Change.precedes) ∧
      s.size = size ∧ firstOutOfBounds? size s.changes = none ∧
      firstOverlap? s.changes = none := by
  simp only [ofChanges] at made
  split at made
  · cases made
  · cases made
  · rename_i inside apart
    cases made
    exact ⟨rfl, rfl, inside, apart⟩

theorem ofChanges_nil (size : Nat) : ofChanges [] size = .ok (empty size) := by
  simp [ofChanges, dropRepeats, firstOutOfBounds?, firstOverlap?, empty]

theorem ofChanges_size (made : ofChanges changes size = .ok s) : s.size = size :=
  (ofChanges_ok made).2.1

theorem mem_ofChanges (made : ofChanges changes size = .ok s) :
    c ∈ s.changes ↔ c ∈ changes ∧ c.isNoop = false := by
  rw [(ofChanges_ok made).1, mem_dropRepeats, List.mem_mergeSort, List.mem_filter]
  simp

theorem ofChanges_bounds (made : ofChanges changes size = .ok s) :
    ∀ c ∈ s.changes, c.start ≤ c.stop ∧ c.stop ≤ size :=
  bounds_of_firstOutOfBounds? (ofChanges_ok made).2.2.1

theorem ofChanges_ordered (made : ofChanges changes size = .ok s) : Ordered s.changes :=
  ordered_of_firstOverlap? (ofChanges_ok made).2.2.2

def Follows : Nat → List Change → Prop
  | _, [] => True
  | pos, c :: rest => pos ≤ c.start ∧ c.start ≤ c.stop ∧ Follows c.stop rest

theorem follows_of_ordered {pos : Nat} (ordered : Ordered changes)
    (forward : ∀ c ∈ changes, c.start ≤ c.stop) (first : ∀ c ∈ changes.head?, pos ≤ c.start) :
    Follows pos changes := by
  induction changes generalizing pos with
  | nil => exact True.intro
  | cons c rest ih =>
    refine ⟨first c rfl, forward c List.mem_cons_self, ?_⟩
    have later : ∀ d ∈ rest, d.start ≤ d.stop := fun d member =>
      forward d (List.mem_cons_of_mem _ member)
    cases rest with
    | nil => exact True.intro
    | cons d rest =>
      apply ih ordered.2 later
      intro e same
      cases same
      exact ordered.1

theorem ofChanges_follows (made : ofChanges changes size = .ok s) : Follows 0 s.changes :=
  follows_of_ordered (ofChanges_ordered made) (fun c member => (ofChanges_bounds made c member).1)
    fun _ _ => Nat.zero_le _

namespace Follows

variable {pos lower : Nat}

theorem mono (follows : Follows pos changes) (below : lower ≤ pos) : Follows lower changes := by
  cases changes with
  | nil => exact True.intro
  | cons d rest => exact ⟨Nat.le_trans below follows.1, follows.2⟩

theorem forall_le (follows : Follows pos changes) :
    ∀ c ∈ changes, pos ≤ c.start ∧ c.start ≤ c.stop := by
  induction changes generalizing pos with
  | nil => simp
  | cons d rest ih =>
    obtain ⟨first, forward, later⟩ := follows
    intro c member
    rcases List.mem_cons.mp member with rfl | member
    · exact ⟨first, forward⟩
    · have inside := ih later c member
      omega

theorem filter (follows : Follows pos changes) (p : Change → Bool) :
    Follows pos (changes.filter p) := by
  induction changes generalizing pos with
  | nil => exact True.intro
  | cons d rest ih =>
    obtain ⟨first, forward, later⟩ := follows
    rw [List.filter_cons]
    split
    · exact ⟨first, forward, ih later⟩
    · exact (ih later).mono (by omega)

theorem pairwise (follows : Follows pos changes) :
    changes.Pairwise fun c d => c.stop ≤ d.start := by
  induction changes generalizing pos with
  | nil => exact List.Pairwise.nil
  | cons d rest ih =>
    obtain ⟨_, _, later⟩ := follows
    exact List.Pairwise.cons (fun e member => (later.forall_le e member).1) (ih later)

end Follows

end ChangeSet

theorem forall₂_of_mapM_ok {α β ε : Type} {f : α → Except ε β} {xs : List α} {ys : List β}
    (done : xs.mapM f = .ok ys) : List.Forall₂ (fun x y => f x = .ok y) xs ys := by
  induction xs generalizing ys with
  | nil =>
    cases done
    exact .nil
  | cons x xs ih =>
    rw [List.mapM_cons] at done
    cases first : f x with
    | error fault => simp [first, bind, Except.bind] at done
    | ok y =>
      cases later : xs.mapM f with
      | error fault => simp [first, later, bind, Except.bind] at done
      | ok rest =>
        simp only [first, later, bind, Except.bind, pure, Except.pure] at done
        cases done
        exact .cons first (ih later)

theorem exists_of_forall₂ {α β : Type} {related : α → β → Prop} {xs : List α} {ys : List β} {y : β}
    (all : List.Forall₂ related xs ys) (member : y ∈ ys) : ∃ x ∈ xs, related x y := by
  induction all with
  | nil => cases member
  | cons first _ ih =>
    rcases List.mem_cons.mp member with rfl | member
    · exact ⟨_, List.mem_cons_self, first⟩
    · obtain ⟨x, inside, here⟩ := ih member
      exact ⟨x, List.mem_cons_of_mem _ inside, here⟩

theorem forall₂_imp_mem {α β : Type} {related wanted : α → β → Prop} {xs : List α} {ys : List β}
    (all : List.Forall₂ related xs ys) (imp : ∀ x ∈ xs, ∀ y, related x y → wanted x y) :
    List.Forall₂ wanted xs ys := by
  induction all with
  | nil => exact .nil
  | cons first _ ih =>
    rw [List.forall_mem_cons] at imp
    exact .cons (imp.1 _ first) (ih imp.2)

theorem mem_of_mapM_error {α β ε : Type} {f : α → Except ε β} {xs : List α} {fault : ε}
    (failed : xs.mapM f = .error fault) : ∃ x ∈ xs, f x = .error fault := by
  induction xs with
  | nil => cases failed
  | cons x xs ih =>
    rw [List.mapM_cons] at failed
    cases first : f x with
    | error fault' =>
      simp only [first, bind, Except.bind] at failed
      cases failed
      exact ⟨x, List.mem_cons_self, first⟩
    | ok y =>
      cases later : xs.mapM f with
      | error fault' =>
        simp only [first, later, bind, Except.bind] at failed
        cases failed
        obtain ⟨z, member, same⟩ := ih later
        exact ⟨z, List.mem_cons_of_mem _ member, same⟩
      | ok rest => simp [first, later, bind, Except.bind, pure, Except.pure] at failed

theorem Refusal.ok_of_mapError {α : Type} {x : Except Decline α} {result : α}
    (mapped : x.mapError Refusal.declined = .ok result) : x = .ok result := by
  cases x with
  | error why => cases mapped
  | ok value =>
    cases mapped
    rfl

theorem Refusal.mapError_ne_splitsCharacter {α : Type} (x : Except Decline α) :
    x.mapError Refusal.declined ≠ .error .splitsCharacter := by
  intro failed
  cases x <;> cases failed

namespace Transaction

variable {s : EditState} {t : Transaction} {edits : List RangeEdit}

theorem ofEdits_ok (made : ofEdits s edits = .ok t) :
    ChangeSet.ofChanges (edits.flatMap RangeEdit.changes) s.doc.size = .ok t.changes := by
  simp only [ofEdits] at made
  split at made
  · cases made
  · rename_i changes found
    cases made
    exact found

theorem ofEdits_accepted {all : ChangeSet}
    (accepted : ChangeSet.ofChanges (edits.flatMap RangeEdit.changes) s.doc.size = .ok all) :
    ofEdits s edits =
      .ok ⟨all, some (Selection.ofRanges (carryAll edits s.doc.size) s.selection.main)⟩ := by
  rw [ofEdits, accepted]

theorem byRange_edits {edit : Range → Except Refusal RangeEdit} (made : byRange s edit = .ok t) :
    ∃ edits, List.Forall₂ (fun r e => edit r = .ok e) s.selection.ranges edits ∧
      ofEdits s edits = .ok t := by
  simp only [byRange, bind, Except.bind] at made
  cases all : s.selection.ranges.mapM edit with
  | error fault =>
    rw [all] at made
    cases made
  | ok edits =>
    rw [all] at made
    exact ⟨edits, forall₂_of_mapM_ok all, Refusal.ok_of_mapError made⟩

theorem byRange_only {edit : Range → Except Refusal RangeEdit} {r : Range}
    (made : byRange s edit = .ok t) (only : s.selection.ranges = [r]) :
    ∃ e, edit r = .ok e ∧ ofEdits s [e] = .ok t := by
  obtain ⟨edits, each, made⟩ := byRange_edits made
  rw [only] at each
  obtain ⟨e, rest, edited, none_left, rfl⟩ := List.forall₂_cons_left_iff.mp each
  rw [List.forall₂_nil_left_iff.mp none_left] at made
  exact ⟨e, edited, made⟩

theorem byRange_ok {edit : Range → Except Refusal RangeEdit} (made : byRange s edit = .ok t) :
    ∃ edits : List RangeEdit,
      (∀ e ∈ edits, ∃ r ∈ s.selection.ranges, edit r = .ok e) ∧
      (∀ r ∈ s.selection.ranges, ∃ e ∈ edits, edit r = .ok e) ∧
      ChangeSet.ofChanges (edits.flatMap RangeEdit.changes) s.doc.size = .ok t.changes := by
  obtain ⟨edits, each, found⟩ := byRange_edits made
  exact ⟨edits, fun _ => exists_of_forall₂ each, fun _ => exists_of_forall₂ each.flip,
    ofEdits_ok found⟩

theorem mem_byRange {edit : Range → Except Refusal RangeEdit} (made : byRange s edit = .ok t)
    {c : Change} : c ∈ t.changes.changes ↔
      (∃ r ∈ s.selection.ranges, ∃ e, edit r = .ok e ∧ c ∈ e.changes) ∧ c.isNoop = false := by
  obtain ⟨edits, from_ranges, to_edits, found⟩ := byRange_ok made
  rw [ChangeSet.mem_ofChanges found, List.mem_flatMap]
  constructor
  · rintro ⟨⟨e, member, inside⟩, effective⟩
    obtain ⟨r, range, same⟩ := from_ranges e member
    exact ⟨⟨r, range, e, same, inside⟩, effective⟩
  · rintro ⟨⟨r, range, e, same, inside⟩, effective⟩
    obtain ⟨e', member, same'⟩ := to_edits r range
    rw [same] at same'
    cases same'
    exact ⟨⟨e, member, inside⟩, effective⟩

theorem byRange_each {edit : Range → Except Refusal RangeEdit} (made : byRange s edit = .ok t)
    {r : Range} (range : r ∈ s.selection.ranges) : ∃ e, edit r = .ok e := by
  obtain ⟨edits, _, to_edits, _⟩ := byRange_ok made
  obtain ⟨e, _, same⟩ := to_edits r range
  exact ⟨e, same⟩

theorem byRange_ofChanges {edit : Range → Except Refusal RangeEdit}
    (made : byRange s edit = .ok t) :
    ∃ changes, ChangeSet.ofChanges changes s.doc.size = .ok t.changes := by
  obtain ⟨edits, _, _, found⟩ := byRange_ok made
  exact ⟨_, found⟩

theorem byRange_splitsCharacter {edit : Range → Except Refusal RangeEdit}
    (failed : byRange s edit = .error .splitsCharacter) :
    ∃ r ∈ s.selection.ranges, edit r = .error .splitsCharacter := by
  simp only [byRange, bind, Except.bind] at failed
  cases all : s.selection.ranges.mapM edit with
  | error fault =>
    rw [all] at failed
    cases failed
    exact mem_of_mapM_error all
  | ok edits =>
    rw [all] at failed
    cases found : ofEdits s edits <;> simp only [found] at failed <;> cases failed

end Transaction

end MarkdownEditing
