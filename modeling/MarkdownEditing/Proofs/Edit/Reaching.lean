import Mathlib.Algebra.Order.BigOperators.Group.List
import Mathlib.Data.List.Chain
import Mathlib.Data.List.Flatten
import MarkdownEditing.Proofs.Edit.Canonical
import MarkdownEditing.Proofs.Edit.Carried
import MarkdownEditing.Proofs.Edit.Commute
import MarkdownEditing.Proofs.Edit.Conflicts

namespace MarkdownEditing

namespace Change

variable {c : Change}

instance : DecidablePred Inserts := fun c =>
  inferInstanceAs (Decidable (c.start = c.stop ∧ c.insert ≠ []))

theorem isNoop_of_inserts (inserts : c.Inserts) : c.isNoop = false := by
  simp [isNoop, inserts.2]

theorem isNoop_iff : c.isNoop = true ↔ c.start = c.stop ∧ c.insert = [] := by
  rw [isNoop, Bool.and_eq_true, beq_iff_eq, List.isEmpty_iff]

theorem inserts_iff (effective : c.isNoop = false) : c.Inserts ↔ c.start = c.stop :=
  ⟨And.left, inserts_of_isNoop effective⟩

end Change

namespace ChangeSet

open Change

variable {changes kept given all : List Change} {size size' : Nat} {s : ChangeSet}
  {f : Change → Change}

theorem sublist_dropRepeats (inside : kept.Sublist changes) (distinct : kept.IsChain (· ≠ ·)) :
    kept.Sublist (dropRepeats changes) := by
  fun_induction dropRepeats changes generalizing kept with
  | case1 => exact inside
  | case2 c => exact inside
  | case3 d rest ih =>
    refine ih ?_ distinct
    rcases List.sublist_cons_iff.mp inside with later | ⟨kept', rfl, later⟩
    · exact later
    · rcases List.sublist_cons_iff.mp later with behind | ⟨kept'', rfl, _⟩
      · exact behind.cons_cons d
      · exact absurd rfl (List.isChain_cons_cons.mp distinct).1
  | case4 c d rest _ ih =>
    rcases List.sublist_cons_iff.mp inside with later | ⟨kept', rfl, later⟩
    · exact (ih later distinct).cons c
    · exact (ih later distinct.tail).cons_cons c

theorem ofChanges_again (made : ofChanges changes size = .ok s) :
    ofChanges s.changes size = .ok s := by
  have free := conflictFree_of_ofChanges made
  have accepted := free.ofChanges_eq
  rw [made] at accepted
  cases accepted
  have again : ConflictFree (arranged changes) size :=
    ⟨fun c listed => free.within c (mem_arranged.mp listed).1,
      fun a first b second => free.disjoint a (mem_arranged.mp first).1 b (mem_arranged.mp second).1⟩
  have effective : (arranged changes).filter (fun c => !c.isNoop) = arranged changes :=
    List.filter_eq_self.mpr fun c listed => by rw [(mem_arranged.mp listed).2, Bool.not_false]
  have same : arranged (arranged changes) = arranged changes := by
    conv => lhs; rw [arranged, effective, List.mergeSort_of_pairwise (arranged_sorted changes)]
    exact (dropRepeats_sublist _).antisymm
      (sublist_dropRepeats (List.Sublist.refl _) (dropRepeats_distinct _))
  rw [again.ofChanges_eq, same]

def insertions (changes : List Change) : List Change := changes.filter fun c => c.Inserts

def removals (changes : List Change) : List Change := changes.filter fun c => ¬c.Inserts

theorem mem_insertions {c : Change} : c ∈ insertions changes ↔ c ∈ changes ∧ c.Inserts := by
  rw [insertions, List.mem_filter, decide_eq_true_eq]

theorem mem_removals {c : Change} : c ∈ removals changes ↔ c ∈ changes ∧ ¬c.Inserts := by
  rw [removals, List.mem_filter, decide_eq_true_eq]

theorem totalGrowth_eq_sum (changes : List Change) :
    totalGrowth changes = (changes.map growth).sum := by
  induction changes with
  | nil => rfl
  | cons c rest ih => rw [totalGrowth, ih, List.map_cons, List.sum_cons]

theorem totalGrowth_filter_add (p : Change → Bool) (changes : List Change) :
    totalGrowth (changes.filter p) + totalGrowth (changes.filter (!p ·)) = totalGrowth changes := by
  induction changes with
  | nil => rfl
  | cons c rest ih =>
    rw [List.filter_cons, List.filter_cons, totalGrowth]
    cases p c <;> simp only [Bool.not_true, Bool.not_false, if_true, Bool.false_eq_true, if_false,
      totalGrowth] <;> omega

theorem totalGrowth_insertions_add (changes : List Change) :
    totalGrowth (insertions changes) + totalGrowth (removals changes) = totalGrowth changes := by
  rw [← totalGrowth_filter_add (fun c => c.Inserts) changes, insertions, removals]
  simp only [decide_not]

theorem changes_eq_arranged (made : ofChanges changes size = .ok s) :
    s.changes = arranged changes :=
  (ofChanges_ok made).1

theorem newSize_eq (made : ofChanges changes size = .ok s) :
    (s.newSize : Int) = size + totalGrowth s.changes := by
  have bounds := ofChanges_bounds made
  have left := totalGrowth_ge (ofChanges_follows made) (fun c member => (bounds c member).2)
    (Nat.zero_le size)
  rw [newSize, ofChanges_size made]
  omega

theorem ConflictFree.subset (free : ConflictFree all size) (inside : ∀ c ∈ given, c ∈ all) :
    ConflictFree given size where
  within c listed := free.within c (inside c listed)
  disjoint a first b second := free.disjoint a (inside a first) b (inside b second)

theorem insertions_sorted (ordered : (insertions changes).Pairwise (·.start ≤ ·.start)) :
    insertions (changes.mergeSort precedes) = insertions changes := by
  apply filter_sorted
  apply ordered.imp_of_mem
  intro a b first second order
  have empty := (mem_insertions.mp first).2.1
  have empty' := (mem_insertions.mp second).2.1
  rw [precedes_iff]
  omega

theorem distinct_insertions (order : changes.Pairwise fun a b => a.precedes b = true)
    (effective : ∀ c ∈ changes, c.isNoop = false) (distinct : changes.IsChain (· ≠ ·)) :
    (insertions changes).IsChain (· ≠ ·) := by
  induction changes with
  | nil => exact .nil
  | cons c rest ih =>
    rw [List.forall_mem_cons] at effective
    have later := ih order.of_cons effective.2 distinct.tail
    rw [insertions, List.filter_cons]
    split
    · rename_i inserts
      rw [decide_eq_true_eq] at inserts
      refine List.isChain_cons.mpr ⟨?_, later⟩
      rintro d head rfl
      -- a change between two equal insertions inserts at their position
      cases rest with
      | nil => cases head
      | cons e rest =>
        have again := (mem_insertions.mp (List.mem_of_mem_head? head)).1
        have span := span_eq_of_precedes (List.rel_of_pairwise_cons order List.mem_cons_self)
          (precedes_of_mem_sorted order.of_cons again)
        have empty := inserts.1
        have between : e.Inserts :=
          (inserts_iff (effective.2 e List.mem_cons_self)).mpr (by omega)
        rw [List.filter_cons_of_pos (by simpa using between), List.head?_cons] at head
        cases head
        exact (List.isChain_cons_cons.mp distinct).1 rfl
    · exact later

/-- Some changes of a list go on as changes of another text: in their order, and each with what it
does to the length. -/
structure Carries (f : Change → Change) (given : List Change) : Prop where
  noop : ∀ c ∈ given, (f c).isNoop = c.isNoop
  empty : ∀ c ∈ given, c.isNoop = false → ((f c).start = (f c).stop ↔ c.start = c.stop)
  growth : ∀ c ∈ given, c.isNoop = false → (f c).growth = c.growth
  order : ∀ a ∈ given, ∀ b ∈ given, a.isNoop = false → b.isNoop = false → a.stop ≤ b.start →
    (f a).stop ≤ (f b).start

theorem carries_id (given : List Change) : Carries id given :=
  ⟨fun _ _ => rfl, fun _ _ _ => Iff.rfl, fun _ _ _ => rfl, fun _ _ _ _ _ _ order => order⟩

theorem insertions_effective (changes : List Change) :
    insertions (changes.filter fun c => !c.isNoop) = insertions changes := by
  unfold insertions
  rw [List.filter_filter]
  refine List.filter_congr fun c _ => ?_
  by_cases inserts : c.Inserts
  · simp [inserts, Change.isNoop_of_inserts inserts]
  · simp [inserts]

theorem insertions_arranged (ordered : (insertions changes).Pairwise (·.start ≤ ·.start)) :
    (insertions (arranged changes)).Sublist (insertions changes) ∧
      ∀ kept : List Change, kept.Sublist (insertions changes) → kept.IsChain (· ≠ ·) →
        kept.Sublist (arranged changes) := by
  rw [← insertions_effective] at ordered
  have sorted := insertions_sorted ordered
  rw [insertions_effective] at sorted
  constructor
  · rw [← sorted]
    exact (dropRepeats_sublist _).filter _
  · intro kept inside distinct
    rw [← sorted] at inside
    exact sublist_dropRepeats (inside.trans List.filter_sublist) distinct

/-- Changes that take text away and can be made lie one behind the other. -/
theorem ConflictFree.removals_before (free : ConflictFree changes size) :
    (removals (arranged changes)).Pairwise Before := by
  have apart := (ofChanges_follows free.ofChanges_eq).pairwise.filter fun c => ¬c.Inserts
  apply apart.imp_of_mem
  intro a b first second order
  obtain ⟨listed, _⟩ := mem_removals.mp first
  obtain ⟨listed', removes⟩ := mem_removals.mp second
  obtain ⟨given, effective⟩ := mem_arranged.mp listed
  obtain ⟨given', effective'⟩ := mem_arranged.mp listed'
  have forward := (free.within a given effective).1
  have forward' := (free.within b given' effective').1
  rw [Change.inserts_iff effective'] at removes
  exact ⟨order, by omega⟩

namespace Carries

variable (carries : Carries f given) (free : ConflictFree all size)
  (free' : ConflictFree (given.map f) size') (inside : given.Sublist all)

include carries

theorem inserts_iff {c : Change} (member : c ∈ given) : (f c).Inserts ↔ c.Inserts := by
  have same := carries.noop c member
  cases effective : c.isNoop with
  | true =>
    rw [effective] at same
    exact iff_of_false (fun inserts => by simp [isNoop_of_inserts inserts] at same)
      fun inserts => by simp [isNoop_of_inserts inserts] at effective
  | false =>
    rw [Change.inserts_iff effective, Change.inserts_iff (same.trans effective),
      carries.empty c member effective]

theorem insertions_map : insertions (given.map f) = (insertions given).map f := by
  rw [insertions, List.filter_map, insertions]
  congr 1
  apply List.filter_congr
  intro c member
  simp only [Function.comp_apply, carries.inserts_iff member]

theorem totalGrowth_map (inside : ∀ c ∈ changes, c ∈ given ∧ c.isNoop = false) :
    totalGrowth (changes.map f) = totalGrowth changes := by
  rw [totalGrowth_eq_sum, totalGrowth_eq_sum, List.map_map]
  congr 1
  exact List.map_congr_left fun c member =>
    carries.growth c (inside c member).1 (inside c member).2

theorem insertions_map_ordered (ordered : (insertions given).Pairwise (·.start ≤ ·.start)) :
    (insertions (given.map f)).Pairwise (·.start ≤ ·.start) := by
  rw [carries.insertions_map, List.pairwise_map]
  apply ordered.imp_of_mem
  intro a b first second order
  obtain ⟨listed, inserts⟩ := mem_insertions.mp first
  obtain ⟨listed', inserts'⟩ := mem_insertions.mp second
  rw [inserts.1] at order
  rw [((carries.inserts_iff listed).mpr inserts).1]
  exact carries.order a listed b listed' (isNoop_of_inserts inserts) (isNoop_of_inserts inserts')
    order

include inside

theorem insertions_le (ordered : (insertions all).Pairwise (·.start ≤ ·.start)) :
    totalGrowth (insertions (arranged (given.map f))) ≤
      totalGrowth (insertions ((arranged all).filter fun c => given.contains c)) := by
  have moved := carries.insertions_map_ordered (ordered.sublist (inside.filter _))
  have distinct := distinct_insertions (arranged_sorted (given.map f))
    (fun c listed => (mem_arranged.mp listed).2) (dropRepeats_distinct _)
  have made := (insertions_arranged moved).1
  rw [carries.insertions_map] at made
  obtain ⟨kept, some_kept, same⟩ := List.sublist_map_iff.mp made
  rw [same] at distinct ⊢
  have kept_distinct : kept.IsChain (· ≠ ·) :=
    ((List.isChain_map f).mp distinct).imp fun a b other same => other (congrArg f same)
  have given_inserts : ∀ c ∈ kept, c ∈ given ∧ c.Inserts := fun c member =>
    mem_insertions.mp (some_kept.subset member)
  have reaches := (insertions_arranged ordered).2 kept (some_kept.trans (inside.filter _))
    kept_distinct
  have remains : kept.Sublist (insertions ((arranged all).filter fun c => given.contains c)) := by
    have filtered := (reaches.filter fun c => given.contains c).filter fun c => c.Inserts
    rw [List.filter_filter, List.filter_eq_self.mpr] at filtered
    · exact filtered
    · intro c member
      simpa using (given_inserts c member).symm
  rw [carries.totalGrowth_map fun c member =>
    ⟨(given_inserts c member).1, isNoop_of_inserts (given_inserts c member).2⟩,
    totalGrowth_eq_sum, totalGrowth_eq_sum]
  apply (remains.map Change.growth).sum_le_sum
  intro n member
  obtain ⟨c, listed, rfl⟩ := List.mem_map.mp member
  have empty := (mem_insertions.mp listed).2.1
  rw [growth_eq (Nat.le_of_eq empty)]
  omega

include free free'

theorem removals_map : removals (arranged (given.map f)) =
    (removals ((arranged all).filter fun c => given.contains c)).map f := by
  have listed : ∀ c, c ∈ removals ((arranged all).filter fun c => given.contains c) ↔
      c ∈ given ∧ c.isNoop = false ∧ ¬c.Inserts := by
    intro c
    rw [mem_removals, List.mem_filter, mem_arranged, List.contains_iff_mem]
    constructor
    · exact fun ⟨⟨⟨_, effective⟩, member⟩, removes⟩ => ⟨member, effective, removes⟩
    · exact fun ⟨member, effective, removes⟩ =>
        ⟨⟨⟨inside.subset member, effective⟩, member⟩, removes⟩
  have apart : ((removals ((arranged all).filter fun c => given.contains c)).map f).Pairwise
      Before := by
    have before := free.removals_before.filter fun c => given.contains c
    rw [removals, List.filter_comm, ← removals] at before
    rw [List.pairwise_map]
    apply before.imp_of_mem
    intro a b first second order
    obtain ⟨member, effective, _⟩ := (listed a).mp first
    obtain ⟨member', effective', removes⟩ := (listed b).mp second
    have image := carries.order a member b member' effective effective' order.1
    have works := (carries.noop a member).trans effective
    have works' := (carries.noop b member').trans effective'
    have forward := (free'.within _ (List.mem_map_of_mem member) works).1
    have forward' := (free'.within _ (List.mem_map_of_mem member') works').1
    rw [← carries.inserts_iff member', Change.inserts_iff works'] at removes
    exact ⟨image, by omega⟩
  apply free'.removals_before.eq_of_mem_iff apart
  intro c
  rw [mem_removals, mem_arranged, List.mem_map, List.mem_map]
  constructor
  · rintro ⟨⟨⟨d, member, rfl⟩, effective⟩, removes⟩
    rw [carries.noop d member] at effective
    rw [carries.inserts_iff member] at removes
    exact ⟨d, (listed d).mpr ⟨member, effective, removes⟩, rfl⟩
  · rintro ⟨d, found, rfl⟩
    obtain ⟨member, effective, removes⟩ := (listed d).mp found
    exact ⟨⟨⟨d, member, rfl⟩, (carries.noop d member).trans effective⟩,
      fun inserts => removes ((carries.inserts_iff member).mp inserts)⟩

theorem totalGrowth_le (ordered : (insertions all).Pairwise (·.start ≤ ·.start)) :
    totalGrowth (arranged (given.map f)) ≤
      totalGrowth ((arranged all).filter fun c => given.contains c) := by
  have put_in := carries.insertions_le inside ordered
  have taken : totalGrowth (removals (arranged (given.map f))) =
      totalGrowth (removals ((arranged all).filter fun c => given.contains c)) := by
    rw [carries.removals_map free free' inside]
    apply carries.totalGrowth_map
    intro c member
    obtain ⟨listed, contained⟩ := List.mem_filter.mp (mem_removals.mp member).1
    exact ⟨List.contains_iff_mem.mp contained, (mem_arranged.mp listed).2⟩
  rw [← totalGrowth_insertions_add (arranged (given.map f)), taken,
    ← totalGrowth_insertions_add ((arranged all).filter fun c => given.contains c)]
  omega

end Carries

/-- Changes that go on do not come to overlap. -/
theorem ConflictFree.map_carries (free : ConflictFree given size) (carries : Carries f given)
    (within : ∀ c ∈ given, c.isNoop = false → (f c).Within size') :
    ConflictFree (given.map f) size' := by
  constructor
  · intro c listed effective
    obtain ⟨a, member, rfl⟩ := List.mem_map.mp listed
    exact within a member ((carries.noop a member).symm.trans effective)
  · intro c listed d listed' effective effective' other
    obtain ⟨a, first, rfl⟩ := List.mem_map.mp listed
    obtain ⟨b, second, rfl⟩ := List.mem_map.mp listed'
    rw [carries.noop a first] at effective
    rw [carries.noop b second] at effective'
    have apart := free.disjoint a first b second effective effective' fun same =>
      other (congrArg f same)
    exact apart.imp (carries.order a first b second effective effective')
      (carries.order b second a first effective' effective)

theorem mapFrom_span {b x y : Nat} {shift : Int} (follows : Follows b changes) (low : b ≤ x)
    (order : x < y) (room : 0 ≤ b + shift)
    (clear : ∀ c ∈ changes, c.stop ≤ x ∨ y ≤ c.start) :
    mapFrom y .before shift changes = mapFrom x .after shift changes + (y - x) := by
  induction changes generalizing b shift with
  | nil =>
    rw [mapFrom, mapFrom]
    omega
  | cons c rest ih =>
    obtain ⟨first, forward, later⟩ := follows
    rw [List.forall_mem_cons] at clear
    have growth := growth_eq forward
    rcases clear.1 with passed | ahead
    · rw [mapFrom_passes shift rest forward passed]
      have beyond : mapFrom y .before shift (c :: rest) =
          mapFrom y .before (shift + c.growth) rest := by
        rcases mapFrom_cons y .before shift c rest with ⟨_, _⟩ | ⟨_, _, _⟩ | ⟨_, _, _, image⟩
        · omega
        · omega
        · exact image
      rw [beyond]
      exact ih later passed (by omega) clear.2
    · rcases mapFrom_cons x .after shift c rest with ⟨_, image⟩ | ⟨_, _, _⟩ | ⟨_, _, _, _⟩
      · rcases mapFrom_cons y .before shift c rest with
          ⟨_, image'⟩ | ⟨_, _, image'⟩ | ⟨_, _, past, _⟩
        · omega
        · rw [if_pos (Or.inr rfl)] at image'
          omega
        · have strict := past rfl
          omega
      · omega
      · omega

section Shift

variable {mine : List Change} {own : ChangeSet} {c : Change}

theorem shift_of_empty (own : ChangeSet) (empty : c.start = c.stop) :
    (c.shift own).start = (c.shift own).stop := by
  rw [shift_start]
  rcases shift_stop own c with ⟨_, stop⟩ | ⟨wide, _⟩
  · exact stop.symm
  · exact absurd empty wide

theorem shift_width (follows : Follows 0 own.changes) (wide : c.start < c.stop)
    (clear : ∀ d ∈ own.changes, d.Disjoint c) :
    (c.shift own).stop = (c.shift own).start + (c.stop - c.start) := by
  have span : own.mapPos c.stop .before = own.mapPos c.start .after + (c.stop - c.start) :=
    mapFrom_span follows (Nat.zero_le _) wide (by decide) clear
  rw [shift_start]
  rcases shift_stop own c with ⟨empty, _⟩ | ⟨_, stop⟩ <;> omega

theorem shift_empty_iff (follows : Follows 0 own.changes) (forward : c.start ≤ c.stop)
    (clear : ∀ d ∈ own.changes, d.Disjoint c) :
    (c.shift own).start = (c.shift own).stop ↔ c.start = c.stop := by
  refine ⟨fun same => ?_, shift_of_empty own⟩
  by_contra other
  have width := shift_width follows (by omega) clear
  omega

theorem carries_shift (made : ofChanges mine size = .ok own)
    (forward : ∀ c ∈ given, c.isNoop = false → c.start ≤ c.stop)
    (clear : ∀ c ∈ given, c.isNoop = false → ∀ d ∈ own.changes, d.Disjoint c) :
    Carries (Change.shift own) given := by
  have follows := ofChanges_follows made
  have empty : ∀ c ∈ given, c.isNoop = false →
      ((c.shift own).start = (c.shift own).stop ↔ c.start = c.stop) := fun c member effective =>
    shift_empty_iff follows (forward c member effective) (clear c member effective)
  refine ⟨?_, empty, ?_, ?_⟩
  · intro c member
    cases effective : c.isNoop with
    | true =>
      rw [isNoop_iff] at effective ⊢
      exact ⟨shift_of_empty own effective.1, (shift_insert own c).trans effective.2⟩
    | false =>
      have same := empty c member effective
      rw [← Bool.not_eq_true, isNoop_iff] at effective ⊢
      rwa [shift_insert, same]
  · intro c member effective
    have order := forward c member effective
    rw [growth, growth, shift_insert]
    by_cases same : c.start = c.stop
    · have image := shift_of_empty own same
      omega
    · have width := shift_width follows (by omega) (clear c member effective)
      omega
  · exact fun a first b _ effective _ order =>
      shift_stop_le follows (forward a first effective) order

end Shift

end ChangeSet

theorem Range.Inside.mono {r : Range} {size size' : Nat} (inside : r.Inside size)
    (longer : size ≤ size') : r.Inside size' :=
  ⟨inside.1.trans longer, inside.2.trans longer⟩

namespace RangeEdit

open ChangeSet Change

variable {e : RangeEdit} {edits : List RangeEdit} {r : Range} {ranges : List Range} {i size : Nat}
  {all : ChangeSet}

/-- An edit of a range leaves its own range in the text that its changes give, and puts text in at
one position at most: not behind the start of the range, and at most one byte in front of its end.
-/
structure Lands (e : RangeEdit) (r : Range) (size : Nat) : Prop where
  inside : ∀ own, ofChanges e.changes size = .ok own → e.range.Inside own.newSize
  near : ∃ pos, ∀ c ∈ e.changes, c.Inserts → c.start = pos ∧ pos ≤ r.start ∧ r.stop ≤ pos + 1

theorem insertions_ordered (apart : ranges.Pairwise Range.Apart)
    (lands : List.Forall₂ (fun r e => e.Lands r size) ranges edits) :
    (insertions (edits.flatMap RangeEdit.changes)).Pairwise (·.start ≤ ·.start) := by
  -- All insertions of one edit are at one place at its range, and the ranges are in order.
  induction lands with
  | nil => exact .nil
  | @cons r e ranges edits here later ih =>
    obtain ⟨pos, near⟩ := here.near
    have own : ∀ c ∈ insertions e.changes, c.start = pos ∧ pos ≤ r.start := by
      intro c member
      obtain ⟨listed, inserts⟩ := mem_insertions.mp member
      exact ⟨(near c listed inserts).1, (near c listed inserts).2.1⟩
    rw [List.flatMap_cons, insertions, List.filter_append, List.pairwise_append]
    refine ⟨?_, ih apart.of_cons, ?_⟩
    · apply List.pairwise_of_forall_mem_list
      intro a first b second
      rw [(own a first).1, (own b second).1]
    · intro a first b second
      obtain ⟨listed, inserts⟩ := mem_insertions.mp second
      obtain ⟨e', member, listed'⟩ := List.mem_flatMap.mp listed
      obtain ⟨q, range, lands'⟩ := exists_of_forall₂ later member
      obtain ⟨pos', near'⟩ := lands'.near
      have behind := near' b listed' inserts
      have before := own a first
      have order := Range.apart_iff.mp (List.rel_of_pairwise_cons apart range)
      have forward := r.start_le_stop
      have forward' := q.start_le_stop
      omega

theorem others_sublist (e : RangeEdit) (edits : List RangeEdit) (i : Nat) :
    (e.others (edits.eraseIdx i)).Sublist (edits.flatMap RangeEdit.changes) :=
  List.filter_sublist.trans ((List.eraseIdx_sublist edits i).flatMap _)

section Others

variable {own shifted : ChangeSet}
  (accepted : ofChanges (edits.flatMap RangeEdit.changes) size = .ok all)
  (found : edits[i]? = some e) (made : ofChanges e.changes size = .ok own)

theorem changes_sublist (found : edits[i]? = some e) :
    e.changes.Sublist (edits.flatMap RangeEdit.changes) :=
  List.sublist_flatten_of_mem (List.mem_map_of_mem (List.mem_of_getElem? found))

include accepted found made

theorem carries_others : Carries (Change.shift own) (e.others (edits.eraseIdx i)) := by
  have free := conflictFree_of_ofChanges accepted
  have foreign : ∀ c ∈ e.others (edits.eraseIdx i), c ∈ edits.flatMap RangeEdit.changes ∧
      c ∉ e.changes := fun c member => (mem_others found).mp member
  apply carries_shift made fun c member effective =>
    (free.within c (foreign c member).1 effective).1
  intro c member effective d own_member
  obtain ⟨listed, effective'⟩ := (mem_ofChanges made).mp own_member
  refine free.disjoint d ((changes_sublist found).subset listed) c (foreign c member).1 effective'
    effective ?_
  rintro rfl
  exact (foreign d member).2 listed

theorem conflictFree_others :
    ConflictFree ((e.others (edits.eraseIdx i)).map (Change.shift own)) own.newSize := by
  have free := (conflictFree_of_ofChanges accepted).subset fun c member =>
    (others_sublist e edits i).subset member
  refine free.map_carries (carries_others accepted found made) fun c member effective => ?_
  have within := free.within c member effective
  exact shift_bounds made within.1 within.2

/-- The own changes and then those of the other edits give a text that is no longer than what all
changes give. -/
theorem newSize_others_le
    (ordered : (insertions (edits.flatMap RangeEdit.changes)).Pairwise (·.start ≤ ·.start))
    (made' : ofChanges ((e.others (edits.eraseIdx i)).map (Change.shift own)) own.newSize =
      .ok shifted) : shifted.newSize ≤ all.newSize := by
  have free := conflictFree_of_ofChanges accepted
  have free_own := conflictFree_of_ofChanges made
  have free_others := conflictFree_of_ofChanges made'
  have own_growth := (carries_id e.changes).totalGrowth_le free (by rwa [List.map_id])
    (changes_sublist found) ordered
  have other_growth := (carries_others accepted found made).totalGrowth_le free free_others
    (others_sublist e edits i) ordered
  have foreign : ((arranged (edits.flatMap RangeEdit.changes)).filter fun c =>
      (e.others (edits.eraseIdx i)).contains c) =
      (arranged (edits.flatMap RangeEdit.changes)).filter fun c => !e.changes.contains c := by
    apply List.filter_congr
    intro c member
    rw [Bool.eq_iff_iff, List.contains_iff_mem, mem_others found, Bool.not_eq_true',
      ← Bool.not_eq_true, List.contains_iff_mem]
    exact and_iff_right (mem_arranged.mp member).1
  have total := totalGrowth_filter_add (fun c => e.changes.contains c)
    (arranged (edits.flatMap RangeEdit.changes))
  have size_all := newSize_eq accepted
  have size_own := newSize_eq made
  have size_shifted := newSize_eq made'
  rw [changes_eq_arranged accepted] at size_all
  rw [changes_eq_arranged made] at size_own
  rw [changes_eq_arranged made'] at size_shifted
  rw [List.map_id] at own_growth
  rw [foreign] at other_growth
  omega

end Others

theorem inside_carry (accepted : ofChanges (edits.flatMap RangeEdit.changes) size = .ok all)
    (ordered : (insertions (edits.flatMap RangeEdit.changes)).Pairwise (·.start ≤ ·.start))
    (found : edits[i]? = some e)
    (inside : ∀ own, ofChanges e.changes size = .ok own → e.range.Inside own.newSize) :
    (e.carry (edits.eraseIdx i) size).Inside all.newSize := by
  have made := ((conflictFree_of_ofChanges accepted).subset fun c member =>
    (changes_sublist found).subset member).ofChanges_eq
  generalize (⟨arranged e.changes, size⟩ : ChangeSet) = own at made
  have made' := (conflictFree_others accepted found made).ofChanges_eq
  have image := (inside own made).map made'
  rw [carry, made]
  dsimp only
  rw [made']
  exact image.mono (newSize_others_le accepted found made ordered made')

theorem inside_carryAll (accepted : ofChanges (edits.flatMap RangeEdit.changes) size = .ok all)
    (apart : ranges.Pairwise Range.Apart)
    (lands : List.Forall₂ (fun r e => e.Lands r size) ranges edits) :
    ∀ r ∈ Transaction.carryAll edits size, r.Inside all.newSize := by
  intro r member
  obtain ⟨⟨e, i⟩, place, rfl⟩ := List.mem_map.mp member
  have found := List.mem_zipIdx_iff_getElem?.mp place
  obtain ⟨q, _, here⟩ := exists_of_forall₂ lands (List.mem_of_getElem? found)
  exact inside_carry accepted (insertions_ordered apart lands) found here.inside

end RangeEdit

end MarkdownEditing
