import MarkdownEditing.Proofs.Edit.Accepted

namespace MarkdownEditing

namespace Change

variable {a b c : Change} {size : Nat}

def Within (c : Change) (size : Nat) : Prop := c.start ≤ c.stop ∧ c.stop ≤ size

def Disjoint (a b : Change) : Prop := a.stop ≤ b.start ∨ b.stop ≤ a.start

instance : Std.Symm Disjoint where
  symm _ _ := Or.symm

/-- Two different changes in order of which the second starts before the first one ends. -/
def Clash (a b : Change) : Prop := a ≠ b ∧ a.precedes b = true ∧ b.start < a.stop

def sameSpan (a b : Change) : Bool := a.start == b.start && a.stop == b.stop

theorem sameSpan_iff : a.sameSpan b = true ↔ a.start = b.start ∧ a.stop = b.stop := by
  rw [sameSpan, Bool.and_eq_true, beq_iff_eq, beq_iff_eq]

theorem precedes_total (a b : Change) : a.precedes b = true ∨ b.precedes a = true := by
  rw [precedes_iff, precedes_iff]
  omega

theorem precedes_trans (first : a.precedes b = true) (second : b.precedes c = true) :
    a.precedes c = true := by
  rw [precedes_iff] at *
  omega

theorem precedes_of_mem_sorted {rest : List Change}
    (order : (a :: rest).Pairwise fun a b => a.precedes b = true) (member : b ∈ a :: rest) :
    a.precedes b = true := by
  rcases List.mem_cons.mp member with rfl | later
  · exact (precedes_total b b).elim id id
  · exact List.rel_of_pairwise_cons order later

theorem span_eq_of_precedes (first : a.precedes b = true) (second : b.precedes a = true) :
    a.start = b.start ∧ a.stop = b.stop := by
  rw [precedes_iff] at first second
  omega

theorem Clash.not_disjoint (clash : a.Clash b) (forward : b.start ≤ b.stop) : ¬a.Disjoint b := by
  obtain ⟨_, order, overlaps⟩ := clash
  rw [precedes_iff] at order
  rintro (before | behind) <;> omega

end Change

namespace ChangeSet

open Change

variable {changes changes' sorted sorted' : List Change} {size : Nat} {s : ChangeSet}
  {fault fault' : ChangeFault}

/-- The effective changes lie in the text, and different ones are disjoint. -/
structure ConflictFree (changes : List Change) (size : Nat) : Prop where
  within : ∀ c ∈ changes, c.isNoop = false → c.Within size
  disjoint : ∀ a ∈ changes, ∀ b ∈ changes, a.isNoop = false → b.isNoop = false → a ≠ b →
    a.Disjoint b

def insertionsAt (pos : Nat) (changes : List Change) : List Change :=
  changes.filter fun c => !c.isNoop && (c.start == pos && c.stop == pos)

/-- The effective changes of a batch in their order, without repetitions in a row. -/
def arranged (changes : List Change) : List Change :=
  dropRepeats ((changes.filter fun c => !c.isNoop).mergeSort precedes)

theorem mem_arranged {c : Change} : c ∈ arranged changes ↔ c ∈ changes ∧ c.isNoop = false := by
  rw [arranged, mem_dropRepeats, List.mem_mergeSort, List.mem_filter, Bool.not_eq_true']

theorem dropRepeats_sublist (changes : List Change) : (dropRepeats changes).Sublist changes := by
  fun_induction dropRepeats changes with
  | case1 => exact List.Sublist.slnil
  | case2 c => exact List.Sublist.refl [c]
  | case3 d rest ih => exact ih.cons d
  | case4 c d rest _ ih => exact ih.cons_cons c

theorem dropRepeats_cons (c : Change) (rest : List Change) :
    ∃ kept, dropRepeats (c :: rest) = c :: kept := by
  induction rest generalizing c with
  | nil => exact ⟨[], rfl⟩
  | cons d rest ih =>
    rw [dropRepeats]
    split
    · rename_i same
      rw [same]
      exact ih d
    · exact ⟨_, rfl⟩

theorem dropRepeats_distinct (changes : List Change) : (dropRepeats changes).IsChain (· ≠ ·) := by
  fun_induction dropRepeats changes with
  | case1 => exact List.IsChain.nil
  | case2 c => exact List.IsChain.singleton c
  | case3 d rest ih => exact ih
  | case4 c d rest other ih =>
    obtain ⟨kept, same⟩ := dropRepeats_cons d rest
    rw [same] at ih ⊢
    exact List.isChain_cons_cons.mpr ⟨other, ih⟩

theorem arranged_sorted (changes : List Change) :
    (arranged changes).Pairwise fun a b => a.precedes b = true :=
  (Change.pairwise_sorted _).sublist (dropRepeats_sublist _)

theorem firstOutOfBounds?_eq_some (order : sorted.Pairwise fun a b => a.precedes b = true)
    (found : firstOutOfBounds? size sorted = some fault) :
    ∃ c ∈ sorted, ¬c.Within size ∧ fault = .outOfBounds c.start c.stop size ∧
      ∀ d ∈ sorted, ¬d.Within size → c.precedes d = true := by
  obtain ⟨c, first, rfl⟩ := Option.map_eq_some_iff.mp found
  obtain ⟨outside, front, back, rfl, clear⟩ := List.find?_eq_some_iff_append.mp first
  simp only [Bool.or_eq_true, decide_eq_true_eq] at outside
  refine ⟨c, List.mem_append_right _ List.mem_cons_self, ?_, rfl, ?_⟩
  · rintro ⟨forward, inside⟩
    omega
  · intro d member beyond
    rcases List.mem_append.mp member with ahead | later
    · have inside := clear d ahead
      simp only [Bool.not_eq_true', Bool.or_eq_false_iff, decide_eq_false_iff_not] at inside
      exact absurd ⟨by omega, by omega⟩ beyond
    · exact precedes_of_mem_sorted (List.pairwise_append.mp order).2.1 later

/-- The overlap that is reported is the first clash: of the least change that clashes with one before
it, and there with the least such one. -/
theorem firstOverlap?_eq_some (order : sorted.Pairwise fun a b => a.precedes b = true)
    (distinct : sorted.IsChain (· ≠ ·)) (found : firstOverlap? sorted = some fault) :
    ∃ a ∈ sorted, ∃ b ∈ sorted, a.Clash b ∧ fault = .overlap b.start b.stop a.stop ∧
      ∀ a' ∈ sorted, ∀ b' ∈ sorted, a'.Clash b' →
        b.precedes b' = true ∧ (b'.precedes b = true → a.precedes a' = true) := by
  fun_induction firstOverlap? sorted with
  | case1 c d rest overlaps =>
    cases found
    have second : c.precedes d = true := List.rel_of_pairwise_cons order List.mem_cons_self
    refine ⟨c, List.mem_cons_self, d, List.mem_cons_of_mem _ List.mem_cons_self,
      ⟨(List.isChain_cons_cons.mp distinct).1, second, overlaps⟩, rfl, ?_⟩
    intro a' first_member b' second_member clash
    refine ⟨?_, fun _ => precedes_of_mem_sorted order first_member⟩
    rcases List.mem_cons.mp second_member with rfl | later
    · rcases List.mem_cons.mp first_member with rfl | behind
      · exact absurd rfl clash.1
      · exact precedes_trans (precedes_of_mem_sorted order.of_cons behind) clash.2.1
    · exact precedes_of_mem_sorted order.of_cons later
  | case2 c d rest apart ih =>
    obtain ⟨a, first_member, b, second_member, clash, same, least⟩ :=
      ih order.of_cons (List.isChain_cons_cons.mp distinct).2 found
    refine ⟨a, List.mem_cons_of_mem _ first_member, b, List.mem_cons_of_mem _ second_member, clash,
      same, ?_⟩
    have after : ∀ e ∈ d :: rest, d.start ≤ e.start := by
      intro e member
      have behind := precedes_iff.mp (precedes_of_mem_sorted order.of_cons member)
      omega
    -- the head ends before everything behind it starts, so it clashes with nothing
    intro a' first_member b' second_member other
    obtain ⟨different, sorted_pair, overlaps⟩ := other
    rw [precedes_iff] at sorted_pair
    rcases List.mem_cons.mp first_member with rfl | first_later <;>
      rcases List.mem_cons.mp second_member with rfl | second_later
    · exact absurd rfl different
    · have behind := after b' second_later
      omega
    · have behind := after a' first_later
      have back := precedes_iff.mp (List.rel_of_pairwise_cons order first_later)
      omega
    · exact least a' first_later b' second_later
        ⟨different, precedes_iff.mpr sorted_pair, overlaps⟩
  | case3 => cases found

theorem firstOverlap?_eq_none_of_disjoint
    (order : sorted.Pairwise fun a b => a.precedes b = true) (distinct : sorted.IsChain (· ≠ ·))
    (forward : ∀ c ∈ sorted, c.start ≤ c.stop)
    (disjoint : ∀ a ∈ sorted, ∀ b ∈ sorted, a ≠ b → a.Disjoint b) : firstOverlap? sorted = none := by
  cases found : firstOverlap? sorted with
  | none => rfl
  | some fault =>
    obtain ⟨a, first, b, second, clash, _⟩ := firstOverlap?_eq_some order distinct found
    exact absurd (disjoint a first b second clash.1) (clash.not_disjoint (forward b second))

theorem ConflictFree.ofChanges_eq (free : ConflictFree changes size) :
    ofChanges changes size = .ok ⟨arranged changes, size⟩ := by
  have within : ∀ c ∈ arranged changes, c.Within size := by
    intro c member
    obtain ⟨listed, effective⟩ := mem_arranged.mp member
    exact free.within c listed effective
  have inside := firstOutOfBounds?_eq_none within
  have apart : firstOverlap? (arranged changes) = none := by
    apply firstOverlap?_eq_none_of_disjoint (arranged_sorted changes) (dropRepeats_distinct _)
    · exact fun c member => (within c member).1
    · intro a first b second
      obtain ⟨listed, effective⟩ := mem_arranged.mp first
      obtain ⟨listed', effective'⟩ := mem_arranged.mp second
      exact free.disjoint a listed b listed' effective effective'
  rw [arranged] at inside apart
  simp only [ofChanges, inside, apart]
  rfl

theorem conflictFree_of_ofChanges (made : ofChanges changes size = .ok s) :
    ConflictFree changes size := by
  constructor
  · exact fun c listed effective =>
      ofChanges_bounds made c ((mem_ofChanges made).mpr ⟨listed, effective⟩)
  · intro a listed b listed' effective effective' other
    have apart : s.changes.Pairwise Disjoint :=
      (ofChanges_follows made).pairwise.imp fun before => Or.inl before
    exact apart.forall ((mem_ofChanges made).mpr ⟨listed, effective⟩)
      ((mem_ofChanges made).mpr ⟨listed', effective'⟩) other

/-- A refusal names the first effective change out of bounds, and if there is none the first clash. -/
theorem ofChanges_error (refused : ofChanges changes size = .error fault) :
    firstOutOfBounds? size (arranged changes) = some fault ∨
      firstOutOfBounds? size (arranged changes) = none ∧
        firstOverlap? (arranged changes) = some fault := by
  simp only [ofChanges] at refused
  split at refused
  · rename_i found
    cases refused
    exact Or.inl found
  · rename_i none_found found
    cases refused
    exact Or.inr ⟨none_found, found⟩
  · cases refused

theorem eq_of_sameSpan (perm : sorted.Perm sorted')
    (order : sorted.Pairwise fun a b => a.precedes b = true)
    (order' : sorted'.Pairwise fun a b => a.precedes b = true)
    (same : ∀ c, sorted.filter (sameSpan c) = sorted'.filter (sameSpan c)) : sorted = sorted' := by
  induction sorted generalizing sorted' with
  | nil => exact perm.nil_eq
  | cons a rest ih =>
    cases sorted' with
    | nil => exact perm.eq_nil
    | cons b rest' =>
      have first := precedes_of_mem_sorted order (perm.mem_iff.mpr List.mem_cons_self)
      have second := precedes_of_mem_sorted order' (perm.mem_iff.mp List.mem_cons_self)
      -- the heads have one span, so each is the first change of it in its list
      have heads := same a
      rw [List.filter_cons_of_pos (sameSpan_iff.mpr ⟨rfl, rfl⟩),
        List.filter_cons_of_pos (sameSpan_iff.mpr (span_eq_of_precedes first second))] at heads
      obtain rfl := (List.cons.inj heads).1
      rw [ih perm.cons_inv order.of_cons order'.of_cons]
      intro c
      have here := same c
      rw [List.filter_cons, List.filter_cons] at here
      split at here
      · exact (List.cons.inj here).2
      · exact here

theorem filter_sorted {p : Change → Bool}
    (level : (changes.filter p).Pairwise fun a b => a.precedes b = true) :
    (changes.mergeSort precedes).filter p = changes.filter p := by
  have kept : (changes.filter p).Sublist (changes.mergeSort precedes) := by
    apply List.sublist_mergeSort
    · exact fun a b c => precedes_trans
    · intro a b
      rw [Bool.or_eq_true]
      exact precedes_total a b
    · exact level
    · exact List.filter_sublist
  have inside := kept.filter p
  rw [List.filter_filter] at inside
  simp only [Bool.and_self] at inside
  refine (inside.eq_of_length ?_).symm
  exact ((List.mergeSort_perm changes precedes).filter _).length_eq.symm

theorem filter_sameSpan_sorted (c : Change) (changes : List Change) :
    (changes.mergeSort precedes).filter (sameSpan c) = changes.filter (sameSpan c) := by
  apply filter_sorted
  apply List.pairwise_of_forall_mem_list
  intro a first b second
  have span := sameSpan_iff.mp (List.mem_filter.mp first).2
  have span' := sameSpan_iff.mp (List.mem_filter.mp second).2
  rw [precedes_iff]
  omega

theorem ConflictFree.of_mem (free : ConflictFree changes size)
    (same : ∀ c, c ∈ changes' ↔ c ∈ changes) : ConflictFree changes' size where
  within c listed := free.within c ((same c).mp listed)
  disjoint a first b second := free.disjoint a ((same a).mp first) b ((same b).mp second)

/-- Changes that replace one and the same text are equal, so sorting gives one list however they
stand. -/
theorem ConflictFree.arranged_eq (free : ConflictFree changes size) (perm : changes'.Perm changes)
    (insertions : ∀ pos, insertionsAt pos changes' = insertionsAt pos changes) :
    arranged changes' = arranged changes := by
  have effective := perm.filter fun c => !c.isNoop
  have sorted_perm := ((List.mergeSort_perm (changes'.filter fun c => !c.isNoop) precedes).trans
    effective).trans (List.mergeSort_perm (changes.filter fun c => !c.isNoop) precedes).symm
  rw [arranged, arranged]
  refine congrArg dropRepeats (eq_of_sameSpan sorted_perm (pairwise_sorted _) (pairwise_sorted _) ?_)
  intro c
  rw [filter_sameSpan_sorted, filter_sameSpan_sorted]
  -- insertions at one position are in the same order by hypothesis, replacements of one text equal
  by_cases empty : c.start = c.stop
  · have here := insertions c.start
    rw [insertionsAt, insertionsAt] at here
    rw [List.filter_filter, List.filter_filter]
    have spans : (fun a : Change => c.sameSpan a && !a.isNoop) =
        fun a => !a.isNoop && (a.start == c.start && a.stop == c.start) := by
      funext a
      rw [sameSpan, ← empty, Bool.and_comm, BEq.comm (a := c.start) (b := a.start),
        BEq.comm (a := c.start) (b := a.stop)]
    rw [spans]
    exact here
  · have equal : ∀ a ∈ changes, ∀ b ∈ changes, a.isNoop = false → b.isNoop = false →
        c.sameSpan a = true → c.sameSpan b = true → a = b := by
      intro a listed b listed' works works' span span'
      by_contra other
      have inside := (free.within a listed works).1
      rw [sameSpan_iff] at span span'
      rcases free.disjoint a listed b listed' works works' other with before | behind <;> omega
    have level : ∀ l : List Change, (∀ a ∈ l, a ∈ changes) →
        ((l.filter fun a => !a.isNoop).filter (sameSpan c)).Pairwise Eq := by
      intro l listed
      apply List.pairwise_of_forall_mem_list
      intro a first b second
      simp only [List.mem_filter, Bool.not_eq_true'] at first second
      exact equal a (listed a first.1.1) b (listed b second.1.1) first.1.2 second.1.2 first.2
        second.2
    exact (effective.filter _).eq_of_pairwise (fun _ _ _ _ same _ => same)
      (level changes' fun a => perm.mem_iff.mp) (level changes fun a => id)

theorem fault_eq_of_mem (same : ∀ c, c ∈ changes' ↔ c ∈ changes)
    (refused : ofChanges changes size = .error fault)
    (refused' : ofChanges changes' size = .error fault') : fault' = fault := by
  have members : ∀ c, c ∈ arranged changes' ↔ c ∈ arranged changes := by
    intro c
    rw [mem_arranged, mem_arranged, same c]
  have clear : ∀ l l' : List Change, (∀ c ∈ l', c ∈ l) → firstOutOfBounds? size l = none →
      firstOutOfBounds? size l' = none := by
    intro l l' inside none_found
    exact firstOutOfBounds?_eq_none fun c member =>
      bounds_of_firstOutOfBounds? none_found c (inside c member)
  rcases ofChanges_error refused with outside | ⟨inside, overlap⟩
  · rcases ofChanges_error refused' with outside' | ⟨inside', _⟩
    · obtain ⟨c, listed, beyond, rfl, least⟩ := firstOutOfBounds?_eq_some (arranged_sorted _) outside
      obtain ⟨c', listed', beyond', rfl, least'⟩ :=
        firstOutOfBounds?_eq_some (arranged_sorted _) outside'
      obtain ⟨starts, stops⟩ := span_eq_of_precedes
        (least c' ((members c').mp listed') beyond') (least' c ((members c).mpr listed) beyond)
      rw [starts, stops]
    · rw [clear _ _ (fun c => (members c).mpr) inside'] at outside
      cases outside
  · rcases ofChanges_error refused' with outside' | ⟨_, overlap'⟩
    · rw [clear _ _ (fun c => (members c).mp) inside] at outside'
      cases outside'
    · obtain ⟨a, first, b, second, clash, rfl, least⟩ :=
        firstOverlap?_eq_some (arranged_sorted _) (dropRepeats_distinct _) overlap
      obtain ⟨a', first', b', second', clash', rfl, least'⟩ :=
        firstOverlap?_eq_some (arranged_sorted _) (dropRepeats_distinct _) overlap'
      have here := least a' ((members a').mp first') b' ((members b').mp second') clash'
      have there := least' a ((members a).mpr first) b ((members b).mpr second) clash
      obtain ⟨starts, stops⟩ := span_eq_of_precedes here.1 there.1
      obtain ⟨_, previous⟩ := span_eq_of_precedes (here.2 there.1) (there.2 here.1)
      rw [starts, stops, previous]

theorem ofChanges_eq_of_perm (perm : changes'.Perm changes)
    (insertions : ∀ pos, insertionsAt pos changes' = insertionsAt pos changes) :
    ofChanges changes' size = ofChanges changes size := by
  have same : ∀ c, c ∈ changes' ↔ c ∈ changes := fun _ => perm.mem_iff
  cases made : ofChanges changes size with
  | ok s =>
    have free := conflictFree_of_ofChanges made
    rw [← made, free.ofChanges_eq, (free.of_mem same).ofChanges_eq, free.arranged_eq perm insertions]
  | error fault =>
    cases made' : ofChanges changes' size with
    | ok s' =>
      have free := (conflictFree_of_ofChanges made').of_mem fun c => (same c).symm
      rw [free.ofChanges_eq] at made
      cases made
    | error fault' => rw [fault_eq_of_mem same made made']

/-- Changes are accepted exactly if the effective ones lie in the text and different ones are
disjoint. They are then kept in order, each behind all those before it. Otherwise the fault is a
change out of bounds if there is one, and an overlap if there is none. Only the order of insertions
at one position matters. -/
theorem ofChanges_exact (changes : List Change) (size : Nat) :
    ((∃ s, ofChanges changes size = .ok s) ↔ ConflictFree changes size) ∧
    (∀ s, ofChanges changes size = .ok s →
      s.size = size ∧ (s.changes.Pairwise fun a b => a.precedes b = true) ∧
      (s.changes.Pairwise fun a b => a.stop ≤ b.start) ∧
      ∀ c, c ∈ s.changes ↔ c ∈ changes ∧ c.isNoop = false) ∧
    (∀ fault, ofChanges changes size = .error fault →
      (∃ c ∈ changes, c.isNoop = false ∧ ¬c.Within size ∧
        fault = .outOfBounds c.start c.stop size) ∨
      (∀ c ∈ changes, c.isNoop = false → c.Within size) ∧
        ∃ a ∈ changes, ∃ b ∈ changes, a.isNoop = false ∧ b.isNoop = false ∧ a ≠ b ∧
          ¬a.Disjoint b ∧ fault = .overlap b.start b.stop a.stop) ∧
    ∀ changes' : List Change, changes'.Perm changes →
      (∀ pos, insertionsAt pos changes' = insertionsAt pos changes) →
      ofChanges changes' size = ofChanges changes size := by
  refine ⟨⟨?_, fun free => ⟨_, free.ofChanges_eq⟩⟩, ?_, ?_, fun _ => ofChanges_eq_of_perm⟩
  · rintro ⟨s, made⟩
    exact conflictFree_of_ofChanges made
  · intro s made
    refine ⟨ofChanges_size made, ?_, (ofChanges_follows made).pairwise, fun c => mem_ofChanges made⟩
    rw [(ofChanges_ok made).1]
    exact arranged_sorted changes
  · intro fault refused
    rcases ofChanges_error refused with outside | ⟨inside, overlap⟩
    · obtain ⟨c, member, beyond, same, _⟩ := firstOutOfBounds?_eq_some (arranged_sorted _) outside
      obtain ⟨listed, effective⟩ := mem_arranged.mp member
      exact Or.inl ⟨c, listed, effective, beyond, same⟩
    · have bounds : ∀ c ∈ changes, c.isNoop = false → c.Within size := fun c listed effective =>
        bounds_of_firstOutOfBounds? inside c (mem_arranged.mpr ⟨listed, effective⟩)
      obtain ⟨a, first, b, second, clash, same, _⟩ :=
        firstOverlap?_eq_some (arranged_sorted _) (dropRepeats_distinct _) overlap
      obtain ⟨listed, effective⟩ := mem_arranged.mp first
      obtain ⟨listed', effective'⟩ := mem_arranged.mp second
      exact Or.inr ⟨bounds, a, listed, b, listed', effective, effective', clash.1,
        clash.not_disjoint (bounds b listed' effective').1, same⟩

end ChangeSet

end MarkdownEditing
