import MarkdownEditing.Proofs.Edit.Canonical
import MarkdownEditing.Proofs.Edit.Commute

namespace MarkdownEditing

namespace Range

def moved (r : Range) (shift : Int) : Range := ⟨(r.anchor + shift).toNat, (r.head + shift).toNat⟩

theorem start_of_le {r : Range} (forward : r.anchor ≤ r.head) : r.start = r.anchor :=
  Nat.min_eq_left forward

theorem stop_of_le {r : Range} (forward : r.anchor ≤ r.head) : r.stop = r.head :=
  Nat.max_eq_right forward

def forwards (r : Range) : Range := ⟨r.start, r.stop⟩

theorem start_forwards (r : Range) : r.forwards.start = r.start := start_of_le r.start_le_stop

theorem stop_forwards (r : Range) : r.forwards.stop = r.stop := stop_of_le r.start_le_stop

theorem pairwise_forwards {ranges : List Range} (apart : ranges.Pairwise Apart) :
    (ranges.map forwards).Pairwise Apart := by
  rw [List.pairwise_map]
  apply apart.imp
  intro r q free
  rw [apart_iff] at free ⊢
  rw [stop_forwards, start_forwards, stop_forwards]
  exact free

end Range

namespace ChangeSet

theorem mapFrom_append {x : Nat} {side : Side} (shift : Int) {front : List Change}
    (rest : List Change) (passed : ∀ c ∈ front, c.start ≤ c.stop ∧ c.stop ≤ x ∧
      (side = .before → c.start < x)) :
    mapFrom x side shift (front ++ rest) = mapFrom x side (shift + totalGrowth front) rest := by
  induction front generalizing shift with
  | nil => rw [totalGrowth, Int.add_zero, List.nil_append]
  | cons c front ih =>
    obtain ⟨forward, behind, strict⟩ := passed c List.mem_cons_self
    have beyond : mapFrom x side shift (c :: (front ++ rest)) =
        mapFrom x side (shift + c.growth) (front ++ rest) := by
      rcases mapFrom_cons x side shift c (front ++ rest) with
        ⟨_, _⟩ | ⟨_, touches, _⟩ | ⟨_, _, _, image⟩
      · omega
      · rcases touches with _ | ⟨here, _, before⟩
        · omega
        · have apart := strict before
          omega
      · exact image
    rw [List.cons_append, beyond, ih _ fun d member => passed d (List.mem_cons_of_mem _ member),
      totalGrowth, Int.add_assoc]

theorem totalGrowth_append (front rest : List Change) :
    totalGrowth (front ++ rest) = totalGrowth front + totalGrowth rest := by
  induction front with
  | nil => rw [totalGrowth, Int.zero_add, List.nil_append]
  | cons c front ih => rw [List.cons_append, totalGrowth, totalGrowth, ih, Int.add_assoc]

end ChangeSet

namespace Change

variable {a b c d : Change}

def Ahead (a b : Change) : Prop := a.stop ≤ b.start ∧ (b.start = b.stop → a.stop < b.start)

theorem Ahead.before (ahead : a.Ahead b) (forward : a.start ≤ a.stop) (forward' : b.start ≤ b.stop) :
    a.Before b := by
  obtain ⟨order, strict⟩ := ahead
  refine ⟨order, ?_⟩
  by_cases empty : b.start = b.stop
  · have apart := strict empty
    omega
  · omega

/-- Of changes that are ahead of each other, a byte in front of an insertion is in no change. -/
theorem insertionsApart_of_ahead {changes : List Change} (ahead : changes.Pairwise Ahead) :
    InsertionsApart changes := by
  have related : ∀ c ∈ changes, ∀ d ∈ changes, c ≠ d → c.Ahead d ∨ d.Ahead c := by
    have both : changes.Pairwise fun c d => c.Ahead d ∨ d.Ahead c := ahead.imp Or.inl
    have symm : Std.Symm fun c d : Change => c.Ahead d ∨ d.Ahead c := ⟨fun _ _ => Or.symm⟩
    exact fun c first d second other => both.forall first second other
  intro c first d second inserts inserts' other order
  have strict : c.stop < d.start := by
    rcases related c first d second other with front | behind
    · exact front.2 inserts'.1
    · have apart := behind.2 inserts.1
      have forward' := inserts'.1
      omega
  have empty := inserts.1
  refine ⟨d.start - 1, by omega, by omega, ?_⟩
  intro x member
  by_cases same : x = d
  · rw [same]
    omega
  · rcases related x member d second same with front | behind
    · have apart := front.2 inserts'.1
      omega
    · have apart := behind.1
      have empty' := inserts'.1
      omega

theorem shift_of_ahead {size : Nat} (ahead : d.Ahead c) (forward : d.start ≤ d.stop)
    (forward' : c.start ≤ c.stop) : d.shift ⟨[c], size⟩ = d := by
  have order := ahead.1
  have stays : ∀ side, ∀ x ≤ d.stop, (side = .before ∨ x < c.stop) →
      (⟨[c], size⟩ : ChangeSet).mapPos x side = x := by
    intro side x below touches
    rw [ChangeSet.mapPos, ChangeSet.mapFrom_ahead]
    · omega
    · intro e member
      rw [List.mem_singleton.mp member]
      exact ⟨by omega, forward', touches.symm⟩
  have strict := (ahead.before forward forward').2
  rw [shift, stays .after d.start forward (Or.inr strict), stays .before d.stop le_rfl (Or.inl rfl)]
  split
  · rename_i empty
    cases d
    simp_all
  · rw [Nat.max_eq_left forward]

theorem shift_behind (size : Nat) (ahead : c.Ahead d) (forward : c.start ≤ c.stop) :
    c.start + c.insert.size ≤ (d.shift ⟨[c], size⟩).start ∧
      (d.shift ⟨[c], size⟩).start ≤ (d.shift ⟨[c], size⟩).stop := by
  have order := ahead.1
  have growth := growth_eq forward
  have start : (d.shift ⟨[c], size⟩).start = (d.start + c.growth).toNat := by
    have passed : ChangeSet.mapFrom d.start .after 0 ([c] ++ []) =
        ChangeSet.mapFrom d.start .after (0 + ChangeSet.totalGrowth [c]) [] := by
      apply ChangeSet.mapFrom_append
      intro e member
      rw [List.mem_singleton.mp member]
      exact ⟨forward, order, by simp⟩
    rw [shift_start, ChangeSet.mapPos]
    rw [List.append_nil] at passed
    rw [passed, ChangeSet.mapFrom, ChangeSet.totalGrowth, ChangeSet.totalGrowth, Int.add_zero,
      Int.zero_add]
  refine ⟨by omega, ?_⟩
  rcases shift_stop ⟨[c], size⟩ d with ⟨_, stop⟩ | ⟨_, stop⟩ <;> rw [shift_start, stop]
  exact Nat.le_max_right _ _

end Change

structure Change.Holds (c : Change) (r : Range) (size : Nat) : Prop where
  effective : c.isNoop = false
  forward : c.start ≤ c.stop
  inside : c.stop ≤ size
  low : c.start ≤ r.anchor
  order : r.anchor ≤ r.head
  high : r.head ≤ c.start + c.insert.size

namespace RangeEdit

open ChangeSet

def single (p : Change × Range) : RangeEdit := ⟨[p.1], p.2⟩

def movedFrom (shift : Int) : List (Change × Range) → List Range
  | [] => []
  | p :: rest => p.2.moved shift :: movedFrom (shift + p.1.growth) rest

theorem length_movedFrom (shift : Int) (placed : List (Change × Range)) :
    (movedFrom shift placed).length = placed.length := by
  induction placed generalizing shift with
  | nil => rfl
  | cons p rest ih => rw [movedFrom, List.length_cons, List.length_cons, ih]

def Precedes (p q : Change × Range) : Prop := p.1.Ahead q.1 ∧ p.1.start < q.2.head

variable {placed front rest : List (Change × Range)} {p : Change × Range} {size : Nat}

theorem flatMap_single (placed : List (Change × Range)) :
    (placed.map single).flatMap RangeEdit.changes = placed.map Prod.fst := by
  induction placed with
  | nil => rfl
  | cons p rest ih =>
    rw [List.map_cons, List.flatMap_cons, ih]
    rfl

theorem ahead_of_precedes (ordered : placed.Pairwise Precedes) :
    (placed.map Prod.fst).Pairwise Change.Ahead :=
  List.pairwise_map.mpr (ordered.imp And.left)

theorem accepted_of_ahead (holds : ∀ p ∈ placed, p.1.Holds p.2 size)
    (ordered : (placed.map Prod.fst).Pairwise Change.Ahead) :
    ofChanges (placed.map Prod.fst) size = .ok ⟨placed.map Prod.fst, size⟩ := by
  apply ofChanges_of_mem
  · apply ordered.imp_of_mem
    intro c d first second ahead
    obtain ⟨p, member, rfl⟩ := List.mem_map.mp first
    obtain ⟨q, member', rfl⟩ := List.mem_map.mp second
    exact ahead.before (holds p member).forward (holds q member').forward
  · intro c member
    obtain ⟨p, inside, rfl⟩ := List.mem_map.mp member
    exact ⟨(holds p inside).forward, (holds p inside).inside⟩
  · intro c
    constructor
    · intro member
      obtain ⟨p, inside, rfl⟩ := List.mem_map.mp member
      exact ⟨member, (holds p inside).effective⟩
    · exact And.left

theorem accepted_single (holds : ∀ p ∈ placed, p.1.Holds p.2 size)
    (ordered : placed.Pairwise Precedes) :
    ofChanges (placed.map Prod.fst) size = .ok ⟨placed.map Prod.fst, size⟩ :=
  accepted_of_ahead holds (ahead_of_precedes ordered)

theorem shifted_single (holds : ∀ q ∈ front ++ p :: rest, q.1.Holds q.2 size)
    (ordered : ((front ++ p :: rest).map Prod.fst).Pairwise Change.Ahead) :
    ((single p).shifted ⟨(front ++ p :: rest).map Prod.fst, size⟩).changes =
      front.map Prod.fst ++ (rest.map Prod.fst).map (Change.shift ⟨[p.1], size⟩) := by
  obtain ⟨_, behind, across⟩ := List.pairwise_append.mp (List.pairwise_map.mp ordered)
  have forward : ∀ q ∈ front ++ p :: rest, q.1.start ≤ q.1.stop := fun q member =>
    (holds q member).forward
  have here : p ∈ front ++ p :: rest := List.mem_append_right _ List.mem_cons_self
  have first : ∀ c ∈ front.map Prod.fst, c.Ahead p.1 ∧ c.start ≤ c.stop := by
    intro c member
    obtain ⟨q, inside, rfl⟩ := List.mem_map.mp member
    exact ⟨across q inside p List.mem_cons_self, forward q (List.mem_append_left _ inside)⟩
  have last : ∀ c ∈ rest.map Prod.fst, p.1.Ahead c ∧ c.start ≤ c.stop := by
    intro c member
    obtain ⟨q, inside, rfl⟩ := List.mem_map.mp member
    exact ⟨List.rel_of_pairwise_cons behind inside,
      forward q (List.mem_append_right _ (List.mem_cons_of_mem _ inside))⟩
  have first_other : ∀ c ∈ front.map Prod.fst, c ≠ p.1 := by
    rintro c member rfl
    exact Std.Irrefl.irrefl (r := Change.Before) _
      ((first _ member).1.before (forward p here) (forward p here))
  have last_other : ∀ c ∈ rest.map Prod.fst, c ≠ p.1 := by
    rintro c member rfl
    exact Std.Irrefl.irrefl (r := Change.Before) _
      ((last _ member).1.before (forward p here) (forward p here))
  have own : (single p).own ⟨(front ++ p :: rest).map Prod.fst, size⟩ = ⟨[p.1], size⟩ := by
    rw [RangeEdit.own, List.map_append, List.map_cons, List.filter_append, List.filter_cons,
      List.filter_eq_nil_iff.mpr, List.filter_eq_nil_iff.mpr]
    · simp [single]
    · simpa [single] using last_other
    · simpa [single] using first_other
  have foreign : ((front ++ p :: rest).map Prod.fst).filter
      (fun c => !(single p).changes.contains c) = front.map Prod.fst ++ rest.map Prod.fst := by
    rw [List.map_append, List.map_cons, List.filter_append, List.filter_cons,
      List.filter_eq_self.mpr, List.filter_eq_self.mpr]
    · simp [single]
    · simpa [single] using last_other
    · simpa [single] using first_other
  have stay : (front.map Prod.fst).map (Change.shift ⟨[p.1], size⟩) = front.map Prod.fst := by
    conv => rhs; rw [← List.map_id (front.map Prod.fst)]
    apply List.map_congr_left
    intro c member
    exact Change.shift_of_ahead (first c member).1 (first c member).2 (forward p here)
  rw [shifted, own, foreign, List.map_append, stay]

/-- A range is moved by the changes in front of its own one that begin before its end, and not by
those behind it. -/
theorem map_shifted_single (holds : ∀ q ∈ front ++ p :: rest, q.1.Holds q.2 size)
    (ordered : ((front ++ p :: rest).map Prod.fst).Pairwise Change.Ahead)
    (clear : ∀ q ∈ front, q.1.start < p.2.head) :
    p.2.map ((single p).shifted ⟨(front ++ p :: rest).map Prod.fst, size⟩) =
      p.2.moved (totalGrowth (front.map Prod.fst)) := by
  obtain ⟨_, behind, across⟩ := List.pairwise_append.mp (List.pairwise_map.mp ordered)
  have here := holds p (List.mem_append_right _ List.mem_cons_self)
  have order := here.order
  have image : ∀ x side, p.2.anchor ≤ x → x ≤ p.2.head →
      (side = .before ∧ x = p.2.head ∨ side = .after ∧ x < p.2.head) →
      ((single p).shifted ⟨(front ++ p :: rest).map Prod.fst, size⟩).mapPos x side =
        (x + totalGrowth (front.map Prod.fst)).toNat := by
    intro x side low high stands
    rw [mapPos, shifted_single holds ordered, mapFrom_append, mapFrom_ahead, Int.zero_add]
    · intro c member
      obtain ⟨d, inside, rfl⟩ := List.mem_map.mp member
      obtain ⟨q, found, rfl⟩ := List.mem_map.mp inside
      have after := Change.shift_behind size
        (List.rel_of_pairwise_cons behind found) here.forward
      have reach := here.high
      refine ⟨by omega, after.2, ?_⟩
      rcases stands with ⟨rfl, _⟩ | ⟨_, inner⟩
      · exact Or.inr rfl
      · exact Or.inl (by omega)
    · intro c member
      obtain ⟨q, found, rfl⟩ := List.mem_map.mp member
      have forward := (holds q (List.mem_append_left _ found)).forward
      have end_before := (across q found p List.mem_cons_self).1
      have start := here.low
      refine ⟨forward, by omega, ?_⟩
      intro before
      rcases stands with ⟨_, rfl⟩ | ⟨after, _⟩
      · exact clear q found
      · rw [before] at after
        cases after
  have stop := image p.2.head .before order le_rfl (Or.inl ⟨rfl, rfl⟩)
  rw [Range.map, Range.moved]
  split
  · rename_i caret
    rw [stop, Range.caret, beq_iff_eq.mp caret]
  · rename_i span
    have strict : p.2.anchor < p.2.head := by
      rw [Range.isCaret, beq_iff_eq] at span
      omega
    have start := image p.2.anchor .after le_rfl order (Or.inr ⟨rfl, strict⟩)
    dsimp only
    rw [Range.start_of_le order, Range.stop_of_le order, start, stop, Nat.max_eq_left (by omega)]

theorem carry_single (holds : ∀ q ∈ front ++ p :: rest, q.1.Holds q.2 size)
    (ordered : ((front ++ p :: rest).map Prod.fst).Pairwise Change.Ahead) :
    (single p).carry (((front ++ p :: rest).map single).eraseIdx front.length) size =
      p.2.map ((single p).shifted ⟨(front ++ p :: rest).map Prod.fst, size⟩) := by
  have accepted : ofChanges (((front ++ p :: rest).map single).flatMap RangeEdit.changes) size =
      .ok ⟨(front ++ p :: rest).map Prod.fst, size⟩ := by
    rw [flatMap_single]
    exact accepted_of_ahead holds ordered
  have apart : Change.InsertionsApart
      (((front ++ p :: rest).map single).flatMap RangeEdit.changes) := by
    rw [flatMap_single]
    exact Change.insertionsApart_of_ahead ordered
  have found : ((front ++ p :: rest).map single)[front.length]? = some (single p) := by
    rw [List.getElem?_map, List.getElem?_append_right le_rfl, Nat.sub_self]
    rfl
  rw [carry, own_made accepted apart (List.mem_of_getElem? found)]
  dsimp only
  rw [shifted_made accepted apart found]
  rfl

theorem carryAll_single (holds : ∀ q ∈ placed, q.1.Holds q.2 size)
    (ordered : placed.Pairwise Precedes) :
    Transaction.carryAll (placed.map single) size = movedFrom 0 placed := by
  -- the edits from place `front.length` on, in front of which the changes of `front` are made
  have from_place : ∀ front rest, front ++ rest = placed →
      ((rest.map single).zipIdx front.length).map
        (fun p => p.1.carry ((placed.map single).eraseIdx p.2) size) =
          movedFrom (totalGrowth (front.map Prod.fst)) rest := by
    intro front rest whole
    induction rest generalizing front with
    | nil => rfl
    | cons p rest ih =>
      have later := ih (front ++ [p]) (by rw [List.append_assoc, List.singleton_append, whole])
      have growth : totalGrowth ((front ++ [p]).map Prod.fst) =
          totalGrowth (front.map Prod.fst) + p.1.growth := by
        rw [List.map_append, totalGrowth_append, List.map_singleton, totalGrowth, totalGrowth,
          Int.add_zero]
      have carried : (single p).carry ((placed.map single).eraseIdx front.length) size =
          p.2.moved (totalGrowth (front.map Prod.fst)) := by
        subst whole
        have across := (List.pairwise_append.mp ordered).2.2
        rw [carry_single holds (ahead_of_precedes ordered)]
        exact map_shifted_single holds (ahead_of_precedes ordered) fun q member =>
          (across q member p List.mem_cons_self).2
      rw [List.length_append, List.length_singleton, growth] at later
      rw [List.map_cons, List.zipIdx_cons, List.map_cons, movedFrom, ← later]
      exact congrArg (· :: _) carried
  have all := from_place [] placed rfl
  exact all

end RangeEdit

theorem Transaction.ofEdits_single {s : EditState} {placed : List (Change × Range)}
    (holds : ∀ p ∈ placed, p.1.Holds p.2 s.doc.size)
    (ordered : placed.Pairwise RangeEdit.Precedes) :
    ofEdits s (placed.map RangeEdit.single) = .ok ⟨⟨placed.map Prod.fst, s.doc.size⟩,
      some (Selection.ofRanges (RangeEdit.movedFrom 0 placed) s.selection.main)⟩ := by
  rw [ofEdits, RangeEdit.flatMap_single, RangeEdit.accepted_single holds ordered,
    RangeEdit.carryAll_single holds ordered]

end MarkdownEditing
