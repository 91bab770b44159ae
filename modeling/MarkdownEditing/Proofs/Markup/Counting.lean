import Mathlib.Data.List.Chain
import MarkdownEditing.Proofs.Markup.Items

namespace MarkdownEditing

def Succeeds (a b : Option Nat) : Prop := ∃ n, a = some n ∧ b = some (n + 1)

/-- Each item has the number after the one of the item before it. -/
def Counted (d : Document) (items : List Place) : Prop :=
  (items.map fun p => d.numberAt? p.start).IsChain Succeeds

theorem counted_iff_of_starts {d : Document} {items : List Place} {starts : List Nat}
    (begins : items.map Place.start = starts) :
    Counted d items ↔ (starts.map d.numberAt?).IsChain Succeeds := by
  rw [Counted, ← begins, List.map_map]
  rfl

section Renumber

variable {d : Document} {p item : Place} {items : List Place} {n : ItemNumber} {c : Change}

theorem Counted.of_cons (counted : Counted d (p :: items)) : Counted d items :=
  List.IsChain.tail counted

theorem Counted.of_append {front : List Place} (counted : Counted d (front ++ items)) :
    Counted d items := by
  rw [Counted, List.map_append] at counted
  exact (List.isChain_append.mp counted).2.1

theorem mem_renumberFrom_of_counted {previous : ItemNumber}
    (start : ItemNumber.ofItem? d p.start = some previous) (counted : Counted d (p :: items))
    (member : item ∈ items) (read : ItemNumber.ofItem? d item.start = some n) :
    ⟨item.start + n.indent, item.start + n.digitsStop, Text.ofNat (n.value + 1)⟩ ∈
      renumberFrom d 0 previous.value items := by
  induction items generalizing p previous with
  | nil => cases member
  | cons q items ih =>
    obtain ⟨m, first, second⟩ := (List.isChain_cons_cons.mp counted).1
    obtain ⟨number, found, value⟩ := Option.map_eq_some_iff.mp second
    simp only [Document.numberAt?, start, Option.map_some, Option.some.injEq] at first
    subst first
    have next : ((previous.value : Int) + 2 + 0).toNat = number.value + 1 := by omega
    rw [renumberFrom, found]
    dsimp only
    rw [if_pos value, next]
    rcases List.mem_cons.mp member with rfl | member
    · rw [found] at read
      cases read
      exact List.mem_cons_self
    · exact List.mem_cons_of_mem _ (ih found counted.of_cons member)

theorem mem_renumber_of_counted {previous : ItemNumber}
    (start : ItemNumber.ofItem? d p.start = some previous)
    (counted : Counted d (p :: p.followingItems)) (member : item ∈ p.followingItems)
    (read : ItemNumber.ofItem? d item.start = some n) :
    ⟨item.start + n.indent, item.start + n.digitsStop, Text.ofNat (n.value + 1)⟩ ∈
      renumber p d 0 := by
  rw [renumber, start]
  exact mem_renumberFrom_of_counted start counted member read

end Renumber

section Room

variable {α : Type} (number fresh : α → Nat) (caret : α → Bool)

def renumbered (bumped : Bool) : List α → List Nat
  | [] => []
  | a :: rest =>
    (number a + if bumped then 1 else 0) ::
      (List.replicate (fresh a) (number a + 1) ++ renumbered (bumped || caret a) rest)

variable {number fresh caret} {limit : Nat} {items : List α} {b : Nat}

theorem isChain_bumped (consecutive : (b :: items.map number).IsChain fun m n => n = m + 1) :
    ((b + 1) :: renumbered number fresh caret true items).IsChain
        (fun m n => n = m + 1 ∧ n < limit) ↔
      ∀ a ∈ items, fresh a = 0 ∧ number a + 1 < limit := by
  induction items generalizing b with
  | nil => simp [renumbered]
  | cons a items ih =>
    rw [List.map_cons, List.isChain_cons_cons] at consecutive
    obtain ⟨first, later⟩ := consecutive
    rw [renumbered, if_pos rfl, List.isChain_cons_cons, List.forall_mem_cons]
    cases more : fresh a with
    | zero =>
      rw [List.replicate_zero, List.nil_append, Bool.true_or, ih later, first]
      simp only [true_and]
    | succ k =>
      rw [List.replicate_succ, List.cons_append, List.isChain_cons_cons]
      simp

theorem isChain_unbumped_cons {a : α} (below : ∀ a ∈ items, number a < limit)
    (consecutive : ((a :: items).map number).IsChain fun m n => n = m + 1) :
    (number a :: renumbered number fresh caret false items).IsChain
        (fun m n => n = m + 1 ∧ n < limit) ↔
      (renumbered number fresh caret false items).IsChain fun m n => n = m + 1 ∧ n < limit := by
  cases items with
  | nil => simp [renumbered]
  | cons next items =>
    rw [List.map_cons, List.map_cons, List.isChain_cons_cons] at consecutive
    have bound := below next List.mem_cons_self
    rw [renumbered, if_neg Bool.false_ne_true, Nat.add_zero, List.isChain_cons_cons]
    exact and_iff_right ⟨consecutive.1, bound⟩

variable {start : α → Nat} {a : α}

variable (number fresh caret limit start)

/-- Carets are in the last item at most and put nothing in, or the first item with a caret in it
gets one new item behind it, and no other does. -/
def RoomOnce (items : List α) : Prop :=
  (∀ a ∈ items, caret a = true → fresh a = 0 ∧ ∀ c ∈ items, start c ≤ start a) ∨
    ∃ a ∈ items, caret a = true ∧ fresh a = 1 ∧ (∀ c ∈ items, caret c = true → start a ≤ start c) ∧
      (∀ c ∈ items, start a < start c → fresh c = 0) ∧
      ∀ c ∈ items, start a ≤ start c → number c + 1 < limit

variable {number fresh caret limit start}

theorem roomOnce_cons_of_free (free : caret a = false) (first : ∀ c ∈ items, start a < start c) :
    RoomOnce number fresh caret limit start (a :: items) ↔
      RoomOnce number fresh caret limit start items := by
  refine or_congr ?_ ?_
  · rw [List.forall_mem_cons]
    simp only [free, Bool.false_eq_true, false_implies, true_and]
    refine forall₂_congr fun c member => imp_congr_right fun _ => and_congr_right fun _ => ?_
    rw [List.forall_mem_cons]
    exact and_iff_right (Nat.le_of_lt (first c member))
  · simp only [List.exists_mem_cons_iff, free, Bool.false_eq_true, false_and, false_or]
    refine exists_congr fun c => and_congr_right fun member => ?_
    have order := first c member
    simp only [List.forall_mem_cons, free, Bool.false_eq_true, false_implies, true_and,
      Nat.not_lt_of_lt order, Nat.not_le_of_lt order]

theorem roomOnce_cons_of_held (held : caret a = true) (first : ∀ c ∈ items, start a < start c) :
    RoomOnce number fresh caret limit start (a :: items) ↔
      (fresh a = 0 ∧ items = []) ∨
        (fresh a = 1 ∧ (∀ c ∈ items, fresh c = 0) ∧ ∀ c ∈ a :: items, number c + 1 < limit) := by
  constructor
  · rintro (last | ⟨c, member, _, one, foremost, others, bound⟩)
    · obtain ⟨none_new, reach⟩ := last a List.mem_cons_self held
      refine Or.inl ⟨none_new, List.eq_nil_iff_forall_not_mem.mpr fun c member => ?_⟩
      exact Nat.not_lt_of_le (reach c (List.mem_cons_of_mem _ member)) (first c member)
    · have before := foremost a List.mem_cons_self held
      rcases List.mem_cons.mp member with rfl | later
      · refine Or.inr ⟨one, fun d later => ?_, fun d inside => bound d inside ?_⟩
        · exact others d (List.mem_cons_of_mem _ later) (first d later)
        · rcases List.mem_cons.mp inside with rfl | later
          · exact Nat.le_refl _
          · exact Nat.le_of_lt (first d later)
      · exact absurd (first c later) (Nat.not_lt_of_le before)
  · rintro (⟨none_new, rfl⟩ | ⟨one, others, bound⟩)
    · left
      intro c member _
      rw [List.mem_singleton] at member
      subst member
      exact ⟨none_new, by simp⟩
    · refine Or.inr ⟨a, List.mem_cons_self, held, one, ?_, ?_, fun c member _ => bound c member⟩
      · exact List.forall_mem_cons.mpr ⟨fun _ => Nat.le_refl _,
          fun c member _ => Nat.le_of_lt (first c member)⟩
      · exact List.forall_mem_cons.mpr ⟨fun behind => absurd behind (Nat.lt_irrefl _),
          fun c member _ => others c member⟩

/-- From an item with a caret on, the numbers go on counting if one new item is behind it and nothing
else is put in, or if it is the last. -/
theorem isChain_held_cons (consecutive : ((a :: items).map number).IsChain fun m n => n = m + 1) :
    (number a :: (List.replicate (fresh a) (number a + 1) ++
        renumbered number fresh caret true items)).IsChain (fun m n => n = m + 1 ∧ n < limit) ↔
      (fresh a = 0 ∧ items = []) ∨
        (fresh a = 1 ∧ (∀ c ∈ items, fresh c = 0) ∧ ∀ c ∈ a :: items, number c + 1 < limit) := by
  rcases fresh a with _ | _ | k
  · rw [List.replicate_zero, List.nil_append]
    cases items with
    | nil => simp [renumbered]
    | cons next items =>
      rw [List.map_cons, List.map_cons, List.isChain_cons_cons] at consecutive
      rw [renumbered, if_pos rfl, List.isChain_cons_cons, consecutive.1]
      simp
  · rw [List.replicate_one, List.singleton_append, List.isChain_cons_cons,
      isChain_bumped consecutive, List.forall_mem_cons]
    simp only [true_and, Nat.reduceAdd, reduceCtorEq, false_and, false_or]
    constructor
    · rintro ⟨bound, others⟩
      exact ⟨fun c member => (others c member).1, bound, fun c member => (others c member).2⟩
    · rintro ⟨none_new, bound, others⟩
      exact ⟨bound, fun c member => ⟨none_new c member, others c member⟩⟩
  · rw [List.replicate_succ, List.replicate_succ, List.cons_append, List.cons_append,
      List.isChain_cons_cons, List.isChain_cons_cons]
    simp

theorem isChain_renumbered (consecutive : (items.map number).IsChain fun m n => n = m + 1)
    (below : ∀ a ∈ items, number a < limit) (idle : ∀ a ∈ items, caret a = false → fresh a = 0)
    (sorted : items.Pairwise (start · < start ·)) :
    (renumbered number fresh caret false items).IsChain (fun m n => n = m + 1 ∧ n < limit) ↔
      RoomOnce number fresh caret limit start items := by
  induction items with
  | nil => simp [renumbered, RoomOnce]
  | cons a items ih =>
    obtain ⟨first, sorted⟩ := List.pairwise_cons.mp sorted
    rw [renumbered, if_neg Bool.false_ne_true, Nat.add_zero, Bool.false_or]
    cases here : caret a with
    | false =>
      have none_new := idle a List.mem_cons_self here
      have later_below : ∀ c ∈ items, number c < limit := fun c member =>
        below c (List.mem_cons_of_mem _ member)
      have later_idle : ∀ c ∈ items, caret c = false → fresh c = 0 := fun c member =>
        idle c (List.mem_cons_of_mem _ member)
      rw [none_new, List.replicate_zero, List.nil_append,
        isChain_unbumped_cons later_below consecutive,
        ih consecutive.tail later_below later_idle sorted, roomOnce_cons_of_free here first]
    | true => rw [roomOnce_cons_of_held here first, isChain_held_cons consecutive]

end Room

end MarkdownEditing
