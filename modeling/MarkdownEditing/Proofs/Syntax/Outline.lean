import MarkdownEditing.Proofs.Syntax.Alike

namespace MarkdownEditing

namespace Place

def entry (p : Place) : Nat × Kind × Option Text :=
  (p.depth, p.kind, if p.isNode ∨ p.kind = .listMark then none else some p.tree.text)

end Place

def Tree.outline (t : Tree) : List (Nat × Kind × Option Text) :=
  (Place.root t).descendants.map Place.entry

namespace Visit

def outline (depth : Nat) : List Visit → List (Nat × Kind × Option Text)
  | [] => []
  | enter kind :: visits => (depth, kind, none) :: outline (depth + 1) visits
  | leaf kind raw :: visits =>
    (depth, kind, if kind = .listMark then none else some (Token.join raw)) :: outline depth visits
  | leave :: visits => outline (depth - 1) visits

end Visit

namespace Tree

open Visit (leave)

mutual

theorem outline_places (t : Tree) (start : Nat) (above : List Level) (later : List Visit) :
    (t.places start above).map Place.entry ++ Visit.outline above.length later =
      Visit.outline above.length (t.walk ++ later) := by
  cases t with
  | token kind raw =>
    rw [places, walk_token]
    simp [Visit.outline, Place.entry, Place.depth, Place.kind, Tree.kind, Place.isNode, Tree.isNode,
      Tree.text, Tree.raw]
  | node kind children =>
    rw [places, walk_node, List.map_cons, List.cons_append, List.cons_append, Visit.outline,
      List.append_assoc, List.singleton_append,
      outline_placesIn children kind start above [] start later]
    simp [Place.entry, Place.depth, Place.kind, Tree.kind, Place.isNode, Tree.isNode]

theorem outline_placesIn (ts : List Tree) (kind : Kind) (start : Nat) (above : List Level)
    (left : List Tree) (pos : Nat) (later : List Visit) :
    (placesIn kind start above left pos ts).map Place.entry ++ Visit.outline above.length later =
      Visit.outline (above.length + 1) (walkAll ts ++ leave :: later) := by
  cases ts with
  | nil => simp [placesIn, Visit.outline]
  | cons t ts =>
    have here := outline_places t pos (⟨kind, start, left, ts⟩ :: above)
      (walkAll ts ++ leave :: later)
    rw [List.length_cons] at here
    rw [placesIn, List.map_append, List.append_assoc, outline_placesIn ts, here, walkAll_cons,
      List.append_assoc]

end

theorem outline_walk (t : Tree) : t.outline = Visit.outline 0 t.walk := by
  have whole := outline_places t 0 [] []
  simpa [Visit.outline, outline, Place.descendants, Place.root] using whole

end Tree

theorem front_unique {α : Type} (size : List α → Nat)
    (adds : ∀ xs ys, size (xs ++ ys) = size xs + size ys) {n : Nat} {x y : α}
    {front back front' back' : List α} (same : front ++ x :: back = front' ++ y :: back')
    (low : size front ≤ n) (high : n < size front + size [x]) (low' : size front' ≤ n)
    (high' : n < size front' + size [y]) : front = front' := by
  wlog order : front.length ≤ front'.length generalizing front back front' back' x y
  · exact (this same.symm low' high' low high (by omega)).symm
  obtain ⟨more, rfl⟩ : front <+: front' :=
    List.prefix_of_prefix_length_le ⟨_, rfl⟩ ⟨_, same.symm⟩ order
  cases more with
  | nil => rw [List.append_nil]
  | cons z more =>
    rw [List.append_assoc] at same
    obtain ⟨rfl, _⟩ := List.cons.inj (List.append_cancel_left same)
    have whole := adds front (x :: more)
    have first := adds [x] more
    rw [List.singleton_append] at first
    omega

namespace Visit

def SameButMark (v w : Visit) : Prop :=
  v = w ∨ ∃ raw raw', v = leaf .listMark raw ∧ w = leaf .listMark raw'

theorem outline_congr {a b : List Visit} (same : List.Forall₂ SameButMark a b) (depth : Nat) :
    outline depth a = outline depth b := by
  induction same generalizing depth with
  | nil => rfl
  | @cons v w a b here _ ih =>
    rcases here with rfl | ⟨raw, raw', rfl, rfl⟩
    · cases v <;> simp only [outline, ih]
    · simp only [outline, ih, ↓reduceIte]

def Holds (visits : List Visit) (k : Nat) (v : Visit) : Prop :=
  ∃ before after, visits = before ++ v :: after ∧ (before.flatMap raw).length ≤ k ∧
    k < (before.flatMap raw).length + v.raw.length

theorem Holds.unique {visits : List Visit} {k : Nat} {v w : Visit} (first : Holds visits k v)
    (second : Holds visits k w) : v = w := by
  obtain ⟨before, after, parts, low, high⟩ := first
  obtain ⟨before', after', parts', low', high'⟩ := second
  have same := parts.symm.trans parts'
  obtain rfl := front_unique (fun visits => (visits.flatMap raw).length)
    (fun a b => by rw [List.flatMap_append, List.length_append]) same low
    (by rw [List.flatMap_singleton]; exact high) low' (by rw [List.flatMap_singleton]; exact high')
  exact (List.cons.inj (List.append_cancel_left same)).1

theorem getElem?_raw {visits before after : List Visit} {v : Visit} {j : Nat}
    (parts : visits = before ++ v :: after) (inside : j < v.raw.length) :
    (visits.flatMap raw)[(before.flatMap raw).length + j]? = v.raw[j]? := by
  rw [parts, List.flatMap_append, List.flatMap_cons, List.getElem?_append_right (by omega),
    Nat.add_sub_cancel_left, List.getElem?_append_left inside]

/-- Walks that are the same up to numbers, and these in list marks, differ at list marks only. -/
theorem same_but_marks {a b : List Visit} (aligned : Aligned a b)
    (tokens : ∀ k, (a.flatMap raw)[k]? = (b.flatMap raw)[k]? ∨
      ∃ marks, Holds a k (leaf .listMark marks)) : List.Forall₂ SameButMark a b := by
  refine List.forall₂_iff_get.mpr ⟨aligned.length_eq, fun i inside inside' => ?_⟩
  have alike := (List.forall₂_iff_get.mp aligned).2 i inside inside'
  have parts : a = a.take i ++ a.get ⟨i, inside⟩ :: a.drop (i + 1) := by simp
  have parts' : b = b.take i ++ b.get ⟨i, inside'⟩ :: b.drop (i + 1) := by simp
  have before : ((a.take i).flatMap raw).length = ((b.take i).flatMap raw).length :=
    (Aligned.raw (List.forall₂_take i aligned)).length_eq
  generalize a.get ⟨i, inside⟩ = v at alike parts ⊢
  generalize b.get ⟨i, inside'⟩ = w at alike parts' ⊢
  cases alike with
  | enter | leave => exact Or.inl rfl
  | @leaf kind first second same =>
    by_cases mark : kind = .listMark
    · subst mark
      exact Or.inr ⟨first, second, rfl, rfl⟩
    · refine Or.inl (congrArg (leaf kind) (List.ext_getElem? fun j => ?_))
      by_cases here : j < first.length
      · have held : Holds a (((a.take i).flatMap raw).length + j) (leaf kind first) :=
          ⟨_, _, parts, Nat.le_add_right _ _, Nat.add_lt_add_left here _⟩
        rcases tokens (((a.take i).flatMap raw).length + j) with token | ⟨marks, other⟩
        · rw [getElem?_raw parts here, before, getElem?_raw parts' (same.length_eq ▸ here)] at token
          exact token
        · cases held.unique other
          exact absurd rfl mark
      · rw [List.getElem?_eq_none (by omega), List.getElem?_eq_none (by rw [← same.length_eq]; omega)]

end Visit

end MarkdownEditing
