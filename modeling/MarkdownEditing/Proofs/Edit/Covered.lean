import MarkdownEditing.Proofs.Edit.Changes
import MarkdownEditing.Proofs.Text.Cut

namespace MarkdownEditing

namespace Text

def pickFrom (accepts : Nat → Char → Bool) (offset : Nat) : Text → Text
  | [] => []
  | c :: t =>
    if accepts offset c then c :: pickFrom accepts (offset + c.utf8Size) t
    else pickFrom accepts (offset + c.utf8Size) t

def touches (start stop offset : Nat) (c : Char) : Bool :=
  start < stop && start < offset + c.utf8Size && offset < stop

/-- The characters that lie between two offsets, in whole or in part. -/
def touched (t : Text) (start stop : Nat) : Text := t.pickFrom (touches start stop) 0

variable {accepts : Nat → Char → Bool} {offset start stop : Nat} {t a b : Text} {c : Char}

theorem mem_pickFrom : c ∈ t.pickFrom accepts offset ↔
    ∃ a b : Text, t = a ++ c :: b ∧ accepts (offset + a.size) c = true := by
  induction t generalizing offset with
  | nil => simp [pickFrom]
  | cons d t ih =>
    constructor
    · intro member
      have later : c ∈ pickFrom accepts (offset + d.utf8Size) t →
          ∃ a b : Text, d :: t = a ++ c :: b ∧ accepts (offset + a.size) c = true := by
        intro member
        obtain ⟨a, b, rfl, accepted⟩ := ih.mp member
        exact ⟨d :: a, b, rfl, by rw [size_cons, ← Nat.add_assoc]; exact accepted⟩
      rw [pickFrom] at member
      split at member
      · rename_i accepted
        rcases List.mem_cons.mp member with rfl | member
        · exact ⟨[], t, rfl, accepted⟩
        · exact later member
      · exact later member
    · rintro ⟨a, b, parts, accepted⟩
      cases a with
      | nil =>
        obtain ⟨rfl, rfl⟩ := List.cons.inj parts
        have here : accepts offset d = true := accepted
        rw [pickFrom, if_pos here]
        exact List.mem_cons_self
      | cons e a =>
        obtain ⟨rfl, rfl⟩ := List.cons.inj parts
        have member := ih.mpr ⟨a, b, rfl, by rw [Nat.add_assoc]; exact accepted⟩
        rw [pickFrom]
        split
        · exact List.mem_cons_of_mem _ member
        · exact member

theorem pickFrom_append (accepts : Nat → Char → Bool) (offset : Nat) (a b : Text) :
    (a ++ b).pickFrom accepts offset =
      a.pickFrom accepts offset ++ b.pickFrom accepts (offset + a.size) := by
  induction a generalizing offset with
  | nil => simp [pickFrom]
  | cons c a ih =>
    simp only [List.cons_append, pickFrom, size_cons, ih, Nat.add_assoc]
    split <;> rfl

theorem pickFrom_sublist (accepts : Nat → Char → Bool) (offset : Nat) (t : Text) :
    (t.pickFrom accepts offset).Sublist t := by
  induction t generalizing offset with
  | nil => exact List.Sublist.slnil
  | cons c t ih =>
    rw [pickFrom]
    split
    · exact (ih _).cons_cons c
    · exact (ih _).cons c

theorem pickFrom_mono {refuses : Nat → Char → Bool}
    (weaker : ∀ offset c, accepts offset c = true → refuses offset c = true) (offset : Nat)
    (t : Text) : (t.pickFrom accepts offset).Sublist (t.pickFrom refuses offset) := by
  induction t generalizing offset with
  | nil => exact List.Sublist.slnil
  | cons c t ih =>
    rw [pickFrom, pickFrom]
    split
    · rename_i accepted
      rw [if_pos (weaker _ _ accepted)]
      exact (ih _).cons_cons c
    · split
      · exact (ih _).cons c
      · exact ih _

theorem mem_touched : c ∈ t.touched start stop ↔
    ∃ a b : Text, t = a ++ c :: b ∧ start < stop ∧ start < a.size + c.utf8Size ∧ a.size < stop := by
  rw [touched, mem_pickFrom]
  simp only [touches, Nat.zero_add, Bool.and_eq_true, decide_eq_true_eq, and_assoc]

theorem touched_of_le (empty : stop ≤ start) : t.touched start stop = [] := by
  apply List.eq_nil_iff_forall_not_mem.mpr
  intro c member
  obtain ⟨_, _, _, some_bytes, _⟩ := mem_touched.mp member
  omega

theorem mem_of_mem_touched {m : Text} (parts : t = a ++ m ++ b) (low : a.size ≤ start)
    (high : stop ≤ a.size + m.size) (member : c ∈ t.touched start stop) : c ∈ m := by
  obtain ⟨a', b', parts', _, ends, begins⟩ := mem_touched.mp member
  rw [parts, List.append_assoc] at parts'
  rcases List.append_eq_append_iff.mp parts' with ⟨mid, rfl, rest⟩ | ⟨mid, rfl, rest⟩
  · rcases List.append_eq_append_iff.mp rest with ⟨mid', rfl, inner⟩ | ⟨mid', rfl, inner⟩
    · rw [size_append, size_append] at begins
      omega
    · cases mid' with
      | nil =>
        rw [List.append_nil] at high
        rw [size_append] at begins
        omega
      | cons d mid' =>
        obtain ⟨rfl, _⟩ := List.cons.inj inner
        simp
  · cases mid with
    | nil =>
      rw [List.nil_append] at rest
      rw [List.append_nil] at low
      cases m with
      | nil =>
        rw [List.append_nil] at high
        simp only [size_nil] at high
        omega
      | cons d m =>
        obtain ⟨rfl, _⟩ := List.cons.inj rest
        simp
    | cons d mid =>
      obtain ⟨rfl, _⟩ := List.cons.inj rest
      rw [size_append, size_cons] at low
      omega

theorem split_at (u : Text) (offset limit : Nat) :
    ∃ k v : Text, u = k ++ v ∧ (∀ (x : Text) (c : Char) (y : Text), k = x ++ c :: y →
      offset + x.size < limit) ∧ (v = [] ∨ limit ≤ offset + k.size) := by
  induction u generalizing offset with
  | nil => exact ⟨[], [], rfl, by simp, Or.inl rfl⟩
  | cons d u ih =>
    by_cases before : offset < limit
    · obtain ⟨k, v, rfl, inside, ends⟩ := ih (offset + d.utf8Size)
      refine ⟨d :: k, v, rfl, ?_, ?_⟩
      · intro x c y parts
        cases x with
        | nil => exact before
        | cons e x =>
          obtain ⟨rfl, rest⟩ := List.cons.inj parts
          have later := inside x c y rest
          rw [size_cons]
          omega
      · rw [size_cons, ← Nat.add_assoc]
        exact ends
    · exact ⟨[], d :: u, rfl, by simp, Or.inr (by simpa using before)⟩

theorem size_le_of_before {k v : Text} {limit : Nat} (low : a.size ≤ limit)
    (boundary : (a ++ (k ++ v)).isBoundary limit = true)
    (inside : ∀ (x : Text) (c : Char) (y : Text), k = x ++ c :: y → a.size + x.size < limit) :
    a.size + k.size ≤ limit := by
  obtain ⟨n, rfl⟩ := Nat.exists_eq_add_of_le low
  obtain ⟨x, y, parts, rfl⟩ := isBoundary_iff.mp ((isBoundary_append_iff a _ n).mp boundary)
  rcases List.append_eq_append_iff.mp parts with ⟨mid, rfl, rest⟩ | ⟨mid, rfl, rest⟩
  · rw [size_append]
    omega
  · cases mid with
    | nil =>
      exact Nat.le_of_eq (by rw [List.append_nil])
    | cons c mid =>
      have below := inside x c mid rfl
      omega

theorem touched_all {m : Text} (parts : t = a ++ m ++ b) (low : a.size ≤ start)
    (high : stop ≤ a.size + m.size) {p : Char → Bool} (all : ∀ c ∈ m, p c = true) :
    (t.touched start stop).all p = true :=
  List.all_eq_true.mpr fun c member => all c (mem_of_mem_touched parts low high member)

end Text

namespace ChangeSet

def covers (changes : List Change) (offset : Nat) (c : Char) : Bool :=
  changes.any fun x => Text.touches x.start x.stop offset c

/-- The characters that the changes take away, in whole or in part. -/
def covered (s : ChangeSet) (t : Text) : Text := t.pickFrom (covers s.changes) 0

/-- The characters that the changes leave alone. -/
def survivors (s : ChangeSet) (t : Text) : Text :=
  t.pickFrom (fun offset c => !covers s.changes offset c) 0

theorem covered_all_iff (s : ChangeSet) (t : Text) (p : Char → Bool) :
    (s.covered t).all p = true ↔ ∀ x ∈ s.changes, (t.touched x.start x.stop).all p = true := by
  simp only [List.all_eq_true]
  constructor
  · intro all x member c inside
    obtain ⟨a, b, parts, touches⟩ := Text.mem_pickFrom.mp inside
    apply all
    exact Text.mem_pickFrom.mpr ⟨a, b, parts, List.any_eq_true.mpr ⟨x, member, touches⟩⟩
  · intro all c inside
    obtain ⟨a, b, parts, covered⟩ := Text.mem_pickFrom.mp inside
    obtain ⟨x, member, touches⟩ := List.any_eq_true.mp covered
    exact all x member c (Text.mem_pickFrom.mpr ⟨a, b, parts, touches⟩)

theorem pickFrom_covered {changes : List Change} {x : Change} {m : Text} {offset : Nat}
    (low : x.start ≤ offset)
    (high : ∀ (a : Text) (c : Char) (b : Text), m = a ++ c :: b → offset + a.size < x.stop) :
    m.pickFrom (fun offset c => !covers (x :: changes) offset c) offset = [] := by
  apply List.eq_nil_iff_forall_not_mem.mpr
  intro c member
  obtain ⟨a, b, parts, left⟩ := Text.mem_pickFrom.mp member
  have before := high a c b parts
  have positive := c.utf8Size_pos
  have touches : Text.touches x.start x.stop (offset + a.size) c = true := by
    simp only [Text.touches, Bool.and_eq_true, decide_eq_true_eq]
    omega
  simp [covers, touches] at left

theorem gap?_eq {t kept : Text} {start stop : Nat} (found : gap? t start stop = some kept)
    (some_bytes : start < stop) :
    t.isBoundary start = true ∧ t.isBoundary stop = true ∧ kept = t.slice start stop := by
  rw [gap?, if_pos some_bytes, Text.cut?] at found
  split at found
  · rename_i boundaries
    cases found
    simp only [Bool.and_eq_true] at boundaries
    exact ⟨boundaries.1, boundaries.2, rfl⟩
  · cases found

/-- What stands in the changed text of a first change: the gap before it, its insertion, and what
the changes behind it make. -/
theorem applyFrom?_cons {t u : Text} {c : Change} {rest : List Change} {stop pos : Nat}
    (applied : applyFrom? t stop pos (c :: rest) = some u) :
    ∃ kept later, gap? t pos c.start = some kept ∧ applyFrom? t stop c.stop rest = some later ∧
      u = kept ++ c.insert ++ later := by
  simp only [applyFrom?, bind, Option.bind] at applied
  cases gap : gap? t pos c.start with
  | none => simp [gap] at applied
  | some kept =>
    cases after : applyFrom? t stop c.stop rest with
    | none => simp [gap, after] at applied
    | some later =>
      simp only [gap, after, pure, Option.some.injEq] at applied
      exact ⟨kept, later, rfl, rfl, applied.symm⟩

theorem Ordered.of_cons {x : Change} {rest : List Change} (ordered : Ordered (x :: rest)) :
    Ordered rest ∧ ∀ c ∈ rest.head?, x.stop ≤ c.start := by
  cases rest with
  | nil => exact ⟨True.intro, by simp⟩
  | cons d rest =>
    refine ⟨ordered.2, ?_⟩
    intro c member
    have same : d = c := by simpa using member
    rw [← same]
    exact ordered.1

/-- The first character boundary of `t` from `pos` on splits it into `a` and `u`. -/
structure SplitsFrom (t : Text) (pos : Nat) (a u : Text) : Prop where
  parts : t = a ++ u
  beyond : pos ≤ a.size
  least : ∀ n, pos ≤ n → t.isBoundary n = true → a.size ≤ n

section SplitsFrom

variable {t a k m v : Text} {pos start stop : Nat}

/-- A kept gap holds the characters that begin before its end. -/
theorem SplitsFrom.sublist_gap {kept : Text} (split : SplitsFrom t pos a (k ++ v))
    (gap : gap? t pos stop = some kept) (bound : stop ≤ t.size)
    (inside : ∀ (x : Text) (c : Char) (y : Text), k = x ++ c :: y → a.size + x.size < stop)
    (ends : v = [] ∨ stop ≤ a.size + k.size) (accepts : Nat → Char → Bool) :
    (k.pickFrom accepts a.size).Sublist kept := by
  obtain ⟨parts, beyond, least⟩ := split
  by_cases some_bytes : pos < stop
  · obtain ⟨begins, boundary, rfl⟩ := gap?_eq gap some_bytes
    have here : a.size = pos := Nat.le_antisymm (least pos (Nat.le_refl _) begins) beyond
    rw [parts] at boundary
    have below := Text.size_le_of_before (by omega) boundary inside
    have above : stop ≤ a.size + k.size := by
      rcases ends with none_left | reaches
      · rw [parts, none_left, Text.size_append, List.append_nil] at bound
        exact bound
      · exact reaches
    have same : t.slice pos stop = k := by
      rw [parts, ← List.append_assoc, ← here, show stop = a.size + k.size by omega,
        Text.slice_middle]
    rw [same]
    exact Text.pickFrom_sublist _ _ _
  · have none_left : k = [] := by
      cases k with
      | nil => rfl
      | cons c k =>
        have before := inside [] c k rfl
        omega
    rw [none_left]
    exact List.nil_sublist _

theorem SplitsFrom.at_stop (split : SplitsFrom t pos a (k ++ (m ++ v))) (low : pos ≤ start)
    (forward : start ≤ stop)
    (before : ∀ (x : Text) (c : Char) (y : Text), k = x ++ c :: y → a.size + x.size < start)
    (inside : ∀ (x : Text) (c : Char) (y : Text), m = x ++ c :: y →
      a.size + k.size + x.size < stop)
    (reaches : stop ≤ a.size + k.size + m.size) : SplitsFrom t stop (a ++ k ++ m) v := by
  obtain ⟨parts, beyond, least⟩ := split
  refine ⟨?_, ?_, ?_⟩
  · rw [parts]
    simp only [List.append_assoc]
  · rw [Text.size_append, Text.size_append]
    exact reaches
  · intro n past boundary
    have to_a := least n (by omega) boundary
    rw [parts] at boundary
    have to_k := Text.size_le_of_before to_a boundary fun x c y same =>
      Nat.lt_of_lt_of_le (before x c y same) (by omega)
    rw [← List.append_assoc] at boundary
    rw [← Text.size_append] at to_k
    have to_m := Text.size_le_of_before to_k boundary fun x c y same => by
      have begins := inside x c y same
      rw [Text.size_append]
      omega
    rw [Text.size_append]
    exact to_m

end SplitsFrom

theorem survivors_sublist_from {changes : List Change} {t a u t' : Text} {pos : Nat}
    (split : SplitsFrom t pos a u)
    (inside : ∀ c ∈ changes, c.start ≤ c.stop ∧ c.stop ≤ t.size) (ordered : Ordered changes)
    (first : ∀ c ∈ changes.head?, pos ≤ c.start)
    (applied : applyFrom? t t.size pos changes = some t') :
    (u.pickFrom (fun offset c => !covers changes offset c) a.size).Sublist t' := by
  induction changes generalizing a u t' pos with
  | nil =>
    have whole : SplitsFrom t pos a (u ++ []) := by
      rw [List.append_nil]
      exact split
    apply whole.sublist_gap applied (Nat.le_refl _) _ (Or.inl rfl)
    intro x c y parts
    have positive := c.utf8Size_pos
    rw [split.parts, parts, Text.size_append, Text.size_append, Text.size_cons]
    omega
  | cons x rest ih =>
    obtain ⟨kept, changed, gap, after, rfl⟩ := applyFrom?_cons applied
    obtain ⟨forward, bound⟩ := inside x List.mem_cons_self
    -- `k` lies before the change, `m` is touched by it, `v` is what is left behind it
    obtain ⟨k, w, rfl, k_inside, k_ends⟩ := Text.split_at u a.size x.start
    obtain ⟨m, v, rfl, m_inside, m_ends⟩ := Text.split_at w (a.size + k.size) x.stop
    have first_part : (k.pickFrom (fun offset c => !covers (x :: rest) offset c)
        a.size).Sublist kept :=
      split.sublist_gap gap (Nat.le_trans forward bound) k_inside k_ends _
    have second_part : m.pickFrom (fun offset c => !covers (x :: rest) offset c)
        (a.size + k.size) = [] := by
      rcases k_ends with none_left | reaches
      · rw [(List.append_eq_nil_iff.mp none_left).1]
        rfl
      · exact pickFrom_covered reaches m_inside
    have third_part : (v.pickFrom (fun offset c => !covers (x :: rest) offset c)
        (a.size + k.size + m.size)).Sublist changed := by
      rcases m_ends with rfl | reaches
      · exact List.nil_sublist _
      · have next := split.at_stop (first x rfl) forward k_inside m_inside reaches
        obtain ⟨still, follows⟩ := ordered.of_cons
        have later := ih next (fun c member => inside c (List.mem_cons_of_mem _ member)) still
          follows after
        rw [Text.size_append, Text.size_append] at later
        refine (Text.pickFrom_mono ?_ _ _).trans later
        intro offset c left
        simp only [covers, List.any_cons, Bool.not_or, Bool.and_eq_true] at left ⊢
        exact left.2
    rw [Text.pickFrom_append, Text.pickFrom_append, second_part, List.nil_append, List.append_assoc]
    exact first_part.append (third_part.trans (List.sublist_append_right _ _))

theorem survivors_sublist {changes : List Change} {s : ChangeSet} {t t' : Text}
    (made : ofChanges changes t.size = .ok s) (applied : s.applyTo? t = some t') :
    (s.survivors t).Sublist t' := by
  rw [applyTo?, ofChanges_size made] at applied
  have split : SplitsFrom t 0 [] t := ⟨rfl, Nat.le_refl 0, fun n _ _ => Nat.zero_le n⟩
  exact survivors_sublist_from split (ofChanges_bounds made) (ofChanges_ordered made)
    (fun c _ => Nat.zero_le _) applied

end ChangeSet

namespace Transaction

variable {s : EditState} {t : Transaction} {edit : Range → Except Refusal RangeEdit}

/-- What a command that edits every range takes away is what the changes of its edits take away. -/
theorem byRange_covered_all_iff (made : byRange s edit = .ok t) (p : Char → Bool) :
    (t.changes.covered s.text).all p = true ↔
      ∀ r ∈ s.selection.ranges, ∀ e, edit r = .ok e → ∀ c ∈ e.changes,
        (s.text.touched c.start c.stop).all p = true := by
  rw [ChangeSet.covered_all_iff]
  constructor
  · intro all r range e edited c member
    cases effective : c.isNoop with
    | false => exact all c ((mem_byRange made).mpr ⟨⟨r, range, e, edited, member⟩, effective⟩)
    | true =>
      simp only [Change.isNoop, Bool.and_eq_true, beq_iff_eq] at effective
      rw [effective.1, Text.touched_of_le (Nat.le_refl _)]
      rfl
  · intro all c member
    obtain ⟨⟨r, range, e, edited, inside⟩, _⟩ := (mem_byRange made).mp member
    exact all r range e edited c inside

end Transaction

end MarkdownEditing
