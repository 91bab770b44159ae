import MarkdownEditing.Text.Basic

namespace MarkdownEditing

namespace Text

@[simp] theorem size_nil : size [] = 0 := rfl

@[simp] theorem size_cons (c : Char) (t : Text) : size (c :: t) = c.utf8Size + size t := rfl

theorem size_eq_zero_iff {t : Text} : size t = 0 ↔ t = [] := by
  cases t with
  | nil => simp
  | cons c t =>
    have positive := c.utf8Size_pos
    simp only [size_cons, reduceCtorEq, iff_false]
    omega

theorem size_pos {t : Text} (some_text : t ≠ []) : 0 < t.size :=
  Nat.pos_of_ne_zero fun empty => some_text (size_eq_zero_iff.mp empty)

theorem takeBytes_append (a b : Text) (n : Nat) :
    takeBytes (a ++ b) (a.size + n) = a ++ takeBytes b n := by
  induction a with
  | nil => simp
  | cons c a ih =>
    have inside : c.utf8Size ≤ c.utf8Size + size a + n := by omega
    have rest : c.utf8Size + size a + n - c.utf8Size = size a + n := by omega
    simp only [List.cons_append, size_cons, takeBytes, inside, ↓reduceIte, rest, ih]

theorem dropBytes_append (a b : Text) (n : Nat) :
    dropBytes (a ++ b) (a.size + n) = dropBytes b n := by
  have whole := takeBytes_append_dropBytes (a ++ b) (a.size + n)
  rw [takeBytes_append, List.append_assoc] at whole
  exact List.append_cancel_left
    ((List.append_cancel_left whole).trans (takeBytes_append_dropBytes b n).symm)

@[simp] theorem takeBytes_zero (t : Text) : takeBytes t 0 = [] := by
  cases t with
  | nil => rfl
  | cons c t =>
    have positive := c.utf8Size_pos
    simp only [takeBytes, ite_eq_right_iff, reduceCtorEq]
    omega

@[simp] theorem dropBytes_zero (t : Text) : dropBytes t 0 = t := by
  have parts := takeBytes_append_dropBytes t 0
  simpa using parts

theorem takeBytes_left (a b : Text) : takeBytes (a ++ b) a.size = a := by
  simpa using takeBytes_append a b 0

theorem dropBytes_left (a b : Text) : dropBytes (a ++ b) a.size = b := by
  simpa using dropBytes_append a b 0

theorem append_inj_of_size {a b c d : Text} (same : a ++ b = c ++ d) (sizes : a.size = c.size) :
    a = c ∧ b = d := by
  have front := takeBytes_left a b
  have back := dropBytes_left a b
  rw [same, sizes, takeBytes_left] at front
  rw [same, sizes, dropBytes_left] at back
  exact ⟨front.symm, back.symm⟩

theorem takeBytes_append_of_le {a : Text} (b : Text) {n : Nat} (inside : n ≤ a.size) :
    takeBytes (a ++ b) n = takeBytes a n := by
  induction a generalizing n with
  | nil =>
    have start : n = 0 := by simpa using inside
    subst start
    simp
  | cons c a ih =>
    simp only [size_cons] at inside
    simp only [List.cons_append, takeBytes]
    split
    · rw [ih (by omega)]
    · rfl

theorem dropBytes_append_of_le {a : Text} (b : Text) {n : Nat} (inside : n ≤ a.size) :
    dropBytes (a ++ b) n = dropBytes a n ++ b := by
  have whole := takeBytes_append_dropBytes (a ++ b) n
  have parts := takeBytes_append_dropBytes a n
  rw [takeBytes_append_of_le b inside] at whole
  have same : takeBytes a n ++ dropBytes (a ++ b) n = takeBytes a n ++ (dropBytes a n ++ b) := by
    rw [whole, ← List.append_assoc, parts]
  exact List.append_cancel_left same

theorem isBoundary_iff {t : Text} {n : Nat} :
    t.isBoundary n = true ↔ ∃ a b, t = a ++ b ∧ a.size = n := by
  simp only [isBoundary, floor, beq_iff_eq]
  constructor
  · intro same
    exact ⟨takeBytes t n, dropBytes t n, (takeBytes_append_dropBytes t n).symm, same⟩
  · rintro ⟨a, b, rfl, rfl⟩
    rw [takeBytes_left]

theorem isBoundary_left (a b : Text) : (a ++ b).isBoundary a.size = true :=
  isBoundary_iff.mpr ⟨a, b, rfl, rfl⟩

@[simp] theorem isBoundary_zero (t : Text) : t.isBoundary 0 = true := isBoundary_left [] t

@[simp] theorem isBoundary_size (t : Text) : t.isBoundary t.size = true := by
  simpa using isBoundary_left t []

theorem floor_of_isBoundary {t : Text} {n : Nat} (boundary : t.isBoundary n = true) :
    t.floor n = n := by
  simpa [isBoundary] using boundary

theorem le_size_of_isBoundary {t : Text} {n : Nat} (boundary : t.isBoundary n = true) :
    n ≤ t.size := by
  rw [← floor_of_isBoundary boundary]
  exact floor_le_size t n

theorem size_takeBytes_of_isBoundary {t : Text} {n : Nat} (boundary : t.isBoundary n = true) :
    (t.takeBytes n).size = n := floor_of_isBoundary boundary

theorem isBoundary_append_iff (a b : Text) (n : Nat) :
    (a ++ b).isBoundary (a.size + n) = true ↔ b.isBoundary n = true := by
  simp only [isBoundary, floor, takeBytes_append, size_append, beq_iff_eq]
  omega

theorem isBoundary_append_of_le {a : Text} (b : Text) {n : Nat} (inside : n ≤ a.size) :
    (a ++ b).isBoundary n = a.isBoundary n := by
  rw [isBoundary, isBoundary, floor, floor, takeBytes_append_of_le b inside]

theorem slice_middle (a b c : Text) : slice (a ++ b ++ c) a.size (a.size + b.size) = b := by
  rw [slice, ← size_append, takeBytes_left, dropBytes_left]

theorem cut?_middle (a b c : Text) : cut? (a ++ b ++ c) a.size (a.size + b.size) = some b := by
  have start : (a ++ b ++ c).isBoundary a.size = true := by
    rw [List.append_assoc]
    exact isBoundary_left _ _
  have stop : (a ++ b ++ c).isBoundary (a.size + b.size) = true := by
    rw [← size_append]
    exact isBoundary_left _ _
  rw [cut?, start, stop, slice_middle]
  rfl

theorem slice_of_isBoundary {t : Text} {start stop : Nat} (boundary : t.isBoundary start = true)
    (order : start ≤ stop) :
    t.takeBytes start ++ t.slice start stop = t.takeBytes stop := by
  obtain ⟨a, b, rfl, rfl⟩ := isBoundary_iff.mp boundary
  obtain ⟨n, rfl⟩ := Nat.exists_eq_add_of_le order
  rw [slice, takeBytes_append, dropBytes_left, takeBytes_left]

def lastLine (t : Text) : Text := (t.reverse.takeWhile (· != '\n')).reverse

variable {a b : Text}

theorem lastLine_append (a : Text) (clean : '\n' ∉ b) : lastLine (a ++ b) = lastLine a ++ b := by
  have inside : ∀ c ∈ b.reverse, (c != '\n') = true := by
    intro c member
    simp only [bne_iff_ne]
    intro same
    exact clean (same ▸ List.mem_reverse.mp member)
  rw [lastLine, List.reverse_append, List.takeWhile_append_of_pos inside, List.reverse_append,
    List.reverse_reverse, lastLine]

theorem lastLine_of_ends (ends : a = [] ∨ a.getLast? = some '\n') : lastLine a = [] := by
  rcases ends with rfl | ends
  · rfl
  · obtain ⟨start, rfl⟩ := List.getLast?_eq_some_iff.mp ends
    simp [lastLine]

theorem lastLine_feed (a : Text) : lastLine (a ++ ['\n']) = [] :=
  lastLine_of_ends (Or.inr (by simp))

end Text

end MarkdownEditing
