import MarkdownEditing.Markup.Frame
import MarkdownEditing.Proofs.Syntax.Led
import MarkdownEditing.Proofs.Text.Blank

namespace MarkdownEditing

theorem glyph_facts {c : Char}
    (glyph : c = '>' ∨ c = '-' ∨ c = '+' ∨ c = '*' ∨ c = '.' ∨ c = ')') :
    c ≠ ' ' ∧ isDigit c = false ∧ isWhite c = false ∧ isErasable c = true := by
  rcases glyph with rfl | rfl | rfl | rfl | rfl | rfl <;> decide

theorem digit_facts {c : Char} (digit : c.isDigit = true) :
    c ≠ ' ' ∧ c ≠ '-' ∧ c ≠ '+' ∧ c ≠ '*' ∧ isWhite c = false := by
  refine ⟨?_, ?_, ?_, ?_, ?_⟩
  · rintro rfl
    cases digit
  · rintro rfl
    cases digit
  · rintro rfl
    cases digit
  · rintro rfl
    cases digit
  · simp only [Char.isDigit, Bool.and_eq_true, decide_eq_true_eq] at digit
    have low : 48 ≤ c.toNat := UInt32.le_iff_toNat_le.mp digit.1
    have high : c.toNat ≤ 57 := UInt32.le_iff_toNat_le.mp digit.2
    simp only [isWhite, Bool.or_eq_false_iff, Bool.and_eq_false_iff, decide_eq_false_iff_not,
      beq_eq_false_iff_ne]
    omega

theorem digit_visible {c : Char} (digit : c.isDigit = true) :
    isIndent c = false ∧ c ≠ '>' ∧ c ≠ '\n' ∧ c ≠ '\r' := by
  have visible := (digit_facts digit).2.2.2.2
  refine ⟨?_, ?_, ?_, ?_⟩
  · cases indent : isIndent c with
    | false => rfl
    | true =>
      rw [isWhite_of_isIndent c indent] at visible
      cases visible
  all_goals
    rintro rfl
    cases digit

namespace Marker

structure Takes (m : Marker) (t glyphs tail : Text) : Prop where
  parts : t = glyphs ++ (m.after ++ tail)
  size : m.size = glyphs.size + m.after.size
  erasable : ∀ c ∈ glyphs, isErasable c = true
  visible : ∃ c ∈ glyphs, isWhite c = false
  spaces : ∃ n, m.after = Text.spaces n

variable {m : Marker}

theorem before_of_quote? {t : Text} (found : quote? t = some m) : m.before = [] := by
  unfold quote? at found
  split at found
  · cases found
    rfl
  · cases found

theorem before_of_bullet? {t : Text} (found : bullet? t = some m) :
    m.before = Text.spaces t.leadingSpaces := by
  unfold bullet? at found
  dsimp only at found
  split at found
  · split at found
    · cases found
      rfl
    · cases found
  · cases found

theorem before_of_ordered? {t : Text} (found : ordered? t = some m) :
    m.before = Text.spaces t.leadingSpaces := by
  unfold ordered? at found
  dsimp only at found
  split at found
  · split at found
    · cases found
      rfl
    · cases found
  · cases found

theorem quote?_eq (tail : Text) :
    ∃ m, quote? ('>' :: tail) = some m ∧ m.before = [] ∧ m.glyphs = ['>'] := by
  have none_before := Text.leadingSpaces_cons (c := '>') tail (by decide)
  simp only [quote?, none_before, List.drop_zero]
  exact ⟨_, rfl, rfl, rfl⟩

theorem quote?_takes {t : Text} (found : quote? ('>' :: t) = some m) :
    ∃ tail, m.Takes ('>' :: t) ['>'] tail := by
  have none_before := Text.leadingSpaces_cons (c := '>') t (by decide)
  simp only [quote?, none_before, List.drop_zero, Option.some.injEq] at found
  subst found
  have glyph : ∀ c ∈ ['>'], isErasable c = true := by
    intro c member
    rw [List.mem_singleton.mp member]
    decide
  have visible : ∃ c ∈ ['>'], isWhite c = false := ⟨'>', by simp, rfl⟩
  cases t with
  | nil => exact ⟨[], rfl, rfl, glyph, visible, 0, rfl⟩
  | cons c t =>
    by_cases space : c = ' '
    · subst space
      exact ⟨t, rfl, rfl, glyph, visible, 1, rfl⟩
    · refine ⟨c :: t, ?_, ?_, glyph, visible, 0, ?_⟩ <;> simp [space, Text.spaces]
      decide

theorem withSpaces_takes (before glyphs text tail : Text) (most : Nat) {size : Nat}
    (same : size = text.size) (erasable : ∀ c ∈ text, isErasable c = true)
    (visible : ∃ c ∈ text, isWhite c = false) :
    ∃ rest, (withSpaces before glyphs size (Text.leadingSpaces tail) most).Takes (text ++ tail) text
      rest := by
  have parts := Text.leadingSpaces_parts tail
  generalize Text.leadingSpaces tail = spaces at parts
  generalize kept_eq : (if most < spaces then spaces - 4 else spaces) = kept
  have few : kept ≤ spaces := by
    rw [← kept_eq]
    split <;> omega
  have split : spaces = kept + (spaces - kept) := by omega
  refine ⟨Text.spaces (spaces - kept) ++ tail.drop spaces, ⟨?_, ?_, erasable, visible, kept, ?_⟩⟩
  · simp only [withSpaces, kept_eq]
    rw [← List.append_assoc (Text.spaces kept), ← Text.spaces_add, ← split]
    exact congrArg (text ++ ·) parts
  · simp only [withSpaces, kept_eq, Text.size_spaces, same]
  · simp only [withSpaces, kept_eq]

section TaskBox

def IsTaskBox (box : Text) : Prop :=
  ∃ n c, 1 ≤ n ∧ n ≤ 4 ∧ (c = ' ' ∨ c = 'x' ∨ c = 'X') ∧ box = Text.spaces n ++ ['[', c, ']']

/-- The task box that a text begins with, if a space follows it, and nothing otherwise. -/
def BeginsWithBox (tail box : Text) : Prop :=
  (IsTaskBox box ∧ ∃ rest, tail = box ++ ' ' :: rest) ∨
    (box = [] ∧ ∀ other rest, IsTaskBox other → tail ≠ other ++ ' ' :: rest)

def cleared (box : Text) : Text := box.map fun c => if c = 'x' ∨ c = 'X' then ' ' else c

variable {t tail box rest : Text} {c : Char}

theorem cleared_box (n : Nat) (mark : c = ' ' ∨ c = 'x' ∨ c = 'X') :
    cleared (Text.spaces n ++ ['[', c, ']']) = Text.spaces n ++ ['[', ' ', ']'] := by
  rcases mark with rfl | rfl | rfl <;> simp [cleared, Text.spaces]

theorem IsTaskBox.size_eq (is_box : IsTaskBox box) : box.size = box.length := by
  obtain ⟨n, c, _, _, mark, rfl⟩ := is_box
  apply Text.size_eq_length
  intro d member
  rcases List.mem_append.mp member with member | member
  · rw [Text.mem_spaces member]
    rfl
  · simp only [List.mem_cons, List.not_mem_nil, or_false] at member
    rcases member with rfl | rfl | rfl
    · rfl
    · rcases mark with rfl | rfl | rfl <;> rfl
    · rfl

theorem leadingSpaces_spaces (n : Nat) (other : c ≠ ' ') :
    Text.leadingSpaces (Text.spaces n ++ c :: tail) = n := by
  have all : ∀ d ∈ Text.spaces n, (d == ' ') = true := by
    intro d member
    rw [Text.mem_spaces member]
    rfl
  rw [Text.leadingSpaces, Text.takeWhile_stop all (by simpa using other), Text.spaces,
    List.length_replicate]

theorem leadingSpaces_pos : 1 ≤ Text.leadingSpaces t ↔ t.head? = some ' ' := by
  cases t with
  | nil => simp [Text.leadingSpaces]
  | cons c t => by_cases space : c = ' ' <;> simp [Text.leadingSpaces, space]

theorem taskBox?_of_isTaskBox (is_box : IsTaskBox box) (rest : Text) :
    taskBox? (box ++ rest) = some (cleared box, rest) := by
  obtain ⟨n, c, low, high, mark, rfl⟩ := is_box
  have leading : Text.leadingSpaces (Text.spaces n ++ ['[', c, ']'] ++ rest) = n := by
    rw [List.append_assoc]
    exact leadingSpaces_spaces n (by decide)
  have left : (Text.spaces n ++ ['[', c, ']'] ++ rest).drop n = '[' :: c :: ']' :: rest := by
    rw [List.append_assoc]
    exact List.drop_left' (by rw [Text.spaces, List.length_replicate])
  simp only [taskBox?, leading, left, low, high, mark, and_self, ↓reduceIte, cleared_box n mark]

theorem isTaskBox_of_taskBox? {unchecked : Text} (found : taskBox? t = some (unchecked, rest)) :
    ∃ box, IsTaskBox box ∧ t = box ++ rest ∧ unchecked = cleared box := by
  have parts := Text.leadingSpaces_parts t
  unfold taskBox? at found
  split at found
  · rename_i c tail left
    split at found
    · rename_i fits
      cases found
      rw [left] at parts
      refine ⟨Text.spaces t.leadingSpaces ++ ['[', c, ']'], ?_, by simpa using parts,
        (cleared_box _ fits.2.2).symm⟩
      exact ⟨t.leadingSpaces, c, fits.1, fits.2.1, fits.2.2, rfl⟩
    · cases found
  · cases found

theorem IsTaskBox.isErasable (is_box : IsTaskBox box) :
    ∀ d ∈ box, MarkdownEditing.isErasable d = true := by
  obtain ⟨n, c, _, _, mark, rfl⟩ := is_box
  intro d member
  rcases List.mem_append.mp member with member | member
  · rw [Text.mem_spaces member]
    decide
  · simp only [List.mem_cons, List.not_mem_nil, or_false] at member
    rcases member with rfl | rfl | rfl
    · decide
    · rcases mark with rfl | rfl | rfl <;> decide
    · decide

theorem BeginsWithBox.length_cleared (begins : BeginsWithBox tail box) :
    (cleared box).length = box.size := by
  rcases begins with ⟨is_box, _⟩ | ⟨rfl, _⟩
  · rw [is_box.size_eq, cleared, List.length_map]
  · rfl

theorem BeginsWithBox.isErasable (begins : BeginsWithBox tail box) :
    ∀ d ∈ box, MarkdownEditing.isErasable d = true := by
  rcases begins with ⟨is_box, _⟩ | ⟨rfl, _⟩
  · exact is_box.isErasable
  · simp

/-- The task box after a bullet is found exactly when it stands there with a space after it. -/
theorem splitTask_cases (tail : Text) :
    ∃ box, tail = box ++ (splitTask tail).2 ∧ (splitTask tail).1 = cleared box ∧
      BeginsWithBox tail box ∧ (1 ≤ (splitTask tail).2.leadingSpaces ↔ tail.head? = some ' ') := by
  have none_found : (∀ unchecked rest, taskBox? tail = some (unchecked, rest) →
      ¬1 ≤ Text.leadingSpaces rest) → BeginsWithBox tail [] := by
    intro no_box
    refine Or.inr ⟨rfl, ?_⟩
    rintro box rest is_box rfl
    exact no_box _ _ (taskBox?_of_isTaskBox is_box (' ' :: rest)) (leadingSpaces_pos.mpr rfl)
  unfold splitTask
  split
  · rename_i unchecked rest found
    split
    · rename_i space
      obtain ⟨box, is_box, rfl, same⟩ := isTaskBox_of_taskBox? found
      refine ⟨box, rfl, same, Or.inl ⟨is_box, ?_⟩, ?_⟩
      · have head := leadingSpaces_pos.mp space
        cases rest with
        | nil => cases head
        | cons c rest =>
          cases head
          exact ⟨rest, rfl⟩
      · obtain ⟨n, c, low, _, _, rfl⟩ := is_box
        obtain ⟨m, rfl⟩ := Nat.exists_eq_add_of_le' low
        exact ⟨fun _ => rfl, fun _ => space⟩
    · rename_i no_space
      refine ⟨[], rfl, rfl, none_found ?_, leadingSpaces_pos⟩
      intro unchecked' rest' found'
      rw [found] at found'
      cases found'
      exact no_space
  · rename_i nothing
    refine ⟨[], rfl, rfl, none_found ?_, leadingSpaces_pos⟩
    intro unchecked rest found
    rw [nothing] at found
    cases found

end TaskBox

theorem bullet?_eq {c : Char} (glyph : c = '-' ∨ c = '+' ∨ c = '*') (tail : Text) :
    bullet? (c :: tail) = if 1 ≤ Text.leadingSpaces (splitTask tail).2 then
      some (withSpaces [] (c :: (splitTask tail).1) (1 + (splitTask tail).1.length)
        (Text.leadingSpaces (splitTask tail).2) 4) else none := by
  have none_before := Text.leadingSpaces_cons tail (glyph_facts (c := c) (by grind)).1
  simp only [bullet?, none_before, List.drop_zero, glyph, true_and, Nat.zero_add]
  rfl

theorem ordered?_eq {digits : Text} {c : Char} (some_digit : digits ≠ [])
    (all : digits.all Char.isDigit = true) (glyph : c = '.' ∨ c = ')') (tail : Text) :
    ordered? (digits ++ [c] ++ tail) =
      some (withSpaces [] [c] (digits.size + 1) tail.leadingSpaces 3) := by
  have shown : ∀ d ∈ digits, isDigit d = true := by
    intro d member
    exact isDigit_of_ascii d (List.all_eq_true.mp all d member)
  have none_before : Text.leadingSpaces (digits ++ [c] ++ tail) = 0 := by
    cases digits with
    | nil => exact absurd rfl some_digit
    | cons d digits =>
      have digit := List.all_eq_true.mp all d List.mem_cons_self
      exact Text.leadingSpaces_cons _ (digit_facts digit).1
  have found_digits : (digits ++ [c] ++ tail).takeWhile isDigit = digits := by
    rw [List.append_assoc]
    exact Text.takeWhile_stop shown (glyph_facts (c := c) (by grind)).2.1
  simp only [ordered?, none_before, List.drop_zero, found_digits]
  rw [List.append_assoc, List.drop_left]
  simp only [List.singleton_append, some_digit, glyph, ne_eq, not_false_eq_true, and_self,
    ↓reduceIte, Nat.zero_add]
  rfl

theorem bullet_takes {c : Char} (glyph : c = '-' ∨ c = '+' ∨ c = '*') {tail box shown : Text}
    (parts : tail = shown ++ (splitTask tail).2) (length : box.length = shown.size)
    (erasable : ∀ d ∈ shown, isErasable d = true) :
    ∃ rest, (withSpaces [] (c :: box) (1 + box.length) (Text.leadingSpaces (splitTask tail).2)
      4).Takes (c :: tail) (c :: shown) rest := by
  have facts := glyph_facts (c := c) (by grind)
  have one : c.utf8Size = 1 := by
    rcases glyph with rfl | rfl | rfl <;> rfl
  have same : 1 + box.length = Text.size (c :: shown) := by
    rw [Text.size_cons, one, length]
  have all : ∀ d ∈ c :: shown, isErasable d = true := by
    intro d member
    rcases List.mem_cons.mp member with rfl | member
    · exact facts.2.2.2
    · exact erasable d member
  have takes := withSpaces_takes [] (c :: box) (c :: shown) (splitTask tail).2 4 same all
    ⟨c, List.mem_cons_self, facts.2.2.1⟩
  rw [List.cons_append, ← parts] at takes
  exact takes

theorem number_takes {digits : Text} {c : Char} (some_digit : digits ≠ [])
    (all : digits.all Char.isDigit = true) (glyph : c = '.' ∨ c = ')') (tail : Text) :
    ∃ rest, (withSpaces [] [c] (digits.size + 1) tail.leadingSpaces 3).Takes
      (digits ++ [c] ++ tail) (digits ++ [c]) rest := by
  have one : c.utf8Size = 1 := by
    rcases glyph with rfl | rfl <;> rfl
  have same : digits.size + 1 = (digits ++ [c]).size := by
    rw [Text.size_append, Text.size_cons, Text.size_nil, one]
  exact withSpaces_takes [] [c] (digits ++ [c]) tail 3 same
    (IsItemMarker.isErasable (.number digits c some_digit all glyph))
    ⟨c, by simp, (glyph_facts (c := c) (by grind)).2.2.1⟩

theorem bullet?_takes {g tail : Text} (marker : IsItemMarker g)
    (found : bullet? (g ++ tail) = some m) : ∃ glyphs rest, m.Takes (g ++ tail) glyphs rest := by
  obtain ⟨c, glyph⟩ | ⟨digits, c, some_digit, all, -⟩ := marker
  · obtain ⟨box, parts, cleared, begins, -⟩ := splitTask_cases tail
    rw [List.singleton_append, bullet?_eq glyph] at found
    split at found
    · cases found
      obtain ⟨rest, takes⟩ :=
        bullet_takes glyph parts (cleared ▸ begins.length_cleared) begins.isErasable
      exact ⟨_, rest, takes⟩
    · cases found
  · cases digits with
    | nil => exact absurd rfl some_digit
    | cons d digits =>
      have digit := List.all_eq_true.mp all d List.mem_cons_self
      obtain ⟨no_space, no_dash, no_plus, no_star, -⟩ := digit_facts digit
      have none_before := Text.leadingSpaces_cons (digits ++ [c] ++ tail) no_space
      simp only [bullet?, List.cons_append, none_before, List.drop_zero, no_dash, no_plus, no_star,
        false_or, false_and, ↓reduceIte] at found
      cases found

theorem ordered?_takes {g tail : Text} (marker : IsItemMarker g)
    (found : ordered? (g ++ tail) = some m) : ∃ glyphs rest, m.Takes (g ++ tail) glyphs rest := by
  obtain ⟨c, glyph⟩ | ⟨digits, c, some_digit, all, glyph⟩ := marker
  · have facts := glyph_facts (c := c) (by grind)
    have none_before := Text.leadingSpaces_cons tail facts.1
    simp [ordered?, none_before, facts.2.1] at found
  · rw [ordered?_eq some_digit all glyph] at found
    cases found
    obtain ⟨rest, takes⟩ := number_takes some_digit all glyph tail
    exact ⟨_, rest, takes⟩

end Marker

end MarkdownEditing
