import Mathlib.Data.List.TakeWhile
import MarkdownEditing.Proofs.Text.Blank
import MarkdownEditing.Proofs.Text.Decimal
import MarkdownEditing.Toggle.ListStyle

namespace MarkdownEditing

namespace Text

variable {t : Text}

theorem leadingSpaces_spaces (n : Nat) (other : t.head? ≠ some ' ') :
    leadingSpaces (spaces n ++ t) = n := by
  have inside : ∀ c ∈ spaces n, (c == ' ') = true := by
    intro c member
    rw [mem_spaces member]
    rfl
  have stops : t.takeWhile (· == ' ') = [] := by
    cases t with
    | nil => rfl
    | cons c t =>
      rw [List.takeWhile_cons_of_neg]
      simpa using other
  rw [leadingSpaces, List.takeWhile_append_of_pos inside, stops, List.append_nil, spaces,
    List.length_replicate]

theorem drop_spaces (n : Nat) (t : Text) : (spaces n ++ t).drop n = t := by
  have length : (spaces n).length = n := List.length_replicate
  conv => lhs; rw [← length]
  rw [length]
  exact List.drop_left' length

theorem trimStart_parts (t : Text) : ∃ blank, t = blank ++ t.trimStart ∧ ∀ c ∈ blank, isWhite c = true :=
  ⟨t.takeWhile isWhite, List.takeWhile_append_dropWhile.symm,
    fun _ member => List.mem_takeWhile_imp member⟩

theorem trimStart_spaces (n : Nat) {c : Char} (t : Text) (dark : isWhite c = false) :
    (spaces n ++ c :: t).trimStart = c :: t := by
  have white : ∀ d ∈ spaces n, isWhite d = true := by
    intro d member
    rw [mem_spaces member]
    rfl
  rw [trimStart, List.dropWhile_append_of_pos white, List.dropWhile_cons_of_neg (by simp [dark])]

end Text

namespace ListKind

open Text

variable {kind : ListKind} {t u content rest : Text} {index : Nat} {b c : Char}

def taskBox (indent gap : Nat) (b : Char) : Text :=
  spaces indent ++ '-' :: (spaces (gap + 1) ++ ['[', b, ']'])

def IsState (b : Char) : Prop := b = ' ' ∨ b = 'x' ∨ b = 'X'

/-- An unchecked task box stands somewhere in the text. -/
def HasOpenBox (t : Text) : Prop := ∃ a gap b, t = a ++ taskBox 0 gap ' ' ++ b

theorem afterSpaces?_parts (found : afterSpaces? t = some rest) : ∃ n, t = spaces (n + 1) ++ rest := by
  unfold afterSpaces? at found
  split at found
  · rename_i some_space
    cases found
    obtain ⟨n, count⟩ := Nat.exists_eq_add_of_le' some_space
    refine ⟨n, ?_⟩
    rw [← count]
    exact leadingSpaces_parts t
  · cases found

theorem afterSpaces?_spaces (n : Nat) (other : t.head? ≠ some ' ') :
    afterSpaces? (spaces (n + 1) ++ t) = some t := by
  rw [afterSpaces?, leadingSpaces_spaces _ other, if_pos (Nat.le_add_left 1 n), drop_spaces]

theorem afterSpaces?_cons (t : Text) : ∃ rest, afterSpaces? (' ' :: t) = some rest := by
  have more : leadingSpaces (' ' :: t) = leadingSpaces t + 1 := by simp [leadingSpaces]
  rw [afterSpaces?, more, if_pos (Nat.le_add_left 1 _)]
  exact ⟨_, rfl⟩

theorem afterBox?_parts (found : afterBox? t = some rest) :
    ∃ b, t = '[' :: b :: ']' :: rest ∧ IsState b := by
  unfold afterBox? at found
  split at found
  · rename_i b rest'
    split at found
    · rename_i state
      cases found
      exact ⟨b, rfl, state⟩
    · cases found
  · cases found

theorem afterBox?_box (state : IsState b) (rest : Text) :
    afterBox? ('[' :: b :: ']' :: rest) = some rest := if_pos state

theorem afterTodo?_parts (found : afterTodo? t = some content) :
    ∃ i j b k, t = taskBox i j b ++ (spaces (k + 1) ++ content) ∧ IsState b := by
  unfold afterTodo? at found
  split at found
  · rename_i rest dash
    simp only [Option.bind_eq_bind, Option.bind_eq_some_iff] at found
    obtain ⟨gapped, gap, boxed, box, spaced⟩ := found
    obtain ⟨j, rfl⟩ := afterSpaces?_parts gap
    obtain ⟨b, rfl, state⟩ := afterBox?_parts box
    obtain ⟨k, rfl⟩ := afterSpaces?_parts spaced
    refine ⟨t.leadingSpaces, j, b, k, ?_, state⟩
    have parts := leadingSpaces_parts t
    rw [dash] at parts
    rw [taskBox]
    simpa only [List.append_assoc, List.cons_append, List.nil_append] using parts
  · cases found

theorem afterTodo?_task (i j : Nat) (state : IsState b) (rest : Text) :
    afterTodo? (taskBox i j b ++ rest) = afterSpaces? rest := by
  have shape : taskBox i j b ++ rest =
      spaces i ++ '-' :: (spaces (j + 1) ++ '[' :: b :: ']' :: rest) := by
    simp [taskBox]
  rw [shape, afterTodo?, leadingSpaces_spaces _ (by simp), drop_spaces]
  simp only [Option.bind_eq_bind]
  rw [afterSpaces?_spaces j (by simp), Option.bind_some, afterBox?_box state, Option.bind_some]

theorem splitUnchecked?_parts {head tail : Text} (found : splitUnchecked? t = some (head, tail)) :
    ∃ j b, t = taskBox 0 j ' ' ++ b ∧ head ++ 'x' :: tail = taskBox 0 j 'x' ++ b := by
  unfold splitUnchecked? at found
  split at found
  · rename_i rest
    dsimp only at found
    split at found
    · rename_i tail' box
      split at found
      · rename_i some_space
        cases found
        obtain ⟨j, count⟩ := Nat.exists_eq_add_of_le' some_space
        have parts := leadingSpaces_parts rest
        rw [box, count] at parts
        have taken : rest.take (leadingSpaces rest) = spaces (j + 1) := by
          rw [count, parts]
          exact List.take_left' List.length_replicate
        refine ⟨j, tail', ?_, ?_⟩
        · rw [parts]
          simp [taskBox, spaces]
        · rw [taken]
          simp [taskBox, spaces]
      · cases found
    · cases found
  · cases found

theorem splitUnchecked?_task (j : Nat) (rest : Text) : splitUnchecked? (taskBox 0 j ' ' ++ rest) =
    some ('-' :: spaces (j + 1) ++ ['['], ']' :: rest) := by
  have shape : taskBox 0 j ' ' ++ rest = '-' :: (spaces (j + 1) ++ '[' :: ' ' :: ']' :: rest) := by
    simp [taskBox, spaces]
  have taken : (spaces (j + 1) ++ '[' :: ' ' :: ']' :: rest).take (j + 1) = spaces (j + 1) :=
    List.take_left' List.length_replicate
  rw [shape, splitUnchecked?, leadingSpaces_spaces _ (by simp), drop_spaces, taken]
  simp

theorem splitUnchecked?_checked (j : Nat) (checked : b ≠ ' ') (rest : Text) :
    splitUnchecked? (taskBox 0 j b ++ rest) = none := by
  have shape : taskBox 0 j b ++ rest = '-' :: (spaces (j + 1) ++ '[' :: b :: ']' :: rest) := by
    simp [taskBox, spaces]
  rw [shape, splitUnchecked?, leadingSpaces_spaces _ (by simp), drop_spaces]
  simp [checked]

theorem splitUnchecked?_cons (t : Text) (other : c ≠ '-') : splitUnchecked? (c :: t) = none := by
  unfold splitUnchecked?
  split
  · rename_i same
    exact absurd (List.cons.inj same).1 other
  · rfl

theorem check?_of_split {head tail : Text} (found : splitUnchecked? t = some (head, tail)) :
    check? t = some (head ++ 'x' :: tail) := by
  unfold check?
  rw [found]

theorem check?_cons (none_here : splitUnchecked? (c :: t) = none) :
    check? (c :: t) = (check? t).map (c :: ·) := by
  conv => lhs; unfold check?
  rw [none_here]

theorem check?_append {front : Text} (clean : '-' ∉ front) (t : Text) :
    check? (front ++ t) = (check? t).map (front ++ ·) := by
  induction front with
  | nil => simp
  | cons c front ih =>
    have other : c ≠ '-' := fun same => clean (same ▸ List.mem_cons_self)
    rw [List.cons_append, check?_cons (splitUnchecked?_cons _ other),
      ih fun member => clean (List.mem_cons_of_mem _ member), Option.map_map]
    rfl

theorem check?_parts (found : check? t = some u) :
    ∃ a j b, t = a ++ taskBox 0 j ' ' ++ b ∧ u = a ++ taskBox 0 j 'x' ++ b := by
  induction t generalizing u with
  | nil => simp [check?, splitUnchecked?] at found
  | cons c t ih =>
    cases here : splitUnchecked? (c :: t) with
    | some parts =>
      obtain ⟨head, tail⟩ := parts
      rw [check?_of_split here] at found
      cases found
      obtain ⟨j, b, whole, changed⟩ := splitUnchecked?_parts here
      exact ⟨[], j, b, whole, changed⟩
    | none =>
      rw [check?_cons here, Option.map_eq_some_iff] at found
      obtain ⟨v, later, rfl⟩ := found
      obtain ⟨a, j, b, rfl, rfl⟩ := ih later
      exact ⟨c :: a, j, b, rfl, rfl⟩

theorem check?_isSome_iff : (check? t).isSome ↔ HasOpenBox t := by
  constructor
  · intro found
    obtain ⟨u, found⟩ := Option.isSome_iff_exists.mp found
    obtain ⟨a, j, b, parts, _⟩ := check?_parts found
    exact ⟨a, j, b, parts⟩
  · rintro ⟨a, j, b, rfl⟩
    induction a with
    | nil => rw [List.nil_append, check?_of_split (splitUnchecked?_task j b)]; rfl
    | cons c a ih =>
      rw [List.cons_append, List.cons_append]
      cases here : splitUnchecked? (c :: (a ++ taskBox 0 j ' ' ++ b)) with
      | some parts => rw [check?_of_split here]; rfl
      | none => rw [check?_cons here, Option.isSome_map, ih]

theorem taskBox_parts (i j : Nat) (b : Char) (rest : Text) :
    taskBox i j b ++ rest = spaces i ++ (taskBox 0 j b ++ rest) := by
  simp [taskBox, spaces]

theorem dash_not_mem_spaces (n : Nat) : '-' ∉ spaces n := fun member => by
  cases mem_spaces member

/-- The box that a task begins with is the first to be checked. -/
theorem check?_open (i j : Nat) (rest : Text) :
    check? (taskBox i j ' ' ++ rest) = some (taskBox i j 'x' ++ rest) := by
  rw [taskBox_parts, check?_append (dash_not_mem_spaces i),
    check?_of_split (splitUnchecked?_task j rest), taskBox_parts i j 'x']
  simp [taskBox, spaces]

theorem check?_checked (i j : Nat) (checked : b = 'x' ∨ b = 'X') (rest : Text) :
    check? (taskBox i j b ++ rest) = (check? rest).map (taskBox i j b ++ ·) := by
  have not_open : b ≠ ' ' := by rcases checked with rfl | rfl <;> decide
  have clean : '-' ∉ spaces (j + 1) ++ ['[', b, ']'] := by
    rcases checked with rfl | rfl <;> simp [dash_not_mem_spaces]
  have shape : taskBox 0 j b ++ rest = '-' :: ((spaces (j + 1) ++ ['[', b, ']']) ++ rest) := by
    simp [taskBox, spaces]
  have here := splitUnchecked?_checked j not_open rest
  rw [shape] at here
  rw [taskBox_parts, check?_append (dash_not_mem_spaces i), shape, check?_cons here,
    check?_append clean, Option.map_map, Option.map_map]
  congr 1
  funext v
  simp [taskBox]

inductive ListMarker : Text → Prop
  | bullet {c : Char} (glyph : isBullet c = true) : ListMarker [c]
  | number {digits : Text} {c : Char} (some_digit : digits ≠ [])
      (all : ∀ d ∈ digits, isDigit d = true) (mark : c = '.' ∨ c = ')') : ListMarker (digits ++ [c])
  | task {c b : Char} (gap : Nat) (glyph : isBullet c = true) (state : IsState b) :
      ListMarker (c :: (spaces (gap + 1) ++ ['[', b, ']']))

/-- What may stand in front of the content of a line: blanks, or a list marker with the spaces that
follow it, which blanks may precede. -/
inductive Lead : Text → Prop
  | blank {m : Text} (white : ∀ c ∈ m, isWhite c = true) : Lead m
  | marked {blank m : Text} (gap : Nat) (white : ∀ c ∈ blank, isWhite c = true)
      (marker : ListMarker m) : Lead (blank ++ m ++ spaces (gap + 1))

/-- Two lines have the same content behind what may stand in front of it. -/
def OnlyMarker (old new : Text) : Prop :=
  ∃ m m' content, Lead m ∧ Lead m' ∧ old = m ++ content ∧ new = m' ++ content

theorem lead_nil : Lead [] := .blank fun _ member => nomatch member

theorem isWhite_of_mem_spaces {n : Nat} (member : c ∈ spaces n) : isWhite c = true := by
  rw [mem_spaces member]
  rfl

theorem lead_task (i j k : Nat) (state : IsState b) : Lead (taskBox i j b ++ spaces (k + 1)) :=
  .marked k (fun _ => isWhite_of_mem_spaces) (.task j rfl state)

theorem afterAnyMarker?_lead (found : afterAnyMarker? t = some content) :
    ∃ m, Lead m ∧ t = m ++ content := by
  obtain ⟨blank, parts, white⟩ := trimStart_parts t
  unfold afterAnyMarker? at found
  split at found
  · rename_i c rest start
    rw [start] at parts
    split at found
    · rename_i glyph
      simp only [Option.bind_eq_bind, Option.bind_eq_some_iff, Option.pure_def,
        Option.some.injEq] at found
      obtain ⟨spaced, gap, kept⟩ := found
      obtain ⟨n, rfl⟩ := afterSpaces?_parts gap
      cases box : (afterBox? spaced).bind afterSpaces? with
      | none =>
        rw [box, Option.getD_none] at kept
        subst kept
        exact ⟨_, .marked n white (.bullet glyph), by rw [parts]; simp⟩
      | some rest =>
        rw [box, Option.getD_some] at kept
        subst kept
        obtain ⟨boxed, here, further⟩ := Option.bind_eq_some_iff.mp box
        obtain ⟨b, rfl, state⟩ := afterBox?_parts here
        obtain ⟨k, rfl⟩ := afterSpaces?_parts further
        exact ⟨_, .marked k white (.task n glyph state), by rw [parts]; simp⟩
    · split at found
      · rename_i d tail ends
        split at found
        · rename_i number
          obtain ⟨n, rfl⟩ := afterSpaces?_parts found
          have digits := List.takeWhile_append_dropWhile (p := isDigit) (l := c :: rest)
          rw [ends] at digits
          have some_digit : (c :: rest).takeWhile isDigit ≠ [] := by
            rw [List.takeWhile_cons_of_pos number.1]
            simp
          refine ⟨_, .marked n white (.number some_digit (fun _ => List.mem_takeWhile_imp) number.2), ?_⟩
          rw [parts]
          conv => lhs; rw [← digits]
          simp
        · cases found
      · cases found
  · cases found

theorem afterBullet?_lead (found : afterBullet? t = some content) : ∃ i c n,
    isBullet c = true ∧ t = spaces i ++ c :: (spaces (n + 1) ++ content) ∧ afterBox? content = none := by
  unfold afterBullet? at found
  split at found
  · rename_i c rest start
    split at found
    · rename_i glyph
      split at found
      · rename_i content' gap
        split at found
        · cases found
        · rename_i no_box
          cases found
          obtain ⟨n, rfl⟩ := afterSpaces?_parts gap
          refine ⟨leadingSpaces t, c, n, glyph, ?_, by simpa using no_box⟩
          rw [← start]
          exact leadingSpaces_parts t
      · cases found
    · cases found
  · cases found

theorem afterNumber?_parts (found : afterNumber? t index = some content) :
    ∃ i, t = spaces i ++ (Text.ofNat (index + 1) ++ ['.', ' '] ++ content) := by
  unfold afterNumber? at found
  dsimp only at found
  split at found
  · rename_i starts
    obtain ⟨rest, label⟩ := List.isPrefixOf_iff_prefix.mp starts
    have content_eq := Option.some.inj found
    rw [← label, List.drop_left] at content_eq
    refine ⟨leadingSpaces t, ?_⟩
    rw [← content_eq, label]
    exact leadingSpaces_parts t
  · cases found

theorem listMarker_ofNat (n : Nat) : ListMarker (Text.ofNat n ++ ['.']) :=
  .number (ofNat_ne_nil n) (fun d member => isDigit_of_ascii d (isDigit_of_mem_ofNat member))
    (Or.inl rfl)

theorem afterMarker?_lead (found : kind.afterMarker? t index = some content) :
    ∃ m, Lead m ∧ t = m ++ content := by
  cases kind with
  | bullet =>
    obtain ⟨i, c, n, glyph, rfl, _⟩ := afterBullet?_lead found
    exact ⟨spaces i ++ [c] ++ spaces (n + 1), .marked n (fun _ => isWhite_of_mem_spaces) (.bullet glyph),
      by simp⟩
  | numbering =>
    obtain ⟨i, rfl⟩ := afterNumber?_parts found
    exact ⟨spaces i ++ (Text.ofNat (index + 1) ++ ['.']) ++ spaces 1,
      .marked 0 (fun _ => isWhite_of_mem_spaces) (listMarker_ofNat (index + 1)), by simp [spaces]⟩
  | todo =>
    obtain ⟨i, j, b, k, rfl, state⟩ := afterTodo?_parts found
    exact ⟨_, lead_task i j k state, (List.append_assoc _ _ _).symm⟩

theorem lead_newMarker {bullet : Option Char}
    (glyph : kind = .bullet → ∀ c ∈ bullet, isBullet c = true) :
    Lead (kind.newMarker index bullet ++ [' ']) := by
  have none_white : ∀ c ∈ ([] : Text), isWhite c = true := fun _ member => nomatch member
  cases kind with
  | bullet =>
    refine @Lead.marked [] _ 0 none_white (.bullet ?_)
    cases bullet with
    | none => rfl
    | some c => exact glyph rfl c rfl
  | numbering => exact @Lead.marked [] _ 0 none_white (listMarker_ofNat (index + 1))
  | todo => exact lead_task 0 0 0 (Or.inl rfl)

end ListKind

end MarkdownEditing
