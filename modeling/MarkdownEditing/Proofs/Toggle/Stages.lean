import MarkdownEditing.Proofs.Markup.Markers
import MarkdownEditing.Proofs.Toggle.ListMarkers

namespace MarkdownEditing

namespace ListKind

open Text

/-- A text that does not begin with white space, a list marker or a task box, and in which no box is
unchecked. -/
structure Plain (t : Text) : Prop where
  flush : ∀ c ∈ t.head?, isWhite c = false
  unmarked : afterAnyMarker? t = none
  unboxed : afterBox? t = none
  closed : ¬HasOpenBox t

def period : ListKind → Nat
  | bullet => 2
  | numbering => 2
  | todo => 3

/-- What stands in front of the line at place `index` after `turn` toggles. -/
def stage : ListKind → Nat → Nat → Text
  | bullet, 1, _ => ['-', ' ']
  | numbering, 1, index => Text.ofNat (index + 1) ++ ['.', ' ']
  | todo, 1, _ => taskBox 0 0 ' ' ++ [' ']
  | todo, 2, _ => taskBox 0 0 'x' ++ [' ']
  | _, _, _ => []

/-- Texts with something in front of each, but for empty ones among several. The first of them has
the place `index`. -/
def fronted (front : Nat → Text) (several : Bool) (index : Nat) : List Text → List Text
  | [] => []
  | t :: ts =>
    if several && t.isEmpty then t :: fronted front several index ts
    else (front index ++ t) :: fronted front several (index + 1) ts

variable {kind : ListKind} {t u content rest : Text} {ts : List Text} {ls : List Line}
  {front front' : Nat → Text} {several : Bool} {index skipped turn : Nat} {c : Char}

@[simp] theorem length_fronted (front : Nat → Text) (several : Bool) (index : Nat)
    (ts : List Text) : (fronted front several index ts).length = ts.length := by
  induction ts generalizing index with
  | nil => rfl
  | cons t ts ih =>
    rw [fronted]
    split <;> rw [List.length_cons, ih, List.length_cons]

theorem fronted_nothing (several : Bool) (index : Nat) (ts : List Text) :
    fronted (fun _ => []) several index ts = ts := by
  induction ts generalizing index with
  | nil => rfl
  | cons t ts ih =>
    rw [fronted]
    split <;> rw [ih]
    rfl

theorem isEmpty_front (shown : (several && t.isEmpty) = false) (front : Text) :
    (several && (front ++ t).isEmpty) = false := by
  cases several with
  | false => rfl
  | true =>
    rw [Bool.true_and] at shown ⊢
    cases t with
    | nil => cases shown
    | cons => simp

theorem mem_zip_placesFrom (order : skipped ≤ index)
    (texts : ls.map Line.text = fronted front several (index - skipped) ts) :
    ∀ p ∈ ls.zip (placesFrom several index skipped ls), (several = true ∧ p.1.text = []) ∨
      ∃ t ∈ ts, (several && t.isEmpty) = false ∧ p.1.text = front p.2 ++ t := by
  induction ts generalizing ls index skipped with
  | nil =>
    rw [fronted, List.map_eq_nil_iff] at texts
    subst texts
    exact fun p member => nomatch member
  | cons t ts ih =>
    rw [fronted] at texts
    intro p member
    split at texts <;> rename_i shown <;>
      obtain ⟨l, ls, rfl, text, texts⟩ := List.map_eq_cons_iff.mp texts <;>
      rw [placesFrom, List.zip_cons_cons] at member <;>
      rcases List.mem_cons.mp member with rfl | member
    · rw [Bool.and_eq_true, List.isEmpty_iff] at shown
      exact Or.inl ⟨shown.1, text.trans shown.2⟩
    · rw [text, if_pos shown] at member
      rw [show index - skipped = index + 1 - (skipped + 1) by omega] at texts
      exact (ih (by omega) texts p member).imp_right fun ⟨u, inside, found⟩ =>
        ⟨u, List.mem_cons_of_mem _ inside, found⟩
    · exact Or.inr ⟨t, List.mem_cons_self, by simpa using shown, text⟩
    · rw [text, isEmpty_front (by simpa using shown), if_neg (by simp)] at member
      rw [show index - skipped + 1 = index + 1 - skipped by omega] at texts
      exact (ih (by omega) texts p member).imp_right fun ⟨u, inside, found⟩ =>
        ⟨u, List.mem_cons_of_mem _ inside, found⟩

/-- Rewriting the lines of a stage one by one gives those of the next stage. -/
theorem map_zip_placesFrom {f : Line → Nat → Text} (order : skipped ≤ index)
    (texts : ls.map Line.text = fronted front several (index - skipped) ts)
    (skips : ∀ l i, several = true → l.text = [] → f l i = [])
    (turns : ∀ t ∈ ts, (several && t.isEmpty) = false → ∀ l i, l.text = front i ++ t →
      f l i = front' i ++ t) :
    (ls.zip (placesFrom several index skipped ls)).map (fun p => f p.1 p.2) =
      fronted front' several (index - skipped) ts := by
  induction ts generalizing ls index skipped with
  | nil =>
    rw [fronted, List.map_eq_nil_iff] at texts
    subst texts
    rfl
  | cons t ts ih =>
    have later : ∀ u ∈ ts, (several && u.isEmpty) = false → ∀ l i, l.text = front i ++ u →
        f l i = front' i ++ u := fun u member => turns u (List.mem_cons_of_mem _ member)
    rw [fronted] at texts ⊢
    split at texts <;> rename_i shown <;>
      obtain ⟨l, ls, rfl, text, texts⟩ := List.map_eq_cons_iff.mp texts <;>
      rw [placesFrom, List.zip_cons_cons, List.map_cons]
    · rw [show index - skipped = index + 1 - (skipped + 1) by omega] at texts ⊢
      rw [if_pos shown, text, if_pos shown, ih (by omega) texts later]
      rw [Bool.and_eq_true, List.isEmpty_iff] at shown
      rw [skips l _ shown.1 (text.trans shown.2), shown.2]
    · have here := turns t List.mem_cons_self (by simpa using shown) l _ text
      rw [show index - skipped + 1 = index + 1 - skipped by omega] at texts ⊢
      rw [if_neg shown, text, isEmpty_front (by simpa using shown), if_neg (by simp),
        ih (by omega) texts later, here]

theorem eq_of_flush {n : Nat} (flush : ∀ c ∈ (spaces n ++ t).head?, isWhite c = false) :
    spaces n ++ t = t := by
  cases n with
  | zero => rfl
  | succ n => exact absurd (flush ' ' rfl) (by decide)

theorem afterAnyMarker?_bullet (glyph : isBullet c = true) (rest : Text) :
    (afterAnyMarker? (c :: ' ' :: rest)).isSome := by
  have dark : isWhite c = false := by
    simp only [isBullet, Bool.or_eq_true, beq_iff_eq] at glyph
    rcases glyph with (rfl | rfl) | rfl <;> rfl
  obtain ⟨content, gap⟩ := afterSpaces?_cons rest
  have trimmed : trimStart (c :: ' ' :: rest) = c :: ' ' :: rest :=
    List.dropWhile_cons_of_neg (by simp [dark])
  rw [afterAnyMarker?, trimmed]
  simp only [glyph, if_true, gap, Option.bind_eq_bind, Option.bind_some]
  rfl

theorem afterAnyMarker?_number (n : Nat) (rest : Text) :
    (afterAnyMarker? (Text.ofNat n ++ ['.', ' '] ++ rest)).isSome := by
  obtain ⟨content, gap⟩ := afterSpaces?_cons rest
  obtain ⟨c, digits, label⟩ := List.exists_cons_of_ne_nil (ofNat_ne_nil n)
  have all : ∀ d ∈ Text.ofNat n, isDigit d = true := fun d member =>
    isDigit_of_ascii d (isDigit_of_mem_ofNat member)
  have ascii := isDigit_of_mem_ofNat (label ▸ List.mem_cons_self : c ∈ Text.ofNat n)
  have digit := all c (label ▸ List.mem_cons_self)
  obtain ⟨-, no_dash, no_plus, no_star, dark⟩ := digit_facts ascii
  have no_bullet : isBullet c = false := by simp [isBullet, no_dash, no_plus, no_star]
  have shape : Text.ofNat n ++ ['.', ' '] ++ rest = c :: (digits ++ '.' :: ' ' :: rest) := by
    rw [label]
    simp
  have ends : (c :: (digits ++ '.' :: ' ' :: rest)).dropWhile isDigit = '.' :: ' ' :: rest := by
    have whole : c :: (digits ++ '.' :: ' ' :: rest) = Text.ofNat n ++ '.' :: ' ' :: rest := by
      rw [label]
      simp
    rw [whole, List.dropWhile_append_of_pos all, List.dropWhile_cons_of_neg (by decide)]
  have trimmed : trimStart (c :: (digits ++ '.' :: ' ' :: rest)) =
      c :: (digits ++ '.' :: ' ' :: rest) := List.dropWhile_cons_of_neg (by simp [dark])
  rw [shape, afterAnyMarker?, trimmed]
  simp [no_bullet, ends, digit, gap]

theorem afterMarker?_nil (kind : ListKind) (index : Nat) : kind.afterMarker? [] index = none := by
  cases kind <;> simp [afterMarker?, afterBullet?, afterNumber?, afterTodo?]

namespace Plain

theorem afterMarker?_eq_none (plain : Plain t) (kind : ListKind) (index : Nat) :
    kind.afterMarker? t index = none := by
  cases found : kind.afterMarker? t index with
  | none => rfl
  | some content =>
    have unmarked := plain.unmarked
    exfalso
    cases kind with
    | bullet =>
      obtain ⟨i, c, n, glyph, rfl, _⟩ := afterBullet?_lead found
      rw [eq_of_flush plain.flush] at unmarked
      have marked := afterAnyMarker?_bullet glyph (spaces n ++ content)
      rw [show c :: ' ' :: (spaces n ++ content) = c :: (spaces (n + 1) ++ content) from rfl,
        unmarked] at marked
      cases marked
    | numbering =>
      obtain ⟨i, rfl⟩ := afterNumber?_parts found
      rw [eq_of_flush plain.flush] at unmarked
      have marked := afterAnyMarker?_number (index + 1) content
      rw [unmarked] at marked
      cases marked
    | todo =>
      obtain ⟨i, j, b, k, rfl, _⟩ := afterTodo?_parts found
      have flush := plain.flush
      rw [taskBox_parts] at flush unmarked
      rw [eq_of_flush flush] at unmarked
      have marked := afterAnyMarker?_bullet (c := '-') rfl
        (spaces j ++ ['[', b, ']'] ++ (spaces (k + 1) ++ content))
      rw [show '-' :: ' ' :: (spaces j ++ ['[', b, ']'] ++ (spaces (k + 1) ++ content)) =
        taskBox 0 j b ++ (spaces (k + 1) ++ content) from rfl, unmarked] at marked
      cases marked

theorem head?_ne_space (plain : Plain t) : t.head? ≠ some ' ' := fun first =>
  absurd (plain.flush ' ' first) (by decide)

/-- The marker that a style has put in front of a plain text is taken for one of its own. -/
theorem afterMarker?_stage (plain : Plain t) (later : 0 < turn) (before : turn < kind.period)
    (index : Nat) : kind.afterMarker? (kind.stage turn index ++ t) index = some t := by
  have spaced : afterSpaces? (' ' :: t) = some t := afterSpaces?_spaces 0 plain.head?_ne_space
  cases kind with
  | bullet =>
    obtain rfl : turn = 1 := by
      rw [period] at before
      omega
    show afterBullet? ('-' :: ' ' :: t) = some t
    have start : ('-' :: ' ' :: t).drop (leadingSpaces ('-' :: ' ' :: t)) = '-' :: ' ' :: t := by
      rw [leadingSpaces_cons _ (by decide), List.drop_zero]
    rw [afterBullet?, start]
    simp [isBullet, spaced, plain.unboxed]
  | numbering =>
    obtain rfl : turn = 1 := by
      rw [period] at before
      omega
    show afterNumber? (Text.ofNat (index + 1) ++ ['.', ' '] ++ t) index = some t
    have start : leadingSpaces (Text.ofNat (index + 1) ++ ['.', ' '] ++ t) = 0 := by
      obtain ⟨c, digits, label⟩ := List.exists_cons_of_ne_nil (ofNat_ne_nil (index + 1))
      have digit := isDigit_of_mem_ofNat (label ▸ List.mem_cons_self : c ∈ Text.ofNat (index + 1))
      rw [label]
      exact leadingSpaces_cons _ (by rintro rfl; cases digit)
    rw [afterNumber?, start, List.drop_zero,
      if_pos (List.isPrefixOf_iff_prefix.mpr (List.prefix_append _ _)), List.drop_left]
  | todo =>
    have tasks : ∀ b, IsState b → afterTodo? (taskBox 0 0 b ++ [' '] ++ t) = some t := by
      intro b state
      rw [List.append_assoc, afterTodo?_task 0 0 state]
      exact spaced
    rw [period] at before
    obtain rfl | rfl : turn = 1 ∨ turn = 2 := by omega
    · exact tasks ' ' (Or.inl rfl)
    · exact tasks 'x' (Or.inr (Or.inl rfl))

theorem nextState?_stage (plain : Plain t) (later : 0 < turn) (before : turn < kind.period)
    (index : Nat) : (kind.nextState? (kind.stage turn index ++ t)).getD t =
      kind.stage (turn + 1) index ++ t := by
  cases kind with
  | bullet =>
    obtain rfl : turn = 1 := by
      rw [period] at before
      omega
    rfl
  | numbering =>
    obtain rfl : turn = 1 := by
      rw [period] at before
      omega
    rfl
  | todo =>
    rw [period] at before
    obtain rfl | rfl : turn = 1 ∨ turn = 2 := by omega
    · show (check? (taskBox 0 0 ' ' ++ [' '] ++ t)).getD t = taskBox 0 0 'x' ++ [' '] ++ t
      rw [List.append_assoc, check?_open, Option.getD_some, List.append_assoc]
    · show (check? (taskBox 0 0 'x' ++ [' '] ++ t)).getD t = t
      have none_open : check? t = none := by
        rw [← Option.not_isSome_iff_eq_none, check?_isSome_iff]
        exact plain.closed
      rw [List.append_assoc, check?_checked 0 0 (Or.inl rfl),
        check?_append (by simp : '-' ∉ [' ']), none_open]
      rfl

end Plain

theorem stage_zero (kind : ListKind) : kind.stage 0 = fun _ => [] := by
  cases kind <;> rfl

theorem stage_period (kind : ListKind) : kind.stage kind.period = fun _ => [] := by
  cases kind <;> rfl

theorem Plain.newMarker_stage (plain : Plain t) (kind : ListKind) (index : Nat) :
    kind.newMarker index none ++ ' ' :: removeMarker t = kind.stage 1 index ++ t := by
  have whole : removeMarker t = t := by rw [removeMarker, plain.unmarked, Option.getD_none]
  rw [whole]
  cases kind with
  | bullet => rfl
  | numbering =>
    show Text.ofNat (index + 1) ++ ['.'] ++ ' ' :: t = Text.ofNat (index + 1) ++ ['.', ' '] ++ t
    simp
  | todo => rfl

theorem suggested_eq_none {placed : List (Line × Nat)}
    (bare : ∀ p ∈ placed, kind.afterMarker? p.1.text p.2 = none) : kind.suggested placed = none := by
  rw [suggested]
  induction placed with
  | nil => rfl
  | cons p placed ih =>
    have first := bare p List.mem_cons_self
    have later := ih fun q member => bare q (List.mem_cons_of_mem _ member)
    simpa [first] using later

/-- Restyling the lines of a stage gives those of the next stage. -/
theorem restyle_stage (plain : ∀ t ∈ ts, Plain t) (before : turn < kind.period)
    (texts : ls.map Line.text = fronted (kind.stage turn) (1 < ts.length) 0 ts) :
    kind.restyle ls = fronted (kind.stage (turn + 1)) (1 < ts.length) 0 ts := by
  have length : ls.length = ts.length := by
    rw [← List.length_map Line.text, texts, length_fronted]
  have found := mem_zip_placesFrom (Nat.le_refl 0) texts
  rw [← length] at texts found ⊢
  rw [restyle]
  refine map_zip_placesFrom (f := kind.restyleLine (kind.allMarked (1 < ls.length) (placed ls))
    (1 < ls.length) (kind.suggested (placed ls))) (Nat.le_refl 0) texts ?_ ?_
  · intro l index skips empty
    rw [restyleLine, empty, afterMarker?_nil]
    simp [skips]
  intro t member shown l index text
  rcases Nat.eq_zero_or_pos turn with rfl | later
  · rw [stage_zero] at text found
    have bare : ∀ p ∈ placed ls, kind.afterMarker? p.1.text p.2 = none := by
      intro p inside
      rcases found p inside with ⟨_, empty⟩ | ⟨u, given, _, same⟩
      · rw [empty, afterMarker?_nil]
      · rw [same]
        exact (plain u given).afterMarker?_eq_none kind p.2
    rw [List.nil_append] at text
    rw [restyleLine, text, (plain t member).afterMarker?_eq_none, suggested_eq_none bare]
    simp only [shown, Bool.false_eq_true, if_false]
    exact (plain t member).newMarker_stage kind index
  · have all : kind.allMarked (1 < ls.length) (placed ls) = true := by
      rw [allMarked, List.all_eq_true]
      intro p inside
      rcases found p inside with ⟨several, empty⟩ | ⟨u, given, _, same⟩
      · simp [several, empty]
      · simp [same, (plain u given).afterMarker?_stage later before]
    rw [restyleLine, all, text, (plain t member).afterMarker?_stage later before]
    exact (plain t member).nextState?_stage later before index

end ListKind

end MarkdownEditing
