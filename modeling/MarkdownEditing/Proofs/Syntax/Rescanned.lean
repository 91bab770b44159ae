import MarkdownEditing.Proofs.Syntax.Alike
import MarkdownEditing.Proofs.Syntax.MarkerLine

namespace MarkdownEditing

namespace Text

variable {t u : Text}

/-- The texts begin with the same character, or each with a digit. -/
def SameStart (t u : Text) : Prop :=
  t.head? = u.head? ∨ ∃ c ∈ t.head?, ∃ d ∈ u.head?, c.isDigit = true ∧ d.isDigit = true

theorem SameStart.head_rejected (start : SameStart t u) {accepts : Char → Bool} {verdict : Bool}
    (digits : ∀ c : Char, c.isDigit = true → accepts c = verdict)
    (stops : ∀ c ∈ t.head?, accepts c = false) : ∀ c ∈ u.head?, accepts c = false := by
  rcases start with same | ⟨c, first, d, second, digit, digit'⟩
  · rw [← same]
    exact stops
  · intro e head
    rw [Option.mem_def.mp second] at head
    cases head
    rw [digits d digit', ← digits c digit]
    exact stops c first

theorem isWordChar_of_isDigit {c : Char} (digit : c.isDigit = true) : isWordChar c = true := by
  have all : [c].all Char.isDigit = true := by simpa using digit
  exact (BlockStart.word_of_digits all c List.mem_cons_self).1

end Text

namespace Token

open Text (SameStart isWordChar_of_isDigit)

variable {t u before : Text} {token : Token} {ts us a b : List Token} {c : Char}

theorem sameStart_join (aligned : Aligned ts us) (some_text : ∀ t ∈ ts, t.text ≠ []) :
    SameStart (join ts) (join us) := by
  cases aligned with
  | nil => exact Or.inl rfl
  | cons alike _ =>
    rw [join_cons, join_cons]
    cases alike with
    | same =>
      have here := some_text _ List.mem_cons_self
      refine Or.inl ?_
      rw [List.head?_append_of_ne_nil _ here, List.head?_append_of_ne_nil _ here]
    | @number m n later first second ends =>
      obtain ⟨some_digit, _, digits⟩ := BlockStart.isItemNumber_eq_true.mp first
      obtain ⟨some_digit', _, digits'⟩ := BlockStart.isItemNumber_eq_true.mp second
      cases m with
      | nil => exact absurd rfl some_digit
      | cons c m =>
        cases n with
        | nil => exact absurd rfl some_digit'
        | cons d n =>
          exact Or.inr ⟨c, rfl, d, rfl, digits c List.mem_cons_self, digits' d List.mem_cons_self⟩

theorem Exact.sameStart (exact : token.Exact before t) (start : SameStart t u) :
    token.Exact before u := by
  cases exact with
  | blank run maximal =>
    exact .blank run ⟨maximal.some_run, maximal.inside, maximal.left,
      start.head_rejected (fun d digit => (digit_visible digit).1) maximal.right⟩
  | feed => exact .feed
  | returnFeed => exact .returnFeed
  | mark c kind glyph => exact .mark c kind glyph
  | word run maximal =>
    exact .word run ⟨maximal.some_run, maximal.inside, maximal.left,
      start.head_rejected (fun d => isWordChar_of_isDigit) maximal.right⟩
  | white c white no_indent no_feed no_break =>
    refine .white c white no_indent no_feed ?_
    rintro ⟨ret, feeds⟩
    have no_digit : ∀ d : Char, d.isDigit = true → (d == '\n') = false := by
      intro d digit
      exact beq_false_of_ne (by rintro rfl; cases digit)
    have stops : ∀ d ∈ t.head?, (d == '\n') = false := by
      intro d head
      refine beq_false_of_ne ?_
      rintro rfl
      exact no_break ⟨ret, head⟩
    cases start.head_rejected no_digit stops '\n' feeds

/-- A token is cut off again before what begins like the text that followed it. -/
theorem scan_first (start : SameStart (first c t).2 u) :
    scan ((first c t).1.text ++ u) = (first c t).1 :: scan u := by
  have exact : (first c t).1.Exact [] (first c t).2 :=
    (exact_first fun _ none_before => by cases none_before).1
  exact (exact.sameStart start).scan_eq

theorem scan_alike (alike : (first c t).1.Alike token) (start : SameStart (first c t).2 u) :
    scan (token.text ++ u) = token :: scan u := by
  generalize shape : (first c t).1 = old at alike
  cases alike with
  | same =>
    rw [← shape]
    exact scan_first start
  | @number m n later first_number second_number ends =>
    obtain ⟨some_digit, _, digits⟩ := BlockStart.isItemNumber_eq_true.mp first_number
    obtain ⟨some_digit', _, digits'⟩ := BlockStart.isItemNumber_eq_true.mp second_number
    have digit : c.isDigit = true := by
      have parts := first_append c t
      rw [shape] at parts
      cases m with
      | nil => exact absurd rfl some_digit
      | cons d m =>
        obtain ⟨rfl, _⟩ := List.cons.inj parts
        exact digits d List.mem_cons_self
    rw [first_of_isWordChar (isWordChar_of_isDigit digit)] at start
    refine scan_word ?_ ?_ (start.head_rejected (fun d => isWordChar_of_isDigit)
      (head?_dropWhile _ t))
    · refine List.forall_mem_append.mpr ⟨fun d member => isWordChar_of_isDigit (digits' d member), ?_⟩
      rcases ends with rfl | rfl
      · exact fun d member => absurd member List.not_mem_nil
      · exact List.forall_mem_singleton.mpr rfl
    · exact List.append_ne_nil_of_left_ne_nil some_digit' _

/-- Tokens with other numbers in them are what their text is cut into. -/
theorem scan_join_of_aligned (aligned : Aligned (scan t) us) : scan (join us) = us := by
  fun_induction scan t generalizing us with
  | case1 =>
    cases aligned
    rw [join_nil, scan]
  | case2 c t ih =>
    cases aligned with
    | @cons _ u _ us alike later =>
      have start := sameStart_join later fun _ member => text_ne_nil_of_mem_scan member
      rw [join_scan] at start
      rw [join_cons, scan_alike alike start, ih later]

theorem scan_join_behind (cut : scan t = a ++ b) : scan (join b) = b := by
  induction a generalizing t with
  | nil => rw [← show scan t = b from cut, join_scan]
  | cons token a ih =>
    cases t with
    | nil =>
      rw [scan] at cut
      cases cut
    | cons c t =>
      rw [scan] at cut
      exact ih (List.cons.inj cut).2

end Token

end MarkdownEditing
