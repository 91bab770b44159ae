import MarkdownEditing.Proofs.Text.Cut
import MarkdownEditing.Text.Blank

namespace MarkdownEditing

namespace Text

@[simp] theorem size_spaces (n : Nat) : (spaces n).size = n := by
  induction n with
  | zero => rfl
  | succ n ih =>
    have one : ' '.utf8Size = 1 := rfl
    rw [spaces, List.replicate_succ, size_cons, one]
    rw [spaces] at ih
    omega

theorem mem_spaces {n : Nat} {c : Char} (member : c ∈ spaces n) : c = ' ' :=
  List.eq_of_mem_replicate member

theorem spaces_add (m n : Nat) : spaces (m + n) = spaces m ++ spaces n := by
  rw [spaces, spaces, spaces, List.replicate_append_replicate]

theorem leadingSpaces_parts (t : Text) : t = spaces t.leadingSpaces ++ t.drop t.leadingSpaces := by
  induction t with
  | nil => rfl
  | cons c t ih =>
    by_cases space : c = ' '
    · subst space
      have more : leadingSpaces (' ' :: t) = leadingSpaces t + 1 := by simp [leadingSpaces]
      rw [more, List.drop_succ_cons, spaces, List.replicate_succ, List.cons_append]
      exact congrArg (' ' :: ·) ih
    · have none_here : leadingSpaces (c :: t) = 0 := by simp [leadingSpaces, space]
      rw [none_here]
      rfl

theorem leadingSpaces_cons {c : Char} (t : Text) (other : c ≠ ' ') : leadingSpaces (c :: t) = 0 := by
  simp [leadingSpaces, other]

theorem takeWhile_stop {accepts : Char → Bool} {inside rest : Text} {c : Char}
    (all : ∀ d ∈ inside, accepts d = true) (stops : accepts c = false) :
    (inside ++ c :: rest).takeWhile accepts = inside := by
  rw [List.takeWhile_append_of_pos all]
  simp [stops]

theorem trimEnd_parts (t : Text) :
    ∃ blank : Text, t = t.trimEnd ++ blank ∧ ∀ c ∈ blank, isWhite c = true := by
  induction t with
  | nil => exact ⟨[], rfl, by simp⟩
  | cons c t ih =>
    obtain ⟨blank, parts, white⟩ := ih
    rw [trimEnd]
    split
    · rename_i nothing
      rw [nothing, List.nil_append] at parts
      split
      · rename_i is_white
        refine ⟨c :: t, rfl, ?_⟩
        intro d member
        rcases List.mem_cons.mp member with rfl | member
        · exact is_white
        · exact white d (parts ▸ member)
      · exact ⟨blank, by rw [parts]; rfl, white⟩
    · exact ⟨blank, by rw [List.cons_append, ← parts], white⟩

theorem getLast?_trimEnd {t : Text} {c : Char} (ends : t.trimEnd.getLast? = some c) :
    isWhite c = false := by
  induction t with
  | nil => cases ends
  | cons d t ih =>
    rw [trimEnd] at ends
    split at ends
    · split at ends
      · cases ends
      · rename_i is_text
        cases ends
        exact Bool.eq_false_iff.mpr is_text
    · rename_i some_text
      obtain ⟨e, rest', shape⟩ := List.exists_cons_of_ne_nil some_text
      rw [shape, List.getLast?_cons_cons, ← shape] at ends
      exact ih ends

@[simp] theorem trimEnd_trimEnd (t : Text) : t.trimEnd.trimEnd = t.trimEnd := by
  induction t with
  | nil => rfl
  | cons c t ih =>
    rw [trimEnd]
    split
    · split
      · rfl
      · rename_i is_text
        rw [trimEnd, trimEnd]
        exact if_neg is_text
    · rename_i some_text
      rw [trimEnd, ih]
      split
      · rename_i nothing
        exact absurd nothing some_text
      · rfl

theorem size_eq_length {t : Text} (single : ∀ c ∈ t, c.utf8Size = 1) : t.size = t.length := by
  induction t with
  | nil => rfl
  | cons c t ih =>
    rw [size_cons, single c List.mem_cons_self,
      ih fun d member => single d (List.mem_cons_of_mem _ member), List.length_cons, Nat.add_comm]

end Text

end MarkdownEditing
