import Mathlib.Data.List.Basic
import MarkdownEditing.Proofs.Syntax.Appending

namespace MarkdownEditing

/-- A run of members of a class between two lists. It is not empty, and it goes on neither into the
list before it nor into the one after it. -/
structure MaximalRun {α : Type} (accepts : α → Bool) (before run after : List α) : Prop where
  some_run : run ≠ []
  inside : ∀ a ∈ run, accepts a = true
  left : ∀ a ∈ before.getLast?, accepts a = false
  right : ∀ a ∈ after.head?, accepts a = false

section Runs

variable {α : Type} {accepts : α → Bool} {run after : List α}

theorem takeWhile_run (inside : ∀ a ∈ run, accepts a = true)
    (right : ∀ a ∈ after.head?, accepts a = false) : (run ++ after).takeWhile accepts = run := by
  rw [List.takeWhile_append_of_pos inside]
  cases after with
  | nil => exact List.append_nil run
  | cons a after =>
    rw [List.takeWhile_cons_of_neg (Bool.eq_false_iff.mp (right a rfl)), List.append_nil]

theorem dropWhile_run (inside : ∀ a ∈ run, accepts a = true)
    (right : ∀ a ∈ after.head?, accepts a = false) : (run ++ after).dropWhile accepts = after := by
  have parts := List.takeWhile_append_dropWhile (p := accepts) (l := run ++ after)
  rw [takeWhile_run inside right] at parts
  exact List.append_cancel_left parts

theorem head?_dropWhile (accepts : α → Bool) (list : List α) :
    ∀ a ∈ (list.dropWhile accepts).head?, accepts a = false := by
  intro a first
  have stops := List.head?_dropWhile_not accepts list
  rw [Option.mem_def.mp first] at stops
  exact stops

end Runs

section Classes

variable {c : Char} {kind : Kind}

theorem isIndent_of_isWhite (text : isWhite c = false) : isIndent c = false := by
  cases indent : isIndent c with
  | false => rfl
  | true => exact absurd (isWhite_of_isIndent c indent) (by rw [text]; exact Bool.false_ne_true)

theorem isWhite_of_glyph (glyph : markKind? c = some kind) : isWhite c = false := by
  unfold markKind? at glyph
  split at glyph <;> cases glyph <;> decide

theorem ne_of_isWhite {d : Char} (text : isWhite c = false) (white : isWhite d = true) : c ≠ d := by
  rintro rfl
  rw [white] at text
  cases text

theorem isWordChar_iff : isWordChar c = true ↔ isWhite c = false ∧ markKind? c = none := by
  rw [isWordChar, Bool.and_eq_true, Bool.not_eq_true', Option.isNone_iff_eq_none]

theorem isWordChar_of_isWhite (white : isWhite c = true) : isWordChar c = false := by
  rw [isWordChar, white]
  rfl

theorem isWordChar_of_glyph (glyph : markKind? c = some kind) : isWordChar c = false := by
  rw [isWordChar, glyph, Option.isNone_some, Bool.and_false]

theorem isWordChar_facts (word : isWordChar c = true) :
    isIndent c = false ∧ isWhite c = false ∧ c ≠ '\n' ∧ c ≠ '\r' ∧ markKind? c = none := by
  obtain ⟨text, no_glyph⟩ := isWordChar_iff.mp word
  exact ⟨isIndent_of_isWhite text, text, ne_of_isWhite text rfl, ne_of_isWhite text rfl, no_glyph⟩

end Classes

namespace Token

variable {before after t u : Text} {c : Char} {kind : Kind} {token : Token} {tokens : List Token}

theorem first_of_isIndent (indent : isIndent c = true) :
    first c t = (⟨.whitespace, c :: t.takeWhile isIndent⟩, t.dropWhile isIndent) := by
  rw [first, if_pos indent]

theorem first_of_glyph (glyph : markKind? c = some kind) : first c t = (⟨kind, [c]⟩, t) := by
  have text := isWhite_of_glyph glyph
  have no_return : ¬(c = '\r' ∧ t.head? = some '\n') := fun both =>
    ne_of_isWhite text rfl both.1
  rw [first, isIndent_of_isWhite text, if_neg Bool.false_ne_true, if_neg (ne_of_isWhite text rfl),
    if_neg no_return, glyph]

theorem first_of_isWordChar (word : isWordChar c = true) :
    first c t = (⟨.text, c :: t.takeWhile isWordChar⟩, t.dropWhile isWordChar) := by
  obtain ⟨indent, white, feed, ret, glyph⟩ := isWordChar_facts word
  rw [first]
  simp [indent, white, feed, ret, glyph]

theorem first_of_isWhite (white : isWhite c = true) (no_indent : isIndent c = false)
    (no_feed : c ≠ '\n') (no_break : ¬(c = '\r' ∧ t.head? = some '\n')) :
    first c t = (⟨.text, [c]⟩, t) := by
  have no_glyph : markKind? c = none := by
    cases glyph : markKind? c with
    | none => rfl
    | some kind => exact absurd rfl (ne_of_isWhite (isWhite_of_glyph glyph) white)
  rw [first, no_indent, if_neg Bool.false_ne_true, if_neg no_feed, if_neg no_break, no_glyph]
  exact if_pos white

/-- How a token has to be between the text before it and the text after it: a longest run of spaces
and tabs, a line break, a mark character, a longest run of other characters that are not white, or
another white character. A carriage return directly before a line feed belongs to the line break. -/
inductive Exact (before after : Text) : Token → Prop
  | blank (t : Text) : MaximalRun isIndent before t after → Exact before after ⟨.whitespace, t⟩
  | feed : Exact before after ⟨.newline, ['\n']⟩
  | returnFeed : Exact before after ⟨.newline, ['\r', '\n']⟩
  | mark (c : Char) (kind : Kind) : markKind? c = some kind → Exact before after ⟨kind, [c]⟩
  | word (t : Text) : MaximalRun isWordChar before t after → Exact before after ⟨.text, t⟩
  | white (c : Char) : isWhite c = true → isIndent c = false → c ≠ '\n' →
    ¬(c = '\r' ∧ after.head? = some '\n') → Exact before after ⟨.text, [c]⟩

def CanonicalAfter (before : Text) (tokens : List Token) : Prop :=
  ∀ front token back, tokens = front ++ token :: back →
    token.Exact (before ++ join front) (join back)

def Canonical (tokens : List Token) : Prop := CanonicalAfter [] tokens

theorem canonicalAfter_cons : CanonicalAfter before (token :: tokens) ↔
    token.Exact before (join tokens) ∧ CanonicalAfter (before ++ token.text) tokens := by
  constructor
  · intro canonical
    refine ⟨?_, ?_⟩
    · have here := canonical [] token tokens rfl
      rwa [join_nil, List.append_nil] at here
    · rintro front other back rfl
      have later := canonical (token :: front) other back rfl
      rwa [join_cons, ← List.append_assoc] at later
  · rintro ⟨here, later⟩ front other back parts
    cases front with
    | nil =>
      obtain ⟨rfl, rfl⟩ := List.cons.inj parts
      rwa [join_nil, List.append_nil]
    | cons first front =>
      obtain ⟨rfl, rfl⟩ := List.cons.inj parts
      rw [join_cons, ← List.append_assoc]
      exact later front other back rfl

theorem Exact.ne_nil (exact : token.Exact before after) : token.text ≠ [] := by
  cases exact with
  | blank t run => exact run.some_run
  | word t run => exact run.some_run
  | feed | returnFeed | mark | white => exact List.cons_ne_nil _ _

theorem Exact.first_eq (exact : token.Exact before after) (text : token.text ++ after = c :: t) :
    first c t = (token, after) := by
  cases exact with
  | blank run maximal =>
    obtain ⟨d, run, rfl⟩ := List.exists_cons_of_ne_nil maximal.some_run
    rw [List.cons_append] at text
    obtain ⟨rfl, rfl⟩ := List.cons.inj text
    obtain ⟨here, later⟩ := List.forall_mem_cons.mp maximal.inside
    rw [first_of_isIndent here, takeWhile_run later maximal.right,
      dropWhile_run later maximal.right]
  | feed | returnFeed =>
    obtain ⟨rfl, rfl⟩ := List.cons.inj text
    rfl
  | mark d kind glyph =>
    obtain ⟨rfl, rfl⟩ := List.cons.inj text
    exact first_of_glyph glyph
  | word run maximal =>
    obtain ⟨d, run, rfl⟩ := List.exists_cons_of_ne_nil maximal.some_run
    rw [List.cons_append] at text
    obtain ⟨rfl, rfl⟩ := List.cons.inj text
    obtain ⟨here, later⟩ := List.forall_mem_cons.mp maximal.inside
    rw [first_of_isWordChar here, takeWhile_run later maximal.right,
      dropWhile_run later maximal.right]
  | white d white no_indent no_feed no_break =>
    obtain ⟨rfl, rfl⟩ := List.cons.inj text
    exact first_of_isWhite white no_indent no_feed no_break

theorem Exact.scan_eq (exact : token.Exact before after) :
    scan (token.text ++ after) = token :: scan after := by
  cases text : token.text ++ after with
  | nil => exact absurd (List.append_eq_nil_iff.mp text).1 exact.ne_nil
  | cons c t => rw [Token.scan, exact.first_eq text]

theorem scan_blank (indent : ∀ c ∈ t, isIndent c = true) (some_blank : t ≠ [])
    (stops : ∀ c ∈ u.head?, isIndent c = false) : scan (t ++ u) = ⟨.whitespace, t⟩ :: scan u := by
  have run : MaximalRun isIndent [] t u :=
    ⟨some_blank, indent, fun _ none_before => (nomatch none_before), stops⟩
  exact (Exact.blank t run).scan_eq

theorem scan_glyph (glyph : markKind? c = some kind) (u : Text) :
    scan (c :: u) = ⟨kind, [c]⟩ :: scan u := by
  have exact : Exact [] u ⟨kind, [c]⟩ := .mark c kind glyph
  exact exact.scan_eq

theorem scan_word (word : ∀ c ∈ t, isWordChar c = true) (some_text : t ≠ [])
    (stops : ∀ c ∈ u.head?, isWordChar c = false) : scan (t ++ u) = ⟨.text, t⟩ :: scan u := by
  have run : MaximalRun isWordChar [] t u :=
    ⟨some_text, word, fun _ none_before => (nomatch none_before), stops⟩
  exact (Exact.word t run).scan_eq

theorem CanonicalAfter.eq_scan (canonical : CanonicalAfter before tokens) :
    tokens = Token.scan (join tokens) := by
  induction tokens generalizing before with
  | nil => rw [join_nil, Token.scan]
  | cons token tokens ih =>
    obtain ⟨exact, later⟩ := canonicalAfter_cons.mp canonical
    rw [join_cons, exact.scan_eq, ← ih later]

/-- No run of spaces and tabs and no word goes on from one text into the next. -/
def Apart (before after : Text) : Prop :=
  ∀ c ∈ before.getLast?, ∀ d ∈ after.head?,
    ¬(isIndent c = true ∧ isIndent d = true) ∧ ¬(isWordChar c = true ∧ isWordChar d = true)

theorem Apart.of_neither (last : t.getLast? = some c) (no_indent : isIndent c = false)
    (no_word : isWordChar c = false) : Apart (before ++ t) after := by
  intro d same e _
  rw [List.getLast?_append, last, Option.some_or] at same
  cases same
  rw [no_indent, no_word]
  exact ⟨fun both => Bool.false_ne_true both.1, fun both => Bool.false_ne_true both.1⟩

theorem Apart.of_indents (run : MaximalRun isIndent before t after) :
    Apart (before ++ t) after := by
  intro c last d first
  rw [List.getLast?_append_of_ne_nil _ run.some_run] at last
  have indent := run.inside c (List.mem_of_getLast? last)
  rw [run.right d first, isWordChar_of_isWhite (isWhite_of_isIndent c indent)]
  exact ⟨fun both => Bool.false_ne_true both.2, fun both => Bool.false_ne_true both.1⟩

theorem Apart.of_word (run : MaximalRun isWordChar before t after) :
    Apart (before ++ t) after := by
  intro c last d first
  rw [List.getLast?_append_of_ne_nil _ run.some_run] at last
  have word := run.inside c (List.mem_of_getLast? last)
  rw [run.right d first, isIndent_of_isWhite (isWordChar_iff.mp word).1]
  exact ⟨fun both => Bool.false_ne_true both.1, fun both => Bool.false_ne_true both.2⟩

theorem maximalRun_first {accepts : Char → Bool} (here : accepts c = true)
    (alone : ∀ d ∈ before.getLast?, ¬(accepts d = true ∧ accepts c = true)) :
    MaximalRun accepts before (c :: t.takeWhile accepts) (t.dropWhile accepts) where
  some_run := List.cons_ne_nil _ _
  inside := List.forall_mem_cons.mpr ⟨here, fun _ member => mem_of_mem_takeWhile member⟩
  left := fun d last => Bool.eq_false_iff.mpr fun also => alone d last ⟨also, here⟩
  right := head?_dropWhile accepts t

/-- The first token is exact behind a text that no run goes on from, and no run goes on from it. -/
theorem exact_first (apart : Apart before (c :: t)) :
    (first c t).1.Exact before (first c t).2 ∧
      Apart (before ++ (first c t).1.text) (first c t).2 := by
  unfold first
  split
  · rename_i indent
    have run := maximalRun_first (t := t) indent fun d last => (apart d last c rfl).1
    exact ⟨.blank _ run, .of_indents run⟩
  split
  · rename_i feed
    subst feed
    exact ⟨.feed, .of_neither rfl rfl rfl⟩
  split
  · rename_i crlf
    obtain ⟨rfl, _⟩ := crlf
    exact ⟨.returnFeed, .of_neither rfl rfl rfl⟩
  rename_i no_indent no_feed no_break
  have no_indent := Bool.eq_false_iff.mpr no_indent
  split
  · rename_i kind glyph
    exact ⟨.mark c kind glyph, .of_neither rfl no_indent (isWordChar_of_glyph glyph)⟩
  rename_i no_glyph
  split
  · rename_i is_white
    exact ⟨.white c is_white no_indent no_feed no_break,
      .of_neither rfl no_indent (isWordChar_of_isWhite is_white)⟩
  · rename_i not_white
    have word := isWordChar_iff.mpr ⟨Bool.eq_false_iff.mpr not_white, no_glyph⟩
    have run := maximalRun_first (t := t) word fun d last => (apart d last c rfl).2
    exact ⟨.word _ run, .of_word run⟩

theorem canonicalAfter_scan (apart : Apart before t) : CanonicalAfter before (scan t) := by
  fun_induction scan t generalizing before with
  | case1 =>
    intro front token back parts
    simp at parts
  | case2 c t ih =>
    -- no run goes on from what is already cut, which the next token keeps
    obtain ⟨exact, rest⟩ := exact_first apart
    rw [canonicalAfter_cons, join_scan]
    exact ⟨exact, ih rest⟩

theorem canonical_scan (t : Text) : Canonical (scan t) :=
  canonicalAfter_scan fun _ none_before => by cases none_before

/-- The tokens of a text are its canonical cutting, and there is no other one. A text behind a line
feed is cut on its own. -/
theorem scan_unique :
    (∀ (t : Text) (tokens : List Token),
      tokens = scan t ↔ join tokens = t ∧ (∀ token ∈ tokens, token.text ≠ []) ∧ Canonical tokens) ∧
    ∀ a b : Text, scan (a ++ '\n' :: b) = scan (a ++ ['\n']) ++ scan b := by
  constructor
  · intro t tokens
    constructor
    · rintro rfl
      exact ⟨join_scan t, fun _ member => text_ne_nil_of_mem_scan member, canonical_scan t⟩
    · rintro ⟨rfl, _, canonical⟩
      exact CanonicalAfter.eq_scan canonical
  · intro a b
    have ends : (a ++ ['\n']).getLast? = some '\n' := List.getLast?_concat
    rw [← scan_append (Or.inr ends), List.append_assoc, List.singleton_append]

end Token

end MarkdownEditing
