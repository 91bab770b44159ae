import Mathlib.Algebra.Group.Nat.Defs
import MarkdownEditing.Proofs.Text.Decimal
import MarkdownEditing.Settings.Toml.Document

namespace MarkdownEditing

namespace Toml

variable {t rest word key : Text} {c : Char} {n : Nat}

abbrev Begins (c : Char) : Prop := isIndent c = false ∧ c ≠ '#' ∧ c ≠ '\n' ∧ c ≠ '\r'

theorem skipIndent_cons (visible : isIndent c = false) : skipIndent (c :: t) = c :: t := by
  rw [skipIndent, List.dropWhile_cons_of_neg (by simp [visible])]

theorem skipSpace_cons (begins : Begins c) : skipSpace (c :: t) = c :: t := by
  obtain ⟨visible, no_comment, no_feed, no_return⟩ := begins
  have same : skipComment (skipIndent (c :: t)) = c :: t := by
    rw [skipIndent_cons visible]
    unfold skipComment
    split
    · rename_i shape
      exact absurd (List.cons.inj shape).1 no_comment
    · rfl
  rw [skipSpace]
  split
  · rename_i rest shape
    rw [same] at shape
    exact absurd (List.cons.inj shape).1 no_feed
  · rename_i rest shape
    rw [same] at shape
    exact absurd (List.cons.inj shape).1 no_return
  · exact same

theorem skipSpace_feed (t : Text) : skipSpace ('\n' :: t) = skipSpace t := by
  rw [skipSpace]
  rfl

theorem skipSpace_nil : skipSpace [] = [] := by
  rw [skipSpace]
  rfl

theorem afterLine?_feed (t : Text) : afterLine? ('\n' :: t) = some t := rfl

theorem takeWhile_bare (all : ∀ c ∈ key, isBareChar c = true) (stops : isBareChar c = false)
    (rest : Text) :
    (key ++ c :: rest).takeWhile isBareChar = key ∧
      (key ++ c :: rest).dropWhile isBareChar = c :: rest := by
  refine ⟨?_, ?_⟩
  · rw [List.takeWhile_append_of_pos all, List.takeWhile_cons_of_neg (by simp [stops]),
      List.append_nil]
  · rw [List.dropWhile_append_of_pos all, List.dropWhile_cons_of_neg (by simp [stops])]

theorem bare_facts (bare : isBareChar c = true) : Begins c ∧ c ≠ '"' ∧ c ≠ '\'' ∧ c ≠ '[' := by
  refine ⟨⟨?_, ?_, ?_, ?_⟩, ?_, ?_, ?_⟩
  · rcases Bool.eq_false_or_eq_true (isIndent c) with indent | visible
    · simp only [isIndent, Bool.or_eq_true, beq_iff_eq] at indent
      rcases indent with rfl | rfl <;> cases bare
    · exact visible
  all_goals
    rintro rfl
    cases bare

theorem simpleKey?_bare (some_key : key ≠ []) (all : ∀ c ∈ key, isBareChar c = true)
    (stops : isBareChar c = false) : simpleKey? (key ++ c :: rest) = some (key, c :: rest) := by
  obtain ⟨taken, dropped⟩ := takeWhile_bare all stops rest
  cases key with
  | nil => exact absurd rfl some_key
  | cons k ks =>
    have facts := bare_facts (all k List.mem_cons_self)
    unfold simpleKey?
    split
    · rename_i shape
      exact absurd (List.cons.inj shape).1 facts.2.1
    · rename_i shape
      exact absurd (List.cons.inj shape).1 facts.2.2.1
    · simp only [taken, dropped, some_key, ↓reduceIte]

theorem key?_bare (some_key : key ≠ []) (all : ∀ c ∈ key, isBareChar c = true) (rest : Text) :
    key? (key ++ ' ' :: '=' :: rest) = some ([key], '=' :: rest) := by
  have fuel : (key ++ ' ' :: '=' :: rest).length = key.length + rest.length + 1 + 1 := by
    simp only [List.length_append, List.length_cons]
    omega
  rw [key?, fuel, keyParts?, simpleKey?_bare some_key all rfl]
  rfl

theorem isWordChar_of_isDigit (digit : c.isDigit = true) : isWordChar c = true := by
  simp [isWordChar, Char.isAlphanum, digit]

theorem splitWord_line (all : ∀ c ∈ word, isWordChar c = true) (rest : Text) :
    splitWord (word ++ '\n' :: rest) = (word, '\n' :: rest) := by
  have taken : (word ++ '\n' :: rest).takeWhile isWordChar = word := by
    rw [List.takeWhile_append_of_pos all]
    exact List.append_nil word
  have dropped : (word ++ '\n' :: rest).dropWhile isWordChar = '\n' :: rest := by
    rw [List.dropWhile_append_of_pos all]
    rfl
  simp only [splitWord, taken, dropped]
  split <;> rfl

theorem word_facts (wordly : isWordChar c = true) :
    isIndent c = false ∧ c ≠ '"' ∧ c ≠ '\'' ∧ c ≠ '[' ∧ c ≠ '\x7b' := by
  refine ⟨?_, ?_, ?_, ?_, ?_⟩
  · rcases Bool.eq_false_or_eq_true (isIndent c) with indent | visible
    · simp only [isIndent, Bool.or_eq_true, beq_iff_eq] at indent
      rcases indent with rfl | rfl <;> cases wordly
    · exact visible
  all_goals
    rintro rfl
    cases wordly

theorem value?_word (depth : Nat) (some_word : word ≠ []) (all : ∀ c ∈ word, isWordChar c = true)
    {v : Value} (means : ofWord? word = some v) (rest : Text) :
    value? (depth + 1) (word ++ '\n' :: rest) = some (v, '\n' :: rest) := by
  have split := splitWord_line all rest
  cases word with
  | nil => exact absurd rfl some_word
  | cons c t =>
    obtain ⟨_, no_quote, no_single, no_bracket, no_brace⟩ := word_facts (all c List.mem_cons_self)
    rw [List.cons_append] at split ⊢
    have flat : flat? (c :: (t ++ '\n' :: rest)) = some (v, '\n' :: rest) := by
      unfold flat?
      split
      · rename_i shape
        exact absurd (List.cons.inj shape).1 no_quote
      · rename_i shape
        exact absurd (List.cons.inj shape).1 no_single
      · rw [split, means]
        rfl
    unfold value?
    split
    · rename_i shape
      exact absurd (List.cons.inj shape).1 no_bracket
    · rename_i shape
      exact absurd (List.cons.inj shape).1 no_brace
    · exact flat

def isQuotable (c : Char) : Bool := isPlain c && c != '"' && c != '\\'

theorem quotable_facts (quotable : isQuotable c = true) : isPlain c = true ∧ c ≠ '"' ∧ c ≠ '\\' := by
  simp only [isQuotable, Bool.and_eq_true, bne_iff_ne] at quotable
  exact ⟨quotable.1.1, quotable.1.2, quotable.2⟩

theorem basic?_closes (all : ∀ c ∈ word, isQuotable c = true) (rest : Text) :
    basic? (word ++ '"' :: rest) = some (word, rest) := by
  induction word with
  | nil =>
    rw [List.nil_append, basic?]
  | cons c t ih =>
    obtain ⟨plain, no_quote, no_escape⟩ := quotable_facts (all c List.mem_cons_self)
    have inner := ih fun d member => all d (List.mem_cons_of_mem c member)
    rw [List.cons_append, basic?]
    · rw [if_pos plain, inner]
      rfl
    · exact no_quote
    · exact no_escape

theorem value?_quoted (depth : Nat) (some_text : word ≠ []) (all : ∀ c ∈ word, isQuotable c = true)
    (rest : Text) :
    value? (depth + 1) ('"' :: word ++ '"' :: rest) = some (.string word, rest) := by
  have closes := basic?_closes all rest
  cases word with
  | nil => exact absurd rfl some_text
  | cons c t =>
    have no_quote := (quotable_facts (all c List.mem_cons_self)).2.1
    have quoted : quoted? ('"' :: c :: (t ++ '"' :: rest)) = some (c :: t, rest) := by
      unfold quoted?
      split
      · rename_i shape
        exact absurd (List.cons.inj (List.cons.inj shape).2).1 no_quote
      · rename_i shape
        cases (List.cons.inj shape).1
      · rename_i shape
        cases shape
        exact closes
      · rename_i shape
        cases (List.cons.inj shape).1
      · rename_i other _
        exact (other _ rfl).elim
    change flat? ('"' :: c :: (t ++ '"' :: rest)) = _
    simp only [flat?, quoted]
    rfl

theorem ungroup?_digits {ok : Char → Bool} (some_word : word ≠ []) (all : ∀ c ∈ word, ok c = true)
    (no_line : ok '_' = false) : ungroup? ok word = some word := by
  induction word with
  | nil => exact absurd rfl some_word
  | cons c t ih =>
    have accepted := all c List.mem_cons_self
    cases t with
    | nil => rw [ungroup?, if_pos accepted]
    | cons d t =>
      have inner := ih (List.cons_ne_nil d t) fun e member => all e (List.mem_cons_of_mem c member)
      rw [ungroup?, if_pos accepted, inner]
      · rfl
      · exact List.cons_ne_nil d t
      · intro rest shape
        have next := all d (by simp)
        rw [(List.cons.inj shape).1, no_line] at next
        cases next

theorem digitValue_of_isDigit (digit : c.isDigit = true) : digitValue c = c.toNat - '0'.toNat := by
  rw [digitValue, if_pos digit]

theorem ofDigits_eq (all : ∀ c ∈ word, c.isDigit = true) (m : Nat) :
    word.foldl (fun n c => 10 * n + digitValue c) m = Nat.ofDigitChars 10 word m := by
  induction word generalizing m with
  | nil => rfl
  | cons c t ih =>
    rw [List.foldl_cons, digitValue_of_isDigit (all c List.mem_cons_self),
      ih fun d member => all d (List.mem_cons_of_mem c member), Nat.ofDigitChars_cons]

theorem decimal?_ofNat (n : Nat) : decimal? (Text.ofNat n) = some n := by
  have digits : ∀ c ∈ Text.ofNat n, c.isDigit = true := fun _ => Text.isDigit_of_mem_ofNat
  have no_zero : ¬((Text.ofNat n).head? = some '0' ∧ (Text.ofNat n).length ≠ 1) := by
    rintro ⟨zero, several⟩
    exact several (Text.length_ofNat_of_zero zero)
  have value : ofDigits 10 (Text.ofNat n) = n :=
    (ofDigits_eq digits 0).trans (Text.ofDigitChars_ofNat n)
  simp only [decimal?, ungroup?_digits (Text.ofNat_ne_nil n) digits rfl, Option.bind_eq_bind,
    Option.bind_some, no_zero, ↓reduceIte, value]

theorem integer?_ofNat (n : Nat) : integer? (Text.ofNat n) = some (n : Int) := by
  have digits : ∀ c ∈ Text.ofNat n, c.isDigit = true := fun _ => Text.isDigit_of_mem_ofNat
  have read := decimal?_ofNat n
  generalize Text.ofNat n = t at digits read
  unfold integer?
  split
  · cases digits 'x' (by simp)
  · cases digits 'o' (by simp)
  · cases digits 'b' (by simp)
  · cases digits '+' (by simp)
  · cases digits '-' (by simp)
  · rw [read]
    rfl

theorem ofWord?_ofNat (small : n < 2 ^ 64) : ofWord? (Text.ofNat n) = some (.integer n) := by
  have digits : ∀ c ∈ Text.ofNat n, c.isDigit = true := fun _ => Text.isDigit_of_mem_ofNat
  have no_true : Text.ofNat n ≠ ['t', 'r', 'u', 'e'] := by
    intro same
    rw [same] at digits
    cases digits 't' (by simp)
  have no_false : Text.ofNat n ≠ ['f', 'a', 'l', 's', 'e'] := by
    intro same
    rw [same] at digits
    cases digits 'f' (by simp)
  have fits : inRange n = true := by
    have wide : 2 ^ 64 ≤ Nat.pow 2 128 := by decide
    simp only [inRange, Bool.and_eq_true, decide_eq_true_eq]
    omega
  rw [ofWord?, if_neg no_true, if_neg no_false, integer?_ofNat]
  simp only [fits, ↓reduceIte]

/-- A text that is read as a value when it ends its line. -/
structure Spells (text : Text) (v : Value) : Prop where
  visible : ∀ rest, skipIndent (text ++ '\n' :: rest) = text ++ '\n' :: rest
  read : ∀ rest, value? depthLimit (text ++ '\n' :: rest) = some (v, '\n' :: rest)

theorem spells_word (some_word : word ≠ []) (all : ∀ c ∈ word, isWordChar c = true) {v : Value}
    (means : ofWord? word = some v) : Spells word v where
  visible rest := by
    cases word with
    | nil => exact absurd rfl some_word
    | cons c t => exact skipIndent_cons (word_facts (all c List.mem_cons_self)).1
  read rest := value?_word 79 some_word all means rest

theorem spells_ofNat (small : n < 2 ^ 64) : Spells (Text.ofNat n) (.integer n) :=
  spells_word (Text.ofNat_ne_nil n)
    (fun _ member => isWordChar_of_isDigit (Text.isDigit_of_mem_ofNat member)) (ofWord?_ofNat small)

theorem spells_quoted (some_text : word ≠ []) (all : ∀ c ∈ word, isQuotable c = true) :
    Spells ('"' :: word ++ ['"']) (.string word) where
  visible rest := rfl
  read rest := by
    have read := value?_quoted 79 some_text all ('\n' :: rest)
    rwa [List.append_assoc, List.singleton_append]

/-- A line that gives a value under a bare key adds an entry to the table of the last header. -/
theorem lines?_entry {p : Progress} {root : Table} {v : Value} {value : Text} (some_key : key ≠ [])
    (all : ∀ c ∈ key, isBareChar c = true) (spells : Spells value v)
    (added : addAt p.root p.path [key] v = some root) (rest : Text) (fuel : Nat) :
    lines? p (key ++ ' ' :: '=' :: ' ' :: (value ++ '\n' :: rest)) (fuel + 1) =
      lines? { p with root } rest fuel := by
  have key_read := key?_bare some_key all (' ' :: (value ++ '\n' :: rest))
  have line : entryLine? p (key ++ ' ' :: '=' :: ' ' :: (value ++ '\n' :: rest)) =
      some ({ p with root }, '\n' :: rest) := by
    have blank : skipIndent (' ' :: (value ++ '\n' :: rest)) = value ++ '\n' :: rest :=
      spells.visible rest
    simp only [entryLine?, key_read, after?, Option.bind_eq_bind, Option.bind_some, blank,
      spells.read, added, ↓reduceIte]
    rfl
  cases key with
  | nil => exact absurd rfl some_key
  | cons k ks =>
    have facts := bare_facts (all k List.mem_cons_self)
    rw [List.cons_append] at line ⊢
    rw [lines?, skipSpace_cons facts.1]
    dsimp only
    split
    · rename_i bracket
      exact absurd (List.cons.inj bracket).1 facts.2.2.2
    · rw [line]
      rfl

theorem lines?_header {p next : Progress} (read : headerLine? p t = some (next, '\n' :: rest))
    (fuel : Nat) : lines? p ('[' :: t) (fuel + 1) = lines? next rest fuel := by
  rw [lines?, skipSpace_cons (by decide)]
  simp only [read, Option.bind_eq_bind, Option.bind_some, afterLine?_feed]

theorem lines?_feed (p : Progress) (t : Text) (fuel : Nat) :
    lines? p ('\n' :: t) fuel = lines? p t fuel := by
  cases fuel with
  | zero => rfl
  | succ fuel => rw [lines?, skipSpace_feed, ← lines?]

theorem lines?_nil (p : Progress) (fuel : Nat) : lines? p [] (fuel + 1) = some p.root := by
  rw [lines?, skipSpace_nil]

end Toml

end MarkdownEditing
