import Mathlib.Data.List.TakeWhile
import Mathlib.Data.Nat.Digits.Defs
import MarkdownEditing.Markup.Number
import MarkdownEditing.Proofs.Markup.Markers
import MarkdownEditing.Proofs.Text.Decimal

namespace MarkdownEditing

namespace Text

variable {t : Text}

theorem size_of_digits (all : t.all Char.isDigit = true) : t.size = t.length := by
  apply size_eq_length
  intro c member
  have digit := List.all_eq_true.mp all c member
  simp only [Char.isDigit, Bool.and_eq_true, decide_eq_true_eq] at digit
  have high : c.val.toNat ≤ 57 := UInt32.le_iff_toNat_le.mp digit.2
  have small : c.val ≤ 0x7F := UInt32.le_iff_toNat_le.mpr (by simp only [UInt32.reduceToNat]; omega)
  exact if_pos small

theorem foldl_digits_lt (t : Text) (n : Nat) (all : t.all Char.isDigit = true) :
    t.foldl (fun n c => 10 * n + (c.toNat - '0'.toNat)) n < 10 ^ t.length * (n + 1) := by
  induction t generalizing n with
  | nil => simp
  | cons c t ih =>
    rw [List.all_cons, Bool.and_eq_true] at all
    have digit := all.1
    simp only [Char.isDigit, Bool.and_eq_true, decide_eq_true_eq] at digit
    have high : c.toNat ≤ 57 := UInt32.le_iff_toNat_le.mp digit.2
    have zero : '0'.toNat = 48 := rfl
    have later := ih (10 * n + (c.toNat - '0'.toNat)) all.2
    have step : 10 * n + (c.toNat - '0'.toNat) + 1 ≤ 10 * (n + 1) := by omega
    calc (c :: t).foldl (fun n c => 10 * n + (c.toNat - '0'.toNat)) n
        < 10 ^ t.length * (10 * n + (c.toNat - '0'.toNat) + 1) := later
      _ ≤ 10 ^ t.length * (10 * (n + 1)) := Nat.mul_le_mul_left _ step
      _ = 10 ^ (c :: t).length * (n + 1) := by
        rw [List.length_cons, Nat.pow_succ, Nat.mul_assoc]

theorem toNat?_of_digits (some_digit : t ≠ []) (all : t.all Char.isDigit = true) :
    ∃ n, t.toNat? = some n ∧ n < 10 ^ t.length := by
  refine ⟨_, by rw [toNat?, if_pos ⟨some_digit, all⟩], ?_⟩
  simpa using foldl_digits_lt t 0 all

theorem all_isDigit_ofNat (n : Nat) : (ofNat n).all Char.isDigit = true :=
  List.all_eq_true.mpr fun _ member => isDigit_of_mem_ofNat member

theorem toNat?_ofNat (n : Nat) : (ofNat n).toNat? = some n := by
  rw [toNat?, if_pos ⟨ofNat_ne_nil n, all_isDigit_ofNat n⟩]
  exact congrArg some (ofDigitChars_ofNat n)

theorem length_ofNat_le {n k : Nat} (positive : 0 < k) : (ofNat n).length ≤ k ↔ n < 10 ^ k := by
  constructor
  · intro short
    obtain ⟨m, read, small⟩ := toNat?_of_digits (ofNat_ne_nil n) (all_isDigit_ofNat n)
    rw [toNat?_ofNat] at read
    cases read
    exact Nat.lt_of_lt_of_le small (Nat.pow_le_pow_right (by decide) short)
  · exact Nat.toDigits_length 10 n k positive

end Text

namespace ItemNumber

def limit : Nat := 10 ^ 9

variable {digits rest a : Text} {c : Char} {d : Document}

theorem read?_digits (some_digit : digits ≠ []) (all : digits.all Char.isDigit = true)
    (glyph : c = '.' ∨ c = ')') (rest : Text) :
    read? (digits ++ [c] ++ rest) = digits.toNat?.map (⟨0, digits.size, ·⟩) := by
  have digit : ∀ e ∈ digits, isDigit e = true := fun e member =>
    isDigit_of_ascii e (List.all_eq_true.mp all e member)
  have facts := glyph_facts (c := c) (by grind)
  have unspaced : (digits ++ c :: rest).dropWhile isWhite = digits ++ c :: rest := by
    cases digits with
    | nil => exact absurd rfl some_digit
    | cons e digits =>
      have visible := (digit_facts (List.all_eq_true.mp all e List.mem_cons_self)).2.2.2.2
      rw [List.cons_append, List.dropWhile_cons_of_neg (by simp [visible])]
  have no_indent : (digits ++ c :: rest).takeWhile isWhite = [] := by
    have parts := List.takeWhile_append_dropWhile (p := isWhite) (l := digits ++ c :: rest)
    rw [unspaced] at parts
    exact List.append_left_eq_self.mp parts
  have shown : (digits ++ c :: rest).takeWhile isDigit = digits :=
    Text.takeWhile_stop digit facts.2.1
  have left : (digits ++ c :: rest).dropWhile isDigit = c :: rest := by
    rw [List.dropWhile_append_of_pos digit, List.dropWhile_cons_of_neg (by simp [facts.2.1])]
  rw [List.append_assoc, List.singleton_append]
  simp only [read?, unspaced, no_indent, shown, left, glyph, ↓reduceIte, Text.size_nil,
    Nat.zero_add]

theorem read?_unended (all : digits.all Char.isDigit = true) : read? digits = none := by
  have left : (digits.dropWhile isWhite).dropWhile isDigit = [] := by
    rw [List.dropWhile_eq_nil_iff]
    intro e member
    exact isDigit_of_ascii e (List.all_eq_true.mp all e ((List.dropWhile_sublist _).mem member))
  simp only [read?, left]

theorem ofItem?_digits (text : d.text = a ++ (digits ++ [c] ++ rest)) (some_digit : digits ≠ [])
    (all : digits.all Char.isDigit = true) (glyph : c = '.' ∨ c = ')') :
    ofItem? d a.size =
      if digits.length ≤ 9 then digits.toNat?.map (⟨0, digits.size, ·⟩) else none := by
  have size := Text.size_of_digits all
  have one : Text.size [c] = 1 := by
    rcases glyph with rfl | rfl <;> rfl
  have shown : d.slice a.size (a.size + window) =
      Text.takeBytes (digits ++ [c] ++ rest) window := by
    rw [Document.slice, text, Text.slice, Text.takeBytes_append, Text.dropBytes_left]
  rw [ofItem?, shown]
  split
  · rename_i short
    obtain ⟨more, enough⟩ : ∃ more, window = (digits ++ [c]).size + more := by
      refine Nat.exists_eq_add_of_le ?_
      rw [Text.size_append, one, size, window]
      omega
    rw [enough, Text.takeBytes_append]
    exact read?_digits some_digit all glyph _
  · have inside : window ≤ digits.size := by
      rw [size, window]
      omega
    rw [List.append_assoc, Text.takeBytes_append_of_le _ inside]
    apply read?_unended
    apply List.all_eq_true.mpr
    intro e member
    have parts := Text.takeBytes_append_dropBytes digits window
    refine List.all_eq_true.mp all e ?_
    rw [← parts]
    exact List.mem_append_left _ member

end ItemNumber

namespace Document

def numberAt? (d : Document) (start : Nat) : Option Nat :=
  (ItemNumber.ofItem? d start).map ItemNumber.value

variable {digits rest a : Text} {c : Char} {d : Document} {n : Nat}

theorem numberAt?_ofNat (text : d.text = a ++ (Text.ofNat n ++ [c] ++ rest))
    (glyph : c = '.' ∨ c = ')') :
    d.numberAt? a.size = if n < ItemNumber.limit then some n else none := by
  rw [numberAt?, ItemNumber.ofItem?_digits text (Text.ofNat_ne_nil n) (Text.all_isDigit_ofNat n)
    glyph, Text.toNat?_ofNat]
  have short := @Text.length_ofNat_le n 9 (by decide)
  rw [ItemNumber.limit]
  by_cases small : n < 10 ^ 9
  · rw [if_pos (short.mpr small), if_pos small]
    rfl
  · rw [if_neg (fun fits => small (short.mp fits)), if_neg small]
    rfl

end Document

end MarkdownEditing
