import MarkdownEditing.Proofs.Text.Cut
import MarkdownEditing.Text.Utf8

namespace MarkdownEditing

namespace Utf8

variable {c d : Char} {t u : Text} {start stop : Nat}

theorem encodeChar_cases (c : Char) :
    (c.toNat < 0x80 ∧ c.utf8Size = 1 ∧ encodeChar c = [c.toNat]) ∨
      (0x80 ≤ c.toNat ∧ c.toNat < 0x800 ∧ c.utf8Size = 2 ∧
        encodeChar c = [0xC0 + c.toNat / 64, 0x80 + c.toNat % 64]) ∨
      (0x800 ≤ c.toNat ∧ c.toNat < 0x10000 ∧ c.utf8Size = 3 ∧
        encodeChar c =
          [0xE0 + c.toNat / 4096, 0x80 + c.toNat / 64 % 64, 0x80 + c.toNat % 64]) ∨
      (0x10000 ≤ c.toNat ∧ c.utf8Size = 4 ∧
        encodeChar c = [0xF0 + c.toNat / 262144, 0x80 + c.toNat / 4096 % 64,
          0x80 + c.toNat / 64 % 64, 0x80 + c.toNat % 64]) := by
  have size : c.utf8Size = if c.toNat ≤ 0x7F then 1 else if c.toNat ≤ 0x7FF then 2 else
      if c.toNat ≤ 0xFFFF then 3 else 4 := rfl
  rw [size, encodeChar]
  by_cases one : c.toNat < 0x80
  · left
    simp only [one, ↓reduceIte, show c.toNat ≤ 0x7F by omega, true_and]
  by_cases two : c.toNat < 0x800
  · right
    left
    simp only [one, two, ↓reduceIte, show ¬c.toNat ≤ 0x7F by omega, show c.toNat ≤ 0x7FF by omega,
      show 0x80 ≤ c.toNat by omega, true_and]
  by_cases three : c.toNat < 0x10000
  · right
    right
    left
    simp only [one, two, three, ↓reduceIte, show ¬c.toNat ≤ 0x7F by omega,
      show ¬c.toNat ≤ 0x7FF by omega, show c.toNat ≤ 0xFFFF by omega,
      show 0x800 ≤ c.toNat by omega, true_and]
  · right
    right
    right
    simp only [one, two, three, ↓reduceIte, show ¬c.toNat ≤ 0x7F by omega,
      show ¬c.toNat ≤ 0x7FF by omega, show ¬c.toNat ≤ 0xFFFF by omega,
      show 0x10000 ≤ c.toNat by omega, true_and]

theorem length_encodeChar (c : Char) : (encodeChar c).length = c.utf8Size := by
  rcases encodeChar_cases c with ⟨_, size, bytes⟩ | ⟨_, _, size, bytes⟩ | ⟨_, _, size, bytes⟩ |
    ⟨_, size, bytes⟩ <;> rw [size, bytes] <;> rfl

theorem encodeChar_injective (same : encodeChar c = encodeChar d) : c = d := by
  apply Char.toNat_inj.mp
  rcases encodeChar_cases c with ⟨_, _, first⟩ | ⟨_, _, _, first⟩ | ⟨_, _, _, first⟩ |
    ⟨_, _, first⟩ <;>
  rcases encodeChar_cases d with ⟨_, _, second⟩ | ⟨_, _, _, second⟩ | ⟨_, _, _, second⟩ |
    ⟨_, _, second⟩ <;>
  simp only [first, second, List.cons.injEq, reduceCtorEq, and_false] at same <;> omega

theorem utf8Size_of_append {a b : List Nat} (same : encodeChar c ++ a = encodeChar d ++ b) :
    c.utf8Size = d.utf8Size := by
  rcases encodeChar_cases c with ⟨_, _, first⟩ | ⟨_, _, _, first⟩ | ⟨_, _, _, first⟩ |
    ⟨_, _, first⟩ <;>
  rcases encodeChar_cases d with ⟨_, _, second⟩ | ⟨_, _, _, second⟩ | ⟨_, _, _, second⟩ |
    ⟨_, _, second⟩ <;>
  simp only [first, second, List.cons_append, List.nil_append, List.cons.injEq] at same <;> omega

theorem encodeChar_append_inj {a b : List Nat} (same : encodeChar c ++ a = encodeChar d ++ b) :
    c = d ∧ a = b := by
  have sizes := utf8Size_of_append same
  rw [← length_encodeChar, ← length_encodeChar] at sizes
  obtain ⟨chars, rest⟩ := List.append_inj same sizes
  exact ⟨encodeChar_injective chars, rest⟩

theorem encode_cons (c : Char) (t : Text) : encode (c :: t) = encodeChar c ++ encode t := rfl

theorem encode_append (t u : Text) : encode (t ++ u) = encode t ++ encode u := List.flatMap_append

theorem length_encode (t : Text) : (encode t).length = t.size := by
  induction t with
  | nil => rfl
  | cons c t ih => rw [encode_cons, List.length_append, length_encodeChar, ih, Text.size_cons]

theorem encode_injective (same : encode t = encode u) : t = u := by
  have some_bytes : ∀ (c : Char) (t : Text), encode (c :: t) ≠ [] := by
    intro c t empty
    have sizes := congrArg List.length empty
    have positive := c.utf8Size_pos
    rw [length_encode, Text.size_cons, List.length_nil] at sizes
    omega
  induction t generalizing u with
  | nil =>
    cases u with
    | nil => rfl
    | cons d u => exact absurd same.symm (some_bytes d u)
  | cons c t ih =>
    cases u with
    | nil => exact absurd same (some_bytes c t)
    | cons d u =>
      obtain ⟨rfl, rest⟩ := encodeChar_append_inj same
      rw [ih rest]

theorem toNat_valid (c : Char) :
    c.toNat < 0xD800 ∨ (0xDFFF < c.toNat ∧ c.toNat < 0x110000) := by
  have valid := c.valid
  simp only [UInt32.isValidChar, Nat.isValidChar] at valid
  exact valid

theorem further_next {index read value lo hi needed b : Nat} {bytes : List Nat} (low : lo ≤ b)
    (high : b ≤ hi) :
    further index read value lo hi (needed + 1) (b :: bytes) =
      further index (read + 1) (value * 64 + (b - 0x80)) 0x80 0xBF needed bytes := by
  rw [further, if_pos ⟨low, high⟩]

theorem decodeFrom_char {b : Nat} (tail : List Nat) (first : extraBytes? b = some tail.length)
    (index : Nat) (bytes : List Nat)
    (value : further index 1 (leadBits b) (secondBytes b).1 (secondBytes b).2 tail.length
      (tail ++ bytes) = .ok c.toNat) :
    decodeFrom index (b :: (tail ++ bytes)) =
      (decodeFrom (index + 1 + tail.length) bytes).map (c :: ·) := by
  rw [decodeFrom, first]
  simp only [value, bind, Except.bind, List.drop_left, Char.ofNat_toNat]
  cases decodeFrom (index + 1 + tail.length) bytes <;> rfl

theorem decodeFrom_encodeChar (index : Nat) (c : Char) (bytes : List Nat) :
    decodeFrom index (encodeChar c ++ bytes) =
      (decodeFrom (index + c.utf8Size) bytes).map (c :: ·) := by
  have valid := toNat_valid c
  rcases encodeChar_cases c with ⟨small, size, encoded⟩ | ⟨low, small, size, encoded⟩ |
    ⟨low, small, size, encoded⟩ | ⟨low, size, encoded⟩
  · rw [size, encoded]
    have first : extraBytes? c.toNat = some 0 := by simp [extraBytes?, small]
    have lead : leadBits c.toNat = c.toNat := by simp [leadBits, small]
    exact decodeFrom_char [] first index bytes (by rw [lead]; rfl)
  · rw [size, encoded]
    have first : extraBytes? (0xC0 + c.toNat / 64) = some 1 := by grind [extraBytes?]
    have lead : leadBits (0xC0 + c.toNat / 64) = c.toNat / 64 := by grind [leadBits]
    have second : secondBytes (0xC0 + c.toNat / 64) = (0x80, 0xBF) := by grind [secondBytes]
    refine decodeFrom_char [_] first index bytes ?_
    rw [lead, second, List.singleton_append, List.length_singleton,
      further_next (by omega) (by omega), further]
    exact congrArg _ (by omega)
  · rw [size, encoded]
    have first : extraBytes? (0xE0 + c.toNat / 4096) = some 2 := by grind [extraBytes?]
    have lead : leadBits (0xE0 + c.toNat / 4096) = c.toNat / 4096 := by grind [leadBits]
    have second : (secondBytes (0xE0 + c.toNat / 4096)).1 ≤ 0x80 + c.toNat / 64 % 64 ∧
        0x80 + c.toNat / 64 % 64 ≤ (secondBytes (0xE0 + c.toNat / 4096)).2 := by
      grind [secondBytes]
    refine decodeFrom_char [_, _] first index bytes ?_
    rw [lead, List.cons_append, List.length_cons, further_next second.1 second.2,
      List.singleton_append, List.length_singleton, further_next (by omega) (by omega), further]
    exact congrArg _ (by omega)
  · rw [size, encoded]
    have first : extraBytes? (0xF0 + c.toNat / 262144) = some 3 := by grind [extraBytes?]
    have lead : leadBits (0xF0 + c.toNat / 262144) = c.toNat / 262144 := by grind [leadBits]
    have second : (secondBytes (0xF0 + c.toNat / 262144)).1 ≤ 0x80 + c.toNat / 4096 % 64 ∧
        0x80 + c.toNat / 4096 % 64 ≤ (secondBytes (0xF0 + c.toNat / 262144)).2 := by
      grind [secondBytes]
    refine decodeFrom_char [_, _, _] first index bytes ?_
    rw [lead, List.cons_append, List.length_cons, further_next second.1 second.2,
      List.cons_append, List.length_cons, further_next (by omega) (by omega),
      List.singleton_append, List.length_singleton, further_next (by omega) (by omega), further]
    exact congrArg _ (by omega)

theorem decode_encode (t : Text) : decode (encode t) = .ok t := by
  have each : ∀ index, decodeFrom index (encode t) = .ok t := by
    induction t with
    | nil =>
      intro index
      rw [encode, List.flatMap_nil, decodeFrom]
    | cons c t ih =>
      intro index
      rw [encode_cons, decodeFrom_encodeChar, ih]
      rfl
  exact each 0

theorem encode_takeBytes (boundary : t.isBoundary stop = true) :
    encode (t.takeBytes stop) = (encode t).take stop := by
  obtain ⟨a, b, rfl, rfl⟩ := Text.isBoundary_iff.mp boundary
  rw [Text.takeBytes_left, encode_append, ← length_encode, List.take_left]

theorem encode_slice (first : t.isBoundary start = true) (last : t.isBoundary stop = true)
    (order : start ≤ stop) : encode (t.slice start stop) = ((encode t).take stop).drop start := by
  have parts := congrArg encode (Text.slice_of_isBoundary first order)
  rw [encode_append, encode_takeBytes first, encode_takeBytes last] at parts
  have size : ((encode t).take start).length = start := by
    rw [List.length_take, length_encode]
    exact Nat.min_eq_left (Text.le_size_of_isBoundary first)
  rw [← parts, List.drop_left' size]

end Utf8

end MarkdownEditing
