import MarkdownEditing.Text.Basic

namespace MarkdownEditing

/-- Why bytes are no UTF-8: where the first broken sequence begins and, unless the bytes stop inside
it, how many bytes of it are no beginning of any character. -/
inductive Utf8Fault
  /-- the `length` bytes from `index` on cannot begin a character -/
  | invalid (length index : Nat)
  /-- the bytes end inside the character that begins at `index` -/
  | incomplete (index : Nat)
  deriving DecidableEq, Repr

namespace Utf8Fault

def message : Utf8Fault → String
  | invalid length index => s!"invalid utf-8 sequence of {length} bytes from index {index}"
  | incomplete index => s!"incomplete utf-8 byte sequence from index {index}"

end Utf8Fault

namespace Utf8

def extraBytes? (b : Nat) : Option Nat :=
  if b < 0x80 then some 0
  else if 0xC2 ≤ b ∧ b ≤ 0xDF then some 1
  else if 0xE0 ≤ b ∧ b ≤ 0xEF then some 2
  else if 0xF0 ≤ b ∧ b ≤ 0xF4 then some 3
  else none

def leadBits (b : Nat) : Nat :=
  if b < 0x80 then b else if b < 0xE0 then b - 0xC0 else if b < 0xF0 then b - 0xE0 else b - 0xF0

/-- The second bytes that may follow a first byte: no longer form than needed, no surrogate, nothing
above U+10FFFF. -/
def secondBytes (b : Nat) : Nat × Nat :=
  if b = 0xE0 then (0xA0, 0xBF)
  else if b = 0xED then (0x80, 0x9F)
  else if b = 0xF0 then (0x90, 0xBF)
  else if b = 0xF4 then (0x80, 0x8F)
  else (0x80, 0xBF)

/-- Read `needed` further bytes of the character at `index`, of which `read` bytes with the value
`value` are read. The next byte has to lie between `lo` and `hi`. -/
def further (index read value lo hi : Nat) : Nat → List Nat → Except Utf8Fault Nat
  | 0, _ => .ok value
  | _ + 1, [] => .error (.incomplete index)
  | needed + 1, b :: bytes =>
    if lo ≤ b ∧ b ≤ hi then
      further index (read + 1) (value * 64 + (b - 0x80)) 0x80 0xBF needed bytes
    else .error (.invalid read index)

def decodeFrom (index : Nat) : List Nat → Except Utf8Fault Text
  | [] => .ok []
  | b :: bytes =>
    match extraBytes? b with
    | none => .error (.invalid 1 index)
    | some extra => do
      let value ← further index 1 (leadBits b) (secondBytes b).1 (secondBytes b).2 extra bytes
      let rest ← decodeFrom (index + 1 + extra) (bytes.drop extra)
      return Char.ofNat value :: rest
termination_by bytes => bytes.length
decreasing_by
  simp only [List.length_drop, List.length_cons]
  omega

def decode (bytes : List Nat) : Except Utf8Fault Text := decodeFrom 0 bytes

def encodeChar (c : Char) : List Nat :=
  let n := c.toNat
  if n < 0x80 then [n]
  else if n < 0x800 then [0xC0 + n / 64, 0x80 + n % 64]
  else if n < 0x10000 then [0xE0 + n / 4096, 0x80 + n / 64 % 64, 0x80 + n % 64]
  else [0xF0 + n / 262144, 0x80 + n / 4096 % 64, 0x80 + n / 64 % 64, 0x80 + n % 64]

def encode (t : Text) : List Nat := t.flatMap encodeChar

end Utf8

end MarkdownEditing
