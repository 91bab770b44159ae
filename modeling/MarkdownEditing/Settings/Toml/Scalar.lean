import MarkdownEditing.Settings.Toml.Value

namespace MarkdownEditing

namespace Toml

def isWordChar (c : Char) : Bool :=
  c.isAlphanum || c == '_' || c == '-' || c == '+' || c == '.' || c == ':'

def ungroup? (ok : Char → Bool) : Text → Option Text
  | [] => none
  | [c] => if ok c then some [c] else none
  | c :: '_' :: t => if ok c then (ungroup? ok t).map (c :: ·) else none
  | c :: t => if ok c then (ungroup? ok t).map (c :: ·) else none

def digitValue (c : Char) : Nat :=
  if c.isDigit then c.toNat - '0'.toNat
  else if c.isLower then c.toNat - 'a'.toNat + 10
  else c.toNat - 'A'.toNat + 10

def isDigitOf (base : Nat) (c : Char) : Bool :=
  (c.isDigit || ('a' ≤ c && c ≤ 'f') || ('A' ≤ c && c ≤ 'F')) && digitValue c < base

def ofDigits (base : Nat) (digits : Text) : Nat :=
  digits.foldl (fun n c => base * n + digitValue c) 0

def decimal? (t : Text) : Option Nat := do
  let digits ← ungroup? Char.isDigit t
  if digits.head? = some '0' ∧ digits.length ≠ 1 then none else some (ofDigits 10 digits)

def integer? : Text → Option Int
  | '0' :: 'x' :: t => (ungroup? (isDigitOf 16) t).map fun digits => (ofDigits 16 digits : Int)
  | '0' :: 'o' :: t => (ungroup? (isDigitOf 8) t).map fun digits => (ofDigits 8 digits : Int)
  | '0' :: 'b' :: t => (ungroup? (isDigitOf 2) t).map fun digits => (ofDigits 2 digits : Int)
  | '+' :: t => (decimal? t).map fun n => (n : Int)
  | '-' :: t => (decimal? t).map fun n => -(n : Int)
  | t => (decimal? t).map fun n => (n : Int)

/-- The integers that can be represented: a sign and 127 bits, or 128 bits. -/
def inRange (n : Int) : Bool := -(Nat.pow 2 127 : Int) ≤ n && n < (Nat.pow 2 128 : Int)

def unsigned : Text → Text
  | '+' :: t => t
  | '-' :: t => t
  | t => t

def isExponent : Text → Bool
  | [] => true
  | c :: t => (c == 'e' || c == 'E') && (ungroup? Char.isDigit (unsigned t)).isSome

def isFloat (t : Text) : Bool :=
  let t := unsigned t
  let isDigitOrLine := fun c : Char => c.isDigit || c == '_'
  let whole := t.takeWhile isDigitOrLine
  t == ['i', 'n', 'f'] || t == ['n', 'a', 'n'] ||
    ((decimal? whole).isSome &&
      match t.dropWhile isDigitOrLine with
      | [] => false
      | '.' :: t =>
        (ungroup? Char.isDigit (t.takeWhile isDigitOrLine)).isSome &&
          isExponent (t.dropWhile isDigitOrLine)
      | t => isExponent t)

def digits? (count : Nat) (t : Text) : Option (Nat × Text) :=
  let digits := t.take count
  if digits.length = count ∧ digits.all Char.isDigit then some (ofDigits 10 digits, t.drop count)
  else none

def daysOf (year month : Nat) : Nat :=
  if month = 2 then if year % 4 = 0 ∧ (year % 100 ≠ 0 ∨ year % 400 = 0) then 29 else 28
  else if month = 4 ∨ month = 6 ∨ month = 9 ∨ month = 11 then 30
  else 31

def after? (c : Char) : Text → Option Text
  | d :: t => if c = d then some t else none
  | [] => none

def afterDate? (t : Text) : Option Text := do
  let (year, t) ← digits? 4 t
  let (month, t) ← digits? 2 (← after? '-' t)
  let (day, t) ← digits? 2 (← after? '-' t)
  if 1 ≤ month ∧ month ≤ 12 ∧ 1 ≤ day ∧ day ≤ daysOf year month then some t else none

def afterFraction? : Text → Option Text
  | '.' :: t => if (t.takeWhile Char.isDigit).isEmpty then none else some (t.dropWhile Char.isDigit)
  | t => some t

def afterMinutes? (t : Text) : Option Text := do
  let (hour, t) ← digits? 2 t
  let (minute, t) ← digits? 2 (← after? ':' t)
  if hour ≤ 23 ∧ minute ≤ 59 then some t else none

def afterTime? (t : Text) : Option Text := do
  let t ← afterMinutes? t
  match t with
  | ':' :: t =>
    let (second, t) ← digits? 2 t
    if second ≤ 60 then afterFraction? t else none
  | t => some t

def isOffset : Text → Bool
  | [c] => c == 'Z' || c == 'z'
  | c :: t => (c == '+' || c == '-') && afterMinutes? t == some []
  | [] => false

def isDatetime (t : Text) : Bool :=
  match afterDate? t with
  | none => afterTime? t == some []
  | some [] => true
  | some (c :: t) =>
    (c == 'T' || c == 't' || c == ' ') &&
      match afterTime? t with
      | none => false
      | some rest => rest.isEmpty || isOffset rest

def ofWord? (t : Text) : Option Value :=
  if t = ['t', 'r', 'u', 'e'] then some (.boolean true)
  else if t = ['f', 'a', 'l', 's', 'e'] then some (.boolean false)
  else
    match integer? t with
    | some n => if inRange n then some (.integer n) else none
    | none => if isFloat t then some .float else if isDatetime t then some .datetime else none

/-- The word at the head of a text and the text after it. One space may stand between a date and a
time. -/
def splitWord (t : Text) : Text × Text :=
  let word := t.takeWhile isWordChar
  let rest := t.dropWhile isWordChar
  if afterDate? word = some [] then
    match rest with
    | ' ' :: tail =>
      match tail with
      | c :: _ =>
        if c.isDigit then (word ++ ' ' :: tail.takeWhile isWordChar, tail.dropWhile isWordChar)
        else (word, rest)
      | [] => (word, rest)
    | _ => (word, rest)
  else (word, rest)

end Toml

end MarkdownEditing
