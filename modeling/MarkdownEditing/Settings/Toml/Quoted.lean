import MarkdownEditing.Settings.Toml.Value
import MarkdownEditing.Text.Blank

namespace MarkdownEditing

namespace Toml

def isPlain (c : Char) : Bool := c == '\t' || (0x20 ≤ c.toNat && c.toNat != 0x7F)

def afterBreak? : Text → Option Text
  | '\n' :: t => some t
  | '\r' :: '\n' :: t => some t
  | _ => none

def hexValue? (c : Char) : Option Nat :=
  if '0' ≤ c ∧ c ≤ '9' then some (c.toNat - '0'.toNat)
  else if 'a' ≤ c ∧ c ≤ 'f' then some (c.toNat - 'a'.toNat + 10)
  else if 'A' ≤ c ∧ c ≤ 'F' then some (c.toNat - 'A'.toNat + 10)
  else none

def hexChar? (count : Nat) (t : Text) : Option Char :=
  if (t.take count).length = count then
    match (t.take count).mapM hexValue? with
    | some digits =>
      let n := digits.foldl (fun n d => 16 * n + d) 0
      if n.isValidChar then some (Char.ofNat n) else none
    | none => none
  else none

def escape? : Text → Option (Char × Nat)
  | 'b' :: _ => some ('\x08', 1)
  | 't' :: _ => some ('\t', 1)
  | 'n' :: _ => some ('\n', 1)
  | 'f' :: _ => some ('\x0c', 1)
  | 'r' :: _ => some ('\r', 1)
  | 'e' :: _ => some ('\x1b', 1)
  | '"' :: _ => some ('"', 1)
  | '\\' :: _ => some ('\\', 1)
  | 'x' :: t => (hexChar? 2 t).map fun c => (c, 3)
  | 'u' :: t => (hexChar? 4 t).map fun c => (c, 5)
  | 'U' :: t => (hexChar? 8 t).map fun c => (c, 9)
  | _ => none

def consText (c : Char) (read : Text × Text) : Text × Text := (c :: read.1, read.2)

def basic? : Text → Option (Text × Text)
  | [] => none
  | '"' :: t => some ([], t)
  | '\\' :: t =>
    match escape? t with
    | some (c, length) => (basic? (t.drop length)).map (consText c)
    | none => none
  | c :: t => if isPlain c then (basic? t).map (consText c) else none
termination_by t => t.length
decreasing_by
  all_goals simp only [List.length_drop, List.length_cons]
  all_goals omega

def literal? : Text → Option (Text × Text)
  | [] => none
  | '\'' :: t => some ([], t)
  | c :: t => if isPlain c then (literal? t).map (consText c) else none

/-- Three closing quotes, and before them up to two that belong to the text: these, and the text
after. -/
def closing? (quote : Char) (t : Text) : Option (Text × Text) :=
  let run := min (t.takeWhile (· == quote)).length 5
  if 3 ≤ run then some (List.replicate (run - 3) quote, t.drop run) else none

/-- How much blank a backslash at the end of a line removes, if it stands there. -/
def lineEndBlank? (t : Text) : Option Nat :=
  match afterBreak? (t.dropWhile isIndent) with
  | some _ => some (t.takeWhile fun c => isIndent c || c == '\n' || c == '\r').length
  | none => none

def basicLines? (t : Text) : Option (Text × Text) :=
  match closing? '"' t with
  | some read => some read
  | none =>
    match t with
    | [] => none
    | '\\' :: t =>
      match lineEndBlank? t with
      | some length => basicLines? (t.drop length)
      | none =>
        match escape? t with
        | some (c, length) => (basicLines? (t.drop length)).map (consText c)
        | none => none
    | '\r' :: t => if t.head? = some '\n' then (basicLines? t).map (consText '\r') else none
    | c :: t => if isPlain c ∨ c = '\n' then (basicLines? t).map (consText c) else none
termination_by t.length
decreasing_by
  all_goals simp only [List.length_drop, List.length_cons]
  all_goals omega

def literalLines? (t : Text) : Option (Text × Text) :=
  match closing? '\'' t with
  | some read => some read
  | none =>
    match t with
    | [] => none
    | '\r' :: t => if t.head? = some '\n' then (literalLines? t).map (consText '\r') else none
    | c :: t => if isPlain c ∨ c = '\n' then (literalLines? t).map (consText c) else none

def skipBreak (t : Text) : Text := (afterBreak? t).getD t

def quoted? : Text → Option (Text × Text)
  | '"' :: '"' :: '"' :: t => basicLines? (skipBreak t)
  | '\'' :: '\'' :: '\'' :: t => literalLines? (skipBreak t)
  | '"' :: t => basic? t
  | '\'' :: t => literal? t
  | _ => none

end Toml

end MarkdownEditing
