import MarkdownEditing.Syntax.Tree

namespace MarkdownEditing

namespace Inline

def runLength (kind : Kind) (tokens : List Token) : Nat :=
  (tokens.takeWhile (·.kind == kind)).length

structure Run where
  start : Nat
  length : Nat
  deriving Repr

/-- The first maximal run of `kind` that `accepts`, which is given the kind of the token before the
run and the length of the run. The kind of the token before the list is `before`. -/
def findRun (kind : Kind) (accepts : Kind → Nat → Bool) (before : Kind) : List Token → Option Run
  | [] => none
  | t :: ts =>
    if t.kind = kind ∧ before ≠ kind ∧ accepts before (runLength kind (t :: ts)) then
      some ⟨0, runLength kind (t :: ts)⟩
    else (findRun kind accepts t.kind ts).map fun run => { run with start := run.start + 1 }

def closingRun? (kind : Kind) (width : Nat) (accepts : Kind → Nat → Bool) (tokens : List Token) :
    Option Run :=
  (findRun kind accepts kind (tokens.drop width)).map fun run =>
    { run with start := run.start + width }

/-- Where strong emphasis opened by `width` delimiters closes: at the last two of a run of two or
more. -/
def strongClose? (kind : Kind) (width : Nat) (tokens : List Token) : Option Nat :=
  (closingRun? kind width (fun before n => before != .whitespace && 2 ≤ n) tokens).map
    fun run => run.start + run.length - 2

/-- Where emphasis opened by `width` delimiters closes: at a single one, or the first of three or
more. -/
def emphasisClose? (kind : Kind) (width : Nat) (tokens : List Token) : Option Nat :=
  (closingRun? kind width (fun before n => before != .whitespace && (n == 1 || 3 ≤ n)) tokens).map
    fun run => run.start

def opens (width : Nat) (tokens : List Token) : Bool :=
  match tokens[width]? with
  | some t => t.kind != .whitespace && t.kind != .newline
  | none => false

inductive Head
  /-- the first token and `more` after it are plain -/
  | plain (more : Nat)
  /-- a code span with marks of `more + 1` tokens, the second one after `close` tokens -/
  | code (more close : Nat)
  /-- a node of `kind` with marks of `more + 1` tokens, the second one after `close` tokens -/
  | wrapped (kind mark : Kind) (more close : Nat)
  deriving Repr

def codeHead (tokens : List Token) : Head :=
  let width := runLength .backtick tokens
  match closingRun? .backtick width (fun _ n => n == width) tokens with
  | some run => .code (width - 1) run.start
  | none => .plain (width - 1)

/-- How a run of stars or underscores begins. Two or more try strong emphasis first. A run that
closes nowhere gives up its first token only. -/
def emphasisHead (kind : Kind) (tokens : List Token) : Head :=
  let width := runLength kind tokens
  if opens width tokens then
    match if 2 ≤ width then strongClose? kind width tokens else none with
    | some close => .wrapped .strong .emphasisMark 1 close
    | none =>
      match emphasisClose? kind width tokens with
      | some close => .wrapped .emphasis .emphasisMark 0 close
      | none => .plain 0
  else .plain 0

/-- How a run of tildes begins. Only runs of exactly two open or close strikethrough. -/
def strikethroughHead (tokens : List Token) : Head :=
  let width := runLength .tilde tokens
  if width = 2 ∧ opens width tokens then
    match closingRun? .tilde width (fun before n => n == 2 && before != .whitespace) tokens with
    | some run => .wrapped .strikethrough .strikethroughMark 1 run.start
    | none => .plain (width - 1)
  else .plain (width - 1)

def head (t : Token) (ts : List Token) : Head :=
  match t.kind with
  | .backtick => codeHead (t :: ts)
  | .star => emphasisHead .star (t :: ts)
  | .underscore => emphasisHead .underscore (t :: ts)
  | .tilde => strikethroughHead (t :: ts)
  | _ => .plain 0

def closing (ts : List Token) (width close : Nat) : List Token := (ts.drop close).take width

def content (ts : List Token) (width close : Nat) : List Token := (ts.take close).drop width

/-- The inline elements of the tokens of a line. An element begins with a run of delimiters and ends
with a later run on the line; a run without a closing one is plain text. -/
def parse : List Token → List Tree
  | [] => []
  | t :: ts =>
    match head t ts with
    | .plain more => ((t :: ts).take (more + 1)).map Tree.leaf ++ parse ((t :: ts).drop (more + 1))
    | .code more close =>
      Tree.node .codeSpan
          (Tree.glue .codeMark ((t :: ts).take (more + 1)) ++
            (content (t :: ts) (more + 1) close).map Tree.leaf ++
            Tree.glue .codeMark (closing (t :: ts) (more + 1) close)) ::
        parse ((t :: ts).drop (close + (more + 1)))
    | .wrapped kind mark more close =>
      Tree.node kind
          (Tree.glue mark ((t :: ts).take (more + 1)) ++
            parse (content (t :: ts) (more + 1) close) ++
            Tree.glue mark (closing (t :: ts) (more + 1) close)) ::
        parse ((t :: ts).drop (close + (more + 1)))
termination_by ts => ts.length
decreasing_by
  all_goals simp only [content, List.length_drop, List.length_take, List.length_cons]
  all_goals omega

end Inline

end MarkdownEditing
