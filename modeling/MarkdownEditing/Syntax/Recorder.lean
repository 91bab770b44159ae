import MarkdownEditing.Syntax.Event

namespace MarkdownEditing

/-- The tokens being read, how many were taken, and the events recorded so far. A node is begun by
holding a place for it and named when it is completed; a place given up is dropped when nothing
follows it, and stays without effect otherwise. -/
structure Recorder where
  tokens : List Token
  index : Nat
  events : List Event
  deriving Repr

namespace Recorder

def ofTokens (tokens : List Token) : Recorder := ⟨tokens, 0, []⟩

def nth (r : Recorder) (n : Nat) : Kind := (r.tokens[r.index + n]?.map (·.kind)).getD .eof

def nthText (r : Recorder) (n : Nat) : Text := (r.tokens[r.index + n]?.map (·.text)).getD []

def atEnd (r : Recorder) : Bool := r.tokens.length ≤ r.index

def atLineEnd (r : Recorder) : Bool := (r.nth 0).isLineEnd

def start (r : Recorder) : Recorder × Nat :=
  ({ r with events := r.events ++ [.placeholder] }, r.events.length)

def complete (r : Recorder) (place : Nat) (kind : Kind) : Recorder :=
  { r with events := r.events.set place (.start kind) ++ [.finish] }

def abandon (r : Recorder) (place : Nat) : Recorder :=
  if place + 1 = r.events.length then { r with events := r.events.dropLast } else r

def bump (r : Recorder) : Recorder :=
  match r.tokens[r.index]? with
  | some t => { r with index := r.index + 1, events := r.events ++ [.token t.kind 1] }
  | none => r

def bumpEach (r : Recorder) : Nat → Recorder
  | 0 => r
  | n + 1 => r.bump.bumpEach n

/-- Take the next `n` tokens as one leaf of kind `kind`. Nothing happens when fewer are left, and
runs too long to be glued are taken as single tokens. -/
def bumpGlued (r : Recorder) (n : Nat) (kind : Kind) : Recorder :=
  if n = 0 ∨ r.tokens.length < r.index + n then r
  else if n ≤ Tree.glueLimit then
    { r with index := r.index + n, events := r.events ++ [.token kind n] }
  else r.bumpEach n

def eat (r : Recorder) (kind : Kind) : Recorder × Bool :=
  if r.nth 0 = kind then (r.bump, true) else (r, false)

/-- Take everything before the end of the line: a line break, a token that stands for the end of the
tokens, or that end itself. -/
def bumpToLineEnd (r : Recorder) : Recorder :=
  r.bumpEach ((r.tokens.drop r.index).takeWhile (!·.kind.isLineEnd)).length

end Recorder

end MarkdownEditing
