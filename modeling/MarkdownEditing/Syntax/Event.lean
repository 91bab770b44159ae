import MarkdownEditing.Syntax.Tree

namespace MarkdownEditing

inductive Event
  /-- a node of this kind begins -/
  | start (kind : Kind)
  /-- the next `width` raw tokens form one leaf of this kind -/
  | token (kind : Kind) (width : Nat)
  /-- the innermost open node ends -/
  | finish
  /-- a place held for a node that was given up -/
  | placeholder
  deriving DecidableEq, Repr

namespace Event

def width : Event → Nat
  | token _ width => width
  | _ => 0

end Event

namespace Tree

mutual

def events : Tree → List Event
  | token kind raw => [.token kind raw.length]
  | node kind children => .start kind :: (eventsAll children ++ [.finish])

def eventsAll : List Tree → List Event
  | [] => []
  | t :: ts => t.events ++ eventsAll ts

end

/-- Follow the events inside the open nodes `above` (innermost first, each with the trees finished
before it in its parent), where `done` are the trees finished so far. -/
def follow (tokens : List Token) (above : List (Kind × List Tree)) (done : List Tree) :
    List Event → Option Tree
  | [] =>
    match above, done with
    | [], [node kind children] => some (node kind children)
    | _, _ => none
  | .start kind :: events => follow tokens ((kind, done) :: above) [] events
  | .token kind width :: events =>
    if width ≤ tokens.length then
      follow (tokens.drop width) above (done ++ [token kind (tokens.take width)]) events
    else none
  | .finish :: events =>
    match above with
    | [] => none
    | (kind, outer) :: above => follow tokens above (outer ++ [node kind done]) events
  | .placeholder :: events => follow tokens above done events

/-- The tree that events describe over raw tokens. There is none when the events are not balanced,
take more tokens than there are, or do not end with exactly one node. -/
def ofEvents? (tokens : List Token) (events : List Event) : Option Tree :=
  follow tokens [] [] events

end Tree

end MarkdownEditing
