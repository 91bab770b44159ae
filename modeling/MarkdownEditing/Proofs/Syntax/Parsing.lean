import MarkdownEditing.Proofs.Syntax.Places
import MarkdownEditing.Proofs.Syntax.Recorded
import MarkdownEditing.Proofs.Syntax.Tokens

namespace MarkdownEditing

namespace Event

/-- How many nodes are open after events that begin inside `depth` nodes, unless a node ends that
did not begin. -/
def depth? : Nat → List Event → Option Nat
  | depth, [] => some depth
  | depth, .start _ :: events => depth? (depth + 1) events
  | 0, .finish :: _ => none
  | depth + 1, .finish :: events => depth? depth events
  | depth, .token .. :: events => depth? depth events
  | depth, .placeholder :: events => depth? depth events

def widths : List Event → Nat
  | [] => 0
  | event :: events => event.width + widths events

@[simp] theorem widths_nil : widths [] = 0 := rfl

@[simp] theorem widths_cons (event : Event) (events : List Event) :
    widths (event :: events) = event.width + widths events := rfl

@[simp] theorem widths_append (a b : List Event) : widths (a ++ b) = widths a + widths b := by
  induction a with
  | nil => simp
  | cons event a ih => simp [ih, Nat.add_assoc]

end Event

namespace Tree

mutual

theorem depth?_events (t : Tree) (depth : Nat) (rest : List Event) :
    Event.depth? depth (t.events ++ rest) = Event.depth? depth rest := by
  cases t with
  | token kind tokens => simp [Event.depth?]
  | node kind children =>
    rw [events_node, List.cons_append, List.append_assoc, Event.depth?,
      depth?_eventsAll children, List.singleton_append, Event.depth?]

theorem depth?_eventsAll (ts : List Tree) (depth : Nat) (rest : List Event) :
    Event.depth? depth (eventsAll ts ++ rest) = Event.depth? depth rest := by
  cases ts with
  | nil => simp
  | cons t ts =>
    rw [eventsAll_cons, List.append_assoc, depth?_events t, depth?_eventsAll ts]

end

mutual

theorem widths_events (t : Tree) : Event.widths t.events = t.raw.length := by
  cases t with
  | token kind tokens => simp [Event.width]
  | node kind children =>
    simp [Event.width, widths_eventsAll children]

theorem widths_eventsAll (ts : List Tree) :
    Event.widths (eventsAll ts) = (rawAll ts).length := by
  cases ts with
  | nil => simp
  | cons t ts =>
    rw [eventsAll_cons, Event.widths_append, widths_events t, widths_eventsAll ts, rawAll_cons,
      List.length_append]

end

mutual

theorem placeholder_not_mem_events (t : Tree) : Event.placeholder ∉ t.events := by
  cases t with
  | token kind tokens => simp
  | node kind children => simp [placeholder_not_mem_eventsAll children]

theorem placeholder_not_mem_eventsAll (ts : List Tree) : Event.placeholder ∉ eventsAll ts := by
  cases ts with
  | nil => simp
  | cons t ts => simp [placeholder_not_mem_events t, placeholder_not_mem_eventsAll ts]

end

mutual

/-- Following the events of a tree builds the tree. -/
theorem follow_events (t : Tree) {tokens rest : List Token} (reads : tokens = t.raw ++ rest)
    (above : List (Kind × List Tree)) (done : List Tree) (later : List Event) :
    follow tokens above done (t.events ++ later) = follow rest above (done ++ [t]) later := by
  cases t with
  | token kind raw =>
    rw [raw_token] at reads
    have fits : raw.length ≤ tokens.length := by simp [reads]
    rw [events_token, List.singleton_append, follow, if_pos fits, reads, List.take_left,
      List.drop_left]
  | node kind children =>
    rw [raw_node] at reads
    rw [events_node, List.cons_append, List.append_assoc, follow,
      follow_eventsAll children reads, List.nil_append, List.singleton_append, follow]

theorem follow_eventsAll (ts : List Tree) {tokens rest : List Token}
    (reads : tokens = rawAll ts ++ rest) (above : List (Kind × List Tree)) (done : List Tree)
    (later : List Event) :
    follow tokens above done (eventsAll ts ++ later) = follow rest above (done ++ ts) later := by
  cases ts with
  | nil => simp_all
  | cons t ts =>
    rw [rawAll_cons, List.append_assoc] at reads
    rw [eventsAll_cons, List.append_assoc, follow_events t reads, follow_eventsAll ts rfl,
      List.append_assoc, List.singleton_append]

end

theorem ofEvents?_events {t : Tree} (node : t.isNode = true) : ofEvents? t.raw t.events = some t := by
  have whole := follow_events t (List.append_nil t.raw).symm [] [] []
  rw [List.append_nil] at whole
  rw [ofEvents?, whole]
  cases t with
  | token kind tokens => simp [isNode] at node
  | node kind children => rfl

end Tree

namespace Place

def Tiles (start stop : Nat) : List Place → Prop
  | [] => start = stop
  | p :: places => p.start = start ∧ Tiles p.stop stop places

theorem neighbours_tile (kind : Kind) (start : Nat) (above : List Level) (left : List Tree)
    (pos : Nat) (ts : List Tree) :
    Tiles pos (pos + Tree.sizeAll ts) (neighbours kind start above left pos ts) := by
  induction ts generalizing left pos with
  | nil => simp [neighbours, Tiles, Tree.sizeAll]
  | cons t ts ih =>
    have later := ih (t :: left) (pos + t.size)
    rw [Nat.add_assoc] at later
    exact ⟨rfl, later⟩

theorem children_tile {p : Place} (node : p.isNode = true) : Tiles p.start p.stop p.children := by
  obtain ⟨tree, start, above⟩ := p
  cases tree with
  | token kind tokens => simp [isNode, Tree.isNode] at node
  | node kind ts =>
    have tile := neighbours_tile kind start above [] start ts
    simpa [children, stop, Tree.size] using tile

mutual

theorem join_leaves (t : Tree) (start : Nat) (above : List Level) :
    ((t.places start above).filter (!·.isNode)).flatMap (fun p => p.tree.text) = t.text := by
  cases t with
  | token kind tokens => simp [Tree.places, isNode, Tree.isNode]
  | node kind children =>
    have inner := join_leavesIn children kind start above [] start
    simpa [Tree.places, isNode, Tree.isNode, Tree.text] using inner

theorem join_leavesIn (ts : List Tree) (kind : Kind) (start : Nat) (above : List Level)
    (left : List Tree) (pos : Nat) :
    ((Tree.placesIn kind start above left pos ts).filter (!·.isNode)).flatMap
      (fun p => p.tree.text) = Token.join (Tree.rawAll ts) := by
  cases ts with
  | nil => simp [Tree.placesIn]
  | cons t ts =>
    have first := join_leaves t pos (⟨kind, start, left, ts⟩ :: above)
    have later := join_leavesIn ts kind start above (t :: left) (pos + t.size)
    rw [Tree.placesIn, List.filter_append, List.flatMap_append, first, later, Tree.rawAll_cons,
      Token.join_append, Tree.text]

end

end Place

structure Lossless (t : Text) (r : Recorder) (tree : Tree) : Prop where
  consumed : r.index = (Token.scan t).length
  taken_once : Event.widths r.events = (Token.scan t).length
  balanced : Event.depth? 0 r.events = some 0
  completed : Event.placeholder ∉ r.events
  built : Tree.ofEvents? (Token.scan t) r.events = some tree
  in_order : tree.raw = Token.scan t
  leaves : (Place.root tree).leaves.flatMap (fun p => p.tree.text) = t
  kind : tree.kind = .root
  span : (Place.root tree).start = 0 ∧ (Place.root tree).stop = t.size
  tiles : ∀ p ∈ (Place.root tree).nodes, Place.Tiles p.start p.stop p.children
  slices : ∀ p ∈ (Place.root tree).descendants, t.slice p.start p.stop = p.tree.text

/-- Parsing ends without a failed check for every text, and loses nothing of it. -/
theorem parse_lossless (t : Text) :
    ∃ r, Recording.document? (Token.scan t) = some r ∧ Lossless t r (Tree.ofText t) := by
  have raw := Tree.raw_ofText t
  have text := Tree.text_ofText t
  refine ⟨_, Recording.document?_eq fun _ member => (Token.raw_of_mem_scan member).ne_eof, ?_⟩
  refine {
    consumed := rfl
    taken_once := ?_
    balanced := ?_
    completed := Tree.placeholder_not_mem_events _
    built := ?_
    in_order := raw
    leaves := ?_
    kind := rfl
    span := ⟨rfl, ?_⟩
    tiles := ?_
    slices := ?_ }
  · exact (Tree.widths_events (Tree.ofText t)).trans (congrArg List.length raw)
  · have same := Tree.depth?_events (Tree.ofText t) 0 []
    rw [List.append_nil] at same
    exact same
  · have built := Tree.ofEvents?_events (t := Tree.ofText t) rfl
    rw [raw] at built
    exact built
  · exact (Place.join_leaves (Tree.ofText t) 0 []).trans text
  · rw [Place.stop_eq]
    show 0 + (Tree.ofText t).text.size = t.size
    rw [text, Nat.zero_add]
  · intro p member
    exact Place.children_tile (List.mem_filter.mp member).2
  · intro p member
    have slice := ((Place.root_in (Tree.ofText t)).descendant member).slice_eq
    rw [text] at slice
    exact slice

end MarkdownEditing
