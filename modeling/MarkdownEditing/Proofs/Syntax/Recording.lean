import MarkdownEditing.Syntax.Block.Stack
import MarkdownEditing.Syntax.Recorder

namespace MarkdownEditing

namespace Recorder

def ahead (r : Recorder) : List Token := r.tokens.drop r.index

def lineAhead (r : Recorder) : List Token := r.ahead.takeWhile (!·.kind.isLineEnd)

def complete? (r : Recorder) (place : Nat) (kind : Kind) : Option Recorder :=
  if r.events[place]? = some .placeholder then some (r.complete place kind) else none

def takeLead (r : Recorder) : List Kind → Recorder
  | [] => r
  | kind :: kinds =>
    (if kind = .quoteMark then r.bumpGlued 1 .quoteMark else r.bump).takeLead kinds

def inline? (stop : Nat) (r : Recorder) : Option Recorder :=
  match r.ahead.take (stop - r.index) with
  | [] => some r
  | t :: ts =>
    let element :=
      match Inline.head t ts with
      | .plain more => some (r.bumpEach (more + 1))
      | .code more close =>
        let marked := r.start.1.bumpGlued (more + 1) .codeMark
        ((marked.bumpEach (close - (more + 1))).bumpGlued (more + 1) .codeMark).complete?
          r.start.2 .codeSpan
      | .wrapped kind mark more close =>
        let marked := r.start.1.bumpGlued (more + 1) mark
        if _progress : marked.ahead.length < r.ahead.length then
          match marked.inline? (r.index + close) with
          | some inner => (inner.bumpGlued (more + 1) mark).complete? r.start.2 kind
          | none => none
        else none
    match element with
    | some next => if _progress : next.ahead.length < r.ahead.length then next.inline? stop else none
    | none => none
termination_by r.ahead.length

def inlineLine? (r : Recorder) : Option Recorder := r.inline? (r.index + r.lineAhead.length)

end Recorder

/-- A recorder with the open containers, innermost first, and the open leaf, each with the place
held for it. -/
structure Recording where
  recorder : Recorder
  layers : List (Container × Nat)
  leaf : Option (OpenLeaf × Nat)
  deriving Repr

namespace Recording

def containers (s : Recording) : List Container := (s.layers.map Prod.fst).reverse

def read (s : Recording) (step : Recorder → Recorder) : Recording :=
  { s with recorder := step s.recorder }

def hold? (s : Recording) (leaf : OpenLeaf) (place : Nat) : Option Recording :=
  if s.leaf.isNone then some { s with leaf := some (leaf, place) } else none

def closeLeaf? (s : Recording) : Option Recording :=
  match s.leaf with
  | some (leaf, place) =>
    (s.recorder.complete? place leaf.kind).map fun r => ⟨r, s.layers, none⟩
  | none => some s

def push (s : Recording) (c : Container) : Recording :=
  ⟨s.recorder.start.1, (c, s.recorder.start.2) :: s.layers, s.leaf⟩

def pop? (s : Recording) : Option Recording := do
  let s ← s.closeLeaf?
  match s.layers with
  | [] => some s
  | (c, place) :: layers => (s.recorder.complete? place c.kind).map fun r => ⟨r, layers, s.leaf⟩

def popMany? (s : Recording) : Nat → Option Recording
  | 0 => some s
  | n + 1 => do (← s.pop?).popMany? n

def inList (s : Recording) (style : ListStyle) : Bool :=
  match s.layers with
  | (.list style', _) :: _ => style' == style
  | _ => false

def closeAfter? (s : Recording) (count : Nat) (start : BlockStart) : Option Recording :=
  let keep :=
    match s.containers[count]?, start with
    | some (.list style), .item next _ => if style = next then count + 1 else count
    | _, _ => count
  s.popMany? (s.layers.length - keep)

def paragraphLine? (s : Recording) : Option Recording :=
  s.recorder.inlineLine?.map fun r => { s with recorder := (r.eat .newline).1 }

def openLeaf? (s : Recording) (start : BlockStart) : Option Recording :=
  let place := s.recorder.start.2
  let begun := s.read fun r => r.start.1
  match start with
  | .blank => some (s.read fun r => (r.eat .newline).1)
  | .heading level => do
    let s ← (begun.read (·.bumpGlued level .headerMark)).paragraphLine?
    (s.recorder.complete? place .heading).map fun r => { s with recorder := r }
  | .thematicBreak =>
    ((begun.recorder.bumpToLineEnd.eat .newline).1.complete? place .thematicBreak).map fun r =>
      { s with recorder := r }
  | .fence mark length =>
    (begun.read fun r => ((r.bumpGlued length .codeMark).bumpToLineEnd.eat .newline).1).hold?
      (.fence mark length) place
  | .quote | .item .. | .text => do (← begun.paragraphLine?).hold? .paragraph place

def openBlocks? (s : Recording) (column base : Nat) : Option Recording :=
  let c : Cursor := ⟨s.recorder.lineAhead, column, base⟩
  let led := s.read (·.bumpEach c.blank.length)
  match BlockStart.ofCursor c.skipBlank with
  | .quote =>
    let next := Cursor.afterQuoteMark c.skipBlank.column (c.skipBlank.rest.drop 1)
    let marked :=
      (led.push .quote).read fun r => ((r.bumpGlued 1 .quoteMark).eat .whitespace).1
    if _progress : marked.recorder.ahead.length < s.recorder.ahead.length then
      marked.openBlocks? next.skipBlank.column next.base
    else none
  | .item style _ =>
    let marker := c.skipBlank.rest.take style.markerWidth
    let column := Text.advance Cursor.tabStop c.skipBlank.column (Token.join marker)
    let rest := c.skipBlank.rest.drop style.markerWidth
    let next : Cursor := ⟨rest, column, Stack.contentColumn column rest⟩
    let listed := if led.inList style then led else led.push (.list style)
    let marked := (listed.push (.item next.base)).read fun r =>
      ((r.bumpGlued style.markerWidth .listMark).eat .whitespace).1
    if _progress : marked.recorder.ahead.length < s.recorder.ahead.length then
      marked.openBlocks? next.skipBlank.column next.base
    else none
  | start => led.openLeaf? start
termination_by s.recorder.ahead.length

def fenceLine? (s : Recording) (mark : Kind) (length column base : Nat) : Option Recording :=
  let c : Cursor := ⟨s.recorder.lineAhead, column, base⟩
  if Stack.closesFence mark length c.skipBlank then
    let run := Inline.runLength mark c.skipBlank.rest
    (s.read fun r => (((r.bumpEach c.blank.length).bumpGlued run .codeMark).bumpToLineEnd.eat
      .newline).1).closeLeaf?
  else some (s.read fun r => (r.bumpToLineEnd.eat .newline).1)

def line? (s : Recording) : Option Recording :=
  let c := Continuation.ofLine s.containers ⟨s.recorder.lineAhead, 0, 0⟩
  let start := BlockStart.ofCursor c.cursor.skipBlank
  let all := c.count == s.layers.length
  let lead := fun s : Recording => s.read (·.takeLead (c.lead.map Tree.kind))
  let reopen := fun s : Recording => do
    let s ← s.closeLeaf?
    let s ← s.closeAfter? c.count start
    (lead s).openBlocks? c.cursor.column c.cursor.base
  match s.leaf with
  | some (.fence mark length, _) =>
    if all then (lead s).fenceLine? mark length c.cursor.column c.cursor.base else reopen s
  | some (.paragraph, _) =>
    if Stack.continuesParagraph start all then (lead s).paragraphLine? else reopen s
  | none => reopen s

def lines? (s : Recording) : Option Recording :=
  if s.recorder.atEnd then some s
  else
    match s.line? with
    | some next =>
      if _progress : next.recorder.ahead.length < s.recorder.ahead.length then next.lines?
      else none
    | none => none
termination_by s.recorder.ahead.length

def document? (tokens : List Token) : Option Recorder := do
  let begun := (Recorder.ofTokens tokens).start
  let s ← lines? ⟨begun.1, [], none⟩
  let s ← s.closeLeaf?
  let s ← s.popMany? s.layers.length
  if s.layers.isEmpty && s.leaf.isNone then s.recorder.complete? begun.2 .root else none

end Recording

end MarkdownEditing
