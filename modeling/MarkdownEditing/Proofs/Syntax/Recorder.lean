import MarkdownEditing.Proofs.Syntax.Lossless
import MarkdownEditing.Proofs.Syntax.Recording

namespace MarkdownEditing

namespace Tree

@[simp] theorem eventsAll_nil : eventsAll [] = [] := by simp [eventsAll]

@[simp] theorem eventsAll_cons (t : Tree) (ts : List Tree) :
    eventsAll (t :: ts) = t.events ++ eventsAll ts := by
  simp [eventsAll]

@[simp] theorem eventsAll_append (a b : List Tree) :
    eventsAll (a ++ b) = eventsAll a ++ eventsAll b := by
  induction a with
  | nil => simp
  | cons t ts ih => simp [ih]

@[simp] theorem events_token (kind : Kind) (tokens : List Token) :
    (token kind tokens).events = [.token kind tokens.length] := by
  simp [events]

@[simp] theorem events_node (kind : Kind) (children : List Tree) :
    (node kind children).events = .start kind :: (eventsAll children ++ [.finish]) := by
  simp [events]

end Tree

namespace Token

/-- The tokens ahead: what is left of a line, the line break if that is what ends it, and all behind.
A line also ends with the tokens, or in front of a token that stands for their end. -/
structure LineAhead (rest ending after : List Token) : Prop where
  plain : ∀ t ∈ rest, t.kind.isLineEnd = false
  ends : (∃ t, ending = [t] ∧ t.kind = .newline) ∨
    (ending = [] ∧ ∀ t ∈ after.head?, t.kind = .eof)

namespace LineAhead

variable {a b rest ending after : List Token}

theorem of_append (line : LineAhead (a ++ b) ending after) : LineAhead b ending after :=
  ⟨fun t member => line.plain t (List.mem_append_right a member), line.ends⟩

theorem drop (line : LineAhead rest ending after) (count : Nat) :
    LineAhead (rest.drop count) ending after :=
  ⟨fun t member => line.plain t (List.mem_of_mem_drop member), line.ends⟩

theorem next_isLineEnd (line : LineAhead [] ending after) :
    (((ending ++ after).head?.map Token.kind).getD .eof).isLineEnd = true := by
  rcases line.ends with ⟨t, rfl, same⟩ | ⟨rfl, last⟩
  · simp [same, Kind.isLineEnd]
  · cases after with
    | nil => rfl
    | cons t after => simp [last t rfl, Kind.isLineEnd]

theorem takeWhile_eq (line : LineAhead rest ending after) :
    (rest ++ (ending ++ after)).takeWhile (!·.kind.isLineEnd) = rest := by
  have inside : ∀ t ∈ rest, (!t.kind.isLineEnd) = true := by
    intro t member
    rw [line.plain t member]
    rfl
  rw [List.takeWhile_append_of_pos inside]
  have next := next_isLineEnd ⟨List.forall_mem_nil _, line.ends⟩
  cases behind : ending ++ after with
  | nil => simp
  | cons t ts =>
    rw [behind] at next
    have ends : t.kind.isLineEnd = true := next
    simp [ends]

end LineAhead

theorem exists_lineAhead (tokens : List Token) :
    ∃ rest ending after, tokens = rest ++ (ending ++ after) ∧ LineAhead rest ending after := by
  induction tokens with
  | nil => exact ⟨[], [], [], rfl, by simp, Or.inr ⟨rfl, by simp⟩⟩
  | cons t ts ih =>
    cases ends : t.kind.isLineEnd with
    | false =>
      obtain ⟨rest, ending, after, rfl, line⟩ := ih
      exact ⟨t :: rest, ending, after, rfl, List.forall_mem_cons.mpr ⟨ends, line.plain⟩, line.ends⟩
    | true =>
      by_cases same : t.kind = .newline
      · exact ⟨[], [t], ts, rfl, by simp, Or.inl ⟨t, rfl, same⟩⟩
      · have last : t.kind = .eof := by
          cases kind : t.kind <;> simp_all [Kind.isLineEnd]
        exact ⟨[], [], t :: ts, rfl, by simp, Or.inr ⟨rfl, by simpa using last⟩⟩

theorem Lined.lineAhead {rest ending after : List Token} (lined : Lined rest ending after)
    (inside : ∀ t ∈ rest, t.kind ≠ .eof) : LineAhead rest ending after := by
  refine ⟨fun t member => ?_, lined.ends.imp_right fun last => ⟨last.1, by simp [last.2]⟩⟩
  have plain := lined.plain t member
  have other := inside t member
  cases kind : t.kind <;> simp_all [Kind.isLineEnd]

end Token

namespace Recorder

variable {r : Recorder} {ts rest ending after : List Token} {kind : Kind}

def record (r : Recorder) (trees : List Tree) : Recorder :=
  { r with
    index := r.index + (Tree.rawAll trees).length
    events := r.events ++ Tree.eventsAll trees }

@[simp] theorem record_nil (r : Recorder) : r.record [] = r := by simp [record]

@[simp] theorem record_record (r : Recorder) (a b : List Tree) :
    (r.record a).record b = r.record (a ++ b) := by
  simp [record, Nat.add_assoc]

@[simp] theorem record_tokens (r : Recorder) (trees : List Tree) :
    (r.record trees).tokens = r.tokens := rfl

@[simp] theorem ahead_start (r : Recorder) : r.start.1.ahead = r.ahead := rfl

@[simp] theorem index_start (r : Recorder) : r.start.1.index = r.index := rfl

theorem ahead_record {trees : List Tree} (reads : r.ahead = Tree.rawAll trees ++ rest) :
    (r.record trees).ahead = rest := by
  rw [ahead] at reads
  rw [ahead, record, ← List.drop_drop, reads, List.drop_left]

theorem getElem?_index (r : Recorder) : r.tokens[r.index]? = r.ahead.head? := by
  rw [ahead, List.head?_drop]

theorem nth_zero (r : Recorder) : r.nth 0 = (r.ahead.head?.map (·.kind)).getD .eof := by
  rw [nth, Nat.add_zero, getElem?_index]

theorem bump_record {t : Token} (reads : r.ahead = t :: rest) :
    r.bump = r.record [Tree.leaf t] := by
  have next : r.tokens[r.index]? = some t := by rw [getElem?_index, reads, List.head?_cons]
  simp [bump, next, record, Tree.leaf]

theorem bumpEach_record (ts : List Token) (reads : r.ahead = ts ++ rest) :
    r.bumpEach ts.length = r.record (ts.map Tree.leaf) := by
  induction ts generalizing r with
  | nil => simp [bumpEach]
  | cons t ts ih =>
    have first : r.bump = r.record [Tree.leaf t] := bump_record reads
    have later : (r.record [Tree.leaf t]).ahead = ts ++ rest :=
      ahead_record (by simpa [Tree.leaf] using reads)
    rw [List.length_cons, bumpEach, first, ih later, record_record]
    rfl

theorem length_le_of_ahead (reads : r.ahead = ts ++ rest) (some_tokens : ts ≠ []) :
    r.index + ts.length ≤ r.tokens.length := by
  have sizes := congrArg List.length reads
  have positive := List.length_pos_iff.mpr some_tokens
  rw [ahead, List.length_drop, List.length_append] at sizes
  omega

theorem bumpGlued_record (kind : Kind) (ts : List Token) (reads : r.ahead = ts ++ rest) :
    r.bumpGlued ts.length kind = r.record (Tree.glue kind ts) := by
  by_cases none_left : ts = []
  · subst none_left
    simp [bumpGlued, Tree.glue]
  · have inside := length_le_of_ahead reads none_left
    have positive := List.length_pos_iff.mpr none_left
    have taken : ¬(ts.length = 0 ∨ r.tokens.length < r.index + ts.length) := by omega
    rw [bumpGlued, if_neg taken, Tree.glue, if_neg none_left]
    split
    · simp [record]
    · exact bumpEach_record ts reads

theorem complete?_record (r : Recorder) (trees : List Tree) (kind : Kind) :
    (r.start.1.record trees).complete? r.start.2 kind = some (r.record [Tree.node kind trees]) := by
  have held : (r.start.1.record trees).events[r.start.2]? = some .placeholder := by
    simp [record, start]
  rw [complete?, if_pos held]
  simp [complete, record, start]

theorem record_advances {trees : List Tree} (reads : r.ahead = ts ++ rest) (some_tokens : ts ≠ [])
    (same : Tree.rawAll trees = ts) :
    (r.record trees).ahead = rest ∧ (r.record trees).index = r.index + ts.length ∧
      (r.record trees).ahead.length < r.ahead.length := by
  have next : (r.record trees).ahead = rest := ahead_record (by rw [same, reads])
  have positive := List.length_pos_iff.mpr some_tokens
  refine ⟨next, by rw [record, same], ?_⟩
  rw [next, reads, List.length_append]
  omega

theorem inline?_continues (trees : List Tree) {first later : List Token} {stop : Nat}
    (reads : r.ahead = first ++ later ++ rest) (bound : stop = r.index + (first ++ later).length)
    (some_tokens : first ≠ []) (same : Tree.rawAll trees = first)
    (goes_on : ∀ next : Recorder, next.ahead = later ++ rest →
      stop = next.index + later.length →
        next.inline? stop = some (next.record (Inline.parse later))) :
    (r.record trees).ahead.length < r.ahead.length ∧
      (r.record trees).inline? stop = some (r.record (trees ++ Inline.parse later)) := by
  rw [List.append_assoc] at reads
  obtain ⟨next, index, less⟩ := record_advances reads some_tokens same
  rw [List.length_append] at bound
  exact ⟨less, by rw [goes_on _ next (by omega), record_record]⟩

theorem window_of_ahead {stop : Nat} (reads : r.ahead = ts ++ rest)
    (bound : stop = r.index + ts.length) : r.ahead.take (stop - r.index) = ts := by
  have limit : stop - r.index = ts.length := by omega
  rw [limit, reads, List.take_left]

theorem rawAll_marked (kind mark : Kind) (opening closing : List Token) {inner : List Tree}
    {content : List Token} (same : Tree.rawAll inner = content) :
    Tree.rawAll [Tree.node kind (Tree.glue mark opening ++ inner ++ Tree.glue mark closing)] =
      opening ++ content ++ closing := by
  simp [same]

theorem codeSpan_record (opening content closing : List Token)
    (reads : r.ahead = opening ++ content ++ closing ++ rest) :
    (((r.start.1.bumpGlued opening.length .codeMark).bumpEach content.length).bumpGlued
        closing.length .codeMark).complete? r.start.2 .codeSpan =
      some (r.record [Tree.node .codeSpan (Tree.glue .codeMark opening ++
        content.map Tree.leaf ++ Tree.glue .codeMark closing)]) := by
  have first : r.start.1.ahead = opening ++ (content ++ (closing ++ rest)) := by simp [reads]
  have second : (r.start.1.record (Tree.glue .codeMark opening)).ahead =
      content ++ (closing ++ rest) := ahead_record (by rw [Tree.rawAll_glue, first])
  have third : (r.start.1.record (Tree.glue .codeMark opening ++ content.map Tree.leaf)).ahead =
      closing ++ rest := ahead_record (by simp [reads])
  rw [bumpGlued_record .codeMark opening first, bumpEach_record content second, record_record,
    bumpGlued_record .codeMark closing third, record_record, complete?_record]

theorem styled_record (kind mark : Kind) (opening content closing : List Token)
    {inner : List Tree} (reads : r.ahead = opening ++ content ++ closing ++ rest)
    (same : Tree.rawAll inner = content) :
    (((r.start.1.record (Tree.glue mark opening)).record inner).bumpGlued closing.length
        mark).complete? r.start.2 kind =
      some (r.record [Tree.node kind (Tree.glue mark opening ++ inner ++
        Tree.glue mark closing)]) := by
  have third : (r.start.1.record (Tree.glue mark opening ++ inner)).ahead =
      closing ++ rest := ahead_record (by simp [reads, same])
  rw [record_record, bumpGlued_record mark closing third, record_record, complete?_record]

theorem inline?_record {stop : Nat} (reads : r.ahead = ts ++ rest)
    (bound : stop = r.index + ts.length) : r.inline? stop = some (r.record (Inline.parse ts)) := by
  have window := window_of_ahead reads bound
  -- `less` below is what the recorder checks before it goes on: it has moved
  induction ts using Inline.parse.induct generalizing r rest stop with
  | case1 => simp [inline?, window, Inline.parse]
  | case2 t ts more shape ih =>
    have fits := Inline.head_fits t ts
    rw [shape] at fits
    have wide : ((t :: ts).take (more + 1)).length = more + 1 := by
      rw [List.length_take]
      exact Nat.min_eq_left fits
    have parts := List.take_append_drop (more + 1) (t :: ts)
    rw [← parts] at reads bound
    have element := bumpEach_record _ (reads.trans (List.append_assoc _ _ _))
    rw [wide] at element
    obtain ⟨less, later⟩ := inline?_continues _ reads bound (by simp) (Tree.rawAll_map_leaf _)
      fun next ahead stop => ih ahead stop (window_of_ahead ahead stop)
    rw [inline?, window]
    simp only [shape, element, dif_pos less, later, Inline.parse]
  | case3 t ts more close shape ih =>
    have fits := Inline.head_fits t ts
    rw [shape] at fits
    have parts := Inline.marked_parts (t :: ts) (more + 1) fits.1
    rw [parts] at reads bound
    have element := codeSpan_record _ _ _ (reads.trans (List.append_assoc _ _ _))
    rw [Inline.length_take_mark fits.2, Inline.length_closing fits.2,
      Inline.length_content fits.2] at element
    obtain ⟨less, later⟩ := inline?_continues _ reads bound (by simp)
      (rawAll_marked .codeSpan .codeMark _ _ (Tree.rawAll_map_leaf _))
      fun next ahead stop => ih ahead stop (window_of_ahead ahead stop)
    rw [inline?, window]
    simp only [shape, element, dif_pos less, later, Inline.parse, List.singleton_append]
  | case4 t ts kind mark more close shape inner outer =>
    have fits := Inline.head_fits t ts
    rw [shape] at fits
    have parts := Inline.marked_parts (t :: ts) (more + 1) fits.1
    have wide := Inline.length_take_mark fits.2
    rw [parts] at reads bound
    have ahead : r.start.1.ahead = (t :: ts).take (more + 1) ++
        (Inline.content (t :: ts) (more + 1) close ++ (Inline.closing (t :: ts) (more + 1) close ++
          ((t :: ts).drop (close + (more + 1)) ++ rest))) := by
      rw [ahead_start, reads]
      simp only [List.append_assoc]
    have opened := bumpGlued_record mark _ ahead
    rw [wide] at opened
    obtain ⟨left, index, begun⟩ := record_advances ahead (by simp) (Tree.rawAll_glue mark _)
    rw [ahead_start] at begun
    have content_stop : r.index + close =
        (r.start.1.record (Tree.glue mark ((t :: ts).take (more + 1)))).index +
          (Inline.content (t :: ts) (more + 1) close).length := by
      rw [index, index_start, wide, Inline.length_content fits.2, Nat.add_assoc,
        Nat.add_sub_cancel' fits.1]
    have content := inner left content_stop (window_of_ahead left content_stop)
    have element := styled_record kind mark _ _ _ (reads.trans (List.append_assoc _ _ _))
      (Inline.rawAll_parse _)
    rw [Inline.length_closing fits.2] at element
    obtain ⟨less, later⟩ := inline?_continues _ reads bound (by simp)
      (rawAll_marked kind mark _ _ (Inline.rawAll_parse _))
      fun next ahead stop => outer ahead stop (window_of_ahead ahead stop)
    rw [inline?, window]
    simp only [shape, opened, dif_pos begun, content, element, dif_pos less, later, Inline.parse,
      List.singleton_append]

theorem takeLead_record (lead : List Tree) (plain : ∀ tree ∈ lead, Continuation.IsLead tree)
    (reads : r.ahead = Tree.rawAll lead ++ rest) :
    r.takeLead (lead.map Tree.kind) = r.record lead := by
  induction lead generalizing r with
  | nil => simp [takeLead]
  | cons tree lead ih =>
    obtain ⟨t, shape⟩ := plain tree List.mem_cons_self
    have raw : tree.raw = [t] := by
      rcases shape with ⟨rfl, _⟩ | ⟨rfl, _⟩ <;> simp [Tree.leaf]
    rw [Tree.rawAll_cons, raw, List.append_assoc] at reads
    have first : (if tree.kind = .quoteMark then r.bumpGlued 1 .quoteMark else r.bump) =
        r.record [tree] := by
      have glued : r.bumpGlued 1 .quoteMark = r.record [Tree.token .quoteMark [t]] :=
        bumpGlued_record .quoteMark [t] reads
      have bumped : r.bump = r.record [Tree.leaf t] := bump_record reads
      rcases shape with ⟨rfl, blank⟩ | ⟨rfl, _⟩
      · rw [if_neg (by simp [Tree.leaf, Tree.kind, blank])]
        exact bumped
      · exact glued
    have later : (r.record [tree]).ahead = Tree.rawAll lead ++ rest :=
      ahead_record (by simp [raw, reads])
    rw [List.map_cons, takeLead, first,
      ih (fun t member => plain t (List.mem_cons_of_mem _ member)) later, record_record]
    rfl

theorem lineAhead_eq (lined : Token.LineAhead rest ending after)
    (reads : r.ahead = rest ++ (ending ++ after)) : r.lineAhead = rest := by
  rw [lineAhead, reads, lined.takeWhile_eq]

theorem inlineLine?_record (lined : Token.LineAhead rest ending after)
    (reads : r.ahead = rest ++ (ending ++ after)) :
    r.inlineLine? = some (r.record (Inline.parse rest)) := by
  rw [inlineLine?, lineAhead_eq lined reads]
  exact inline?_record reads rfl

theorem bumpToLineEnd_record (lined : Token.LineAhead rest ending after)
    (reads : r.ahead = rest ++ (ending ++ after)) :
    r.bumpToLineEnd = r.record (rest.map Tree.leaf) := by
  have line : (r.tokens.drop r.index).takeWhile (!·.kind.isLineEnd) = rest :=
    lineAhead_eq lined reads
  rw [bumpToLineEnd, line]
  exact bumpEach_record rest reads

theorem eat_newline_record (lined : Token.LineAhead rest ending after)
    (reads : r.ahead = ending ++ after) :
    (r.eat .newline).1 = r.record (ending.map Tree.leaf) := by
  rcases lined.ends with ⟨t, rfl, same⟩ | ⟨rfl, last⟩
  · have next : r.nth 0 = .newline := by simp [nth_zero, reads, same]
    rw [eat, if_pos next]
    exact bump_record reads
  · have next : r.nth 0 = .eof := by
      rw [nth_zero, reads, List.nil_append]
      cases after with
      | nil => rfl
      | cons t after => exact last t rfl
    simp [eat, next]

theorem eat_whitespace_record (c : Cursor) (lined : Token.LineAhead c.rest ending after)
    (reads : r.ahead = c.rest ++ (ending ++ after)) :
    (r.eat .whitespace).1 = r.record (c.blank.map Tree.leaf) := by
  cases rest : c.rest with
  | nil =>
    rw [rest] at lined reads
    have next : r.nth 0 ≠ .whitespace := by
      have ends := lined.next_isLineEnd
      rw [nth_zero, reads, List.nil_append]
      intro blank
      rw [blank] at ends
      cases ends
    simp [eat, next, Cursor.blank, rest]
  | cons t ts =>
    rw [rest] at reads
    have kind : r.nth 0 = t.kind := by simp [nth_zero, reads]
    by_cases same : t.kind = .whitespace
    · have blank : c.blank = [t] := by simp [Cursor.blank, rest, same]
      rw [eat, if_pos (kind.trans same), blank]
      exact bump_record reads
    · have blank : c.blank = [] := by simp [Cursor.blank, rest, same]
      rw [eat, if_neg (by rw [kind]; exact same), blank, List.map_nil, record_nil]

theorem endLine_record (lined : Token.LineAhead rest ending after) {trees : List Tree}
    (same : Tree.rawAll trees = rest) (reads : r.ahead = rest ++ (ending ++ after)) :
    ((r.record trees).eat .newline).1 = r.record (trees ++ ending.map Tree.leaf) := by
  have left : (r.record trees).ahead = ending ++ after := ahead_record (by rw [same, reads])
  rw [eat_newline_record lined left, record_record]

theorem restOfLine_record (lined : Token.LineAhead rest ending after)
    (reads : r.ahead = rest ++ (ending ++ after)) :
    (r.bumpToLineEnd.eat .newline).1 =
      r.record (rest.map Tree.leaf ++ ending.map Tree.leaf) := by
  rw [bumpToLineEnd_record lined reads]
  exact endLine_record lined (Tree.rawAll_map_leaf rest) reads

theorem bumpGlued_take {count : Nat} (kind : Kind) (fits : count ≤ ts.length)
    (reads : r.ahead = ts ++ rest) :
    r.bumpGlued count kind = r.record (Tree.glue kind (ts.take count)) ∧
      (r.record (Tree.glue kind (ts.take count))).ahead = ts.drop count ++ rest := by
  have wide : (ts.take count).length = count := by
    rw [List.length_take]
    exact Nat.min_eq_left fits
  have split : r.ahead = ts.take count ++ (ts.drop count ++ rest) := by
    rw [reads, ← List.append_assoc, List.take_append_drop]
  have glued := bumpGlued_record kind _ split
  rw [wide] at glued
  exact ⟨glued, ahead_record (by rw [Tree.rawAll_glue, split])⟩

end Recorder

end MarkdownEditing
