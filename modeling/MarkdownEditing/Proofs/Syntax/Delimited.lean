import MarkdownEditing.Proofs.Syntax.Delimiters

namespace MarkdownEditing

namespace Token

def Scanned (token : Token) : Prop := ∃ before after, token.Exact before after

theorem scanned_of_mem_scan {t : Text} {token : Token} (member : token ∈ scan t) :
    token.Scanned := by
  obtain ⟨front, back, parts⟩ := List.append_of_mem member
  exact ⟨_, _, canonical_scan t front token back parts⟩

variable {token : Token} {c : Char} {kind : Kind}

theorem Scanned.ne_nil (scanned : token.Scanned) : token.text ≠ [] := by
  obtain ⟨_, _, exact⟩ := scanned
  exact exact.ne_nil

theorem Scanned.raw (scanned : token.Scanned) : token.Raw := by
  obtain ⟨_, _, exact⟩ := scanned
  cases exact with
  | blank t run => exact .blank t run.inside
  | feed => exact .lineBreak [] (Or.inl rfl)
  | returnFeed => exact .lineBreak ['\r'] (Or.inr rfl)
  | mark d kind glyph => exact .mark d kind glyph
  | word t run => exact .word t fun feed => nomatch run.inside '\n' feed
  | white d is_white no_indent no_feed =>
    exact .word [d] fun feed => no_feed (List.mem_singleton.mp feed).symm

theorem Scanned.not_mem (scanned : token.Scanned) (glyph : markKind? c = some kind)
    (other : token.kind ≠ kind) : c ∉ token.text := by
  have not_white := isWhite_of_glyph glyph
  have of_white : ∀ d, isWhite d = true → c ≠ d := fun d => ne_of_isWhite not_white
  obtain ⟨_, _, exact⟩ := scanned
  intro member
  cases exact with
  | blank t run => exact of_white c (isWhite_of_isIndent c (run.inside c member)) rfl
  | feed => exact of_white '\n' rfl (List.mem_singleton.mp member)
  | returnFeed =>
    rcases List.mem_cons.mp member with same | member
    · exact of_white '\r' rfl same
    · exact of_white '\n' rfl (List.mem_singleton.mp member)
  | mark d kind' glyph' =>
    rw [← List.mem_singleton.mp member, glyph] at glyph'
    exact other (Option.some.inj glyph').symm
  | word t run =>
    have word := run.inside c member
    rw [isWordChar_of_glyph glyph] at word
    cases word
  | white d is_white => exact of_white d is_white (List.mem_singleton.mp member)

section Runs

open Inline (TokenRun)

variable {tokens front run rest : List Token} {before chars after : Text}

theorem join_of_kind (glyph : markKind? c = some kind) (scanned : ∀ t ∈ tokens, t.Scanned)
    (same : ∀ t ∈ tokens, t.kind = kind) : join tokens = List.replicate tokens.length c := by
  induction tokens with
  | nil => rfl
  | cons t ts ih =>
    rw [List.forall_mem_cons] at scanned same
    have text : t.text = [c] := scanned.1.raw.text_of_glyph (by rw [same.1]; exact glyph)
    rw [join_cons, text, ih scanned.2 same.2]
    rfl

theorem head?_join (glyph : markKind? c = some kind) (scanned : ∀ t ∈ tokens, t.Scanned)
    (other : ∀ t ∈ tokens.head?, t.kind ≠ kind) : ∀ d ∈ (join tokens).head?, (d == c) = false := by
  cases tokens with
  | nil => exact fun d none_left => nomatch none_left
  | cons t ts =>
    have first := (List.forall_mem_cons.mp scanned).1
    rw [join_cons, List.head?_append_of_ne_nil _ first.ne_nil]
    rintro d head
    refine beq_eq_false_iff_ne.mpr ?_
    rintro rfl
    exact first.not_mem glyph (other t rfl) (List.mem_of_head? head)

theorem getLast?_join (glyph : markKind? c = some kind) (scanned : ∀ t ∈ tokens, t.Scanned)
    (other : ∀ t ∈ tokens.getLast?, t.kind ≠ kind) :
    ∀ d ∈ (join tokens).getLast?, (d == c) = false := by
  rcases List.eq_nil_or_concat tokens with rfl | ⟨ts, t, rfl⟩
  · exact fun d none_left => nomatch none_left
  · have last := scanned t (by simp)
    rw [List.concat_eq_append, join_append, join_cons, join_nil, List.append_nil,
      List.getLast?_append_of_ne_nil _ last.ne_nil]
    rintro d ends
    refine beq_eq_false_iff_ne.mpr ?_
    rintro rfl
    exact last.not_mem glyph (other t (by simp)) (List.mem_of_getLast? ends)

theorem maximalRun_join (glyph : markKind? c = some kind)
    (scanned : ∀ t ∈ front ++ (run ++ rest), t.Scanned) (maximal : TokenRun kind front run rest) :
    MaximalRun (· == c) (join front) (join run) (join rest) := by
  rw [List.forall_mem_append, List.forall_mem_append] at scanned
  obtain ⟨first, own, later⟩ := scanned
  have copies := join_of_kind glyph own maximal.kind_eq
  constructor
  case some_run =>
    rw [copies]
    simp [maximal.some_run]
  case inside =>
    rw [copies]
    exact fun d member => beq_iff_eq.mpr (List.eq_of_mem_replicate member)
  case left =>
    exact getLast?_join glyph first fun t last => beq_eq_false_iff_ne.mp (maximal.left t last)
  case right =>
    exact head?_join glyph later fun t head => beq_eq_false_iff_ne.mp (maximal.right t head)

theorem length_takeWhile_join (glyph : markKind? c = some kind)
    (scanned : ∀ t ∈ tokens, t.Scanned) :
    ((join tokens).takeWhile (· == c)).length = Inline.runLength kind tokens := by
  obtain ⟨own, later, parts, length, same, stops⟩ := Inline.split_run kind tokens
  rw [length]
  subst parts
  rw [List.forall_mem_append] at scanned
  have copies : ∀ d ∈ List.replicate own.length c, (d == c) = true := fun d member =>
    beq_iff_eq.mpr (List.eq_of_mem_replicate member)
  rw [join_append, join_of_kind glyph scanned.1 same,
    takeWhile_run copies (head?_join glyph scanned.2 stops), List.length_replicate]

theorem exists_token_of_glyph (glyph : markKind? c = some kind) (scanned : ∀ t ∈ tokens, t.Scanned)
    (text : join tokens = before ++ c :: after) :
    ∃ front t rest, tokens = front ++ t :: rest ∧ join front = before ∧ t.kind = kind := by
  induction tokens generalizing before with
  | nil => simp at text
  | cons t ts ih =>
    rw [List.forall_mem_cons] at scanned
    obtain ⟨here, later⟩ := scanned
    have further : ∀ behind, join ts = behind ++ c :: after → before = t.text ++ behind →
        ∃ front u rest, t :: ts = front ++ u :: rest ∧ join front = before ∧ u.kind = kind := by
      rintro behind deeper rfl
      obtain ⟨front, u, rest, rfl, rfl, same⟩ := ih later deeper
      exact ⟨t :: front, u, rest, rfl, rfl, same⟩
    rw [join_cons] at text
    rcases List.append_eq_append_iff.mp text with ⟨behind, parts, text⟩ | ⟨own, parts, text⟩
    · exact further behind text parts
    · cases own with
      | nil => exact further [] text.symm (by rw [parts]; simp)
      | cons d own =>
        obtain ⟨rfl, _⟩ := List.cons.inj text
        have same : t.kind = kind := by
          by_contra other
          exact here.not_mem glyph other (by rw [parts]; simp)
        have single := here.raw.text_of_glyph (by rw [same]; exact glyph)
        have none_before : before = [] := by
          have length := congrArg List.length (parts.symm.trans single)
          rw [List.length_append, List.length_cons, List.length_singleton] at length
          exact List.length_eq_zero_iff.mp (by omega)
        exact ⟨[], t, ts, rfl, none_before.symm, same⟩

theorem exists_tokenRun (glyph : markKind? c = some kind) (scanned : ∀ t ∈ tokens, t.Scanned)
    (text : join tokens = before ++ (chars ++ after))
    (maximal : MaximalRun (· == c) before chars after) :
    ∃ front run rest, tokens = front ++ (run ++ rest) ∧ TokenRun kind front run rest ∧
      run.length = chars.length := by
  obtain ⟨d, more, shape⟩ := List.exists_cons_of_ne_nil maximal.some_run
  have same : d = c := beq_iff_eq.mp (maximal.inside d (by rw [shape]; exact List.mem_cons_self))
  have here : join tokens = before ++ c :: (more ++ after) := by
    rw [text, shape, same]
    rfl
  obtain ⟨front, t, ts, rfl, rfl, is_kind⟩ := exists_token_of_glyph glyph scanned here
  rw [List.forall_mem_append] at scanned
  rw [join_append] at text
  obtain ⟨run, rest, parts, opening, length⟩ := Inline.exists_opening ts is_kind
  rw [← length_takeWhile_join glyph scanned.2, List.append_cancel_left text,
    takeWhile_run maximal.inside maximal.right] at length
  refine ⟨front, run, rest, by rw [parts],
    ⟨opening.some_run, opening.inside, ?_, opening.right⟩, length⟩
  -- a token of the kind before the run would be a copy of the character before it
  intro u last
  refine beq_eq_false_iff_ne.mpr fun also => ?_
  obtain ⟨others, rfl⟩ := List.getLast?_eq_some_iff.mp last
  have single := (scanned.1 u (by simp)).raw.text_of_glyph (by rw [also]; exact glyph)
  have ends := maximal.left c (by rw [join_append, join_cons, single]; simp)
  exact beq_eq_false_iff_ne.mp ends rfl

end Runs

end Token

structure Text.Backticked (n : Nat) (body t : Text) : Prop where
  parts : t = List.replicate n '\x60' ++ body ++ List.replicate n '\x60'
  opening : MaximalRun (· == '\x60') [] (List.replicate n '\x60') (body ++ List.replicate n '\x60')
  closing : MaximalRun (· == '\x60') (List.replicate n '\x60' ++ body) (List.replicate n '\x60') []
  some_body : body ≠ []
  no_run : ∀ before run after, body = before ++ (run ++ after) →
    MaximalRun (· == '\x60') before run after → run.length ≠ n

namespace Tree

open Inline (Wraps Tight)

structure Enclosed (mark : Kind) (marks : Text) (children content : List Tree) : Prop where
  parts : ∃ opening closing, children = token mark opening :: (content ++ [token mark closing]) ∧
    Token.join opening = marks ∧ Token.join closing = marks
  some_text : Token.join (rawAll content) ≠ []
  plain : ∀ c ∈ content, c.isNode = false → c.kind.isMark = false

/-- How the children of an inline element are delimited. A mark of more backticks than one leaf may
hold stays single tokens. -/
structure Delimited (kind : Kind) (children : List Tree) : Prop where
  wrapped : ∀ mark width, Wraps kind mark width → ∃ c ∈ kind.glyphs, ∃ content,
    Enclosed mark (List.replicate width c) children content ∧ Tight (rawAll content)
  code : kind = .codeSpan → (∀ c ∈ children, c.isNode = false) ∧
    ∃ n body, Text.Backticked n body (Token.join (rawAll children)) ∧
      (n ≤ glueLimit → ∃ content,
        Enclosed .codeMark (List.replicate n '\x60') children content ∧
          Token.join (rawAll content) = body)

variable {kind delimiter mark : Kind} {tokens opening closing : List Token} {content : List Tree}
  {c : Char} {t : Token} {ts : List Token} {n : Nat}

theorem glue_of_le (some_tokens : 1 ≤ n) (length : tokens.length = n) (fits : n ≤ glueLimit) :
    glue mark tokens = [token mark tokens] := by
  subst length
  rw [glue, if_neg (List.ne_nil_of_length_pos some_tokens), if_pos fits]

theorem enclosed_glue (glyph : markKind? c = some delimiter) (scanned : ∀ t ∈ opening, t.Scanned)
    (scanned' : ∀ t ∈ closing, t.Scanned) (same : ∀ t ∈ opening, t.kind = delimiter)
    (same' : ∀ t ∈ closing, t.kind = delimiter) (length : opening.length = n)
    (length' : closing.length = n) (some_marks : 1 ≤ n) (fits : n ≤ glueLimit)
    (some_text : Token.join (rawAll content) ≠ [])
    (plain : ∀ c ∈ content, c.isNode = false → c.kind.isMark = false) :
    Enclosed mark (List.replicate n c) (glue mark opening ++ content ++ glue mark closing)
      content where
  parts := by
    refine ⟨opening, closing, ?_, ?_, ?_⟩
    · rw [glue_of_le some_marks length fits, glue_of_le some_marks length' fits, List.append_assoc]
      rfl
    · rw [Token.join_of_kind glyph scanned same, length]
    · rw [Token.join_of_kind glyph scanned' same', length']
  some_text := some_text
  plain := plain

theorem join_ne_nil (scanned : ∀ t ∈ tokens, t.Scanned) (some_tokens : tokens ≠ []) :
    Token.join tokens ≠ [] := by
  obtain ⟨t, ts, rfl⟩ := List.exists_cons_of_ne_nil some_tokens
  rw [Token.join_cons]
  exact List.append_ne_nil_of_left_ne_nil (scanned t List.mem_cons_self).ne_nil _

theorem backticked_of_matched {more : Nat} {front mid rest : List Token}
    (matched : Inline.Matched .backtick (fun _ n => n == more + 1) tokens opening front mid rest)
    (length : opening.length = more + 1) (scanned : ∀ t ∈ opening ++ (front ++ mid), t.Scanned) :
    Text.Backticked (more + 1) (Token.join front) (Token.join (opening ++ front ++ mid)) := by
  have glyph : markKind? '\x60' = some .backtick := rfl
  have length' : mid.length = more + 1 := beq_iff_eq.mp matched.closed.accepted
  have parts := scanned
  rw [List.forall_mem_append, List.forall_mem_append] at parts
  obtain ⟨of_opening, of_front, of_mid⟩ := parts
  have opened := Token.join_of_kind glyph of_opening matched.opened.kind_eq
  have closed := Token.join_of_kind glyph of_mid matched.closed.maximal.kind_eq
  rw [length] at opened
  rw [length'] at closed
  constructor
  case parts => rw [Token.join_append, Token.join_append, opened, closed]
  case opening =>
    have run := Token.maximalRun_join glyph (by rwa [List.nil_append]) matched.opened_alone
    rwa [Token.join_append, opened, closed] at run
  case closing =>
    have run := Token.maximalRun_join glyph (by rwa [List.append_nil, List.append_assoc])
      matched.closed_alone
    rwa [Token.join_append, opened, closed] at run
  case some_body => exact join_ne_nil of_front matched.some_front
  case no_run =>
    intro before run after text maximal same
    obtain ⟨a, m, b, inside, token_run, as_long⟩ :=
      Token.exists_tokenRun glyph of_front text maximal
    have other := matched.not_accepted inside token_run
    rw [as_long, same] at other
    exact beq_eq_false_iff_ne.mp other rfl

theorem delimited_code {more : Nat} {front mid rest : List Token}
    (matched : Inline.Matched .backtick (fun _ n => n == more + 1) tokens opening front mid rest)
    (length : opening.length = more + 1) (scanned : ∀ t ∈ opening ++ (front ++ mid), t.Scanned) :
    Delimited .codeSpan (glue .codeMark opening ++ front.map leaf ++ glue .codeMark mid) where
  wrapped := fun mark width wraps => nomatch wraps
  code := by
    intro _
    have spans := backticked_of_matched matched length scanned
    rw [List.forall_mem_append, List.forall_mem_append] at scanned
    obtain ⟨of_opening, of_front, of_mid⟩ := scanned
    refine ⟨?_, more + 1, Token.join front, ?_, fun fits => ⟨front.map leaf, ?_, ?_⟩⟩
    · refine List.forall_mem_append.mpr ⟨?_, leaf_glue _ _⟩
      exact List.forall_mem_append.mpr ⟨leaf_glue _ _, leaf_leaves _⟩
    · simpa only [rawAll_append, rawAll_glue, rawAll_map_leaf] using spans
    · have glyph : markKind? '\x60' = some .backtick := rfl
      refine enclosed_glue glyph of_opening of_mid
        matched.opened.kind_eq matched.closed.maximal.kind_eq length
        (beq_iff_eq.mp matched.closed.accepted) (Nat.succ_pos more) fits ?_ ?_
      · rw [rawAll_map_leaf]
        exact spans.some_body
      · exact fun c member _ => isMark_leaves (fun t inside => (of_front t inside).raw) c member
    · rw [rawAll_map_leaf]

theorem delimited_wrapped (wraps : Wraps kind mark n) (delimits : delimiter.Delimits kind)
    (scanned : ∀ t ∈ opening, t.Scanned) (scanned' : ∀ t ∈ closing, t.Scanned)
    (same : ∀ t ∈ opening, t.kind = delimiter) (same' : ∀ t ∈ closing, t.kind = delimiter)
    (length : opening.length = n) (length' : closing.length = n)
    (some_text : Token.join (rawAll content) ≠ []) (tight : Tight (rawAll content))
    (plain : ∀ c ∈ content, c.isNode = false → c.kind.isMark = false) :
    Delimited kind (glue mark opening ++ content ++ glue mark closing) where
  wrapped := by
    intro mark' width wraps'
    obtain ⟨rfl, rfl⟩ := wraps.unique wraps'
    obtain ⟨c, inside, glyph⟩ := delimits
    exact ⟨c, inside, content, enclosed_glue glyph scanned scanned' same same' length length'
      wraps.le_glueLimit.1 wraps.le_glueLimit.2 some_text plain, tight⟩
  code := by
    rintro rfl
    cases wraps

/-- A property of nodes that scanned tokens give holds everywhere in a tree of scanned tokens. -/
theorem Everywhere.of_scanned {Q : Kind → List Tree → Prop} {tree : Tree}
    (all : Everywhere (fun kind ts => (∀ t ∈ rawAll ts, t.Scanned) → Q kind ts) tree)
    (scanned : ∀ t ∈ tree.raw, t.Scanned) : Everywhere Q tree := by
  induction all with
  | token kind raw => exact .token kind raw
  | @node kind children here below ih =>
    rw [raw_node] at scanned
    refine .node (here scanned) fun c member => ih c member fun t inside => scanned t ?_
    obtain ⟨left, right, rfl⟩ := List.append_of_mem member
    rw [rawAll_append, rawAll_cons]
    exact List.mem_append_right _ (List.mem_append_left _ inside)

theorem delimited_parse (raw : ∀ t ∈ tokens, t.Raw) : ∀ c ∈ Inline.parse tokens,
    Everywhere (fun kind ts => (∀ t ∈ rawAll ts, t.Scanned) → Delimited kind ts) c := by
  apply everywhere_parse raw
  · intro t ts more close _ shape scanned
    have encloses := Inline.head_encloses t ts
    rw [shape] at encloses
    obtain ⟨opening, front, mid, rest, matched, length, rfl⟩ := encloses
    obtain ⟨first, inner, last⟩ :=
      matched.parts_of_length length (beq_iff_eq.mp matched.closed.accepted)
    rw [first, inner, last] at scanned ⊢
    simp only [rawAll_append, rawAll_glue, rawAll_map_leaf, List.append_assoc] at scanned
    exact delimited_code matched length scanned
  · intro t ts kind mark more close raw shape scanned
    have fits := Inline.head_fits t ts
    have delimited := Inline.head_delimited t ts
    have encloses := Inline.head_encloses t ts
    rw [shape] at fits delimited encloses
    obtain ⟨delimiter, delimits, opened, closed⟩ := delimited
    have content := (Inline.forall_mem_parts raw (more + 1) close).2.1
    simp only [rawAll_append, rawAll_glue, Inline.rawAll_parse, List.forall_mem_append] at scanned
    obtain ⟨⟨first, middle⟩, last⟩ := scanned
    refine delimited_wrapped encloses.1 delimits first last opened closed
      (Inline.length_take_mark fits.2) (Inline.length_closing fits.2) ?_ ?_ (isMark_parse content)
    · rw [Inline.rawAll_parse]
      exact join_ne_nil middle encloses.2.some_tokens
    · rw [Inline.rawAll_parse]
      exact encloses.2

/-- Every inline element of a tree is well delimited. -/
theorem delimited_ofText (t : Text) : Everywhere Delimited (Tree.ofText t) := by
  refine Everywhere.of_scanned (everywhere_ofText ?_ (fun tokens raw => delimited_parse raw) t) ?_
  · intro kind ts block _
    constructor
    · intro mark width wraps
      cases wraps <;> cases block
    · rintro rfl
      cases block
  · rw [raw_ofText]
    exact fun token member => Token.scanned_of_mem_scan member

end Tree

end MarkdownEditing
