import MarkdownEditing.Proofs.Syntax.Openings
import MarkdownEditing.Proofs.Syntax.Order

namespace MarkdownEditing

namespace Text

variable {t : Text}

theorem takeWhile_before_feed (accepts : Char → Bool) (stops : accepts '\n' = false)
    (feed : '\n' ∈ t) (u : Text) :
    (t ++ u).takeWhile accepts = t.takeWhile accepts ∧
      (t ++ u).dropWhile accepts = t.dropWhile accepts ++ u := by
  induction t with
  | nil => cases feed
  | cons c t ih =>
    by_cases accepted : accepts c = true
    · have later : '\n' ∈ t := by
        rcases List.mem_cons.mp feed with rfl | later
        · rw [stops] at accepted
          cases accepted
        · exact later
      simp [accepted, ih later]
    · simp [accepted]

end Text

namespace Token

theorem text_ne_nil_of_mem_scan {t : Text} {token : Token} (member : token ∈ scan t) :
    token.text ≠ [] := by
  fun_induction scan t with
  | case1 => cases member
  | case2 c t ih =>
    rcases List.mem_cons.mp member with rfl | member
    · exact first_ne_nil c t
    · exact ih member

theorem Raw.newline_of_feed {token : Token} (raw : token.Raw) (feed : '\n' ∈ token.text) :
    token.kind = .newline := by
  cases raw with
  | blank t indent => exact absurd rfl (isIndent_ne_feed (indent '\n' feed))
  | lineBreak t before => rfl
  | mark c kind glyph =>
    have same := List.mem_singleton.mp feed
    exact absurd same.symm (markKind?_spec glyph).2.2.2
  | word t clean => exact absurd feed clean

/-- The first token of a text with complete lines is the same whatever follows them. -/
theorem first_append_of_ends {c : Char} {t : Text} (ends : (c :: t).getLast? = some '\n')
    (u : Text) : first c (t ++ u) = ((first c t).1, (first c t).2 ++ u) := by
  have later : c ≠ '\n' → '\n' ∈ t := by
    intro other
    rcases List.mem_cons.mp (List.mem_of_getLast? ends) with same | member
    · exact absurd same.symm other
    · exact member
  unfold first
  by_cases indent : isIndent c = true
  · obtain ⟨taken, dropped⟩ :=
      Text.takeWhile_before_feed isIndent rfl (later (isIndent_ne_feed indent)) u
    simp only [indent, ↓reduceIte, taken, dropped]
  by_cases feed : c = '\n'
  · simp only [feed, ↓reduceIte]
    rfl
  have inside := later feed
  have head : (t ++ u).head? = t.head? := by
    cases t with
    | nil => cases inside
    | cons d t => rfl
  have tail : (t ++ u).tail = t.tail ++ u := by
    cases t with
    | nil => cases inside
    | cons d t => rfl
  obtain ⟨taken, dropped⟩ := Text.takeWhile_before_feed isWordChar rfl inside u
  simp only [indent, feed, head, tail, taken, dropped, Bool.false_eq_true, ↓reduceIte]
  split
  · rfl
  · split
    · rfl
    · split <;> rfl

theorem ends_rest {c : Char} {t : Text} (ends : (c :: t).getLast? = some '\n') :
    (first c t).2 = [] ∨ (first c t).2.getLast? = some '\n' := by
  have parts := first_append c t
  cases rest : (first c t).2 with
  | nil => exact Or.inl rfl
  | cons d rest' =>
    refine Or.inr ?_
    rw [rest] at parts
    rw [← parts, List.getLast?_append, List.getLast?_cons] at ends
    rw [List.getLast?_cons]
    exact ends

theorem scan_append {a : Text} (ends : a = [] ∨ a.getLast? = some '\n') (b : Text) :
    scan (a ++ b) = scan a ++ scan b := by
  fun_induction scan a with
  | case1 => rfl
  | case2 c t ih =>
    have last : (c :: t).getLast? = some '\n' := by simpa using ends
    rw [List.cons_append, scan, first_append_of_ends last b, ih (ends_rest last), List.cons_append]

theorem scan_ends {a : Text} (ends : a = [] ∨ a.getLast? = some '\n') :
    scan a = [] ∨ ∃ t, (scan a).getLast? = some t ∧ t.kind = .newline := by
  fun_induction scan a with
  | case1 => exact Or.inl rfl
  | case2 c t ih =>
    have last : (c :: t).getLast? = some '\n' := by simpa using ends
    refine Or.inr ?_
    rcases ih (ends_rest last) with none_left | ⟨u, found, newline⟩
    · refine ⟨(first c t).1, by rw [none_left]; rfl, ?_⟩
      apply (first_raw c t).newline_of_feed
      have parts := first_append c t
      have empty : (first c t).2 = [] := by
        have join := join_scan (first c t).2
        rw [none_left] at join
        exact join.symm
      rw [empty, List.append_nil] at parts
      rw [parts]
      exact List.mem_of_getLast? last
    · refine ⟨u, ?_, newline⟩
      rw [List.getLast?_cons, found]
      rfl

end Token

namespace Stack

open Visit (Solid)

variable {s s' s'' : Stack} {tokens ending : List Token}

/-- What is read after `s` only adds steps to its walk. -/
def Extends (s s' : Stack) : Prop := ∃ more, s'.walk = s.walk ++ more ∧ Solid more

theorem Extends.refl (s : Stack) : s.Extends s :=
  ⟨[], (List.append_nil _).symm, Visit.calm_nil.solid⟩

theorem Extends.trans (first : s.Extends s') (second : s'.Extends s'') : s.Extends s'' := by
  obtain ⟨more, walk, solid⟩ := first
  obtain ⟨more', walk', solid'⟩ := second
  exact ⟨more ++ more', by rw [walk', walk, List.append_assoc], solid.append solid'⟩

theorem Grows.extends (grows : s.Grows s') : s.Extends s' := by
  obtain ⟨more, walk, calm⟩ := grows
  exact ⟨more, walk, calm.solid⟩

theorem extends_push (closed : s.leaf = none) (c : Container) : s.Extends (s.push c) :=
  ⟨_, walk_push closed c, Visit.calm_nil.solid.enter⟩

theorem extends_openBlocks {c : Cursor} (closed : s.leaf = none) :
    s.Extends (s.openBlocks c ending) := by
  fun_induction openBlocks s c ending with
  | case1 s c led t ts shape quote next inner ih =>
    have still_closed := leaf_emit_eq_none closed (c.blank.map Tree.leaf)
    have blank := grows_emit s (Tree.calm_leaves c.blank)
    have opened := extends_push still_closed .quote
    have mark := Tree.IsLeaf.calm ⟨.quoteMark, [t], List.cons_ne_nil t [], rfl⟩
    have marked := grows_emit (led.push .quote) (Tree.calm_cons mark (Tree.calm_leaves next.blank))
    exact blank.extends.trans (opened.trans
      (marked.extends.trans (ih (leaf_emit_eq_none rfl _))))
  | case2 s c led style bare t ts shape item marker column rest next listed inner ih =>
    have still_closed := leaf_emit_eq_none closed (c.blank.map Tree.leaf)
    have blank := grows_emit s (Tree.calm_leaves c.blank)
    have in_list := grows_listed still_closed style
    have opened := extends_push (leaf_listed still_closed style) (.item next.base)
    have marked := grows_emit (listed.push (.item next.base))
      (Tree.calm_append (Tree.calm_glue .listMark marker) (Tree.calm_leaves next.blank))
    exact (blank.trans in_list).extends.trans (opened.trans
      (marked.extends.trans (ih (leaf_emit_eq_none rfl _))))
  | case3 s c led no_quote no_item =>
    have blank := grows_emit s (Tree.calm_leaves c.blank)
    exact (blank.trans (grows_openLeaf (leaf_emit_eq_none closed _) _ _ _)).extends

theorem extends_addLine (s : Stack) (tokens ending : List Token) :
    s.Extends (s.addLine tokens ending) := by
  rcases s.grows_addLine tokens ending with grows | ⟨c, _, made, _, single, _⟩
  · exact grows.extends
  · rw [made]
    exact (s.grows_cutBack single).extends.trans (extends_openBlocks (leaf_cutBack s c))

theorem extends_lines (s : Stack) (tokens : List Token) : s.Extends (s.lines tokens) := by
  fun_induction lines s tokens with
  | case1 s => exact Extends.refl s
  | case2 s t ts ih => exact (extends_addLine s _ _).trans ih

theorem Extends.walk_finish (further : s.Extends s') :
    ∃ more, (Tree.node .root s'.finish).walk = s.walk ++ more ∧ Visit.Solid more := by
  have closed := further.trans ((grows_closeLeaf s').trans
    (grows_popMany s'.closeLeaf s'.layers.length)).extends
  obtain ⟨more, walk, solid⟩ := closed
  rw [Stack.walk, layers_finish, leaf_finish] at walk
  refine ⟨more ++ [.leave], ?_, solid.append Visit.calm_leave.solid⟩
  rw [← List.append_assoc, ← walk, Tree.walk_node]
  simp [walkLayers, Stack.finish]

/-- A line with a line break is read the same whatever follows it. -/
theorem line_append (s : Stack) {tokens : List Token} {t : Token} (member : t ∈ tokens)
    (newline : t.kind = .newline) (more : List Token) :
    s.line (tokens ++ more) = ((s.line tokens).1, (s.line tokens).2 ++ more) := by
  have shorter : (tokens.takeWhile (·.kind != .newline)).length < tokens.length := by
    apply Nat.lt_of_le_of_ne (List.takeWhile_sublist _).length_le
    intro same
    have whole := (List.takeWhile_prefix fun t : Token => t.kind != .newline).eq_of_length same
    rw [← whole] at member
    have plain := Token.mem_of_mem_takeWhile member
    simp [newline] at plain
  have content : (tokens ++ more).takeWhile (·.kind != .newline) =
      tokens.takeWhile (·.kind != .newline) := by
    rw [List.takeWhile_append, if_neg (Nat.ne_of_lt shorter)]
  have left : (tokens ++ more).drop (tokens.takeWhile (·.kind != .newline)).length =
      tokens.drop (tokens.takeWhile (·.kind != .newline)).length ++ more :=
    List.drop_append_of_le_length (Nat.le_of_lt shorter)
  have some_left : 1 ≤ (tokens.drop (tokens.takeWhile (·.kind != .newline)).length).length := by
    rw [List.length_drop]
    omega
  rw [line, line]
  dsimp only
  rw [content, left, List.take_append_of_le_length some_left, List.drop_append_of_le_length some_left]

theorem ends_line (s : Stack) {t : Token} (found : tokens.getLast? = some t) :
    (s.line tokens).2 = [] ∨ (s.line tokens).2.getLast? = some t := by
  rw [line]
  dsimp only
  rw [List.drop_drop, List.getLast?_drop]
  split
  · rename_i beyond
    exact Or.inl (List.drop_eq_nil_of_le beyond)
  · exact Or.inr found

theorem lines_append (s : Stack)
    (ends : tokens = [] ∨ ∃ t, tokens.getLast? = some t ∧ t.kind = .newline) (more : List Token) :
    s.lines (tokens ++ more) = (s.lines tokens).lines more := by
  fun_induction lines s tokens with
  | case1 s => rfl
  | case2 s t ts ih =>
    obtain ⟨last, found, newline⟩ : ∃ u, (t :: ts).getLast? = some u ∧ u.kind = .newline := by
      simpa using ends
    have line := line_append s (List.mem_of_getLast? found) newline more
    rw [List.cons_append] at line ⊢
    rw [lines, line]
    apply ih
    exact (ends_line s found).imp_right fun same => ⟨last, same, newline⟩

end Stack

/-- What a leaf is, where it starts, and the kinds and starts of the nodes around it, from the
innermost out. -/
structure Outline where
  kind : Kind
  text : Text
  start : Nat
  around : List (Kind × Nat)
  deriving DecidableEq, Repr

namespace Outline

def stop (o : Outline) : Nat := o.start + o.text.size

end Outline

namespace Place

def outline (p : Place) : Outline :=
  ⟨p.kind, p.tree.text, p.start, p.enclosing.map fun node => (node.kind, node.start)⟩

theorem stop_outline (p : Place) : p.outline.stop = p.stop := (stop_eq p).symm

theorem around_outline (t : Tree) (above : List Level) :
    (around t above).map (fun node => (node.kind, node.start)) =
      above.map fun level => (level.kind, level.start) := by
  induction above generalizing t with
  | nil => rfl
  | cons level above ih =>
    rw [around, List.map_cons, List.map_cons, ih]
    rfl

theorem outline_of_leaf {p : Place} (single : p.isNode = false) :
    p.outline =
      ⟨p.kind, p.tree.text, p.start, p.above.map fun level => (level.kind, level.start)⟩ := by
  rw [outline, enclosing_of_leaf single, around_outline]

end Place

namespace Visit

def outlines (around : List (Kind × Nat)) (pos : Nat) : List Visit → List Outline
  | [] => []
  | .enter kind :: visits => outlines ((kind, pos) :: around) pos visits
  | .leaf kind raw :: visits =>
    ⟨kind, Token.join raw, pos, around⟩ :: outlines around (pos + (Token.join raw).size) visits
  | .leave :: visits => outlines around.tail pos visits

theorem outlines_append (around : List (Kind × Nat)) (pos : Nat) (a : List Visit) :
    ∃ around', ∀ b, outlines around pos (a ++ b) =
      outlines around pos a ++ outlines around' (pos + (text a).size) b := by
  induction a generalizing around pos with
  | nil => exact ⟨around, fun b => rfl⟩
  | cons visit a ih =>
    cases visit with
    | enter kind =>
      obtain ⟨around', parts⟩ := ih ((kind, pos) :: around) pos
      refine ⟨around', fun b => ?_⟩
      rw [List.cons_append, outlines, outlines, parts, text_enter]
    | leaf kind raw =>
      obtain ⟨around', parts⟩ := ih around (pos + (Token.join raw).size)
      refine ⟨around', fun b => ?_⟩
      rw [List.cons_append, outlines, outlines, parts, text_leaf, Text.size_append, Nat.add_assoc,
        List.cons_append]
    | leave =>
      obtain ⟨around', parts⟩ := ih around.tail pos
      refine ⟨around', fun b => ?_⟩
      rw [List.cons_append, outlines, outlines, parts, text_leave]

theorem mem_outlines {around : List (Kind × Nat)} {pos : Nat} {visits : List Visit} {o : Outline}
    (member : o ∈ outlines around pos visits) :
    pos ≤ o.start ∧ o.stop ≤ pos + (text visits).size ∧
      ∃ raw, .leaf o.kind raw ∈ visits ∧ o.text = Token.join raw := by
  fun_induction outlines around pos visits with
  | case1 => cases member
  | case2 around pos kind visits ih =>
    obtain ⟨low, high, raw, inside, same⟩ := ih member
    exact ⟨low, by rw [text_enter]; exact high, raw, List.mem_cons_of_mem _ inside, same⟩
  | case3 around pos kind raw visits ih =>
    rw [text_leaf, Text.size_append]
    rcases List.mem_cons.mp member with rfl | member
    · exact ⟨Nat.le_refl _, by simp only [Outline.stop]; omega, raw, List.mem_cons_self, rfl⟩
    · obtain ⟨low, high, raw', inside, same⟩ := ih member
      exact ⟨by omega, by omega, raw', List.mem_cons_of_mem _ inside, same⟩
  | case4 around pos visits ih =>
    obtain ⟨low, high, raw, inside, same⟩ := ih member
    exact ⟨low, by rw [text_leave]; exact high, raw, List.mem_cons_of_mem _ inside, same⟩

end Visit

namespace Tree

open Visit (outlines)

mutual

theorem raw_walk (t : Tree) : t.walk.flatMap Visit.raw = t.raw := by
  cases t with
  | token kind tokens => simp [Visit.raw]
  | node kind children => simp [Visit.raw, raw_walkAll children]

theorem raw_walkAll (ts : List Tree) : (walkAll ts).flatMap Visit.raw = rawAll ts := by
  cases ts with
  | nil => simp
  | cons t ts => simp [raw_walk t, raw_walkAll ts]

end

mutual

theorem outlines_walk (t : Tree) (start : Nat) (above : List Level) (rest : List Visit) :
    outlines (above.map fun level => (level.kind, level.start)) start (t.walk ++ rest) =
      ((t.places start above).filter (!·.isNode)).map Place.outline ++
        outlines (above.map fun level => (level.kind, level.start)) (start + t.size) rest := by
  cases t with
  | token kind raw =>
    have single : (⟨token kind raw, start, above⟩ : Place).isNode = false := rfl
    rw [places, List.filter_cons_of_pos (by rw [single]; rfl), List.filter_nil, List.map_singleton,
      Place.outline_of_leaf single, walk_token, List.singleton_append, outlines, size]
    simp [text, Place.kind, Tree.kind]
  | node kind children =>
    have inner := outlines_walkAll children kind start above [] start (.leave :: rest)
    rw [places, List.filter_cons_of_neg (by simp [Place.isNode, isNode]), walk_node,
      List.cons_append, List.append_assoc, List.singleton_append, outlines, inner, outlines,
      List.tail_cons, size]

theorem outlines_walkAll (ts : List Tree) (kind : Kind) (start : Nat) (above : List Level)
    (left : List Tree) (pos : Nat) (rest : List Visit) :
    outlines ((kind, start) :: above.map fun level => (level.kind, level.start)) pos
        (walkAll ts ++ rest) =
      ((placesIn kind start above left pos ts).filter (!·.isNode)).map Place.outline ++
        outlines ((kind, start) :: above.map fun level => (level.kind, level.start))
          (pos + sizeAll ts) rest := by
  cases ts with
  | nil => simp [placesIn, sizeAll]
  | cons t ts =>
    have first := outlines_walk t pos (⟨kind, start, left, ts⟩ :: above) (walkAll ts ++ rest)
    have later := outlines_walkAll ts kind start above (t :: left) (pos + t.size) rest
    rw [List.map_cons] at first
    rw [walkAll_cons, List.append_assoc, first, later, placesIn, List.filter_append,
      List.map_append, List.append_assoc, sizeAll, Nat.add_assoc]

end

theorem outlines_leaves (t : Tree) :
    (Place.root t).leaves.map Place.outline = outlines [] 0 t.walk := by
  have whole := outlines_walk t 0 [] []
  rw [List.append_nil, outlines, List.append_nil] at whole
  exact whole.symm

/-- The walk of a text's tree goes on from the walk of the blocks that are open after its first
lines. -/
theorem walk_ofText_append {a : Text} (ends : a = [] ∨ a.getLast? = some '\n') (b : Text) :
    ∃ more, (ofText (a ++ b)).walk = (Stack.empty.lines (Token.scan a)).walk ++ more ∧
      Visit.Solid more := by
  have read : Stack.empty.lines (Token.scan (a ++ b)) =
      (Stack.empty.lines (Token.scan a)).lines (Token.scan b) := by
    rw [Token.scan_append ends, Stack.lines_append _ (Token.scan_ends ends)]
  have further := (Stack.extends_lines (Stack.empty.lines (Token.scan a)) (Token.scan b)).walk_finish
  rw [← read] at further
  exact further

theorem outlines_of_lines {a : Text} (ends : a = [] ∨ a.getLast? = some '\n') (b : Text) :
    ((Place.root (ofText (a ++ b))).leaves.filter (·.stop ≤ a.size)).map Place.outline =
      outlines [] 0 (Stack.empty.lines (Token.scan a)).walk := by
  obtain ⟨more, walk, solid⟩ := walk_ofText_append ends b
  have size : (Visit.text (Stack.empty.lines (Token.scan a)).walk).size = a.size := by
    rw [Stack.text_walk, Stack.raw_lines]
    exact congrArg Text.size (Token.join_scan a)
  have shown : ∀ kind raw, .leaf kind raw ∈ more → Token.join raw ≠ [] := by
    intro kind raw member empty
    cases raw with
    | nil => exact solid kind member
    | cons token raw =>
      have inside : token ∈ (ofText (a ++ b)).walk.flatMap Visit.raw := by
        rw [walk]
        exact List.mem_flatMap.mpr
          ⟨_, List.mem_append_right _ member, List.mem_cons_self⟩
      rw [raw_walk, raw_ofText] at inside
      rw [Token.join_cons] at empty
      exact Token.text_ne_nil_of_mem_scan inside (List.append_eq_nil_iff.mp empty).1
  obtain ⟨around, parts⟩ := Visit.outlines_append [] 0 (Stack.empty.lines (Token.scan a)).walk
  have same : (fun p : Place => decide (p.stop ≤ a.size)) =
      (fun o : Outline => decide (o.stop ≤ a.size)) ∘ Place.outline := by
    funext p
    simp only [Function.comp_apply, Place.stop_outline]
  rw [same, ← List.filter_map, outlines_leaves, walk, parts more, List.filter_append,
    List.filter_eq_self.mpr, List.filter_eq_nil_iff.mpr, List.append_nil]
  · intro o member before
    obtain ⟨low, _, raw, inside, text⟩ := Visit.mem_outlines member
    have some_text := shown _ raw inside
    rw [← text] at some_text
    have some_bytes := Text.size_pos some_text
    have reach := of_decide_eq_true before
    rw [Nat.zero_add, size] at low
    rw [Outline.stop] at reach
    omega
  · intro o member
    have reach := (Visit.mem_outlines member).2.1
    rw [Nat.zero_add, size] at reach
    exact decide_eq_true reach

/-- Text added after complete lines leaves their leaves as they are: of the same kinds and texts, at
the same places, inside nodes of the same kinds that start at the same places. -/
theorem leaves_of_lines (a b : Text) (ends : a = [] ∨ a.getLast? = some '\n') :
    ((Place.root (ofText (a ++ b))).leaves.filter (·.stop ≤ a.size)).map Place.outline =
      (Place.root (ofText a)).leaves.map Place.outline := by
  have alone := outlines_of_lines ends []
  rw [List.append_nil, List.filter_eq_self.mpr] at alone
  · rw [outlines_of_lines ends b, alone]
  · intro leaf member
    have reach := (Place.span_of_mem_leaves _ leaf member).2
    have stop : (Place.root (ofText a)).stop = a.size := by
      rw [Place.stop_eq]
      exact (Nat.zero_add _).trans (congrArg Text.size (text_ofText a))
    rw [stop] at reach
    exact decide_eq_true reach

def quotedLine : Text := ['>', ' ', 'a', '\n']

/-- A line below a quoted line that goes on with its paragraph adds to nodes around these leaves. -/
theorem leaves_of_quotedLine : quotedLine.getLast? = some '\n' ∧
    ((Place.root (ofText (quotedLine ++ ['b']))).leaves.filter (·.stop ≤ quotedLine.size)).map
        Place.outline =
      [⟨.quoteMark, ['>'], 0, [(.blockQuote, 0), (.root, 0)]⟩,
        ⟨.whitespace, [' '], 1, [(.blockQuote, 0), (.root, 0)]⟩,
        ⟨.text, ['a'], 2, [(.paragraph, 2), (.blockQuote, 0), (.root, 0)]⟩,
        ⟨.newline, ['\n'], 3, [(.paragraph, 2), (.blockQuote, 0), (.root, 0)]⟩] := by
  refine ⟨rfl, (leaves_of_lines quotedLine ['b'] (Or.inr rfl)).trans ?_⟩
  decide +kernel

end Tree

end MarkdownEditing
