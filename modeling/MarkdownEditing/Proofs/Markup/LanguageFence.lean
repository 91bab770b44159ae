import MarkdownEditing.Proofs.Markup.Agreement
import MarkdownEditing.Proofs.Markup.Context
import MarkdownEditing.Proofs.Syntax.Fences
import MarkdownEditing.Proofs.Syntax.Marked

namespace MarkdownEditing

namespace Text

def headRun (t : Text) : Text := t.takeWhile fun c => t.head? == some c

theorem isBlank_append (a b : Text) : (a ++ b).isBlank = (a.isBlank && b.isBlank) := List.all_append

variable {c : Char} {n : Nat} {info ret after : Text}

theorem headRun_replicate (some_copies : 1 ≤ n) (ends : ∀ d ∈ info.head?, d ≠ c) :
    headRun (List.replicate n c ++ info) = List.replicate n c := by
  obtain ⟨m, rfl⟩ := Nat.exists_eq_add_of_le' some_copies
  have same : (fun d => (List.replicate (m + 1) c ++ info).head? == some d) = (c == ·) := by
    funext d
    rw [List.replicate_succ, List.cons_append, List.head?_cons]
    rfl
  rw [headRun, same]
  refine takeWhile_run ?_ fun d first => ?_
  · exact fun d member => beq_iff_eq.mpr (List.eq_of_mem_replicate member).symm
  · exact beq_eq_false_iff_ne.mpr (ends d first).symm

end Text

namespace Tree

theorem mem_raw_of_rebuild {t : Tree} {above : List Level} {u : Token} (member : u ∈ t.raw) :
    u ∈ (Place.rebuild t above).raw := by
  induction above generalizing t with
  | nil => exact member
  | cons level above ih =>
    refine ih ?_
    rw [raw_node, rawAll_append, rawAll_cons]
    exact List.mem_append_right _ (List.mem_append_left _ member)

theorem flatMap_text_leaves (tokens : List Token) :
    (tokens.map leaf).flatMap text = Token.join tokens := by
  induction tokens with
  | nil => rfl
  | cons u tokens ih =>
    rw [List.map_cons, List.flatMap_cons, ih, Token.join_cons, leaf, text, raw_token,
      Token.join_cons, Token.join_nil, List.append_nil]

def fenceAt? (t : Tree) (pos : Nat) : Option Place :=
  ((Place.root t).leafBefore? pos).bind fun leaf => leaf.enclosing.find? (·.kind == .fencedCode)

theorem isMarkdownAt_eq_false_iff {t : Tree} {d : Document} {pos : Nat} :
    t.isMarkdownAt d pos = false ↔ ∃ p, t.fenceAt? (min pos d.size) = some p ∧
      p.fenceInfo.isBlank = false ∧ (d.lineAt p.start).stop < pos := by
  rw [isMarkdownAt, fenceAt?]
  cases (Place.root t).leafBefore? (min pos d.size) with
  | none => simp
  | some leaf =>
    dsimp only [Option.bind_some]
    cases leaf.enclosing.find? (·.kind == .fencedCode) with
    | none => simp
    | some p => simp

end Tree

namespace Place

structure IsFence (p : Place) (t : Text) : Prop where
  inside : p.In (Tree.ofText t)
  node : p.isNode = true
  kind : p.kind = .fencedCode

def openingMarks (p : Place) : Text := p.tree.text.headRun

def infoString (p : Place) : Text :=
  (p.tree.text.takeWhile (· != '\n')).drop p.openingMarks.length

variable {p : Place} {t : Text} {lineBreak : LineBreak} {pos : Nat}

theorem map_tree_neighbours {kind : Kind} {start first : Nat} {above : List Level}
    {left ts : List Tree} : (neighbours kind start above left first ts).map Place.tree = ts := by
  induction ts generalizing left first with
  | nil => rfl
  | cons t ts ih => rw [neighbours, List.map_cons, ih]

theorem fenceInfo_eq {kind : Kind} {ts : List Tree} (shape : p.tree = .node kind ts)
    (leaves : ∀ c ∈ ts, c.isNode = false) :
    p.fenceInfo = ((ts.dropWhile (·.kind == .codeMark)).takeWhile (·.kind != .newline)).flatMap
      Tree.text := by
  have trees : p.children.map Place.tree = ts := by
    rw [children, shape]
    exact map_tree_neighbours
  have all : p.children.filter (!·.isNode) = p.children := by
    refine List.filter_eq_self.mpr fun c member => ?_
    have leaf := leaves c.tree (trees ▸ List.mem_map_of_mem member)
    rw [isNode, leaf]
    rfl
  rw [fenceInfo, all, ← trees, List.dropWhile_map, List.takeWhile_map, List.flatMap_map]
  rfl

/-- How the text of a fence begins: with `n` copies of its mark character, the info, and the line
break. Too many marks to be one leaf are read as a part of the info. -/
structure FirstLine (p : Place) (c : Char) (n : Nat) (info ret after : Text) : Prop where
  mark : c = '\x60' ∨ c = '~'
  some_marks : 1 ≤ n
  text : p.tree.text = List.replicate n c ++ (info ++ (ret ++ after))
  ends : ∀ d ∈ info.head?, d ≠ c
  single : '\n' ∉ info
  ret : ret = [] ∨ ret = ['\r']
  broken : ∀ d ∈ after.head?, d = '\n'
  read : p.fenceInfo = if n ≤ Tree.glueLimit then info else List.replicate n c ++ info

namespace FirstLine

variable {c : Char} {n : Nat} {info ret after : Text} (line : p.FirstLine c n info ret after)
include line

theorem openingMarks_eq : p.openingMarks = List.replicate n c := by
  rw [openingMarks, line.text]
  refine Text.headRun_replicate line.some_marks fun d first => ?_
  have other : c ≠ '\n' ∧ c ≠ '\r' := by
    rcases line.mark with rfl | rfl <;> decide
  cases info with
  | cons e info => exact line.ends d first
  | nil =>
    rcases line.ret with rfl | rfl
    · rw [line.broken d first]
      exact other.1.symm
    · cases first
      exact other.2.symm

theorem infoString_eq : p.infoString = info ++ ret := by
  have inside : ∀ d ∈ List.replicate n c ++ (info ++ ret), (d != '\n') = true := by
    refine List.forall_mem_append.mpr ⟨fun d member => ?_, List.forall_mem_append.mpr ⟨?_, ?_⟩⟩
    · rw [List.eq_of_mem_replicate member]
      rcases line.mark with rfl | rfl <;> decide
    · rintro d member
      refine bne_iff_ne.mpr ?_
      rintro rfl
      exact line.single member
    · intro d member
      rcases line.ret with rfl | rfl
      · cases member
      · rw [List.mem_singleton.mp member]
        rfl
  have right : ∀ d ∈ after.head?, (d != '\n') = false := by
    intro d first
    rw [line.broken d first]
    rfl
  have text : p.tree.text = List.replicate n c ++ (info ++ ret) ++ after := by
    rw [line.text]
    simp only [List.append_assoc]
  rw [infoString, line.openingMarks_eq, text, takeWhile_run inside right, List.drop_left]

theorem isBlank_fenceInfo : p.fenceInfo.isBlank =
    (p.infoString.isBlank && decide (p.openingMarks.length ≤ Tree.glueLimit)) := by
  have blank_ret : ret.isBlank = true := by
    rcases line.ret with rfl | rfl <;> rfl
  rw [line.infoString_eq, line.openingMarks_eq, Text.isBlank_append, blank_ret, Bool.and_true,
    List.length_replicate, line.read]
  split
  · rename_i fits
    rw [decide_eq_true fits, Bool.and_true]
  · rename_i wide
    obtain ⟨m, rfl⟩ := Nat.exists_eq_add_of_le' line.some_marks
    rw [decide_eq_false wide, Bool.and_false, Text.isBlank_append, List.replicate_succ]
    rcases line.mark with rfl | rfl <;> rfl

end FirstLine

theorem exists_lineBreak {rest : List Tree}
    (broken : ∀ c ∈ rest.head?, ∃ u, c = Tree.leaf u ∧ u.kind = .newline)
    (scanned : ∀ u ∈ Tree.rawAll rest, u.Scanned) :
    ∃ ret after, Token.join (Tree.rawAll rest) = ret ++ after ∧ (ret = [] ∨ ret = ['\r']) ∧
      ∀ d ∈ after.head?, d = '\n' := by
  cases rest with
  | nil => exact ⟨[], [], rfl, Or.inl rfl, fun d none_left => nomatch none_left⟩
  | cons first rest =>
    obtain ⟨⟨kind, text⟩, rfl, newline⟩ := broken first rfl
    have here : Token.Raw ⟨kind, text⟩ := (scanned _ (by simp [Tree.leaf])).raw
    cases newline
    cases here with
    | lineBreak ret is_ret =>
      refine ⟨ret, '\n' :: Token.join (Tree.rawAll rest), ?_, is_ret, ?_⟩
      · simp [Tree.leaf]
      · rintro d ⟨⟩
        rfl
    | mark c kind glyph => exact absurd rfl (markKind?_spec glyph).2.1

section OpeningLine

variable {mark : Kind} {marks info : List Token} {rest ts : List Tree}
  (line : Tree.OpeningLine mark marks info rest ts)
include line

theorem takeWhile_openingLine {own : List Token} (single : ∀ u ∈ own, u.kind ≠ .newline) :
    (own.map Tree.leaf ++ rest).takeWhile (·.kind != .newline) = own.map Tree.leaf := by
  refine takeWhile_run (fun c member => ?_) fun c first => ?_
  · obtain ⟨u, inside, rfl⟩ := List.mem_map.mp member
    exact bne_iff_ne.mpr (single u inside)
  · obtain ⟨u, rfl, newline⟩ := line.broken c first
    exact bne_eq_false_iff_eq.mpr newline

theorem dropWhile_of_le (fits : marks.length ≤ Tree.glueLimit) (raw : ∀ u ∈ info, u.Raw) :
    ts.dropWhile (·.kind == .codeMark) = info.map Tree.leaf ++ rest := by
  have parts : ts = [Tree.token .codeMark marks] ++ (info.map Tree.leaf ++ rest) := by
    rw [line.parts, Tree.glue_of_le (List.length_pos_of_ne_nil line.some_marks) rfl fits,
      List.append_assoc]
  rw [parts]
  refine dropWhile_run (fun c member => ?_) fun c first => beq_eq_false_iff_ne.mpr fun mark => ?_
  · rw [List.mem_singleton.mp member]
    rfl
  · cases info with
    | nil =>
      obtain ⟨u, rfl, newline⟩ := line.broken c first
      cases mark.symm.trans newline
    | cons u info =>
      cases first
      have plain := Tree.isMark_of_raw (raw u List.mem_cons_self)
      rw [show u.kind = .codeMark from mark] at plain
      cases plain

/-- Marks that are too many for one leaf are not skipped, and are read with what follows them. -/
theorem dropWhile_of_gt (wide : ¬marks.length ≤ Tree.glueLimit) :
    ts.dropWhile (·.kind == .codeMark) = (marks ++ info).map Tree.leaf ++ rest := by
  have parts : ts = (marks ++ info).map Tree.leaf ++ rest := by
    rw [line.parts, Tree.glue, if_neg line.some_marks, if_neg wide, List.map_append]
  have other : mark ≠ .codeMark := by
    rcases line.delimiter with rfl | rfl <;> decide
  obtain ⟨u, us, rfl⟩ := List.exists_cons_of_ne_nil line.some_marks
  rw [parts]
  refine List.dropWhile_cons_of_neg fun glued => other ?_
  rw [← line.same u List.mem_cons_self]
  exact beq_iff_eq.mp glued

theorem readInfo (raw : ∀ u ∈ info, u.Raw) :
    ((ts.dropWhile (·.kind == .codeMark)).takeWhile (·.kind != .newline)).flatMap Tree.text =
      Token.join (if marks.length ≤ Tree.glueLimit then info else marks ++ info) := by
  split
  · rename_i fits
    rw [dropWhile_of_le line fits raw, takeWhile_openingLine line line.single,
      Tree.flatMap_text_leaves]
  · rename_i wide
    have single : ∀ u ∈ marks ++ info, u.kind ≠ .newline := by
      refine List.forall_mem_append.mpr ⟨fun u member => ?_, line.single⟩
      rw [line.same u member]
      rcases line.delimiter with rfl | rfl <;> decide
    rw [dropWhile_of_gt line wide, takeWhile_openingLine line single, Tree.flatMap_text_leaves]

end OpeningLine

namespace IsFence

variable (fence : p.IsFence t)
include fence

theorem exists_openingLine : ∃ mark marks info rest ts, p.tree = .node .fencedCode ts ∧
    Tree.OpeningLine mark marks info rest ts ∧ (∀ u ∈ Tree.rawAll ts, u.Scanned) ∧
      ∀ c ∈ ts, c.isNode = false := by
  have fronted := (Tree.fronted_ofText t).of_in fence.inside
  have shaped : p.tree.WellShaped := by
    have whole := Tree.wellShaped_ofText t
    rw [← fence.inside.whole] at whole
    exact Tree.wellShaped_of_rebuild p.above whole
  have scanned : ∀ u ∈ p.tree.raw, u.Scanned := by
    intro u member
    have inside : u ∈ (rebuild p.tree p.above).raw := Tree.mem_raw_of_rebuild member
    rw [fence.inside.whole, Tree.raw_ofText] at inside
    exact Token.scanned_of_mem_scan inside
  obtain ⟨tree, start, above⟩ := p
  cases tree with
  | token kind raw => cases fence.node
  | node kind ts =>
    cases fence.kind
    obtain ⟨mark, marks, info, rest, line, _⟩ := fronted.of_node.1 rfl
    refine ⟨mark, marks, info, rest, ts, rfl, line, ?_, ?_⟩
    · rwa [Tree.raw_node] at scanned
    · cases shaped with
      | node shape _ => exact shape.flat (Or.inl rfl)

theorem exists_firstLine : ∃ c n info ret after, p.FirstLine c n info ret after := by
  obtain ⟨mark, marks, info, rest, ts, shape, line, scanned, leaves⟩ := fence.exists_openingLine
  obtain ⟨c, is_mark, glyph⟩ : ∃ c, (c = '\x60' ∨ c = '~') ∧ markKind? c = some mark := by
    rcases line.delimiter with rfl | rfl
    · exact ⟨'\x60', Or.inl rfl, rfl⟩
    · exact ⟨'~', Or.inr rfl, rfl⟩
  have raw : Tree.rawAll ts = marks ++ (info ++ Tree.rawAll rest) := by
    rw [line.parts]
    simp only [Tree.rawAll_append, Tree.rawAll_glue, Tree.rawAll_map_leaf, List.append_assoc]
  have text : p.tree.text =
      Token.join marks ++ (Token.join info ++ Token.join (Tree.rawAll rest)) := by
    rw [Tree.text, shape, Tree.raw_node, raw, Token.join_append, Token.join_append]
  rw [raw, List.forall_mem_append, List.forall_mem_append] at scanned
  obtain ⟨of_marks, of_info, of_rest⟩ := scanned
  obtain ⟨ret, after, broken, is_ret, feed⟩ := exists_lineBreak line.broken of_rest
  refine ⟨c, marks.length, Token.join info, ret, after, is_mark,
    List.length_pos_of_ne_nil line.some_marks, ?_, ?_, ?_, is_ret, feed, ?_⟩
  · rw [text, Token.join_of_kind glyph of_marks line.same, broken]
  · exact fun d first => beq_eq_false_iff_ne.mp (Token.head?_join glyph of_info line.ends d first)
  · exact Token.clean_join (fun u member => (of_info u member).raw) line.single
  · rw [fenceInfo_eq shape leaves, readInfo line fun u member => (of_info u member).raw]
    split
    · rfl
    · rw [Token.join_append, Token.join_of_kind glyph of_marks line.same]

theorem isBlank_fenceInfo : p.fenceInfo.isBlank =
    (p.infoString.isBlank && decide (p.openingMarks.length ≤ Tree.glueLimit)) := by
  obtain ⟨c, n, info, ret, after, line⟩ := fence.exists_firstLine
  exact line.isBlank_fenceInfo

theorem start_lt_stop : p.start < p.stop := by
  obtain ⟨c, n, info, ret, after, line⟩ := fence.exists_firstLine
  have some_text : p.tree.text ≠ [] := by
    rw [line.text]
    refine List.append_ne_nil_of_left_ne_nil (List.ne_nil_of_length_pos ?_) _
    rw [List.length_replicate]
    exact line.some_marks
  rw [stop_eq]
  exact Nat.lt_add_of_pos_right (Text.size_pos some_text)

theorem start_le_lineStop (lineBreak : LineBreak) :
    p.start ≤ ((Document.ofText t lineBreak).lineAt p.start).stop := by
  obtain ⟨c, n, info, ret, after, line⟩ := fence.exists_firstLine
  obtain ⟨m, rfl⟩ := Nat.exists_eq_add_of_le' line.some_marks
  have text : p.tree.text = [c] ++ (List.replicate m c ++ (info ++ (ret ++ after))) := by
    rw [line.text, List.replicate_succ]
    rfl
  have clean : ∀ d, d = '\n' ∨ d = '\r' → d ∉ [c] := by
    intro d control
    rw [List.mem_singleton]
    rcases line.mark with rfl | rfl <;> rcases control with rfl | rfl <;> decide
  obtain ⟨tail, on_line, start⟩ :=
    fence.inside.text_on_line lineBreak text (List.cons_ne_nil c []) clean
  have in_text : p.start ≤ t.size := fence.inside.start_le
  obtain ⟨_, _, _, lies, _⟩ := @Document.lineAt_lies t lineBreak _ in_text
  rw [lies.stop, ← lies.start, on_line, Text.size_append]
  omega

theorem child_of_leaf {leaf : Place} (member : leaf ∈ p.leaves) : leaf ∈ p.children := by
  obtain ⟨_, _, _, _, ts, shape, _, _, leaves⟩ := fence.exists_openingLine
  rw [leaves_eq, if_pos fence.node] at member
  obtain ⟨c, child, inside⟩ := List.mem_flatMap.mp member
  have flat : c.isNode = false := by
    have own := child
    rw [children, shape] at own
    exact leaves c.tree (Tree.tree_of_mem_neighbours own)
  rw [leaves_eq, if_neg (by rw [flat]; exact Bool.false_ne_true), List.mem_singleton] at inside
  rw [inside]
  exact child

theorem fenceAt?_eq (low : p.start < pos) (high : pos ≤ p.stop) :
    (Tree.ofText t).fenceAt? pos = some p := by
  obtain ⟨leaf, member, reached⟩ := p.leaf_at low high
  have in_root := leaves_of_root fence.inside member
  have found : (Place.root (Tree.ofText t)).leafBefore? pos = some leaf := by
    cases first : (Place.root (Tree.ofText t)).leafBefore? pos with
    | none =>
      have missed := List.find?_eq_none.mp first leaf in_root
      simp [reached] at missed
    | some other =>
      -- leaves are apart, so that no other one ends at the offset or holds it
      obtain ⟨other_in, before, behind⟩ := leafBefore?_spec first
      rcases leaves_cases other_in in_root with apart | rfl | apart
      · omega
      · rfl
      · omega
  have single := isNode_of_mem_leaves member
  have kind : (p.kind == .fencedCode) = true := beq_iff_eq.mpr fence.kind
  rw [Tree.fenceAt?, found, Option.bind_some, enclosing,
    ancestors_of_mem_children (fence.child_of_leaf member),
    List.filter_cons_of_neg (by rw [single]; exact Bool.false_ne_true), ancestors,
    List.filter_cons_of_pos fence.node]
  exact List.find?_cons_of_pos kind

end IsFence

theorem isFence_of_fenceAt? (found : (Tree.ofText t).fenceAt? pos = some p) :
    p.IsFence t ∧ p.start < pos ∧ pos ≤ p.stop := by
  obtain ⟨leaf, before, chosen⟩ := Option.bind_eq_some_iff.mp found
  obtain ⟨member, low, high⟩ := leafBefore?_spec before
  have leaf_in := (root_in (Tree.ofText t)).leaf member
  obtain ⟨ancestor, node⟩ := List.mem_filter.mp (List.mem_of_find?_eq_some chosen)
  have span := span_of_ancestor leaf_in ancestor
  have kind := List.find?_some chosen
  exact ⟨⟨leaf_in.ancestor ancestor, node, beq_iff_eq.mp kind⟩, by omega, by omega⟩

end Place

namespace Tree

def EndsInFence (t : Text) : Prop :=
  ∃ mark length held,
    (Stack.empty.lines (Token.scan t)).leaf = some (.fence mark length, held)

end Tree

namespace Place

variable {p q : Place} {t : Text} {lineBreak : LineBreak} {pos : Nat}

/-- The offset is in a fenced code block that names a language, behind the end of its first line: in
front of the end of the block, or at its end where no line break precedes it or the block goes on to
the end of the text without being closed. -/
structure Encloses (p : Place) (t : Text) (lineBreak : LineBreak) (pos : Nat) : Prop where
  fence : p.IsFence t
  named : p.infoString.isBlank = false
  past : ((Document.ofText t lineBreak).lineAt p.start).stop < pos
  within : pos < p.stop ∨
    pos = p.stop ∧ (p.tree.text.getLast? ≠ some '\n' ∨ p.stop = t.size ∧ Tree.EndsInFence t)

/-- The offset is taken for one in a fenced code block that names a language, but it is in none: the
block names none and has too many marks to be one leaf, or the offset is behind the text, or it is
at the start of the line that follows the block. -/
structure Misread (p : Place) (t : Text) (lineBreak : LineBreak) (pos : Nat) : Prop where
  fence : p.IsFence t
  past : ((Document.ofText t lineBreak).lineAt p.start).stop < pos
  within : min pos t.size ≤ p.stop
  slip : p.infoString.isBlank = true ∧ Tree.glueLimit < p.openingMarks.length ∨
    p.infoString.isBlank = false ∧ (t.size < pos ∨ pos = p.stop ∧
      p.tree.text.getLast? = some '\n' ∧ ¬(p.stop = t.size ∧ Tree.EndsInFence t))

theorem IsFence.fenceAt?_min (fence : p.IsFence t)
    (past : ((Document.ofText t lineBreak).lineAt p.start).stop < pos)
    (within : min pos t.size ≤ p.stop) : (Tree.ofText t).fenceAt? (min pos t.size) = some p := by
  have behind_line := fence.start_le_lineStop lineBreak
  have some_text := fence.start_lt_stop
  have in_text := fence.inside.stop_le
  exact fence.fenceAt?_eq (by omega) within

theorem Encloses.within_min (encloses : p.Encloses t lineBreak pos) : min pos t.size ≤ p.stop := by
  have bound := encloses.within
  omega

theorem Encloses.not_misread (encloses : p.Encloses t lineBreak pos) :
    ¬q.Misread t lineBreak pos := by
  intro misread
  have found := encloses.fence.fenceAt?_min encloses.past encloses.within_min
  rw [misread.fence.fenceAt?_min misread.past misread.within] at found
  cases found
  have inside := encloses.fence.inside.stop_le
  rcases misread.slip with ⟨unnamed, _⟩ | ⟨_, beyond | ⟨at_end, feed, goes_on⟩⟩
  · rw [encloses.named] at unnamed
    cases unnamed
  · rcases encloses.within with before | ⟨at_end, _⟩ <;> omega
  · rcases encloses.within with before | ⟨_, no_feed | ends⟩
    · omega
    · exact no_feed feed
    · exact goes_on ends

end Place

namespace Tree

variable {t : Text} {lineBreak : LineBreak} {pos : Nat}

/-- Markdown is declined behind the first line of a fenced code block, up to its end, if something
stands behind its marks or they are too many. -/
theorem isMarkdownAt_ofText : (ofText t).isMarkdownAt (Document.ofText t lineBreak) pos = false ↔
    ∃ p : Place, p.IsFence t ∧ ((Document.ofText t lineBreak).lineAt p.start).stop < pos ∧
      min pos t.size ≤ p.stop ∧
        (p.infoString.isBlank = false ∨ glueLimit < p.openingMarks.length) := by
  have read : ∀ {p : Place}, p.IsFence t → (p.fenceInfo.isBlank = false ↔
      p.infoString.isBlank = false ∨ glueLimit < p.openingMarks.length) := by
    intro p fence
    rw [fence.isBlank_fenceInfo, Bool.and_eq_false_iff, decide_eq_false_iff_not, Nat.not_le]
  rw [isMarkdownAt_eq_false_iff]
  refine exists_congr fun p => ?_
  constructor
  · rintro ⟨found, some_info, past⟩
    obtain ⟨fence, _, within⟩ := Place.isFence_of_fenceAt? found
    exact ⟨fence, past, within, (read fence).mp some_info⟩
  · rintro ⟨fence, past, within, info⟩
    exact ⟨fence.fenceAt?_min past within, (read fence).mpr info, past⟩

theorem isMarkdownAt_cases : (ofText t).isMarkdownAt (Document.ofText t lineBreak) pos = false ↔
    ∃ p : Place, p.Encloses t lineBreak pos ∨ p.Misread t lineBreak pos := by
  rw [isMarkdownAt_ofText]
  refine exists_congr fun p => ?_
  constructor
  · rintro ⟨fence, past, within, info⟩
    cases blank : p.infoString.isBlank with
    | true =>
      have wide := info.resolve_left (by rw [blank]; exact Bool.noConfusion)
      exact Or.inr ⟨fence, past, within, Or.inl ⟨blank, wide⟩⟩
    | false =>
      rcases Nat.lt_trichotomy pos p.stop with before | at_end | behind
      · exact Or.inl ⟨fence, blank, past, Or.inl before⟩
      · by_cases ends : p.tree.text.getLast? ≠ some '\n' ∨ p.stop = t.size ∧ EndsInFence t
        · exact Or.inl ⟨fence, blank, past, Or.inr ⟨at_end, ends⟩⟩
        · rw [not_or, not_not] at ends
          exact Or.inr ⟨fence, past, within, Or.inr ⟨blank, Or.inr ⟨at_end, ends⟩⟩⟩
      · exact Or.inr ⟨fence, past, within, Or.inr ⟨blank, Or.inl (by omega)⟩⟩
  · rintro (encloses | misread)
    · exact ⟨encloses.fence, encloses.past, encloses.within_min, Or.inl encloses.named⟩
    · refine ⟨misread.fence, misread.past, misread.within, ?_⟩
      exact misread.slip.elim (fun wide => Or.inr wide.2) fun named => Or.inl named.1

/-- Markdown is declined behind the first line of a fenced code block, up to its end. That is where
blocks that name a language enclose the offset, exactly if no block is misread there. -/
theorem isMarkdownAt_fences (t : Text) (lineBreak : LineBreak) (pos : Nat) :
    ((ofText t).isMarkdownAt (Document.ofText t lineBreak) pos = false ↔
      ∃ p : Place, p.IsFence t ∧ ((Document.ofText t lineBreak).lineAt p.start).stop < pos ∧
        min pos t.size ≤ p.stop ∧
          (p.infoString.isBlank = false ∨ glueLimit < p.openingMarks.length)) ∧
    (((ofText t).isMarkdownAt (Document.ofText t lineBreak) pos = false ↔
        ∃ p : Place, p.Encloses t lineBreak pos) ↔
      ¬∃ p : Place, p.Misread t lineBreak pos) := by
  refine ⟨isMarkdownAt_ofText, ?_⟩
  rw [isMarkdownAt_cases]
  constructor
  · rintro only ⟨p, misread⟩
    obtain ⟨q, encloses⟩ := only.mp ⟨p, Or.inr misread⟩
    exact encloses.not_misread misread
  · intro none_misread
    refine exists_congr fun p => or_iff_left fun misread => none_misread ⟨p, misread⟩

def closedFence : Text :=
  ['\x60', '\x60', '\x60', 'c', '\n', 'x', '\n', '\x60', '\x60', '\x60', '\n', 'y']

/-- Markdown is declined at the start of the line behind a closed fence, which no block encloses. -/
theorem behind_fence_declined : ¬∀ (t : Text) (lineBreak : LineBreak) (pos : Nat),
    ((ofText t).isMarkdownAt (Document.ofText t lineBreak) pos = false ↔
      ∃ p : Place, p.Encloses t lineBreak pos) := by
  intro all
  have declined :
      (ofText closedFence).isMarkdownAt (Document.ofText closedFence .lf) 11 = false := by
    decide +kernel
  obtain ⟨p, encloses⟩ := (all closedFence .lf 11).mp declined
  have found := encloses.fence.fenceAt?_min encloses.past encloses.within_min
  have block : ((ofText closedFence).fenceAt? (min 11 (Text.size closedFence))).map
      (fun p => (p.stop, p.tree.text.getLast?, Text.size closedFence)) =
        some (11, some '\n', 12) := by
    decide +kernel
  rw [found, Option.map_some, Option.some.injEq, Prod.mk.injEq, Prod.mk.injEq] at block
  obtain ⟨stop, feed, size⟩ := block
  rcases encloses.within with before | ⟨_, no_feed | ⟨at_end, _⟩⟩
  · omega
  · exact no_feed feed
  · omega

end Tree

end MarkdownEditing
