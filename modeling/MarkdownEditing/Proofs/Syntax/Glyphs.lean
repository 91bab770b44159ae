import MarkdownEditing.Proofs.Syntax.Everywhere

namespace MarkdownEditing

namespace Inline

variable {kind : Kind} {accepts : Kind → Nat → Bool} {before : Kind} {tokens : List Token}
  {width close m n : Nat} {run : Run}

theorem kind_of_mem_run (inside : m + n ≤ runLength kind tokens) :
    ∀ t ∈ (tokens.drop m).take n, t.kind = kind := by
  intro t member
  have front : (tokens.drop m).take n = (tokens.take (m + n)).drop m := by
    rw [List.drop_take, Nat.add_sub_cancel_left]
  rw [front] at member
  have early := List.mem_of_mem_drop member
  rw [← List.takeWhile_append_dropWhile (p := (·.kind == kind)) (l := tokens),
    List.take_append_of_le_length inside] at early
  have accepted := Token.mem_of_mem_takeWhile (List.mem_of_mem_take early)
  exact beq_iff_eq.mp accepted

theorem findRun_length (found : findRun kind accepts before tokens = some run) :
    run.length = runLength kind (tokens.drop run.start) := by
  induction tokens generalizing before run with
  | nil => simp [findRun] at found
  | cons t ts ih =>
    simp only [findRun] at found
    split at found
    · cases found
      rfl
    · obtain ⟨later, place, same⟩ := Option.map_eq_some_iff.mp found
      subst same
      exact ih place

theorem closingRun?_length (found : closingRun? kind width accepts tokens = some run) :
    run.length = runLength kind (tokens.drop run.start) := by
  obtain ⟨later, place, same⟩ := Option.map_eq_some_iff.mp found
  have length := findRun_length place
  subst same
  rw [List.drop_drop, Nat.add_comm] at length
  exact length

/-- The closing mark is a part of the run that is found for it. -/
theorem kind_of_mem_closing (found : closingRun? kind width accepts tokens = some run)
    (inside : m + n ≤ run.length) : ∀ t ∈ closing tokens n (run.start + m), t.kind = kind := by
  rw [closingRun?_length found] at inside
  rw [closing, ← List.drop_drop]
  exact kind_of_mem_run inside

def Head.Delimited (tokens : List Token) : Head → Prop
  | .plain _ => True
  | .code more close => Marked .codeSpan more close
  | .wrapped kind _ more close => Marked kind more close
where
  Marked (kind : Kind) (more close : Nat) : Prop :=
    ∃ delimiter : Kind, delimiter.Delimits kind ∧
      (∀ t ∈ tokens.take (more + 1), t.kind = delimiter) ∧
      ∀ t ∈ closing tokens (more + 1) close, t.kind = delimiter

theorem kind_of_mem_opening (inside : n ≤ runLength kind tokens) :
    ∀ t ∈ tokens.take n, t.kind = kind := by
  have run := kind_of_mem_run (m := 0) (by omega : 0 + n ≤ runLength kind tokens)
  rwa [List.drop_zero] at run

theorem Head.Reads.delimited {t : Token} {ts : List Token} {head : Head}
    (reads : head.Reads t ts) : head.Delimited (t :: ts) := by
  cases reads with
  | plain => exact True.intro
  | code same width found =>
    obtain ⟨_, _, _, _, accepted⟩ := closingRun?_spec found
    have long := beq_iff_eq.mp accepted
    refine ⟨.backtick, ⟨_, List.mem_singleton_self _, rfl⟩, kind_of_mem_opening (by omega), ?_⟩
    exact kind_of_mem_closing found (m := 0) (by omega)
  | wrapped wraps delimits open_run fits found blank inside =>
    exact ⟨_, delimits, kind_of_mem_opening fits, kind_of_mem_closing found inside⟩

theorem head_delimited (t : Token) (ts : List Token) : (head t ts).Delimited (t :: ts) :=
  (head_reads t ts).delimited

end Inline

namespace Tree

variable {kind delimiter mark : Kind} {tokens : List Token} {children : List Tree} {c : Tree}

def Glyphic (kind : Kind) (children : List Tree) : Prop :=
  kind.isInline = true → ∀ mark raw, token mark raw ∈ children → mark.isMark = true →
    ∀ c ∈ Token.join raw, c ∈ kind.glyphs

theorem isMark_of_raw {t : Token} (raw : t.Raw) : t.kind.isMark = false := by
  cases raw with
  | blank | lineBreak | word => rfl
  | mark c kind glyph =>
    show kind.isMark = false
    unfold markKind? at glyph
    split at glyph <;> cases glyph <;> rfl

theorem isMark_leaves (raw : ∀ t ∈ tokens, t.Raw) : ∀ c ∈ tokens.map leaf, c.kind.isMark = false := by
  intro c member
  obtain ⟨t, inside, rfl⟩ := List.mem_map.mp member
  exact isMark_of_raw (raw t inside)

theorem isMark_parse (raw : ∀ t ∈ tokens, t.Raw) :
    ∀ c ∈ Inline.parse tokens, c.isNode = false → c.kind.isMark = false := by
  fun_induction Inline.parse tokens with
  | case1 => exact fun c member => absurd member List.not_mem_nil
  | case2 t ts more shape ih =>
    refine List.forall_mem_append.mpr ⟨fun c member _ => isMark_leaves ?_ c member, ih ?_⟩
    · exact fun u member => raw u (List.mem_of_mem_take member)
    · exact fun u member => raw u (List.mem_of_mem_drop member)
  | case3 t ts more close shape ih =>
    refine List.forall_mem_cons.mpr ⟨?_, ih fun u member => raw u (List.mem_of_mem_drop member)⟩
    intro leaf
    cases leaf
  | case4 t ts kind mark more close shape inner outer =>
    refine List.forall_mem_cons.mpr ⟨?_, outer fun u member => raw u (List.mem_of_mem_drop member)⟩
    intro leaf
    cases leaf

theorem glyphs_of_mem_glue (raw : ∀ t ∈ tokens, t.Raw) (delimits : delimiter.Delimits kind)
    (same : ∀ t ∈ tokens, t.kind = delimiter) {mark' : Kind} {glued : List Token}
    (member : token mark' glued ∈ glue mark tokens) (is_mark : mark'.isMark = true) :
    ∀ c ∈ Token.join glued, c ∈ kind.glyphs := by
  unfold glue at member
  split at member
  · cases member
  split at member
  · cases List.mem_singleton.mp member
    obtain ⟨glyph, listed, of_kind⟩ := delimits
    intro c inside
    obtain ⟨t, in_tokens, here⟩ := List.mem_flatMap.mp inside
    have text := (raw t in_tokens).text_of_glyph (c := glyph) (by rw [of_kind, same t in_tokens])
    rw [text] at here
    rw [List.mem_singleton.mp here]
    exact listed
  · have plain := isMark_leaves raw _ member
    rw [show (token mark' glued).kind = mark' from rfl, is_mark] at plain
    cases plain

/-- An element is put together of an opening mark, its content and a closing mark. -/
theorem glyphic_marked {opening closing : List Token} {content : List Tree}
    (delimits : delimiter.Delimits kind) (raw : ∀ t ∈ opening, t.Raw) (raw' : ∀ t ∈ closing, t.Raw)
    (same : ∀ t ∈ opening, t.kind = delimiter) (same' : ∀ t ∈ closing, t.kind = delimiter)
    (plain : ∀ c ∈ content, c.isNode = false → c.kind.isMark = false) :
    Glyphic kind (glue mark opening ++ content ++ glue mark closing) := by
  intro _ mark' glued member is_mark
  rcases List.mem_append.mp member with member | member
  · rcases List.mem_append.mp member with member | member
    · exact glyphs_of_mem_glue raw delimits same member is_mark
    · have none_left := plain _ member rfl
      rw [show (token mark' glued).kind = mark' from rfl, is_mark] at none_left
      cases none_left
  · exact glyphs_of_mem_glue raw' delimits same' member is_mark

theorem glyphic_parse (raw : ∀ t ∈ tokens, t.Raw) :
    ∀ c ∈ Inline.parse tokens, Everywhere Glyphic c := by
  apply everywhere_parse raw
  · intro t ts more close raw shape
    have delimited := Inline.head_delimited t ts
    rw [shape] at delimited
    obtain ⟨delimiter, delimits, opened, closed⟩ := delimited
    obtain ⟨opening, content, closing⟩ := Inline.forall_mem_parts raw (more + 1) close
    exact glyphic_marked delimits opening closing opened closed
      fun c member _ => isMark_leaves content c member
  · intro t ts kind mark more close raw shape
    have delimited := Inline.head_delimited t ts
    rw [shape] at delimited
    obtain ⟨delimiter, delimits, opened, closed⟩ := delimited
    obtain ⟨opening, content, closing⟩ := Inline.forall_mem_parts raw (more + 1) close
    exact glyphic_marked delimits opening closing opened closed (isMark_parse content)

theorem glyphic_ofText (t : Text) : Everywhere Glyphic (Tree.ofText t) := by
  apply everywhere_ofText
  · intro kind ts block inline
    rw [block] at inline
    cases inline
  · exact fun tokens raw => glyphic_parse raw

end Tree

end MarkdownEditing
