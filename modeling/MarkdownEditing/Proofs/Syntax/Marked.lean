import MarkdownEditing.Proofs.Syntax.Sides
import MarkdownEditing.Proofs.Syntax.MarkerLine

namespace MarkdownEditing

open Token (Aligned)

namespace Token

def endColumn (tokens : List Token) : Nat :=
  Text.advance Cursor.tabStop 0 (join tokens).lastLine

/-- A blank of at most four columns behind the tokens `above`: the space of a marker. -/
def Narrow (above : List Token) (blank : Token) : Prop :=
  Text.advance Cursor.tabStop (endColumn above) blank.text ≤ endColumn above + Cursor.tabStop

def Spread (tokens : List Token) : Prop :=
  tokens.IsChain fun t u => t.kind = .whitespace → u.kind ≠ .whitespace

variable {t u : Token} {ts us above more : List Token}

theorem endColumn_append (clean : '\n' ∉ join more) :
    endColumn (above ++ more) = Text.advance Cursor.tabStop (endColumn above) (join more) := by
  rw [endColumn, join_append, Text.lastLine_append _ clean, Text.advance_append, endColumn]

theorem narrow_of_spaces {blank : Token} (short : blank.text.length ≤ Cursor.tabStop)
    (no_tab : '\t' ∉ blank.text) (above : List Token) : Narrow above blank := by
  have width : ∀ (column : Nat) (t : Text), '\t' ∉ t →
      Text.advance Cursor.tabStop column t = column + List.length t := by
    intro column t
    induction t generalizing column with
    | nil => exact fun _ => rfl
    | cons c t ih =>
      intro no_tab
      have step : Text.stepColumn Cursor.tabStop column c = column + 1 :=
        if_neg (List.ne_of_not_mem_cons no_tab).symm
      have rest := ih (column + 1) (List.not_mem_of_not_mem_cons no_tab)
      rw [Text.advance, List.foldl_cons, step, ← Text.advance, rest, List.length_cons]
      omega
  rw [Narrow, width _ _ no_tab]
  exact Nat.add_le_add_left short _

theorem clean_join (raw : ∀ t ∈ ts, t.Raw) (plain : ∀ t ∈ ts, t.kind ≠ .newline) :
    '\n' ∉ join ts := by
  intro member
  obtain ⟨t, inside, feed⟩ := List.mem_flatMap.mp member
  exact plain t inside ((raw t inside).newline_of_feed feed)

theorem Alike.raw (alike : t.Alike u) (raw : t.Raw) : u.Raw := by
  cases alike with
  | same => exact raw
  | @number m n later _ number ends =>
    refine .word _ ?_
    obtain ⟨_, _, digits⟩ := BlockStart.isItemNumber_eq_true.mp number
    intro member
    rcases List.mem_append.mp member with member | member
    · cases digits '\n' member
    · rcases ends with rfl | rfl <;> simp at member

theorem Aligned.forall_raw (aligned : Aligned ts us) (raw : ∀ t ∈ ts, t.Raw) : ∀ u ∈ us, u.Raw := by
  induction aligned with
  | nil => exact fun u member => absurd member List.not_mem_nil
  | cons alike _ ih =>
    intro u member
    rcases List.mem_cons.mp member with rfl | member
    · exact alike.raw (raw _ List.mem_cons_self)
    · exact ih (fun t inside => raw t (List.mem_cons_of_mem _ inside)) u member

theorem Aligned.forall_not_newline (aligned : Aligned ts us) (plain : ∀ t ∈ ts, t.kind ≠ .newline) :
    ∀ u ∈ us, u.kind ≠ .newline := by
  intro u member
  have inside : u.kind ∈ us.map kind := List.mem_map_of_mem member
  rw [← aligned.map_kind_eq] at inside
  obtain ⟨t, here, same⟩ := List.mem_map.mp inside
  exact same ▸ plain t here

theorem Aligned.spread (aligned : Aligned ts us) (spread : Spread ts) : Spread us := by
  have kinds : ∀ ts : List Token, Spread ts ↔
      (ts.map kind).IsChain fun k l => k = .whitespace → l ≠ .whitespace := by
    intro ts
    rw [List.isChain_map]
    rfl
  rw [kinds, ← aligned.map_kind_eq, ← kinds]
  exact spread

theorem head_rest_of_blank {c : Char} {t : Text} (white : (first c t).1.kind = .whitespace) :
    ∀ d ∈ (first c t).2.head?, isIndent d = false := by
  unfold first at white ⊢
  split at white
  · rename_i indent
    rw [if_pos indent]
    exact head?_dropWhile _ t
  · split at white
    · cases white
    · split at white
      · cases white
      · split at white
        · rename_i glyph
          exact absurd white (markKind?_spec glyph).1
        · split at white <;> cases white

theorem indent_of_blank {c : Char} {t : Text} (white : (first c t).1.kind = .whitespace) :
    isIndent c = true := by
  have raw := (first_raw c t).isIndent_of_whitespace white
  have parts := first_append c t
  cases text : (first c t).1.text with
  | nil => exact absurd text (first_ne_nil c t)
  | cons d u =>
    rw [text] at parts raw
    obtain ⟨rfl, _⟩ := List.cons.inj parts
    exact raw d List.mem_cons_self

theorem spread_scan (t : Text) : Spread (scan t) := by
  fun_induction scan t with
  | case1 => exact .nil
  | case2 c t ih =>
    cases rest : (first c t).2 with
    | nil =>
      rw [scan]
      exact .singleton _
    | cons d u =>
      rw [rest] at ih
      rw [scan] at ih ⊢
      refine List.isChain_cons_cons.mpr ⟨fun white other => ?_, ih⟩
      have stops := head_rest_of_blank white d (by rw [rest]; rfl)
      rw [indent_of_blank other] at stops
      cases stops

end Token

namespace Cursor

variable {c d : Cursor}

theorem skipBlank_skipBlank (spread : Token.Spread c.rest) : c.skipBlank.skipBlank = c.skipBlank := by
  obtain ⟨ts, column, base⟩ := c
  have none_left : (⟨ts, column, base⟩ : Cursor).skipBlank.blank = [] := by
    cases ts with
    | nil => rfl
    | cons t ts =>
      by_cases white : t.kind = .whitespace
      · cases ts with
        | nil => simp [skipBlank, blank, white]
        | cons u ts =>
          have other := (List.isChain_cons_cons.mp spread).1 white
          simp [skipBlank, blank, white, other]
      · simp [skipBlank, blank, white]
  rw [skipBlank]
  simp [none_left, Text.advance]

/-- The cursor stands behind a marker: what follows is near when the blank before it is narrow. -/
def Marked (c : Cursor) : Prop :=
  c.skipBlank.rest ≠ [] → (c.skipBlank.nearBase = true ↔
    c.blank = [] ∨ Text.advance tabStop c.column (Token.join c.blank) ≤ c.column + tabStop)

theorem blank_cases (c : Cursor) :
    c.blank = [] ∧ c.skipBlank = c ∨
      ∃ t ts, t.kind = .whitespace ∧ c.rest = t :: ts ∧ c.blank = [t] ∧
        c.skipBlank = ⟨ts, Text.advance tabStop c.column t.text, c.base⟩ := by
  obtain ⟨ts, column, base⟩ := c
  cases ts with
  | nil => exact Or.inl ⟨rfl, rfl⟩
  | cons t ts =>
    by_cases white : t.kind = .whitespace
    · exact Or.inr ⟨t, ts, white, rfl, by simp [blank, white], by simp [skipBlank, blank, white]⟩
    · exact Or.inl ⟨by simp [blank, white], by simp [skipBlank, blank, white, Text.advance]⟩

theorem marked_afterQuoteMark (column : Nat) (ts : List Token) :
    (afterQuoteMark column ts).Marked := by
  intro _
  have base : (afterQuoteMark column ts).base =
      column + 1 + (afterQuoteMark column ts).blank.length := rfl
  have here : (afterQuoteMark column ts).column = column + 1 := rfl
  rcases blank_cases (afterQuoteMark column ts) with ⟨none_left, same⟩ | ⟨t, rest, _, _, one, skip⟩
  · rw [none_left] at base
    simp only [same, none_left, nearBase, here, base, true_or, iff_true, decide_eq_true_eq]
    simp
  · rw [one] at base
    rw [skip, one]
    simp only [nearBase, here, base, List.cons_ne_nil, false_or, decide_eq_true_eq, maxIndent,
      tabStop, Token.join_cons, Token.join_nil, List.append_nil, List.length_singleton]
    omega

theorem marked_contentColumn (column : Nat) (ts : List Token) :
    (⟨ts, column, Stack.contentColumn column ts⟩ : Cursor).Marked := by
  intro some_left
  rcases blank_cases ⟨ts, column, Stack.contentColumn column ts⟩ with
    ⟨none_left, same⟩ | ⟨t, rest, white, shape, one, skip⟩
  · have behind := Stack.le_contentColumn column ts
    rw [same, none_left]
    simp only [nearBase, true_or, iff_true, decide_eq_true_eq]
    omega
  · rw [skip] at some_left
    dsimp only at shape some_left
    rw [skip, one, shape, Stack.contentColumn]
    have stop := Text.le_advance (show 0 < tabStop by decide) column t.text
    simp only [nearBase, List.cons_ne_nil, false_or, decide_eq_true_eq, maxIndent, tabStop,
      Token.join_cons, Token.join_nil, List.append_nil, white, some_left, ne_eq, not_false_eq_true,
      true_and] at stop ⊢
    split <;> omega

end Cursor

end MarkdownEditing
