import MarkdownEditing.Proofs.Syntax.Inline
import MarkdownEditing.Syntax.Block.Start

namespace MarkdownEditing

def ListStyle.Opens : ListStyle → List Token → Prop
  | dash, tokens => ∃ t ts, tokens = t :: ts ∧ t.kind = .dash
  | star, tokens => ∃ t ts, tokens = t :: ts ∧ t.kind = .star
  | plus, tokens => ∃ t ts, tokens = t :: ts ∧ t.kind = .plus
  | period, tokens =>
    ∃ t ts, tokens = t :: ts ∧ t.text.getLast? = some '.' ∧
      BlockStart.isItemNumber t.text.dropLast = true
  | paren, tokens =>
    ∃ t u ts, tokens = t :: u :: ts ∧ BlockStart.isItemNumber t.text = true ∧ u.kind = .rparen

theorem ListStyle.Opens.ne_nil {style : ListStyle} {tokens : List Token}
    (opens : style.Opens tokens) : tokens ≠ [] := by
  cases style <;> simp only [Opens] at opens
  case paren => obtain ⟨t, u, ts, rfl, _⟩ := opens; simp
  all_goals obtain ⟨t, ts, rfl, _⟩ := opens; simp

theorem ListStyle.Opens.width_le {style : ListStyle} {tokens : List Token}
    (opens : style.Opens tokens) : style.markerWidth ≤ tokens.length := by
  have some_tokens := List.length_pos_iff.mpr opens.ne_nil
  cases style with
  | paren =>
    obtain ⟨t, u, ts, rfl, _⟩ := opens
    simp [markerWidth]
  | dash | star | plus | period => exact some_tokens

namespace BlockStart

def Reads : BlockStart → List Token → Prop
  | blank, tokens => tokens = []
  | quote, tokens => ∃ t ts, tokens = t :: ts ∧ t.kind = .gt
  | item style _, tokens => style.Opens tokens
  | heading level, tokens => level ≤ tokens.length
  | fence _ length, tokens => length ≤ tokens.length
  | thematicBreak, _ => True
  | text, _ => True

variable {t : Token} {ts : List Token} {start : BlockStart}

/-- How the tokens at a cursor are read as the start of a block. -/
inductive ReadFrom : BlockStart → List Token → Prop
  | blank : ReadFrom blank []
  | quote (t : Token) (ts : List Token) : t.kind = .gt → ReadFrom quote (t :: ts)
  | item (style : ListStyle) (bare : Bool) (tokens : List Token) : style.Opens tokens →
    bareAfterMarker? (tokens.drop style.markerWidth) = some bare →
    ReadFrom (item style bare) tokens
  | heading (tokens : List Token) : ReadFrom (heading (Inline.runLength .hash tokens)) tokens
  | thematicBreak (tokens : List Token) : ReadFrom thematicBreak tokens
  | fence (mark : Kind) (tokens : List Token) : mark = .backtick ∨ mark = .tilde →
    3 ≤ Inline.runLength mark tokens → ReadFrom (fence mark (Inline.runLength mark tokens)) tokens
  | text (tokens : List Token) : ReadFrom text tokens

theorem readFrom_getD {found : Option BlockStart} {tokens : List Token}
    (read : ∀ start, found = some start → start.ReadFrom tokens) :
    (found.getD text).ReadFrom tokens := by
  cases found with
  | none => exact .text tokens
  | some start => exact read start rfl

theorem readFrom_heading? {tokens : List Token} (found : heading? tokens = some start) :
    start.ReadFrom tokens := by
  simp only [heading?] at found
  split at found
  · cases found
    exact .heading tokens
  · cases found

theorem readFrom_fence? {mark : Kind} {tokens : List Token}
    (delimiter : mark = .backtick ∨ mark = .tilde) (found : fence? mark tokens = some start) :
    start.ReadFrom tokens := by
  simp only [fence?] at found
  split at found
  · rename_i enough
    cases found
    exact .fence mark tokens delimiter enough.1
  · cases found

theorem readFrom_bullet? {style : ListStyle} (width : style.markerWidth = 1)
    (opens : style.Opens (t :: ts)) (found : bullet? style t ts = some start) :
    start.ReadFrom (t :: ts) := by
  simp only [bullet?] at found
  split at found
  · cases found
    exact .thematicBreak _
  · obtain ⟨bare, follows, rfl⟩ := Option.map_eq_some_iff.mp found
    exact .item style bare _ opens (by rw [width]; exact follows)

theorem readFrom_orderedItem? (found : orderedItem? t.text ts = some start) :
    start.ReadFrom (t :: ts) := by
  unfold orderedItem? at found
  split at found
  · rename_i period
    split at found
    · rename_i number
      obtain ⟨bare, follows, rfl⟩ := Option.map_eq_some_iff.mp found
      exact .item .period bare _ ⟨t, ts, rfl, period, number⟩ follows
    · cases found
  · split at found
    · rename_i u us
      split at found
      · rename_i paren
        obtain ⟨bare, follows, rfl⟩ := Option.map_eq_some_iff.mp found
        exact .item .paren bare _ ⟨t, u, us, rfl, paren.2, paren.1⟩ follows
      · cases found
    · cases found

theorem readFrom_ofCursor (c : Cursor) : (ofCursor c).ReadFrom c.rest := by
  unfold ofCursor
  cases c.rest with
  | nil => exact .blank
  | cons t ts =>
    dsimp only
    split
    · split
      · rename_i same
        exact .quote t ts same
      · exact readFrom_getD fun start => readFrom_heading?
      · rename_i same
        exact readFrom_getD fun start => readFrom_bullet? rfl ⟨t, ts, rfl, same⟩
      · rename_i same
        exact readFrom_getD fun start => readFrom_bullet? rfl ⟨t, ts, rfl, same⟩
      · rename_i same
        exact readFrom_getD fun start => readFrom_bullet? rfl ⟨t, ts, rfl, same⟩
      · split
        · exact .thematicBreak _
        · exact .text _
      · exact readFrom_getD fun start => readFrom_fence? (Or.inl rfl)
      · exact readFrom_getD fun start => readFrom_fence? (Or.inr rfl)
      · exact readFrom_getD fun start => readFrom_orderedItem?
      · exact .text _
    · exact .text _

theorem ReadFrom.reads {tokens : List Token} (read : start.ReadFrom tokens) :
    start.Reads tokens := by
  cases read with
  | blank => rfl
  | quote t ts same => exact ⟨t, ts, rfl, same⟩
  | item style bare tokens opens => exact opens
  | heading tokens => exact Inline.runLength_le .hash tokens
  | fence mark tokens => exact Inline.runLength_le mark tokens
  | thematicBreak | text => exact True.intro

theorem ofCursor_reads (c : Cursor) : (ofCursor c).Reads c.rest := (readFrom_ofCursor c).reads

end BlockStart

end MarkdownEditing
