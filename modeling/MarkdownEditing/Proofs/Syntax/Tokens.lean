import MarkdownEditing.Syntax.Token

namespace MarkdownEditing

theorem markKind?_inj {c d : Char} {kind : Kind} (first : markKind? c = some kind)
    (second : markKind? d = some kind) : c = d := by
  unfold markKind? at first second
  split at first <;> cases first <;> split at second <;> first | rfl | cases second

theorem markKind?_spec {c : Char} {kind : Kind} (glyph : markKind? c = some kind) :
    kind ≠ .whitespace ∧ kind ≠ .newline ∧ kind ≠ .text ∧ c ≠ '\n' := by
  unfold markKind? at glyph
  split at glyph <;> cases glyph <;> decide

theorem isIndent_ne_feed {c : Char} (indent : isIndent c = true) : c ≠ '\n' := by
  intro same
  subst same
  cases indent

namespace Token

inductive Raw : Token → Prop
  | blank (t : Text) : (∀ c ∈ t, isIndent c = true) → Raw ⟨.whitespace, t⟩
  | lineBreak (t : Text) : t = [] ∨ t = ['\r'] → Raw ⟨.newline, t ++ ['\n']⟩
  | mark (c : Char) (kind : Kind) : markKind? c = some kind → Raw ⟨kind, [c]⟩
  | word (t : Text) : '\n' ∉ t → Raw ⟨.text, t⟩

theorem mem_of_mem_takeWhile {α : Type} {accepts : α → Bool} {a : α} {list : List α}
    (member : a ∈ list.takeWhile accepts) : accepts a = true :=
  List.all_eq_true.mp List.all_takeWhile a member

theorem first_raw (c : Char) (t : Text) : (first c t).1.Raw := by
  unfold first
  split
  · rename_i indent
    refine .blank _ ?_
    intro d member
    rcases List.mem_cons.mp member with rfl | member
    · exact indent
    · exact mem_of_mem_takeWhile member
  split
  · rename_i feed
    subst feed
    exact .lineBreak [] (Or.inl rfl)
  split
  · rename_i crlf
    obtain ⟨rfl, _⟩ := crlf
    exact .lineBreak ['\r'] (Or.inr rfl)
  rename_i no_feed _
  split
  · rename_i kind glyph
    exact .mark c kind glyph
  split
  · exact .word [c] (by simpa using fun same => no_feed same.symm)
  · refine .word _ ?_
    intro member
    rcases List.mem_cons.mp member with same | member
    · exact no_feed same.symm
    · have word := mem_of_mem_takeWhile member
      cases word

theorem raw_of_mem_scan {t : Text} {token : Token} (member : token ∈ scan t) : token.Raw := by
  fun_induction scan t with
  | case1 => simp at member
  | case2 c t ih =>
    rcases List.mem_cons.mp member with rfl | member
    · exact first_raw c t
    · exact ih member

namespace Raw

variable {token : Token}

theorem text_of_glyph (raw : token.Raw) {c : Char} (glyph : markKind? c = some token.kind) :
    token.text = [c] := by
  have plain := markKind?_spec glyph
  cases raw with
  | blank t indent => exact absurd rfl plain.1
  | lineBreak t before => exact absurd rfl plain.2.1
  | mark d kind same => rw [markKind?_inj same glyph]
  | word t clean => exact absurd rfl plain.2.2.1

theorem isIndent_of_whitespace (raw : token.Raw) (same : token.kind = .whitespace) :
    ∀ c ∈ token.text, isIndent c = true := by
  cases raw with
  | blank t indent => exact indent
  | lineBreak t before => cases same
  | mark d kind glyph => exact absurd same (markKind?_spec glyph).1
  | word t clean => cases same

theorem ends_of_newline (raw : token.Raw) (same : token.kind = .newline) :
    ∃ t, token.text = t ++ ['\n'] := by
  cases raw with
  | blank t indent => cases same
  | lineBreak t before => exact ⟨t, rfl⟩
  | mark c kind glyph => exact absurd same (markKind?_spec glyph).2.1
  | word t clean => cases same

theorem ne_eof (raw : token.Raw) : token.kind ≠ .eof := by
  intro same
  cases raw with
  | blank t indent => cases same
  | lineBreak t before => cases same
  | mark c kind glyph =>
    subst same
    unfold markKind? at glyph
    split at glyph <;> cases glyph
  | word t clean => cases same

end Raw

end Token

end MarkdownEditing
