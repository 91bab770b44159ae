import MarkdownEditing.Proofs.Syntax.Lossless
import MarkdownEditing.Proofs.Syntax.Places
import MarkdownEditing.Proofs.Syntax.Tokens

namespace MarkdownEditing

def isErasable (c : Char) : Bool :=
  isWhite c || c.isDigit || ['>', '-', '+', '*', '.', ')', '[', ']', 'x', 'X'].contains c

theorem isErasable_of_isWhite {c : Char} (white : isWhite c = true) : isErasable c = true := by
  simp [isErasable, white]

theorem isErasable_of_isDigit {c : Char} (digit : c.isDigit = true) : isErasable c = true := by
  simp [isErasable, digit]

inductive IsItemMarker : Text → Prop
  | bullet (c : Char) : c = '-' ∨ c = '+' ∨ c = '*' → IsItemMarker [c]
  | number (digits : Text) (c : Char) :
    digits ≠ [] → digits.all Char.isDigit = true → c = '.' ∨ c = ')' → IsItemMarker (digits ++ [c])

namespace IsItemMarker

variable {t : Text}

theorem ne_nil (marker : IsItemMarker t) : t ≠ [] := by
  cases marker <;> simp

theorem isErasable (marker : IsItemMarker t) : ∀ c ∈ t, MarkdownEditing.isErasable c = true := by
  intro d member
  cases marker with
  | bullet c glyph =>
    have same := List.mem_singleton.mp member
    subst same
    rcases glyph with rfl | rfl | rfl <;> decide
  | number digits c _ all glyph =>
    rcases List.mem_append.mp member with member | member
    · exact isErasable_of_isDigit (List.all_eq_true.mp all d member)
    · have same := List.mem_singleton.mp member
      subst same
      rcases glyph with rfl | rfl <;> decide

theorem no_line_break (marker : IsItemMarker t) {c : Char} (control : c = '\n' ∨ c = '\r') :
    c ∉ t := by
  intro member
  cases marker with
  | bullet d glyph =>
    have same := List.mem_singleton.mp member
    subst same
    rcases glyph with rfl | rfl | rfl <;> simp at control
  | number digits d _ all glyph =>
    rcases List.mem_append.mp member with member | member
    · have digit := List.all_eq_true.mp all c member
      rcases control with rfl | rfl <;> cases digit
    · have same := List.mem_singleton.mp member
      subst same
      rcases glyph with rfl | rfl <;> simp at control

end IsItemMarker

namespace ListStyle

/-- The text of a marker of this style: the bullet, or a number and the delimiter. -/
def Marks : ListStyle → Text → Prop
  | dash, t => t = ['-']
  | star, t => t = ['*']
  | plus, t => t = ['+']
  | period, t => ∃ digits, BlockStart.isItemNumber digits = true ∧ t = digits ++ ['.']
  | paren, t => ∃ digits, BlockStart.isItemNumber digits = true ∧ t = digits ++ [')']

variable {style style' : ListStyle} {t : Text} {tokens : List Token}

theorem Marks.cases (marks : style.Marks t) :
    (style.listKind = .orderedList ∧ ∃ digits c, t = digits ++ [c] ∧ digits ≠ [] ∧
      digits.all Char.isDigit = true ∧ (c = '.' ∨ c = ')')) ∨
    (style.listKind = .bulletList ∧ ∃ c, t = [c] ∧ (c = '-' ∨ c = '+' ∨ c = '*')) := by
  have number : ∀ {digits : Text}, BlockStart.isItemNumber digits = true →
      digits ≠ [] ∧ digits.all Char.isDigit = true := by
    intro digits digit
    simp only [BlockStart.isItemNumber, Bool.and_eq_true, decide_eq_true_eq] at digit
    exact ⟨digit.1.1, digit.2⟩
  cases style with
  | dash => exact Or.inr ⟨rfl, '-', marks, by simp⟩
  | star => exact Or.inr ⟨rfl, '*', marks, by simp⟩
  | plus => exact Or.inr ⟨rfl, '+', marks, by simp⟩
  | period =>
    obtain ⟨digits, digit, rfl⟩ := marks
    exact Or.inl ⟨rfl, digits, '.', rfl, (number digit).1, (number digit).2, by simp⟩
  | paren =>
    obtain ⟨digits, digit, rfl⟩ := marks
    exact Or.inl ⟨rfl, digits, ')', rfl, (number digit).1, (number digit).2, by simp⟩

theorem Marks.isItemMarker (marks : style.Marks t) : IsItemMarker t := by
  rcases marks.cases with ⟨-, digits, c, rfl, some_digit, all, glyph⟩ | ⟨-, c, rfl, glyph⟩
  · exact .number digits c some_digit all glyph
  · exact .bullet c (by grind)

def glyph : ListStyle → Char
  | dash => '-'
  | star => '*'
  | plus => '+'
  | period => '.'
  | paren => ')'

theorem Marks.getLast? (marks : style.Marks t) : t.getLast? = some style.glyph := by
  cases style with
  | dash | star | plus =>
    rw [marks]
    rfl
  | period | paren =>
    obtain ⟨digits, _, rfl⟩ := marks
    exact List.getLast?_concat

theorem Marks.unique (first : style.Marks t) (second : style'.Marks t) : style = style' := by
  have same := first.getLast?.symm.trans second.getLast?
  cases style <;> cases style' <;> first | rfl | exact absurd same (by decide)

theorem Opens.marks (opens : style.Opens tokens) (raw : ∀ t ∈ tokens, t.Raw) :
    style.Marks (Token.join (tokens.take style.markerWidth)) := by
  have bullet : ∀ {t : Token} {ts : List Token}, Token.join ((t :: ts).take 1) = t.text := by
    intro t ts
    simp
  cases style with
  | dash =>
    obtain ⟨t, ts, rfl, same⟩ := opens
    exact bullet.trans ((raw t List.mem_cons_self).text_of_glyph (by rw [same]; rfl))
  | star =>
    obtain ⟨t, ts, rfl, same⟩ := opens
    exact bullet.trans ((raw t List.mem_cons_self).text_of_glyph (by rw [same]; rfl))
  | plus =>
    obtain ⟨t, ts, rfl, same⟩ := opens
    exact bullet.trans ((raw t List.mem_cons_self).text_of_glyph (by rw [same]; rfl))
  | period =>
    obtain ⟨t, ts, rfl, ends, digit⟩ := opens
    obtain ⟨digits, text⟩ := List.getLast?_eq_some_iff.mp ends
    rw [text, List.dropLast_concat] at digit
    exact ⟨digits, digit, bullet.trans text⟩
  | paren =>
    obtain ⟨t, u, ts, rfl, digit, same⟩ := opens
    have text := (raw u (by simp)).text_of_glyph (c := ')') (by rw [same]; rfl)
    exact ⟨t.text, digit, by simp [markerWidth, text]⟩

end ListStyle

namespace Visit

/-- A quote or a list item opens with its mark, after nothing but erasable text on its line. -/
def Opens (line : Text) (kind : Kind) (after : List Visit) : Prop :=
  match kind with
  | .blockQuote =>
    line.all isErasable = true ∧
      ∃ raw rest, after = .leaf .quoteMark raw :: rest ∧ Token.join raw = ['>']
  | .listItem =>
    line.all isErasable = true ∧
      ∃ raw rest, after = .leaf .listMark raw :: rest ∧ IsItemMarker (Token.join raw)
  | _ => True

def Led (visits : List Visit) : Prop :=
  ∀ before kind after, visits = before ++ .enter kind :: after →
    Opens (text before).lastLine kind after

def Plain (visits : List Visit) : Prop :=
  ∀ kind, .enter kind ∈ visits → kind ≠ .blockQuote ∧ kind ≠ .listItem

variable {a b : List Visit}

theorem Plain.append (first : Plain a) (second : Plain b) : Plain (a ++ b) := by
  intro kind member
  rcases List.mem_append.mp member with member | member
  · exact first kind member
  · exact second kind member

theorem Plain.enter {kind : Kind} (other : kind ≠ .blockQuote ∧ kind ≠ .listItem)
    (later : Plain a) : Plain (.enter kind :: a) := by
  intro kind' member
  rcases List.mem_cons.mp member with same | member
  · cases same
    exact other
  · exact later kind' member

def Solid (visits : List Visit) : Prop := ∀ kind, .leaf kind [] ∉ visits

theorem Solid.append (first : Solid a) (second : Solid b) : Solid (a ++ b) := by
  intro kind member
  rcases List.mem_append.mp member with member | member
  · exact first kind member
  · exact second kind member

theorem Solid.enter {kind : Kind} (later : Solid a) : Solid (.enter kind :: a) := by
  intro kind' member
  rcases List.mem_cons.mp member with same | member
  · cases same
  · exact later kind' member

structure Calm (visits : List Visit) : Prop where
  plain : Plain visits
  solid : Solid visits

theorem Calm.append (first : Calm a) (second : Calm b) : Calm (a ++ b) :=
  ⟨first.plain.append second.plain, first.solid.append second.solid⟩

theorem Calm.enter {kind : Kind} (other : kind ≠ .blockQuote ∧ kind ≠ .listItem)
    (later : Calm a) : Calm (.enter kind :: a) :=
  ⟨later.plain.enter other, later.solid.enter⟩

theorem calm_replicate_leave (n : Nat) : Calm (List.replicate n .leave) :=
  ⟨fun kind member => by simp at member, fun kind member => by simp at member⟩

theorem calm_nil : Calm [] := calm_replicate_leave 0

theorem calm_leave : Calm [.leave] := calm_replicate_leave 1

theorem Opens.of_plain (line : Text) {kind : Kind} (after : List Visit)
    (other : kind ≠ .blockQuote ∧ kind ≠ .listItem) : Opens line kind after := by
  cases kind <;> simp_all [Opens]

theorem Opens.append {line : Text} {kind : Kind} (opens : Opens line kind a) (b : List Visit) :
    Opens line kind (a ++ b) := by
  cases kind with
  | blockQuote =>
    obtain ⟨clear, raw, rest, rfl, same⟩ := opens
    exact ⟨clear, raw, rest ++ b, rfl, same⟩
  | listItem =>
    obtain ⟨clear, raw, rest, rfl, same⟩ := opens
    exact ⟨clear, raw, rest ++ b, rfl, same⟩
  | _ => exact True.intro

theorem Led.append (led : Led a)
    (later : ∀ before kind after, b = before ++ .enter kind :: after →
      Opens (text (a ++ before)).lastLine kind after) : Led (a ++ b) := by
  intro before kind after parts
  rcases List.append_eq_append_iff.mp parts with ⟨mid, rfl, rest⟩ | ⟨mid, rfl, rest⟩
  · exact later mid kind after rest
  · cases mid with
    | nil =>
      rw [List.nil_append] at rest
      have here := later [] kind after rest.symm
      simpa using here
    | cons visit mid =>
      rw [List.cons_append] at rest
      obtain ⟨rfl, rfl⟩ := List.cons.inj rest
      exact (led before kind mid rfl).append b

theorem Led.append_plain (led : Led a) (plain : Plain b) : Led (a ++ b) := by
  apply led.append
  intro before kind after parts
  exact Opens.of_plain _ after (plain kind (by rw [parts]; simp))

theorem Led.append_enter (led : Led a) {kind : Kind} {after : List Visit}
    (opens : Opens (text a).lastLine kind after) (plain : Plain after) :
    Led (a ++ .enter kind :: after) := by
  apply led.append
  intro before kind' after' parts
  cases before with
  | nil =>
    obtain ⟨same, rfl⟩ := List.cons.inj parts
    cases same
    simpa using opens
  | cons visit before =>
    obtain ⟨rfl, rest⟩ := List.cons.inj parts
    exact Opens.of_plain _ after' (plain kind' (by rw [rest]; simp))

end Visit

namespace Tree

open Visit (Calm)

variable {a b ts : List Tree} {t : Tree}

theorem calm_walkAll (calm : ∀ t ∈ ts, Calm t.walk) : Calm (walkAll ts) := by
  constructor
  · intro kind member
    obtain ⟨t, inside, member⟩ := mem_walkAll.mp member
    exact (calm t inside).plain kind member
  · intro kind member
    obtain ⟨t, inside, member⟩ := mem_walkAll.mp member
    exact (calm t inside).solid kind member

theorem calm_append (first : Calm (walkAll a)) (second : Calm (walkAll b)) :
    Calm (walkAll (a ++ b)) := by
  rw [walkAll_append]
  exact first.append second

theorem calm_cons (first : Calm t.walk) (second : Calm (walkAll ts)) : Calm (walkAll (t :: ts)) := by
  rw [walkAll_cons]
  exact first.append second

theorem calm_node {kind : Kind} (other : kind ≠ .blockQuote ∧ kind ≠ .listItem)
    (inner : Calm (walkAll ts)) : Calm (node kind ts).walk := by
  rw [walk_node]
  exact (inner.append Visit.calm_leave).enter other

theorem IsLeaf.calm (leaf : t.IsLeaf) : Calm t.walk := by
  obtain ⟨kind, raw, some_tokens, rfl⟩ := leaf
  rw [walk_token]
  refine ⟨fun kind' member => by simp at member, fun kind' member => ?_⟩
  cases List.mem_singleton.mp member
  exact some_tokens rfl

theorem calm_of_leaves (leaves : ∀ t ∈ ts, t.IsLeaf) : Calm (walkAll ts) :=
  calm_walkAll fun t member => (leaves t member).calm

theorem calm_leaves (tokens : List Token) : Calm (walkAll (tokens.map leaf)) :=
  calm_of_leaves (isLeaf_leaves tokens)

theorem calm_glue (kind : Kind) (tokens : List Token) : Calm (walkAll (glue kind tokens)) :=
  calm_of_leaves (isLeaf_glue kind tokens)

theorem calm_lead {lead : List Tree} (single : ∀ tree ∈ lead, Continuation.IsLead tree) :
    Calm (walkAll lead) := calm_of_leaves fun t member => (single t member).isLeaf

theorem calm_parse (tokens : List Token) : Calm (walkAll (Inline.parse tokens)) := by
  apply calm_walkAll
  apply Inline.forall_parse fun t leaf => leaf.calm
  rintro kind children (rfl | rfl | rfl | rfl) inside <;>
    exact calm_node (by decide) (calm_walkAll inside)

end Tree

end MarkdownEditing
