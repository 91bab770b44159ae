import Mathlib.Data.List.Forall2
import MarkdownEditing.Proofs.Syntax.BlockStart
import MarkdownEditing.Proofs.Syntax.Appending

namespace MarkdownEditing

namespace Token

/-- The same token, or two words that begin with the numbers of items and go on in the same way. -/
inductive Alike : Token → Token → Prop
  | same (t : Token) : Alike t t
  | number {m n later : Text} : BlockStart.isItemNumber m = true →
    BlockStart.isItemNumber n = true → later = [] ∨ later = ['.'] →
    Alike ⟨.text, m ++ later⟩ ⟨.text, n ++ later⟩

abbrev Aligned : List Token → List Token → Prop := List.Forall₂ Alike

variable {t u : Token} {ts us vs ws : List Token}

theorem Alike.kind_eq (alike : Alike t u) : t.kind = u.kind := by
  cases alike <;> rfl

theorem Alike.symm (alike : Alike t u) : Alike u t := by
  cases alike with
  | same => exact .same _
  | number first second ends => exact .number second first ends

theorem Alike.eq_of_kind (alike : Alike t u) (other : t.kind ≠ .text) : t = u := by
  cases alike with
  | same => rfl
  | number => exact absurd rfl other

theorem aligned_refl (ts : List Token) : Aligned ts ts :=
  List.forall₂_same.mpr fun t _ => .same t

theorem Aligned.append (first : Aligned ts us) (second : Aligned vs ws) :
    Aligned (ts ++ vs) (us ++ ws) := List.rel_append first second

theorem Aligned.map_kind_eq (aligned : Aligned ts us) : ts.map kind = us.map kind := by
  induction aligned with
  | nil => rfl
  | cons alike _ ih => rw [List.map_cons, List.map_cons, alike.kind_eq, ih]

theorem Aligned.take (aligned : Aligned ts us) (n : Nat) : Aligned (ts.take n) (us.take n) :=
  List.forall₂_take n aligned

theorem Aligned.drop (aligned : Aligned ts us) (n : Nat) : Aligned (ts.drop n) (us.drop n) :=
  List.forall₂_drop n aligned

theorem Aligned.eq_of_kinds (aligned : Aligned ts us) (other : ∀ t ∈ ts, t.kind ≠ .text) :
    ts = us := by
  induction aligned with
  | nil => rfl
  | cons alike _ ih =>
    rw [alike.eq_of_kind (other _ List.mem_cons_self),
      ih fun t member => other t (List.mem_cons_of_mem _ member)]

end Token

open Token (Aligned)

section Kinds

variable {t u : Token} {ts us : List Token} {kind : Kind}

namespace Inline

variable {accepts : Kind → Nat → Bool} {before : Kind} {width : Nat}

theorem runLength_congr (same : ts.map Token.kind = us.map Token.kind) :
    runLength kind ts = runLength kind us := by
  have counts : ∀ ts : List Token,
      runLength kind ts = ((ts.map Token.kind).takeWhile (· == kind)).length := by
    intro ts
    rw [List.takeWhile_map, List.length_map]
    rfl
  rw [counts, counts, same]

theorem findRun_congr (same : ts.map Token.kind = us.map Token.kind) :
    findRun kind accepts before ts = findRun kind accepts before us := by
  induction ts generalizing us before with
  | nil =>
    cases us with
    | nil => rfl
    | cons u us => cases same
  | cons t ts ih =>
    cases us with
    | nil => cases same
    | cons u us =>
      have run := @runLength_congr _ _ kind same
      obtain ⟨here, later⟩ := List.cons.inj same
      rw [findRun, findRun, run, here, ih later]

theorem closingRun?_congr (same : ts.map Token.kind = us.map Token.kind) :
    closingRun? kind width accepts ts = closingRun? kind width accepts us := by
  have later : (ts.drop width).map Token.kind = (us.drop width).map Token.kind := by
    rw [List.map_drop, List.map_drop, same]
  rw [closingRun?, closingRun?, findRun_congr later]

theorem opens_congr (same : ts.map Token.kind = us.map Token.kind) :
    opens width ts = opens width us := by
  have here := congrArg (·[width]?) same
  simp only [List.getElem?_map] at here
  unfold opens
  cases first : ts[width]? <;> cases second : us[width]? <;> simp_all

theorem head_congr (same : (t :: ts).map Token.kind = (u :: us).map Token.kind) :
    head t ts = head u us := by
  have here : t.kind = u.kind := (List.cons.inj same).1
  have code : codeHead (t :: ts) = codeHead (u :: us) := by
    rw [codeHead, codeHead, runLength_congr same, closingRun?_congr same]
  have emphasis : ∀ kind, emphasisHead kind (t :: ts) = emphasisHead kind (u :: us) := by
    intro kind
    simp only [emphasisHead, strongClose?, emphasisClose?, runLength_congr same, opens_congr same,
      closingRun?_congr same]
  have strikethrough : strikethroughHead (t :: ts) = strikethroughHead (u :: us) := by
    simp only [strikethroughHead, runLength_congr same, opens_congr same, closingRun?_congr same]
  simp only [head, here, code, emphasis, strikethrough]

end Inline

namespace BlockStart

theorem bareAfterMarker?_congr (same : ts.map Token.kind = us.map Token.kind) :
    bareAfterMarker? ts = bareAfterMarker? us := by
  cases ts <;> cases us <;> simp_all [bareAfterMarker?]

theorem isThematicBreak_congr (same : ts.map Token.kind = us.map Token.kind) :
    isThematicBreak kind ts = isThematicBreak kind us := by
  have counts : ∀ ts : List Token, isThematicBreak kind ts =
      ((ts.map Token.kind).all (fun k => k == kind || k == .whitespace) &&
        3 ≤ ((ts.map Token.kind).filter (· == kind)).length) := by
    intro ts
    rw [List.all_map, List.filter_map, List.length_map]
    rfl
  rw [counts, counts, same]

theorem heading?_congr (same : ts.map Token.kind = us.map Token.kind) :
    heading? ts = heading? us := by
  have level := @Inline.runLength_congr _ _ .hash same
  have later := congrArg (List.drop (Inline.runLength .hash us)) same
  rw [← List.map_drop, ← List.map_drop] at later
  simp only [heading?, level, bareAfterMarker?_congr later]

theorem fence?_congr (same : ts.map Token.kind = us.map Token.kind) :
    fence? kind ts = fence? kind us := by
  have length := @Inline.runLength_congr _ _ kind same
  have later := congrArg (List.drop (Inline.runLength kind us)) same
  rw [← List.map_drop, ← List.map_drop] at later
  have backticks : ∀ ts : List Token,
      ts.any (·.kind == .backtick) = (ts.map Token.kind).any (· == .backtick) := by
    intro ts
    rw [List.any_map]
    rfl
  simp only [fence?, length, backticks, later]

theorem bullet?_congr {style : ListStyle}
    (same : (t :: ts).map Token.kind = (u :: us).map Token.kind) :
    bullet? style t ts = bullet? style u us := by
  obtain ⟨here, later⟩ := List.cons.inj same
  rw [bullet?, bullet?, here, isThematicBreak_congr same, bareAfterMarker?_congr later]

end BlockStart

end Kinds

namespace BlockStart

variable {t u : Token} {ts us : List Token}

theorem isItemNumber_eq_true {t : Text} :
    isItemNumber t = true ↔ t ≠ [] ∧ t.length ≤ 9 ∧ ∀ c ∈ t, c.isDigit = true := by
  simp [isItemNumber, and_assoc]

theorem getLast?_number {m later : Text} (number : isItemNumber m = true)
    (ends : later = [] ∨ later = ['.']) :
    (m ++ later).getLast? = some '.' ↔ later = ['.'] := by
  obtain ⟨_, _, digits⟩ := isItemNumber_eq_true.mp number
  rcases ends with rfl | rfl
  · refine ⟨fun last => ?_, by rintro ⟨⟩⟩
    rw [List.append_nil] at last
    cases digits '.' (List.mem_of_getLast? last)
  · simp

theorem orderedItem?_congr (alike : t.Alike u) (same : ts.map Token.kind = us.map Token.kind) :
    orderedItem? t.text ts = orderedItem? u.text us := by
  have bare := bareAfterMarker?_congr same
  have dots : t.text.getLast? = some '.' ↔ u.text.getLast? = some '.' := by
    cases alike with
    | same => rfl
    | number first second ends =>
      rw [getLast?_number first ends, getLast?_number second ends]
  by_cases dot : u.text.getLast? = some '.'
  · have word : isItemNumber t.text.dropLast = isItemNumber u.text.dropLast := by
      cases alike with
      | same => rfl
      | number first second ends =>
        obtain rfl := (getLast?_number second ends).mp dot
        rw [List.dropLast_concat, List.dropLast_concat, first, second]
    rw [orderedItem?.eq_def, orderedItem?.eq_def, if_pos dot, if_pos (dots.mpr dot), word, bare]
  · have word : isItemNumber t.text = isItemNumber u.text := by
      cases alike with
      | same => rfl
      | number first second ends =>
        rcases ends with rfl | rfl
        · rw [List.append_nil, List.append_nil, first, second]
        · exact absurd ((getLast?_number second (Or.inr rfl)).mpr rfl) dot
    rw [orderedItem?.eq_def, orderedItem?.eq_def, if_neg dot, if_neg (mt dots.mp dot), word]
    cases ts with
    | nil =>
      cases us with
      | nil => rfl
      | cons u us => cases same
    | cons v vs =>
      cases us with
      | nil => cases same
      | cons w ws =>
        obtain ⟨here, later⟩ := List.cons.inj same
        simp only [here, bareAfterMarker?_congr later]

/-- What begins at a cursor is up to the kinds of the tokens, the words that number items, and
whether the cursor is near its base. -/
theorem ofCursor_congr {c d : Cursor} (rest : Aligned c.rest d.rest)
    (near : c.rest ≠ [] → c.nearBase = d.nearBase) : ofCursor c = ofCursor d := by
  obtain ⟨ts, column, base⟩ := c
  obtain ⟨us, column', base'⟩ := d
  cases rest with
  | nil => rfl
  | @cons t u ts us alike later =>
    have same := Token.Aligned.map_kind_eq (.cons alike later)
    have kind := alike.kind_eq
    have near := near (List.cons_ne_nil t ts)
    simp only [ofCursor, near, kind, heading?_congr same, bullet?_congr same, fence?_congr same,
      isThematicBreak_congr same, orderedItem?_congr alike (Token.Aligned.map_kind_eq later)]

end BlockStart

namespace Cursor

variable {c d : Cursor}

theorem blank_congr (rest : Aligned c.rest d.rest) : c.blank = d.blank := by
  have kinds := rest.map_kind_eq
  obtain ⟨ts, column, base⟩ := c
  obtain ⟨us, column', base'⟩ := d
  cases rest with
  | nil => rfl
  | @cons t u ts us alike later =>
    by_cases white : t.kind = .whitespace
    · obtain rfl := alike.eq_of_kind (by rw [white]; decide)
      rfl
    · have white' : u.kind ≠ .whitespace := alike.kind_eq ▸ white
      simp [blank, white, white']

theorem aligned_skipBlank (rest : Aligned c.rest d.rest) :
    Aligned c.skipBlank.rest d.skipBlank.rest := by
  rw [skipBlank, skipBlank, blank_congr rest]
  exact rest.drop _

theorem column_skipBlank (rest : Aligned c.rest d.rest) (column : c.column = d.column) :
    c.skipBlank.column = d.skipBlank.column := by
  rw [skipBlank, skipBlank, blank_congr rest, column]

end Cursor

namespace Visit

inductive Alike : Visit → Visit → Prop
  | enter (kind : Kind) : Alike (.enter kind) (.enter kind)
  | leaf (kind : Kind) {raw raw' : List Token} : Aligned raw raw' →
    Alike (.leaf kind raw) (.leaf kind raw')
  | leave : Alike .leave .leave

abbrev Aligned : List Visit → List Visit → Prop := List.Forall₂ Alike

theorem Aligned.raw {a b : List Visit} (aligned : Aligned a b) :
    Token.Aligned (a.flatMap raw) (b.flatMap raw) := by
  induction aligned with
  | nil => exact .nil
  | @cons x y a b alike _ ih =>
    have here : Token.Aligned x.raw y.raw := by
      cases alike with
      | enter | leave => exact .nil
      | leaf kind same => exact same
    rw [List.flatMap_cons, List.flatMap_cons]
    exact here.append ih

end Visit

namespace Tree

def Aligned (ts us : List Tree) : Prop := Visit.Aligned (walkAll ts) (walkAll us)

variable {ts us vs ws : List Tree} {tokens tokens' : List Token}

theorem aligned_nil : Aligned [] [] := .nil

theorem Aligned.append (first : Aligned ts us) (second : Aligned vs ws) :
    Aligned (ts ++ vs) (us ++ ws) := by
  rw [Aligned, walkAll_append, walkAll_append]
  exact List.rel_append first second

theorem Aligned.raw (aligned : Aligned ts us) : Token.Aligned (rawAll ts) (rawAll us) := by
  rw [← raw_walkAll, ← raw_walkAll]
  exact Visit.Aligned.raw aligned

theorem aligned_node (kind : Kind) (inner : Aligned ts us) :
    Aligned [node kind ts] [node kind us] := by
  simp only [Aligned, walkAll_cons, walkAll_nil, walk_node, List.append_nil]
  exact .cons (.enter kind) (List.rel_append inner (.cons .leave .nil))

theorem Aligned.cons_node (kind : Kind) (inner : Aligned ts us) (later : Aligned vs ws) :
    Aligned (node kind ts :: vs) (node kind us :: ws) :=
  (aligned_node kind inner).append later

theorem aligned_token (kind : Kind) (raw : Token.Aligned tokens tokens') :
    Aligned [token kind tokens] [token kind tokens'] := by
  simp only [Aligned, walkAll_cons, walkAll_nil, walk_token, List.append_nil]
  exact .cons (.leaf kind raw) .nil

theorem aligned_leaves (raw : Token.Aligned tokens tokens') :
    Aligned (tokens.map leaf) (tokens'.map leaf) := by
  induction raw with
  | nil => exact aligned_nil
  | @cons t u ts us alike _ ih =>
    have first : Aligned [leaf t] [leaf u] := by
      rw [leaf, leaf, alike.kind_eq]
      exact aligned_token _ (.cons alike .nil)
    exact first.append ih

theorem aligned_glue (kind : Kind) (raw : Token.Aligned tokens tokens') :
    Aligned (glue kind tokens) (glue kind tokens') := by
  have empty : tokens = [] ↔ tokens' = [] := by
    rw [← List.length_eq_zero_iff, ← List.length_eq_zero_iff, raw.length_eq]
  simp only [glue, empty, raw.length_eq]
  split
  · exact aligned_nil
  · split
    · exact aligned_token kind raw
    · exact aligned_leaves raw

theorem aligned_parse (raw : Token.Aligned tokens tokens') :
    Aligned (Inline.parse tokens) (Inline.parse tokens') := by
  fun_induction Inline.parse tokens generalizing tokens' with
  | case1 =>
    cases raw
    rw [Inline.parse]
    exact aligned_nil
  | case2 t ts more head ih =>
    have whole := raw
    cases raw with
    | @cons _ u _ us alike later =>
      rw [Inline.head_congr whole.map_kind_eq] at head
      rw [Inline.parse, head]
      exact (aligned_leaves (whole.take _)).append (ih (whole.drop _))
  | case3 t ts more close head ih =>
    have whole := raw
    cases raw with
    | @cons _ u _ us alike later =>
      rw [Inline.head_congr whole.map_kind_eq] at head
      rw [Inline.parse, head]
      refine Aligned.cons_node _ ?_ (ih (whole.drop _))
      exact ((aligned_glue _ (whole.take _)).append
        (aligned_leaves ((whole.take _).drop _))).append (aligned_glue _ ((whole.drop _).take _))
  | case4 t ts kind mark more close head inner outer =>
    have whole := raw
    cases raw with
    | @cons _ u _ us alike later =>
      rw [Inline.head_congr whole.map_kind_eq] at head
      rw [Inline.parse, head]
      refine Aligned.cons_node _ ?_ (outer (whole.drop _))
      exact ((aligned_glue _ (whole.take _)).append
        (inner ((whole.take _).drop _))).append (aligned_glue _ ((whole.drop _).take _))

end Tree

end MarkdownEditing
