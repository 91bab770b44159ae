import MarkdownEditing.Syntax.Inline

namespace MarkdownEditing

namespace Tree

def IsLeaf (t : Tree) : Prop := ∃ kind raw, raw ≠ [] ∧ t = token kind raw

theorem IsLeaf.isNode {t : Tree} (leaf : t.IsLeaf) : t.isNode = false := by
  obtain ⟨_, _, _, rfl⟩ := leaf
  rfl

theorem isLeaf_leaf (t : Token) : (leaf t).IsLeaf := ⟨_, _, List.cons_ne_nil t [], rfl⟩

theorem isLeaf_leaves (tokens : List Token) : ∀ t ∈ tokens.map leaf, t.IsLeaf := by
  intro t member
  obtain ⟨token, _, rfl⟩ := List.mem_map.mp member
  exact isLeaf_leaf token

theorem isLeaf_glue (mark : Kind) (tokens : List Token) : ∀ t ∈ glue mark tokens, t.IsLeaf := by
  unfold glue
  split
  · exact fun t member => absurd member List.not_mem_nil
  · rename_i some_tokens
    split
    · exact List.forall_mem_singleton.mpr ⟨mark, tokens, some_tokens, rfl⟩
    · exact isLeaf_leaves tokens

end Tree

namespace Kind

def glyphs : Kind → List Char
  | emphasis | strong => ['*', '_']
  | strikethrough => ['~']
  | codeSpan => ['\x60']
  | _ => []

def Delimits (delimiter kind : Kind) : Prop := ∃ c ∈ kind.glyphs, markKind? c = some delimiter

end Kind

namespace Inline

inductive Wraps : Kind → Kind → Nat → Prop
  | emphasis : Wraps .emphasis .emphasisMark 1
  | strong : Wraps .strong .emphasisMark 2
  | strikethrough : Wraps .strikethrough .strikethroughMark 2

def Head.Fits (length : Nat) : Head → Prop
  | .plain more => more + 1 ≤ length
  | .code more close => more + 1 ≤ close ∧ close + (more + 1) ≤ length
  | .wrapped _ _ more close => more + 1 ≤ close ∧ close + (more + 1) ≤ length

def Head.Styled : Head → Prop
  | .wrapped kind mark _ _ =>
    (kind = .strong ∨ kind = .emphasis ∨ kind = .strikethrough) ∧ mark.isMark = true
  | _ => True

variable {kind : Kind} {accepts : Kind → Nat → Bool} {before : Kind} {tokens : List Token}
  {width close : Nat} {run : Run}

theorem runLength_le (kind : Kind) (tokens : List Token) :
    runLength kind tokens ≤ tokens.length := (List.takeWhile_sublist _).length_le

theorem runLength_pos {t : Token} (ts : List Token) (same : t.kind = kind) :
    1 ≤ runLength kind (t :: ts) := by
  simp [runLength, same]

theorem findRun_spec (found : findRun kind accepts before tokens = some run) :
    1 ≤ run.length ∧ run.start + run.length ≤ tokens.length ∧
      ∃ previous, accepts previous run.length = true := by
  induction tokens generalizing before run with
  | nil => simp [findRun] at found
  | cons t ts ih =>
    simp only [findRun] at found
    split at found
    · rename_i here
      have long := runLength_le kind (t :: ts)
      obtain ⟨same, _, accepted⟩ := here
      cases found
      exact ⟨runLength_pos ts same, by simpa using long, before, accepted⟩
    · obtain ⟨later, place, same⟩ := Option.map_eq_some_iff.mp found
      obtain ⟨some_tokens, inside, accepted⟩ := ih place
      subst same
      simp only [List.length_cons]
      exact ⟨some_tokens, by omega, accepted⟩

theorem closingRun?_spec (found : closingRun? kind width accepts tokens = some run) :
    width ≤ run.start ∧ 1 ≤ run.length ∧ run.start + run.length ≤ tokens.length ∧
      ∃ previous, accepts previous run.length = true := by
  obtain ⟨later, place, same⟩ := Option.map_eq_some_iff.mp found
  obtain ⟨some_tokens, inside, accepted⟩ := findRun_spec place
  subst same
  simp only [List.length_drop] at inside ⊢
  exact ⟨by omega, some_tokens, by omega, accepted⟩

/-- What the tokens of a line are read as: plain ones, a code span whose marks are the first run and
the next one as long, or an element whose marks are parts of the first run and of a later run of the
same delimiter. -/
inductive Head.Reads (t : Token) (ts : List Token) : Head → Prop
  | plain {more : Nat} (fits : more + 1 ≤ (t :: ts).length) : Reads t ts (.plain more)
  | code {more : Nat} {run : Run} (same : t.kind = .backtick)
    (width : runLength .backtick (t :: ts) = more + 1)
    (found : closingRun? .backtick (more + 1) (fun _ n => n == more + 1) (t :: ts) = some run) :
    Reads t ts (.code more run.start)
  | wrapped {kind mark : Kind} {more skip : Nat} {accepts : Kind → Nat → Bool} {run : Run}
    (wraps : Wraps kind mark (more + 1)) (delimits : t.kind.Delimits kind)
    (open_run : opens (runLength t.kind (t :: ts)) (t :: ts) = true)
    (fits : more + 1 ≤ runLength t.kind (t :: ts))
    (found : closingRun? t.kind (runLength t.kind (t :: ts)) accepts (t :: ts) = some run)
    (blank : ∀ before n, accepts before n = true → before ≠ .whitespace)
    (inside : skip + (more + 1) ≤ run.length) :
    Reads t ts (.wrapped kind mark more (run.start + skip))

section

variable {t : Token} {ts : List Token}

theorem codeHead_reads (same : t.kind = .backtick) : (codeHead (t :: ts)).Reads t ts := by
  have long := runLength_le .backtick (t :: ts)
  have width : runLength .backtick (t :: ts) = runLength .backtick (t :: ts) - 1 + 1 :=
    (Nat.sub_add_cancel (runLength_pos ts same)).symm
  unfold codeHead
  dsimp only
  split
  · rename_i run found
    rw [width] at found
    exact .code same width found
  · exact .plain (width ▸ long)

theorem emphasisHead_reads (delimits : t.kind.Delimits .emphasis) :
    (emphasisHead t.kind (t :: ts)).Reads t ts := by
  have some_marks : 1 ≤ runLength t.kind (t :: ts) := runLength_pos ts rfl
  have plain : (Head.plain 0).Reads t ts := .plain (by simp)
  unfold emphasisHead
  dsimp only
  split
  · rename_i open_run
    split
    · rename_i close found
      split at found
      · rename_i wide
        obtain ⟨run, place, rfl⟩ := Option.map_eq_some_iff.mp found
        obtain ⟨_, _, _, _, accepted⟩ := closingRun?_spec place
        have closes : 2 ≤ run.length := of_decide_eq_true (Bool.and_eq_true_iff.mp accepted).2
        rw [Nat.add_sub_assoc closes]
        exact .wrapped .strong delimits open_run wide place
          (fun _ _ accepted => bne_iff_ne.mp (Bool.and_eq_true_iff.mp accepted).1) (by omega)
      · cases found
    · split
      · rename_i close found
        obtain ⟨run, place, rfl⟩ := Option.map_eq_some_iff.mp found
        obtain ⟨_, some_tokens, _⟩ := closingRun?_spec place
        have reads : (Head.wrapped .emphasis .emphasisMark 0 (run.start + 0)).Reads t ts :=
          .wrapped .emphasis delimits open_run some_marks place
            (fun _ _ accepted => bne_iff_ne.mp (Bool.and_eq_true_iff.mp accepted).1) (by omega)
        exact reads
      · exact plain
  · exact plain

theorem strikethroughHead_reads (same : t.kind = .tilde) :
    (strikethroughHead (t :: ts)).Reads t ts := by
  have long := runLength_le .tilde (t :: ts)
  have some_marks := runLength_pos ts same
  have plain : (Head.plain (runLength .tilde (t :: ts) - 1)).Reads t ts := .plain (by omega)
  unfold strikethroughHead
  dsimp only
  split
  · rename_i double
    obtain ⟨two, open_run⟩ := double
    split
    · rename_i run found
      obtain ⟨_, _, _, _, accepted⟩ := closingRun?_spec found
      have closes : run.length = 2 := beq_iff_eq.mp (Bool.and_eq_true_iff.mp accepted).1
      rw [← same] at two open_run found
      have reads :
          (Head.wrapped .strikethrough .strikethroughMark 1 (run.start + 0)).Reads t ts :=
        .wrapped .strikethrough ⟨'~', by decide, congrArg some same.symm⟩ open_run
          (Nat.le_of_eq two.symm) found
          (fun _ _ accepted => bne_iff_ne.mp (Bool.and_eq_true_iff.mp accepted).2) (by omega)
      exact reads
    · exact plain
  · exact plain

theorem head_reads (t : Token) (ts : List Token) : (head t ts).Reads t ts := by
  unfold head
  split
  · rename_i same
    exact codeHead_reads same
  · rename_i same
    have emphasis := @emphasisHead_reads t ts ⟨'*', by decide, congrArg some same.symm⟩
    rwa [same] at emphasis
  · rename_i same
    have emphasis := @emphasisHead_reads t ts ⟨'_', by decide, congrArg some same.symm⟩
    rwa [same] at emphasis
  · rename_i same
    exact strikethroughHead_reads same
  · exact .plain (by simp)

theorem Head.Reads.fits {head : Head} (reads : head.Reads t ts) : head.Fits (t :: ts).length := by
  cases reads with
  | plain fits => exact fits
  | code same width found =>
    obtain ⟨apart, _, inside, _, accepted⟩ := closingRun?_spec found
    rw [beq_iff_eq.mp accepted] at inside
    exact ⟨apart, inside⟩
  | wrapped wraps delimits open_run fits found blank inside =>
    obtain ⟨apart, _, within, _⟩ := closingRun?_spec found
    simp only [Head.Fits]
    omega

theorem Head.Reads.styled {head : Head} (reads : head.Reads t ts) : head.Styled := by
  cases reads with
  | plain | code => exact True.intro
  | wrapped wraps => cases wraps <;> simp [Head.Styled, Kind.isMark]

end

theorem head_fits (t : Token) (ts : List Token) : (head t ts).Fits (t :: ts).length :=
  (head_reads t ts).fits

theorem head_styled (t : Token) (ts : List Token) : (head t ts).Styled := (head_reads t ts).styled

theorem marked_parts (tokens : List Token) (width : Nat) (apart : width ≤ close) :
    tokens = tokens.take width ++ content tokens width close ++
      closing tokens width close ++ tokens.drop (close + width) := by
  have head : tokens.take close = tokens.take width ++ content tokens width close := by
    have parts := List.take_append_drop width (tokens.take close)
    rw [List.take_take, Nat.min_eq_left apart] at parts
    exact parts.symm
  have tail : tokens.drop close = closing tokens width close ++ tokens.drop (close + width) := by
    rw [closing, ← List.drop_drop, List.take_append_drop]
  rw [← head, List.append_assoc, ← tail, List.take_append_drop]

theorem forall_mem_parts {P : Token → Prop} (all : ∀ t ∈ tokens, P t) (width close : Nat) :
    (∀ t ∈ tokens.take width, P t) ∧ (∀ t ∈ content tokens width close, P t) ∧
      ∀ t ∈ closing tokens width close, P t := by
  refine ⟨?_, ?_, ?_⟩
  · exact fun t member => all t (List.mem_of_mem_take member)
  · exact fun t member => all t (List.mem_of_mem_take (List.mem_of_mem_drop member))
  · exact fun t member => all t (List.mem_of_mem_drop (List.mem_of_mem_take member))

theorem length_take_mark (fits : close + width ≤ tokens.length) :
    (tokens.take width).length = width := by
  rw [List.length_take]
  omega

theorem length_closing (fits : close + width ≤ tokens.length) :
    (closing tokens width close).length = width := by
  rw [closing, List.length_take, List.length_drop]
  omega

theorem length_content (fits : close + width ≤ tokens.length) :
    (content tokens width close).length = close - width := by
  rw [content, List.length_drop, List.length_take]
  omega

@[simp] theorem rawAll_parse (tokens : List Token) : Tree.rawAll (parse tokens) = tokens := by
  fun_induction parse tokens with
  | case1 => simp
  | case2 t ts more _ ih =>
    rw [Tree.rawAll_append, Tree.rawAll_map_leaf, ih, List.take_append_drop]
  | case3 t ts more close shape ih =>
    have fits := head_fits t ts
    rw [shape] at fits
    have parts := marked_parts (t :: ts) (more + 1) fits.1
    simp only [Tree.rawAll_cons, Tree.raw_node, Tree.rawAll_append, Tree.rawAll_glue,
      Tree.rawAll_map_leaf, ih]
    exact parts.symm
  | case4 t ts kind mark more close shape inner outer =>
    have fits := head_fits t ts
    rw [shape] at fits
    have parts := marked_parts (t :: ts) (more + 1) fits.1
    simp only [Tree.rawAll_cons, Tree.raw_node, Tree.rawAll_append, Tree.rawAll_glue, inner, outer]
    exact parts.symm

/-- What holds of leaves and passes to the nodes that parsing makes holds of the elements of a
line. -/
theorem forall_parse {P : Tree → Prop} (leaf : ∀ t : Tree, t.IsLeaf → P t)
    (node : ∀ kind children, kind = .codeSpan ∨ kind = .strong ∨ kind = .emphasis ∨
      kind = .strikethrough → (∀ c ∈ children, P c) → P (Tree.node kind children))
    (tokens : List Token) : ∀ c ∈ parse tokens, P c := by
  have leaves : ∀ tokens : List Token, ∀ c ∈ tokens.map Tree.leaf, P c := fun tokens c member =>
    leaf c (Tree.isLeaf_leaves tokens c member)
  have glue : ∀ mark tokens, ∀ c ∈ Tree.glue mark tokens, P c := fun mark tokens c member =>
    leaf c (Tree.isLeaf_glue mark tokens c member)
  fun_induction parse tokens with
  | case1 => exact fun c member => absurd member List.not_mem_nil
  | case2 t ts more _ ih => exact List.forall_mem_append.mpr ⟨leaves _, ih⟩
  | case3 t ts more close _ ih =>
    refine List.forall_mem_cons.mpr ⟨node _ _ (Or.inl rfl) ?_, ih⟩
    simp only [List.forall_mem_append]
    exact ⟨⟨glue _ _, leaves _⟩, glue _ _⟩
  | case4 t ts kind mark more close shape inner outer =>
    have styled := head_styled t ts
    rw [shape] at styled
    refine List.forall_mem_cons.mpr ⟨node _ _ (Or.inr styled.1) ?_, outer⟩
    simp only [List.forall_mem_append]
    exact ⟨⟨glue _ _, inner⟩, glue _ _⟩

end Inline

end MarkdownEditing
