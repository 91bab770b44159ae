import MarkdownEditing.Proofs.Syntax.Scanned
import MarkdownEditing.Proofs.Syntax.Glyphs

namespace MarkdownEditing

namespace Inline

abbrev TokenRun (kind : Kind) (front run rest : List Token) : Prop :=
  MaximalRun (fun t : Token => t.kind == kind) front run rest

def lastKind (before : Kind) (tokens : List Token) : Kind :=
  (tokens.getLast?.map Token.kind).getD before

@[simp] theorem lastKind_nil (before : Kind) : lastKind before [] = before := rfl

@[simp] theorem lastKind_cons (before : Kind) (t : Token) (ts : List Token) :
    lastKind before (t :: ts) = lastKind t.kind ts := by
  rw [lastKind, lastKind, List.getLast?_cons]
  cases ts.getLast? <;> rfl

structure Tight (tokens : List Token) : Prop where
  some_tokens : tokens ≠ []
  head : ∀ t ∈ tokens.head?, t.kind ≠ .whitespace
  last : ∀ t ∈ tokens.getLast?, t.kind ≠ .whitespace

/-- The run is the first one of its kind in `tokens` that `accepts`. -/
structure FirstRun (kind : Kind) (accepts : Kind → Nat → Bool) (before : Kind)
    (tokens front run rest : List Token) : Prop where
  parts : tokens = front ++ (run ++ rest)
  maximal : TokenRun kind front run rest
  apart : lastKind before front ≠ kind
  accepted : accepts (lastKind before front) run.length = true
  earlier : ∀ front' run' rest', tokens = front' ++ (run' ++ rest') →
    TokenRun kind front' run' rest' → lastKind before front' ≠ kind →
      front'.length < front.length → accepts (lastKind before front') run'.length = false

/-- Tokens begin with a run of `kind`, which the first later one that `accepts` closes. -/
structure Matched (kind : Kind) (accepts : Kind → Nat → Bool)
    (tokens opening front run rest : List Token) : Prop where
  parts : tokens = opening ++ (front ++ (run ++ rest))
  opened : TokenRun kind [] opening (front ++ (run ++ rest))
  closed : FirstRun kind accepts kind (front ++ (run ++ rest)) front run rest

variable {kind : Kind} {accepts : Kind → Nat → Bool} {before : Kind} {run : Run} {t : Token}
  {ts tokens opening front mid rest : List Token}

theorem forall_head?_append {P : Token → Prop} (front : ∀ t ∈ ts, P t)
    (back : ∀ t ∈ tokens.head?, P t) : ∀ t ∈ (ts ++ tokens).head?, P t := by
  cases ts with
  | nil => exact back
  | cons u ts =>
    intro t first
    cases first
    exact front u List.mem_cons_self

theorem forall_getLast?_append {P : Token → Prop} (front : ∀ t ∈ ts.getLast?, P t)
    (back : ∀ t ∈ tokens, P t) : ∀ t ∈ (ts ++ tokens).getLast?, P t := by
  intro t last
  rw [List.getLast?_append] at last
  rcases Option.or_eq_some_iff.mp last with last | ⟨_, last⟩
  · exact back t (List.mem_of_getLast? last)
  · exact front t last

theorem split_run (kind : Kind) (tokens : List Token) : ∃ own later, tokens = own ++ later ∧
    runLength kind tokens = own.length ∧ (∀ t ∈ own, t.kind = kind) ∧
      ∀ t ∈ later.head?, t.kind ≠ kind := by
  refine ⟨_, _, (List.takeWhile_append_dropWhile (p := (·.kind == kind))).symm, rfl, ?_, ?_⟩
  · intro t member
    have accepted := Token.mem_of_mem_takeWhile member
    exact beq_iff_eq.mp accepted
  · exact fun t first => beq_eq_false_iff_ne.mp (head?_dropWhile _ tokens t first)

theorem exists_opening (ts : List Token) (same : t.kind = kind) :
    ∃ opening after, t :: ts = opening ++ after ∧ TokenRun kind [] opening after ∧
      opening.length = runLength kind (t :: ts) := by
  obtain ⟨opening, after, parts, length, inside, right⟩ := split_run kind (t :: ts)
  have some_run : opening ≠ [] := by
    have long := runLength_pos ts same
    rw [length] at long
    exact List.ne_nil_of_length_pos long
  refine ⟨opening, after, parts, ⟨some_run, ?_, fun _ none_before => (nomatch none_before), ?_⟩,
    length.symm⟩
  · exact fun u member => beq_iff_eq.mpr (inside u member)
  · exact fun u first => beq_eq_false_iff_ne.mpr (right u first)

theorem TokenRun.length_eq (maximal : TokenRun kind front mid rest) :
    runLength kind (mid ++ rest) = mid.length := by
  rw [runLength, takeWhile_run maximal.inside maximal.right]

theorem TokenRun.kind_eq (maximal : TokenRun kind front mid rest) : ∀ t ∈ mid, t.kind = kind :=
  fun t member => beq_iff_eq.mp (maximal.inside t member)

theorem TokenRun.cons_kind (maximal : TokenRun kind [] mid rest) (parts : t :: ts = mid ++ rest) :
    t.kind = kind := by
  obtain ⟨u, mid, rfl⟩ := List.exists_cons_of_ne_nil maximal.some_run
  rw [(List.cons.inj parts).1]
  exact maximal.kind_eq u List.mem_cons_self

theorem FirstRun.cons (first : FirstRun kind accepts t.kind ts front mid rest)
    (not_here : ¬(t.kind = kind ∧ before ≠ kind ∧
      accepts before (runLength kind (t :: ts)) = true)) :
    FirstRun kind accepts before (t :: ts) (t :: front) mid rest := by
  have apart : lastKind before (t :: front) ≠ kind := by
    rw [lastKind_cons]
    exact first.apart
  refine ⟨by rw [first.parts, List.cons_append], ⟨first.maximal.some_run, first.maximal.inside,
    ?_, first.maximal.right⟩, apart, ?_, ?_⟩
  · intro u last
    rw [lastKind, Option.mem_def.mp last] at apart
    exact beq_eq_false_iff_ne.mpr apart
  · rw [lastKind_cons]
    exact first.accepted
  · intro front' mid' rest' parts maximal alone shorter
    cases front' with
    | nil =>
      -- a run at the head of the list would have been accepted there
      rw [parts, List.nil_append, maximal.length_eq] at not_here
      rw [lastKind_nil] at alone ⊢
      exact Bool.eq_false_iff.mpr fun accepted =>
        not_here ⟨maximal.cons_kind parts, alone, accepted⟩
    | cons u front' =>
      obtain ⟨rfl, later⟩ := List.cons.inj parts
      rw [lastKind_cons] at alone ⊢
      refine first.earlier front' mid' rest' later ⟨maximal.some_run, maximal.inside, ?_,
        maximal.right⟩ alone (Nat.lt_of_succ_lt_succ shorter)
      intro u last
      exact maximal.left u (List.mem_getLast?_cons last)

theorem exists_firstRun (found : findRun kind accepts before tokens = some run) :
    ∃ front mid rest, FirstRun kind accepts before tokens front mid rest ∧
      run = ⟨front.length, mid.length⟩ := by
  induction tokens generalizing before run with
  | nil => cases found
  | cons t ts ih =>
    rw [findRun] at found
    split at found
    · rename_i here
      obtain ⟨same, apart, accepted⟩ := here
      cases found
      obtain ⟨opening, after, parts, maximal, length⟩ := exists_opening ts same
      rw [← length] at accepted ⊢
      refine ⟨[], opening, after, ⟨parts, maximal, apart, accepted, ?_⟩, rfl⟩
      exact fun _ _ _ _ _ _ shorter => absurd shorter (Nat.not_lt_zero _)
    · rename_i not_here
      obtain ⟨later, place, rfl⟩ := Option.map_eq_some_iff.mp found
      obtain ⟨front, mid, rest, first, rfl⟩ := ih place
      exact ⟨t :: front, mid, rest, first.cons not_here, rfl⟩

theorem exists_matched (same : t.kind = kind)
    (found : closingRun? kind (runLength kind (t :: ts)) accepts (t :: ts) = some run) :
    ∃ opening front mid rest, Matched kind accepts (t :: ts) opening front mid rest ∧
      opening.length = runLength kind (t :: ts) ∧
      run = ⟨opening.length + front.length, mid.length⟩ := by
  obtain ⟨opening, after, parts, opens, length⟩ := exists_opening ts same
  obtain ⟨later, place, rfl⟩ := Option.map_eq_some_iff.mp found
  rw [← length, parts, List.drop_left] at place
  obtain ⟨front, mid, rest, first, rfl⟩ := exists_firstRun place
  rw [← length, parts, Nat.add_comm]
  have after_parts := first.parts
  subst after_parts
  exact ⟨opening, front, mid, rest, ⟨rfl, opens, first⟩, rfl, rfl⟩

namespace Matched

variable (matched : Matched kind accepts tokens opening front mid rest)
include matched

theorem some_front : front ≠ [] := by
  rintro rfl
  exact matched.closed.apart rfl

theorem head_front : ∀ t ∈ front.head?, t.kind ≠ kind := by
  intro t first
  refine beq_eq_false_iff_ne.mp (matched.opened.right t ?_)
  rw [List.head?_append_of_ne_nil _ matched.some_front]
  exact first

theorem last_front : ∀ t ∈ front.getLast?, t.kind ≠ kind := fun t last =>
  beq_eq_false_iff_ne.mp (matched.closed.maximal.left t last)

theorem opened_alone : TokenRun kind [] opening (front ++ mid) := by
  refine ⟨matched.opened.some_run, matched.opened.inside, matched.opened.left, ?_⟩
  have right := matched.opened.right
  rw [List.head?_append_of_ne_nil _ matched.some_front] at right ⊢
  exact right

theorem closed_alone : TokenRun kind (opening ++ front) mid [] := by
  have maximal := matched.closed.maximal
  refine ⟨maximal.some_run, maximal.inside, ?_, fun t none_left => nomatch none_left⟩
  rw [List.getLast?_append_of_ne_nil _ matched.some_front]
  exact maximal.left

theorem not_accepted {a m b : List Token} (parts : front = a ++ (m ++ b))
    (maximal : TokenRun kind a m b) : accepts (lastKind kind a) m.length = false := by
  -- at either end of the content the run would be a part of the opening or the closing one
  have some_before : a ≠ [] := by
    rintro rfl
    obtain ⟨t, m, rfl⟩ := List.exists_cons_of_ne_nil maximal.some_run
    have first := matched.head_front t (by rw [parts]; rfl)
    exact first (maximal.kind_eq t List.mem_cons_self)
  have some_after : b ≠ [] := by
    rintro rfl
    have last : m.getLast maximal.some_run ∈ front.getLast? := by
      rw [parts, List.append_nil, List.getLast?_append_of_ne_nil _ maximal.some_run]
      exact List.getLast?_eq_some_getLast maximal.some_run
    exact matched.last_front _ last (maximal.kind_eq _ (List.getLast_mem _))
  refine matched.closed.earlier a m (b ++ (mid ++ rest)) ?_ ⟨maximal.some_run, maximal.inside,
    maximal.left, ?_⟩ ?_ ?_
  · rw [parts]
    simp only [List.append_assoc]
  · rw [List.head?_append_of_ne_nil _ some_after]
    exact maximal.right
  · rw [lastKind, List.getLast?_eq_some_getLast some_before]
    exact beq_eq_false_iff_ne.mp (maximal.left _ (List.getLast?_eq_some_getLast some_before))
  · have some_run := List.length_pos_of_ne_nil maximal.some_run
    rw [parts, List.length_append, List.length_append]
    omega

/-- The tokens between a mark of `width` tokens at the head and one that begins `k` tokens inside of
the closing run. -/
theorem content_eq {width k : Nat} (fits : width ≤ opening.length) (inside : k ≤ mid.length) :
    content tokens width (opening.length + front.length + k) =
      opening.drop width ++ front ++ mid.take k := by
  have taken : tokens.take (opening.length + front.length + k) =
      opening ++ front ++ mid.take k := by
    rw [matched.parts, ← List.append_assoc, ← List.length_append, List.take_length_add_append,
      List.take_append_of_le_length inside]
  rw [content, taken, List.append_assoc, List.drop_append_of_le_length fits, List.append_assoc]

theorem closing_eq {width k : Nat} (inside : k + width ≤ mid.length) :
    closing tokens width (opening.length + front.length + k) = (mid.drop k).take width := by
  have dropped : tokens.drop (opening.length + front.length + k) = mid.drop k ++ rest := by
    rw [matched.parts, ← List.append_assoc, ← List.length_append, List.drop_length_add_append,
      List.drop_append_of_le_length (by omega)]
  rw [closing, dropped, List.take_append_of_le_length (by rw [List.length_drop]; omega)]

theorem parts_of_length {n : Nat} (length : opening.length = n) (length' : mid.length = n) :
    tokens.take n = opening ∧ content tokens n (n + front.length) = front ∧
      closing tokens n (n + front.length) = mid := by
  subst length
  have content := matched.content_eq (Nat.le_refl _) (Nat.zero_le _)
  have closing : closing tokens opening.length (opening.length + front.length + 0) = _ :=
    matched.closing_eq (by omega)
  rw [Nat.add_zero] at content closing
  refine ⟨?_, ?_, ?_⟩
  · rw [matched.parts, List.take_left]
  · rw [content, List.drop_length, List.nil_append, List.take_zero, List.append_nil]
  · rw [closing, List.drop_zero, ← length', List.take_length]

theorem tight_content (glyph : kind ≠ .whitespace) (open_run : opens opening.length tokens = true)
    (apart : lastKind kind front ≠ .whitespace) (width k : Nat) :
    Tight (opening.drop width ++ front ++ mid.take k) where
  some_tokens := by
    have some_front := matched.some_front
    simp [some_front]
  head := by
    rw [List.append_assoc]
    refine forall_head?_append (fun t member => ?_) ?_
    · rw [matched.opened.kind_eq t (List.mem_of_mem_drop member)]
      exact glyph
    · intro t first
      rw [List.head?_append_of_ne_nil _ matched.some_front] at first
      have here : tokens[opening.length]? = some t := by
        rw [matched.parts, List.getElem?_append_right (Nat.le_refl _), Nat.sub_self,
          ← List.head?_eq_getElem?, List.head?_append_of_ne_nil _ matched.some_front]
        exact first
      rw [opens, here] at open_run
      exact bne_iff_ne.mp (Bool.and_eq_true_iff.mp open_run).1
  last := by
    refine forall_getLast?_append (fun t last => ?_) fun t member => ?_
    · rw [List.getLast?_append_of_ne_nil _ matched.some_front] at last
      rw [lastKind, Option.mem_def.mp last] at apart
      exact apart
    · rw [matched.closed.maximal.kind_eq t (List.mem_of_mem_take member)]
      exact glyph

end Matched

theorem Wraps.unique {mark mark' : Kind} {n n' : Nat} (first : Wraps kind mark n)
    (second : Wraps kind mark' n') : mark = mark' ∧ n = n' := by
  cases first <;> cases second <;> exact ⟨rfl, rfl⟩

theorem Wraps.le_glueLimit {mark : Kind} {n : Nat} (wraps : Wraps kind mark n) :
    1 ≤ n ∧ n ≤ Tree.glueLimit := by
  cases wraps <;> decide

def Head.Encloses (tokens : List Token) : Head → Prop
  | .plain _ => True
  | .code more close => ∃ opening front mid rest,
    Matched .backtick (fun _ n => n == more + 1) tokens opening front mid rest ∧
      opening.length = more + 1 ∧ close = more + 1 + front.length
  | .wrapped kind mark more close =>
    Wraps kind mark (more + 1) ∧ Tight (content tokens (more + 1) close)

theorem tight_of_closingRun? {width k : Nat} (same : t.kind = kind) (glyph : kind ≠ .whitespace)
    (open_run : opens (runLength kind (t :: ts)) (t :: ts) = true)
    (fits : width ≤ runLength kind (t :: ts)) (inside : k ≤ run.length)
    (blank : ∀ before n, accepts before n = true → before ≠ .whitespace)
    (found : closingRun? kind (runLength kind (t :: ts)) accepts (t :: ts) = some run) :
    Tight (content (t :: ts) width (run.start + k)) := by
  obtain ⟨opening, front, mid, rest, matched, length, rfl⟩ := exists_matched same found
  rw [← length] at open_run fits
  rw [matched.content_eq fits inside]
  exact matched.tight_content glyph open_run (blank _ _ matched.closed.accepted) _ _

theorem Head.Reads.encloses {head : Head} (reads : head.Reads t ts) :
    head.Encloses (t :: ts) := by
  cases reads with
  | plain => exact True.intro
  | code same width found =>
    rw [← width] at found
    obtain ⟨opening, front, mid, rest, matched, length, rfl⟩ := exists_matched same found
    rw [width] at matched length
    exact ⟨opening, front, mid, rest, matched, length, by rw [length]⟩
  | wrapped wraps delimits open_run fits found blank inside =>
    obtain ⟨c, _, glyph⟩ := delimits
    exact ⟨wraps, tight_of_closingRun? rfl (markKind?_spec glyph).1 open_run fits
      (Nat.le_of_add_right_le inside) blank found⟩

theorem head_encloses (t : Token) (ts : List Token) : (head t ts).Encloses (t :: ts) :=
  (head_reads t ts).encloses

end Inline

end MarkdownEditing
