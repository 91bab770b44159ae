import MarkdownEditing.Proofs.Syntax.Indents
import MarkdownEditing.Proofs.Syntax.Lockstep

namespace MarkdownEditing

open Token (Aligned)

namespace Cursor

def stand (c : Cursor) : Cursor := { c.skipBlank with base := c.skipBlank.column }

def behindQuotes : Nat → Cursor → Option Cursor
  | 0, c => some c.stand
  | n + 1, c =>
    match c.skipBlank.rest with
    | t :: ts => if t.kind = .gt then behindQuotes n (afterQuoteMark c.skipBlank.column ts) else none
    | [] => none

/-- Nothing but words begins at the cursor, no matter what indentation is counted from. -/
def Idle (c : Cursor) : Prop :=
  BlockStart.ofCursor { c with base := c.column } = .blank ∨
    BlockStart.ofCursor { c with base := c.column } = .text

variable {c d : Cursor}

theorem behindQuotes_base (n : Nat) (c : Cursor) (base : Nat) :
    { c with base := base }.behindQuotes n = c.behindQuotes n := by
  cases n <;> rfl

theorem base_afterQuoteMark {column column' : Nat} {ts us : List Token} (rest : Aligned ts us)
    (same : column = column') : (afterQuoteMark column ts).base = (afterQuoteMark column' us).base := by
  have blank := blank_congr (c := ⟨ts, column + 1, 0⟩) (d := ⟨us, column' + 1, 0⟩) rest
  have length := congrArg List.length blank
  simp only [afterQuoteMark, same]
  exact congrArg (column' + 1 + ·) length

theorem Idle.ne_quote (idle : c.Idle) : ∀ t ∈ c.rest.head?, t.kind ≠ .gt := by
  obtain ⟨ts, column, base⟩ := c
  intro t found mark
  cases ts with
  | nil => cases found
  | cons u ts =>
    cases found
    have quote : BlockStart.ofCursor ⟨t :: ts, column, column⟩ = .quote := by
      simp [BlockStart.ofCursor, nearBase, mark]
    rcases idle with starts | starts <;> exact absurd (quote.symm.trans starts) (by simp)

theorem Idle.ofCursor_eq (idle : c.Idle) (base : Nat) :
    BlockStart.ofCursor { c with base := base } =
      BlockStart.ofCursor { c with base := c.column } := by
  obtain ⟨ts, column, base'⟩ := c
  cases ts with
  | nil => rfl
  | cons t ts =>
    have near : (⟨t :: ts, column, column⟩ : Cursor).nearBase = true := by simp [nearBase]
    by_cases near' : (⟨t :: ts, column, base⟩ : Cursor).nearBase = true
    · exact BlockStart.ofCursor_congr (Token.aligned_refl _) fun _ => near'.trans near.symm
    · have far : BlockStart.ofCursor ⟨t :: ts, column, base⟩ = .text := by
        rw [BlockStart.ofCursor]
        exact if_neg near'
      rcases idle with starts | starts
      · have begins := BlockStart.ofCursor_reads ⟨t :: ts, column, column⟩
        rw [starts] at begins
        cases begins
      · exact far.trans starts.symm

theorem Idle.congr (idle : c.Idle) (rest : Aligned c.rest d.rest) : d.Idle := by
  have same : BlockStart.ofCursor { c with base := c.column } =
      BlockStart.ofCursor { d with base := d.column } :=
    BlockStart.ofCursor_congr rest fun _ => by simp [nearBase]
  rw [Idle, ← same]
  exact idle

theorem Idle.ofCursor_eq_text (idle : c.Idle) (some_left : c.rest ≠ []) :
    BlockStart.ofCursor c = .text := by
  have same : BlockStart.ofCursor c = BlockStart.ofCursor { c with base := c.column } :=
    idle.ofCursor_eq c.base
  rcases idle with starts | starts
  · have none_left := BlockStart.ofCursor_reads { c with base := c.column }
    rw [starts] at none_left
    exact absurd none_left some_left
  · exact same.trans starts

/-- What begins where only words do is the same at every indentation. -/
theorem Idle.ofCursor_congr (idle : c.Idle) (rest : Aligned c.rest d.rest) :
    BlockStart.ofCursor c = BlockStart.ofCursor d := by
  have near : BlockStart.ofCursor { c with base := c.column } =
      BlockStart.ofCursor { d with base := d.column } :=
    BlockStart.ofCursor_congr rest fun _ => by simp [nearBase]
  exact (idle.ofCursor_eq c.base).trans (near.trans ((idle.congr rest).ofCursor_eq d.base).symm)

end Cursor

namespace Container

def GoesOn (column : Nat) : List Container → Prop
  | [] => False
  | .quote :: _ => False
  | .list _ :: containers => GoesOn column containers
  | .item content :: containers => content ≤ column ∨ GoesOn column containers

theorem Increasing.not_goesOn {least column : Nat} {containers : List Container}
    (increasing : Increasing least containers) (left : column < least) :
    ¬GoesOn column containers := by
  induction containers generalizing least with
  | nil => exact fun goes => goes
  | cons x xs ih =>
    cases x with
    | quote => exact fun goes => goes
    | list style => exact ih increasing left
    | item content =>
      obtain ⟨more, later⟩ := increasing
      rintro (here | goes)
      · omega
      · exact ih later (by omega) goes

/-- What a line begins with, behind the quote marks of the quotes around an item, is on the same side
of the item's content before and after: left of it or not, and indented in it too far for a block to
begin or not. The latter is of no concern where an item inside goes on, nor where the line is `inert`;
a line that is, and may be `lazy`, can be anywhere. -/
def Sides (inert : Cursor → Prop) (lazy : Prop) (xs ys : List Container) (c : Cursor) : Prop :=
  ∀ ⦃outer inner outer' inner' : List Container⦄ ⦃column column' : Nat⦄ ⦃stand : Cursor⦄,
    xs = outer ++ .item column :: inner → ys = outer' ++ .item column' :: inner' →
    outer.length = outer'.length →
    c.behindQuotes (outer.count .quote) = some stand → stand.rest ≠ [] →
      (inert stand ∧ lazy) ∨
        ((stand.column < column ↔ stand.column < column') ∧
          (inert stand ∨ GoesOn stand.column inner ∨
            (stand.column ≤ column + Cursor.maxIndent ↔
              stand.column ≤ column' + Cursor.maxIndent)))

namespace Sides

variable {inert : Cursor → Prop} {lazy : Prop} {xs ys : List Container} {c : Cursor}
  {x y : Container}

theorem set_base (sides : Sides inert lazy xs ys c) (base : Nat) :
    Sides inert lazy xs ys { c with base := base } := by
  intro outer inner outer' inner' column column' stand front front' length here
  rw [Cursor.behindQuotes_base] at here
  exact sides front front' length here

theorem of_cons (sides : Sides inert lazy (x :: xs) (y :: ys) c) (other : x ≠ .quote) :
    Sides inert lazy xs ys c := by
  intro outer inner outer' inner' column column' stand front front' length here
  refine @sides (x :: outer) _ (y :: outer') _ _ _ _ (by rw [front]; rfl)
    (by rw [front']; rfl) (congrArg Nat.succ length) ?_
  rw [List.count_cons_of_ne other]
  exact here

theorem tail_quote (sides : Sides inert lazy (.quote :: xs) (.quote :: ys) c) {t : Token}
    {ts : List Token} (shape : c.skipBlank.rest = t :: ts) (mark : t.kind = .gt) :
    Sides inert lazy xs ys (Cursor.afterQuoteMark c.skipBlank.column ts) := by
  intro outer inner outer' inner' column column' stand front front' length here
  refine @sides (.quote :: outer) _ (.quote :: outer') _ _ _ _ (by rw [front]; rfl)
    (by rw [front']; rfl) (congrArg Nat.succ length) ?_
  rw [List.count_cons_self, Cursor.behindQuotes, shape]
  dsimp only
  rw [if_pos mark]
  exact here

end Sides

end Container

namespace Continuation

open Container (Increasing GoesOn Sides)

variable {xs ys : List Container} {c d : Cursor}

theorem eq_stop (none_count : (ofLine xs c).count = 0) : ofLine xs c = stop c := by
  cases xs with
  | nil => rfl
  | cons x xs =>
    cases x with
    | quote =>
      rw [ofLine] at none_count ⊢
      split at none_count
      · split at none_count
        · cases none_count
        · rename_i other
          rw [if_neg other]
      · rfl
    | list style =>
      rw [ofLine] at none_count ⊢
      split at none_count
      · rename_i here
        exact if_pos here
      · cases none_count
    | item column =>
      rw [ofLine] at none_count ⊢
      split at none_count
      · rename_i outdented
        rw [if_pos outdented]
      · cases none_count

theorem ofLine_list (style : ListStyle) (xs : List Container) (c : Cursor) :
    ofLine (.list style :: xs) c =
      { ofLine xs c with
        count := if (ofLine xs c).count = 0 then 0 else (ofLine xs c).count + 1 } := by
  rw [ofLine]
  split
  · rename_i none_count
    rw [eq_stop none_count]
    rfl
  · rfl

theorem ofLine_of_ne_quote (other : ∀ t ∈ c.skipBlank.rest.head?, t.kind ≠ .gt) :
    (ofLine xs c).lead = [] ∧ (ofLine xs c).cursor.rest = c.rest ∧
      (ofLine xs c).cursor.column = c.column := by
  induction xs generalizing c with
  | nil => exact ⟨rfl, rfl, rfl⟩
  | cons x xs ih =>
    cases x with
    | quote =>
      rw [ofLine]
      split
      · rename_i t ts shape
        rw [if_neg fun mark => other t (by rw [shape]; rfl) mark.1]
        exact ⟨rfl, rfl, rfl⟩
      · exact ⟨rfl, rfl, rfl⟩
    | list style =>
      rw [ofLine]
      split
      · exact ⟨rfl, rfl, rfl⟩
      · exact ih other
    | item column =>
      rw [ofLine]
      split
      · exact ⟨rfl, rfl, rfl⟩
      · exact ih (c := { c with base := max c.base column }) other

/-- How two lines go on: they take the same and leave the same, and go on with as many containers and
are indented as much, unless it does not matter. -/
structure Matches (inert : Cursor → Prop) (lazy : Prop) (a b : Continuation) : Prop where
  lead : Tree.Aligned a.lead b.lead
  rest : Aligned a.cursor.rest b.cursor.rest
  column : a.cursor.column = b.cursor.column
  count : (inert a.cursor.stand ∧ lazy ∧ a.cursor.skipBlank.rest ≠ []) ∨ (a.count = b.count ∧
    (inert a.cursor.stand ∨ (a.cursor.skipBlank.rest ≠ [] →
      a.cursor.skipBlank.nearBase = b.cursor.skipBlank.nearBase)))

section

variable {inert : Cursor → Prop} {lazy : Prop} {b lo lo' : Nat}

theorem nearBase_eq (rest : Aligned c.rest d.rest) (column : c.column = d.column)
    (base : c.base = max b lo) (base' : d.base = max b lo')
    (near : c.skipBlank.column ≤ lo + Cursor.maxIndent ↔
      c.skipBlank.column ≤ lo' + Cursor.maxIndent) :
    c.skipBlank.nearBase = d.skipBlank.nearBase := by
  have here := Cursor.column_skipBlank rest column
  have base_eq : c.skipBlank.base = max b lo := base
  have base_eq' : d.skipBlank.base = max b lo' := base'
  rw [Cursor.nearBase, Cursor.nearBase, base_eq, base_eq', ← here, decide_eq_decide]
  omega

theorem matches_stop (rest : Aligned c.rest d.rest) (column : c.column = d.column)
    (base : c.base = max b lo) (base' : d.base = max b lo')
    (near : c.skipBlank.rest ≠ [] → inert c.stand ∨
      (c.skipBlank.column ≤ lo + Cursor.maxIndent ↔ c.skipBlank.column ≤ lo' + Cursor.maxIndent)) :
    Matches inert lazy (stop c) (stop d) where
  lead := Tree.aligned_nil
  rest := rest
  column := column
  count := by
    refine Or.inr ⟨rfl, ?_⟩
    by_cases none_left : c.skipBlank.rest = []
    · exact Or.inr fun some_left => absurd none_left some_left
    · exact (near none_left).imp_right fun near _ => nearBase_eq rest column base base' near

theorem matches_idle (idle : ∀ c, inert c → c.Idle) (rest : Aligned c.rest d.rest)
    (column : c.column = d.column) (here : inert c.stand) (may : lazy)
    (some_left : c.skipBlank.rest ≠ []) : Matches inert lazy (ofLine xs c) (ofLine ys d) := by
  have stand : c.stand.Idle := idle _ here
  have other := stand.ne_quote
  have other' := (stand.congr (d := d.stand) (Cursor.aligned_skipBlank rest)).ne_quote
  obtain ⟨lead, left, reached⟩ := @ofLine_of_ne_quote xs c other
  obtain ⟨lead', left', reached'⟩ := @ofLine_of_ne_quote ys d other'
  have same : (ofLine xs c).cursor.stand = c.stand := by
    simp only [Cursor.stand, Cursor.skipBlank, Cursor.blank, left, reached]
  refine ⟨?_, ?_, ?_, Or.inl ⟨same ▸ here, may, ?_⟩⟩
  · rw [lead, lead']
    exact Tree.aligned_nil
  · rw [left, left']
    exact rest
  · rw [reached, reached', column]
  · have rest := congrArg Cursor.rest same
    exact fun none_left => some_left (rest.symm.trans none_left)

theorem Matches.succ {a b : Continuation} (inner : Matches inert lazy a b) {lead lead' : List Tree}
    (leads : Tree.Aligned lead lead') :
    Matches inert lazy ⟨a.count + 1, lead, a.cursor⟩ ⟨b.count + 1, lead', b.cursor⟩ :=
  ⟨leads, inner.rest, inner.column,
    inner.count.imp_right fun counts => ⟨congrArg Nat.succ counts.1, counts.2⟩⟩

theorem matches_quote (idle : ∀ c, inert c → c.Idle) (rest : Aligned c.rest d.rest)
    (column : c.column = d.column) (base : c.base = max b lo) (base' : d.base = max b lo')
    (near : c.skipBlank.rest ≠ [] → inert c.stand ∨
      (c.skipBlank.column ≤ lo + Cursor.maxIndent ↔ c.skipBlank.column ≤ lo' + Cursor.maxIndent))
    (inner : ∀ t ts us, c.skipBlank.rest = t :: ts → Aligned ts us → t.kind = .gt →
      Matches inert lazy (ofLine xs (Cursor.afterQuoteMark c.skipBlank.column ts))
        (ofLine ys (Cursor.afterQuoteMark d.skipBlank.column us))) :
    Matches inert lazy (ofLine (.quote :: xs) c) (ofLine (.quote :: ys) d) := by
  have left := Cursor.aligned_skipBlank rest
  cases shape : c.skipBlank.rest with
  | nil =>
    rw [shape] at left
    have shape' := List.forall₂_nil_left_iff.mp left
    rw [ofLine, ofLine, shape, shape']
    exact matches_stop rest column base base' near
  | cons t ts =>
    rw [shape] at left
    obtain ⟨u, us, alike_mark, later, shape'⟩ := List.forall₂_cons_left_iff.mp left
    have kind := alike_mark.kind_eq
    rw [ofLine, ofLine, shape, shape']
    dsimp only
    by_cases mark : t.kind = .gt
    · have not_idle : ¬inert c.stand := fun here =>
        (idle _ here).ne_quote t (by rw [Cursor.stand, shape]; rfl) mark
      have near := (near (by rw [shape]; simp)).resolve_left not_idle
      rw [← nearBase_eq rest column base base' near, ← kind]
      split
      · have blanks := Tree.aligned_leaves (Token.aligned_refl c.blank)
        have inside := inner t ts us shape later mark
        rw [← Cursor.blank_congr rest]
        exact inside.succ (blanks.append
          ((Tree.aligned_token .quoteMark (.cons alike_mark .nil)).append inside.lead))
      · exact matches_stop rest column base base' fun _ => Or.inr near
    · have mark' : ¬u.kind = .gt := kind ▸ mark
      rw [if_neg fun both => mark both.1, if_neg fun both => mark' both.1]
      exact matches_stop rest column base base' near

theorem matches_item {content content' : Nat} (idle : ∀ c, inert c → c.Idle)
    (rest : Aligned c.rest d.rest) (column : c.column = d.column) (base : c.base = max b lo)
    (base' : d.base = max b lo') (inside : Increasing content xs)
    (sides : Sides inert lazy (.item content :: xs) (.item content' :: ys) c)
    (near : c.skipBlank.rest ≠ [] → inert c.stand ∨
      GoesOn c.skipBlank.column (.item content :: xs) ∨
      (c.skipBlank.column ≤ lo + Cursor.maxIndent ↔ c.skipBlank.column ≤ lo' + Cursor.maxIndent))
    (inner : (c.skipBlank.rest ≠ [] → inert c.stand ∨ GoesOn c.skipBlank.column xs ∨
        (c.skipBlank.column ≤ content + Cursor.maxIndent ↔
          c.skipBlank.column ≤ content' + Cursor.maxIndent)) →
      Matches inert lazy (ofLine xs { c with base := max c.base content })
        (ofLine ys { d with base := max d.base content' })) :
    Matches inert lazy (ofLine (.item content :: xs) c) (ofLine (.item content' :: ys) d) := by
  have here := Cursor.column_skipBlank rest column
  have empty : c.skipBlank.rest = [] ↔ d.skipBlank.rest = [] := by
    rw [← List.length_eq_zero_iff, ← List.length_eq_zero_iff,
      (Cursor.aligned_skipBlank rest).length_eq]
  by_cases none_left : c.skipBlank.rest = []
  · rw [ofLine, ofLine, if_neg fun out => out.1 none_left,
      if_neg fun out => out.1 (empty.mp none_left)]
    have inside := inner fun some_left => absurd none_left some_left
    exact inside.succ inside.lead
  · have some_left := mt empty.mpr none_left
    rcases @sides [] _ [] _ _ _ _ rfl rfl rfl rfl none_left with both | ⟨side, near'⟩
    · exact matches_idle idle rest column both.1 both.2 none_left
    · by_cases outdented : c.skipBlank.column < content
      · have outdented' : d.skipBlank.column < content' := here ▸ side.mp outdented
        rw [ofLine, ofLine, if_pos ⟨none_left, outdented⟩, if_pos ⟨some_left, outdented'⟩]
        refine matches_stop rest column base base' fun some_left =>
          (near some_left).imp_right fun either => either.resolve_left ?_
        rintro (here | goes)
        · omega
        · exact inside.not_goesOn outdented goes
      · have inside' : ¬d.skipBlank.column < content' := fun out =>
          outdented (side.mpr (here ▸ out))
        rw [ofLine, ofLine, if_neg fun out => outdented out.2, if_neg fun out => inside' out.2]
        have inside := inner fun _ => near'
        exact inside.succ inside.lead

theorem matches_ofLine (idle : ∀ c, inert c → c.Idle)
    (alike : List.Forall₂ Container.Alike xs ys) (rest : Aligned c.rest d.rest)
    (column : c.column = d.column) (base : c.base = max b lo) (base' : d.base = max b lo')
    (increasing : Increasing lo xs) (increasing' : Increasing lo' ys)
    (sides : Sides inert lazy xs ys c)
    (near : c.skipBlank.rest ≠ [] → inert c.stand ∨ GoesOn c.skipBlank.column xs ∨
      (c.skipBlank.column ≤ lo + Cursor.maxIndent ↔ c.skipBlank.column ≤ lo' + Cursor.maxIndent)) :
    Matches inert lazy (ofLine xs c) (ofLine ys d) := by
  -- On the containers, from the outside in: a quote mark sets both margins back to the cursor, an
  -- item moves each to its own content.
  induction alike generalizing c d b lo lo' with
  | nil =>
    refine matches_stop rest column base base' fun some_left => (near some_left).imp_right ?_
    rintro (goes | near)
    · exact absurd goes fun goes => goes
    · exact near
  | cons same alike ih =>
    cases same with
    | quote =>
      refine matches_quote idle rest column base base' (fun some_left =>
        (near some_left).imp_right fun either => either.resolve_left fun goes => goes) ?_
      intro t ts us shape later mark
      have here := Cursor.column_skipBlank rest column
      exact ih later (congrArg Nat.succ here) (Nat.max_zero _).symm
        ((Cursor.base_afterQuoteMark later here).symm.trans (Nat.max_zero _).symm) increasing
        increasing' (sides.tail_quote shape mark) fun _ => Or.inr (Or.inr Iff.rfl)
    | list style =>
      have inner := ih rest column base base' increasing increasing' (sides.of_cons (by simp)) near
      rw [ofLine_list, ofLine_list]
      exact ⟨inner.lead, inner.rest, inner.column, inner.count.imp_right fun counts =>
        ⟨by dsimp only; rw [counts.1], counts.2⟩⟩
    | item content content' =>
      obtain ⟨least, inside⟩ := increasing
      obtain ⟨least', inside'⟩ := increasing'
      refine matches_item idle rest column base base' inside sides near fun near => ?_
      refine ih (b := b) rest column ?_ ?_ inside inside'
        (Sides.set_base (sides.of_cons (by simp)) _) near
      · dsimp only
        omega
      · dsimp only
        omega

end

end Continuation

end MarkdownEditing
