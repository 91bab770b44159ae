import MarkdownEditing.Proofs.Markup.Runs
import MarkdownEditing.Proofs.Syntax.Flush
import MarkdownEditing.Proofs.Syntax.Rescanned

namespace MarkdownEditing

open Token (Aligned join scan)
open Text (Interleaved)

/-- The change puts the number of an item in the place of another one, with which one of the tokens
`ts` begins. The first of these is at offset `pos`. -/
structure Change.NumberAt (c : Change) (pos : Nat) (ts above : List Token) (digits later : Text)
    (below : List Token) : Prop where
  parts : ts = above ++ ⟨.text, digits ++ later⟩ :: below
  number : BlockStart.isItemNumber digits = true
  inserted : BlockStart.isItemNumber c.insert = true
  ends : later = [] ∨ later = ['.']
  start : c.start = pos + (join above).size
  stop : c.stop = c.start + digits.size

def Change.Rewrites (c : Change) (pos : Nat) (ts : List Token) : Prop :=
  ∃ above digits later below, c.NumberAt pos ts above digits later below

namespace Change

variable {c : Change} {pos : Nat} {ts above below front us : List Token} {digits later : Text}
  {token : Token}

theorem NumberAt.behind_cons (here : c.NumberAt (pos + (join front).size + token.text.size) ts above
      digits later below) :
    c.NumberAt pos (front ++ token :: ts) (front ++ token :: above) digits later below where
  parts := by rw [here.parts, List.append_assoc, List.cons_append]
  number := here.number
  inserted := here.inserted
  ends := here.ends
  start := by
    rw [here.start, Token.join_append, Token.join_cons, Text.size_append, Text.size_append]
    omega
  stop := here.stop

/-- A number that begins behind the start of a token is in the tokens behind it. -/
theorem Rewrites.of_behind (rewrites : c.Rewrites pos (front ++ token :: us))
    (later_on : pos + (join front).size < c.start) :
    c.Rewrites (pos + (join front).size + token.text.size) us := by
  obtain ⟨above, digits, later, below, here⟩ := rewrites
  have start := here.start
  rcases List.append_eq_append_iff.mp here.parts with ⟨more, rfl, rest⟩ | ⟨more, rfl, rest⟩
  · cases more with
    | nil =>
      rw [List.append_nil] at start
      omega
    | cons first more =>
      obtain ⟨rfl, rfl⟩ := List.cons.inj rest
      refine ⟨more, digits, later, below, rfl, here.number, here.inserted, here.ends, ?_, here.stop⟩
      rw [start, Token.join_append, Token.join_cons, Text.size_append, Text.size_append]
      omega
  · rw [Token.join_append, Text.size_append] at later_on
    omega

end Change

namespace Token

variable {ts above below : List Token} {pos pos' : Nat} {c : Change}
  {changes : List Change} {gaps digits : List Text} {spans spans' : List (Nat × Nat)}
  {u u' later : Text}

/-- The tokens `us` are the tokens `ts`, begun at offset `pos`, with the numbers that the changes put
in. -/
structure Rewritten (changes : List Change) (pos : Nat) (ts us : List Token) : Prop where
  aligned : Aligned ts us
  tokens : ∀ k, ts[k]? = us[k]? ∨ ∃ c ∈ changes, ∃ above digits later below,
    c.NumberAt pos ts above digits later below ∧ above.length = k ∧
      us[k]? = some ⟨.text, c.insert ++ later⟩

theorem Rewritten.cons {number more : Text} {us : List Token}
    (here : c.NumberAt pos ts above number more below)
    (rest : Rewritten changes (pos + (join above).size + (number ++ more).size) below us) :
    Rewritten (c :: changes) pos ts (above ++ ⟨.text, c.insert ++ more⟩ :: us) where
  aligned := by
    rw [here.parts]
    exact (aligned_refl above).append (.cons (.number here.number here.inserted here.ends) rest.aligned)
  tokens k := by
    have parts := here.parts
    rcases Nat.lt_trichotomy k above.length with inside | rfl | behind
    · rw [parts, List.getElem?_append_left inside, List.getElem?_append_left inside]
      exact Or.inl rfl
    · refine Or.inr ⟨c, List.mem_cons_self, above, number, more, below, here, rfl, ?_⟩
      rw [List.getElem?_append_right (Nat.le_refl _), Nat.sub_self]
      rfl
    · obtain ⟨n, rfl⟩ : ∃ n, k = above.length + (n + 1) := ⟨k - above.length - 1, by omega⟩
      rw [List.getElem?_append_right (Nat.le_add_right _ _), Nat.add_sub_cancel_left,
        List.getElem?_cons_succ]
      rcases rest.tokens n with same | ⟨d, member, between, digits, later, below', found, rfl, token⟩
      · rw [parts, List.getElem?_append_right (Nat.le_add_right _ _), Nat.add_sub_cancel_left,
          List.getElem?_cons_succ]
        exact Or.inl same
      · refine Or.inr ⟨d, List.mem_cons_of_mem _ member, above ++ ⟨.text, number ++ more⟩ :: between,
          digits, later, below', ?_, by simp, token⟩
        rw [parts]
        exact found.behind_cons

theorem Rewritten.flush {us : List Token} (rewritten : Rewritten changes pos ts us)
    (sizes : ∀ c ∈ changes, c.start + c.insert.size = c.stop) : Flush ts us := by
  refine List.forall₂_iff_get.mpr ⟨rewritten.aligned.length_eq, fun i inside inside' => ?_⟩
  refine ⟨(List.forall₂_iff_get.mp rewritten.aligned).2 i inside inside', ?_⟩
  have first : ts[i]? = some (ts.get ⟨i, inside⟩) := List.getElem?_eq_getElem inside
  have second : us[i]? = some (us.get ⟨i, inside'⟩) := List.getElem?_eq_getElem inside'
  rcases rewritten.tokens i with same | ⟨c, member, above, digits, later, below, here, rfl, token⟩
  · rw [first, second] at same
    rw [Option.some.inj same]
  · have old : ts[above.length]? = some ⟨.text, digits ++ later⟩ := by
      rw [here.parts, List.getElem?_append_right (Nat.le_refl _), Nat.sub_self]
      rfl
    have width : List.length digits = List.length c.insert := by
      have all := List.all_eq_true.mpr (BlockStart.isItemNumber_eq_true.mp here.number).2.2
      have all' := List.all_eq_true.mpr (BlockStart.isItemNumber_eq_true.mp here.inserted).2.2
      rw [← Text.size_of_digits all, ← Text.size_of_digits all']
      have size := sizes c member
      have stop := here.stop
      omega
    rw [← Option.some.inj (old.symm.trans first), ← Option.some.inj (token.symm.trans second)]
    simp [width]

/-- The new text is made of the same tokens, up to the numbers that the changes put in. -/
theorem exists_rewritten (old : Interleaved pos gaps digits spans u)
    (new : Interleaved pos' gaps (changes.map Change.insert) spans' u')
    (places : (changes.map fun c => (c.start, c.stop)) = spans) (parts : u = later ++ join ts)
    (rewrites : ∀ c ∈ changes, c.Rewrites (pos + later.size) ts) :
    ∃ us, u' = later ++ join us ∧ Rewritten changes (pos + later.size) ts us := by
  -- On the gaps between the old numbers; `later` is what is left of the token that held the last.
  induction old generalizing changes pos' spans' u' later ts with
  | last pos gap =>
    obtain rfl := List.map_eq_nil_iff.mp places
    cases new
    exact ⟨ts, parts, aligned_refl ts, fun k => Or.inl rfl⟩
  | @piece pos gap piece gaps digits spans u rest ih =>
    cases changes with
    | nil => cases places
    | cons c changes =>
      obtain ⟨place, places⟩ := List.cons.inj places
      obtain ⟨start, stop⟩ := Prod.mk.inj place
      cases new with
      | @piece _ _ _ _ _ spans' v new =>
      obtain ⟨above, number, more, below, here⟩ := rewrites c List.mem_cons_self
      have starts := here.start
      have stops := here.stop
      have texts : gap ++ (piece ++ u) =
          (later ++ join above) ++ (number ++ (more ++ join below)) := by
        rw [← List.append_assoc, parts, here.parts, join_append, join_cons]
        simp only [List.append_assoc]
      obtain ⟨kept, behind⟩ := Text.append_inj_of_size texts (by rw [Text.size_append]; omega)
      have same_size : gap.size = later.size + (join above).size := by
        rw [kept, Text.size_append]
      obtain ⟨same, left⟩ := Text.append_inj_of_size behind (by omega)
      have reached : pos + later.size + (join above).size + (number ++ more).size =
          pos + gap.size + piece.size + more.size := by
        rw [Text.size_append, same]
        omega
      have further : ∀ d ∈ changes, d.Rewrites (pos + gap.size + piece.size + more.size) below := by
        intro d member
        have place : (d.start, d.stop) ∈ spans := by
          rw [← places]
          exact List.mem_map_of_mem member
        have order := (rest.spans_within _ place).1
        have some_digit := Text.size_pos (BlockStart.isItemNumber_eq_true.mp here.number).1
        have behind := rewrites d (List.mem_cons_of_mem _ member)
        rw [here.parts] at behind
        rw [← reached]
        refine behind.of_behind ?_
        rw [same] at order
        omega
      obtain ⟨us, new_text, rewritten⟩ := ih new places left further
      refine ⟨above ++ ⟨.text, c.insert ++ more⟩ :: us, ?_, ?_⟩
      · rw [kept, new_text, join_append, join_cons]
        simp only [List.append_assoc]
      · rw [← reached] at rewritten
        exact .cons here rewritten

end Token

namespace Token

variable {t digits : Text} {glyph : Char} {raw rest : List Token}

theorem scan_mark (cut : scan t = raw ++ rest) (mark : join raw = digits ++ [glyph])
    (some_digit : digits ≠ []) (all : digits.all Char.isDigit = true)
    (delimiter : glyph = '.' ∨ glyph = ')') :
    ∃ later : Text, ∃ more, raw = ⟨.text, digits ++ later⟩ :: more ∧ (later = [] ∨ later = ['.']) := by
  have words : ∀ c ∈ digits, isWordChar c = true := fun c member =>
    (BlockStart.word_of_digits all c member).1
  have text : t = digits ++ ([glyph] ++ join rest) := by
    rw [← join_scan t, cut, join_append, mark, List.append_assoc]
  cases raw with
  | nil => simp at mark
  | cons token more =>
    rw [text] at cut
    rcases delimiter with rfl | rfl
    · have pointed : ∀ c ∈ digits ++ ['.'], isWordChar c = true :=
        List.forall_mem_append.mpr ⟨words, List.forall_mem_singleton.mpr rfl⟩
      have begins : (digits ++ (['.'] ++ join rest)).BeginsWord := by
        cases digits with
        | nil => exact absurd rfl some_digit
        | cons c digits => exact ⟨c, _, rfl, words c List.mem_cons_self⟩
      rw [scan_of_word begins, ← List.append_assoc, List.takeWhile_append_of_pos pointed] at cut
      obtain ⟨rfl, _⟩ := List.cons.inj cut
      -- the mark ends with the point, and so does its word
      have sizes := congrArg List.length mark
      simp only [join_cons, List.length_append] at sizes
      have none_left : (join rest).takeWhile isWordChar = [] := List.length_eq_zero_iff.mp (by omega)
      exact ⟨['.'], more, by rw [none_left, List.append_nil], Or.inr rfl⟩
    · rw [scan_word words some_digit (by rintro _ ⟨⟩; rfl)] at cut
      obtain ⟨rfl, _⟩ := List.cons.inj cut
      exact ⟨[], more, by rw [List.append_nil], Or.inl rfl⟩

end Token

namespace Place

variable {t : Text} {q : Place} {digits : Text} {glyph : Char}

/-- The mark of an item in the walk through the tree, and the token that its number begins among the
tokens of the text. -/
theorem IsNumbered.exists_walk (numbered : q.IsNumbered digits glyph)
    (inside : q.In (Tree.ofText t)) :
    ∃ before, ∃ later : Text, ∃ more after, (Tree.ofText t).walk =
        before ++ .leaf .listMark (⟨.text, digits ++ later⟩ :: more) :: after ∧
      Token.scan t = before.flatMap Visit.raw ++
        ⟨.text, digits ++ later⟩ :: (more ++ after.flatMap Visit.raw) ∧
      (Visit.text before).size = q.start ∧ (later = [] ∨ later = ['.']) := by
  obtain ⟨raw, rest, shape, mark⟩ := numbered.shape
  have walk := inside.walk_eq
  rw [shape, Tree.walk_node, Tree.walkAll_cons, Tree.walk_token] at walk
  have tokens := congrArg (List.flatMap Visit.raw) walk
  rw [Tree.raw_walk, Tree.raw_ofText] at tokens
  simp only [List.flatMap_append, List.flatMap_cons, Visit.raw, List.nil_append,
    List.append_assoc] at tokens
  have cut := Token.scan_join_behind tokens
  obtain ⟨later, more, rfl, ends⟩ := Token.scan_mark cut mark numbered.some_digit numbered.all
    numbered.delimiter
  refine ⟨before q.above ++ [.enter .listItem], later, more,
    Tree.walkAll rest ++ .leave :: after q.above, ?_, ?_, ?_, ends⟩
  · rw [walk]
    simp only [List.append_assoc, List.cons_append, List.nil_append]
  · rw [tokens]
    simp [Visit.raw]
  · rw [Visit.text_append, Visit.text_enter, Visit.text_nil, List.append_nil, inside.size_before]

end Place

end MarkdownEditing
