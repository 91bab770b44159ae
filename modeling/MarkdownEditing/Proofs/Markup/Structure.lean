import MarkdownEditing.Proofs.Markup.Rewritten
import MarkdownEditing.Proofs.Syntax.Outline

namespace MarkdownEditing

open Token (Aligned join scan)
open Place

section Renumber

variable {t : Text} {lineBreak : LineBreak} {p q list : Place} {offset : Int}
  (inside : list.In (Tree.ofText t)) (ordered : list.kind = .orderedList)
  (member : p ∈ list.items)

include inside ordered member

theorem recount_rewrites (following : q ∈ p.followingItems)
    (short : (recount offset q).insert.length ≤ 9) : (recount offset q).Rewrites 0 (scan t) := by
  obtain ⟨q_inside, glyph, numbered⟩ := followingItem_numbered inside ordered member following
  obtain ⟨before, later, more, after, -, tokens, size, ends⟩ := numbered.exists_walk q_inside
  refine ⟨before.flatMap Visit.raw, q.markDigits, later, more ++ after.flatMap Visit.raw, tokens,
    ?_, ?_, ends, ?_, rfl⟩
  · exact BlockStart.isItemNumber_eq_true.mpr ⟨numbered.some_digit, numbered.short,
      List.all_eq_true.mp numbered.all⟩
  · exact BlockStart.isItemNumber_eq_true.mpr
      ⟨Text.ofNat_ne_nil _, short, fun c => Text.isDigit_of_mem_ofNat⟩
  · rw [Nat.zero_add]
    exact size.symm

theorem recount_short (following : q ∈ p.followingItems)
    (size : (recount offset q).start + (recount offset q).insert.size = (recount offset q).stop) :
    (recount offset q).insert.length ≤ 9 := by
  obtain ⟨_, glyph, numbered⟩ := followingItem_numbered inside ordered member following
  have few := numbered.short
  rw [← Text.size_of_digits numbered.all] at few
  simp only [recount] at size ⊢
  rw [← Text.size_of_digits (Text.all_isDigit_ofNat _)]
  omega

theorem holds_mark (following : q ∈ p.followingItems) {above below : List Token} {token : Token}
    (parts : scan t = above ++ token :: below) (here : q.start = (join above).size) :
    ∃ marks, Visit.Holds (Tree.ofText t).walk above.length (.leaf .listMark marks) := by
  obtain ⟨q_inside, glyph, numbered⟩ := followingItem_numbered inside ordered member following
  obtain ⟨before, later, more, after, walk, tokens, size, -⟩ := numbered.exists_walk q_inside
  have some_text : ∀ u ∈ scan t, 0 < (join [u]).size := fun u member => by
    rw [Token.join_cons, Token.join_nil, List.append_nil]
    exact Text.size_pos (Token.text_ne_nil_of_mem_scan member)
  have begins : (join (before.flatMap Visit.raw)).size = (join above).size := size.trans here
  have same : above = before.flatMap Visit.raw :=
    front_unique (fun ts => (join ts).size) (fun a b => by rw [Token.join_append, Text.size_append])
      (parts.symm.trans tokens) (Nat.le_refl _)
      (Nat.lt_add_of_pos_right (some_text _ (by simp [parts]))) begins.le
      (begins ▸ Nat.lt_add_of_pos_right (some_text _ (by simp [tokens, Visit.raw])))
  refine ⟨_, before, after, walk, by rw [same], ?_⟩
  rw [same, Visit.raw, List.length_cons]
  omega

/-- The tokens of the new text are those of the old one, up to the numbers in the marks of items. -/
theorem recount_rewritten {m : Nat} {s : ChangeSet} {d' : Document}
    (made : ChangeSet.ofChanges ((p.followingItems.take m).map (recount offset)) t.size = .ok s)
    (changed : (Document.ofText t lineBreak).change? s = some d')
    (short : ∀ c ∈ s.changes, c.insert.length ≤ 9) :
    Token.Rewritten s.changes 0 (scan t) (scan d'.text) := by
  obtain ⟨_, gaps, same, old, new⟩ :=
    @recount_interleaves t lineBreak p list offset inside ordered member m s made
  rw [changed] at same
  cases same
  have all := @ofChanges_recount t p list offset inside ordered member m
  rw [made] at all
  cases all
  have rewrites : ∀ c ∈ (p.followingItems.take m).map (recount offset),
      c.Rewrites (0 + Text.size []) (scan t) := by
    intro c among
    have few := short c among
    obtain ⟨q, following, rfl⟩ := List.mem_map.mp among
    exact recount_rewrites inside ordered member (List.mem_of_mem_take following) few
  obtain ⟨us, text, rewritten⟩ := Token.exists_rewritten old new rfl
    (show t = [] ++ join (scan t) from (Token.join_scan t).symm) rewrites
  rw [text, List.nil_append, Token.scan_join_of_aligned rewritten.aligned]
  exact rewritten

theorem outline_of_rewritten {changes : List Change} {u : Text}
    (rewritten : Token.Rewritten changes 0 (scan t) (scan u))
    (marks : ∀ c ∈ changes, ∃ q ∈ p.followingItems, c.start = q.start)
    (steady : Stack.Steady (scan t) (scan u)) :
    (Tree.ofText u).outline = (Tree.ofText t).outline := by
  have walks := Tree.aligned_ofTokens steady rewritten.aligned (fun _ => Token.raw_of_mem_scan)
    (Token.spread_scan t)
  rw [Tree.outline_walk, Tree.outline_walk, Tree.ofText, Tree.ofText]
  refine (Visit.outline_congr (Visit.same_but_marks walks fun k => ?_) 0).symm
  rw [Tree.raw_walk, Tree.raw_walk, Tree.raw_ofTokens, Tree.raw_ofTokens]
  refine (rewritten.tokens k).imp_right ?_
  rintro ⟨c, among, above, digits, later, below, here, rfl, _⟩
  obtain ⟨q, following, place⟩ := marks c among
  refine holds_mark inside ordered member following here.parts ?_
  rw [← place, here.start, Nat.zero_add]

/-- Renumbering makes changes that apply. When the new numbers have at most nine digits and the text
is steady under the changes, and always when each number has as many digits as before, the tree of
the new text has the outline of the old one. -/
theorem renumber_keeps_outline : ∃ s d',
    ChangeSet.ofChanges (renumber p (Document.ofText t lineBreak) offset) t.size = .ok s ∧
    (Document.ofText t lineBreak).change? s = some d' ∧
    ((∀ c ∈ s.changes, c.insert.length ≤ 9) → Stack.Steady (scan t) (scan d'.text) →
      (Tree.ofText d'.text).outline = (Tree.ofText t).outline) ∧
    ((∀ c ∈ s.changes, c.start + c.insert.size = c.stop) →
      (Tree.ofText d'.text).outline = (Tree.ofText t).outline) := by
  have changes := @renumber_eq t lineBreak p list offset inside ordered member
  generalize runLength p.markNumber (p.followingItems.map markNumber) = m at changes
  have made := @ofChanges_recount t p list offset inside ordered member m
  obtain ⟨d', gaps, changed, _⟩ :=
    @recount_interleaves t lineBreak p list offset inside ordered member m _ made
  have rewritten := recount_rewritten inside ordered member made changed
  have marks : ∀ c ∈ (p.followingItems.take m).map (recount offset),
      ∃ q ∈ p.followingItems, c.start = q.start := by
    intro c among
    obtain ⟨q, following, rfl⟩ := List.mem_map.mp among
    exact ⟨q, List.mem_of_mem_take following, rfl⟩
  rw [changes]
  refine ⟨_, d', made, changed, fun short steady => ?_, fun sizes => ?_⟩
  · exact outline_of_rewritten inside ordered member (rewritten short) marks steady
  · have short : ∀ c ∈ (p.followingItems.take m).map (recount offset), c.insert.length ≤ 9 := by
      intro c among
      have size := sizes c among
      obtain ⟨q, following, rfl⟩ := List.mem_map.mp among
      exact recount_short inside ordered member (List.mem_of_mem_take following) size
    have steady := Stack.steady_of_flush ((rewritten short).flush sizes)
      (fun _ => Token.raw_of_mem_scan) (Token.spread_scan t)
    exact outline_of_rewritten inside ordered member (rewritten short) marks steady

end Renumber

theorem exists_first_item {t : Text} {changes : List Change} {later : List (List Change)}
    (shown : ((Enter.firstBlock t).kind,
      (Enter.firstBlock t).items.map fun p => renumber p (Document.ofText t .lf) 0) =
        (.orderedList, changes :: later)) :
    (Enter.firstBlock t).kind = .orderedList ∧
      ∃ p ∈ (Enter.firstBlock t).items, renumber p (Document.ofText t .lf) 0 = changes := by
  obtain ⟨ordered, all⟩ := Prod.mk.inj shown
  refine ⟨ordered, List.mem_map.mp ?_⟩
  rw [all]
  exact List.mem_cons_self

def nested (n : Nat) : Text :=
  ['8', '.', ' ', 'a', '\n', '9', '.', ' ', 'b', '\n', '\n'] ++ Text.spaces n ++ ['c']

def renested (n : Nat) : Text :=
  ['8', '.', ' ', 'a', '\n', '1', '0', '.', ' ', 'b', '\n', '\n'] ++ Text.spaces n ++ ['c']

theorem nested_tokens : scan (nested 4) = [⟨.text, ['8', '.']⟩, ⟨.whitespace, [' ']⟩,
    ⟨.text, ['a']⟩, ⟨.newline, ['\n']⟩, ⟨.text, ['9', '.']⟩, ⟨.whitespace, [' ']⟩, ⟨.text, ['b']⟩,
    ⟨.newline, ['\n']⟩, ⟨.newline, ['\n']⟩, ⟨.whitespace, Text.spaces 4⟩, ⟨.text, ['c']⟩] := by
  cbv

/-- Behind four spaces the last line stands in the content of the second item before and after. -/
theorem nested_steady : Stack.Steady (scan (nested 4)) (scan (renested 4)) where
  blanks i n mark raw blank _ _ next _ _ := by
    have among : blank ∈ scan (nested 4) := by
      rw [← Tree.raw_ofTokens (scan (nested 4)), ← Tree.raw_walk]
      exact List.mem_flatMap.mpr ⟨_, List.mem_of_getElem? next, List.mem_singleton_self _⟩
    have short : ∀ t ∈ scan (nested 4), t.text.length ≤ Cursor.tabStop ∧ '\t' ∉ t.text := by
      rw [nested_tokens]
      decide
    obtain ⟨few, no_tab⟩ := short blank among
    exact iff_of_true (Token.narrow_of_spaces few no_tab _) (Token.narrow_of_spaces few no_tab _)
  lines n feed here newline := by
    have feeds : ∀ n < 11, (scan (nested 4))[n]?.map Token.kind = some .newline →
        n = 3 ∨ n = 7 ∨ n = 8 := by
      rw [nested_tokens]
      decide
    have below : n < 11 := by
      have inside := (List.getElem?_eq_some_iff.mp here).1
      rwa [nested_tokens] at inside
    obtain rfl | rfl | rfl := feeds n below (by rw [here, ← newline]; rfl)
    · refine Stack.keepsSides_of_containers ?_ _
      cbv
    · refine Stack.keepsSides_of_blank ?_
      rw [nested_tokens]
      rfl
    · have old : (Stack.empty.lines ((scan (nested 4)).take 9)).containers =
          [.list .period, .item 3] := by cbv
      have new : (Stack.empty.lines ((scan (renested 4)).take 9)).containers =
          [.list .period, .item 4] := by cbv
      have line : ((scan (nested 4)).drop 9).takeWhile (·.kind != .newline) =
          [⟨.whitespace, Text.spaces 4⟩, ⟨.text, ['c']⟩] := by
        rw [nested_tokens]
        rfl
      intro outer inner outer' inner' column column' stand front front' length found _
      rw [old] at front
      rw [new] at front'
      obtain ⟨rfl, rfl⟩ : outer = [.list .period] ∧ column = 3 := by
        rcases outer with _ | ⟨x, _ | ⟨y, outer⟩⟩ <;> simp_all
      obtain ⟨rfl, rfl⟩ : outer' = [.list .period] ∧ column' = 4 := by
        rcases outer' with _ | ⟨x, _ | ⟨y, outer'⟩⟩ <;> simp_all
      rw [line] at found
      cases found
      exact Or.inr ⟨by decide, Or.inr (Or.inr (by decide))⟩

theorem nested_keeps_outline : ∃ p ∈ (Enter.firstBlock (nested 4)).items,
    renumber p (Document.ofText (nested 4) .lf) 0 = [⟨5, 6, ['1', '0']⟩] ∧
    (Document.ofText (nested 4) .lf).change? ⟨[⟨5, 6, ['1', '0']⟩], 16⟩ =
      some (Document.ofText (renested 4) .lf) ∧
    (Tree.ofText (renested 4)).outline = (Tree.ofText (nested 4)).outline := by
  have shown : ((Enter.firstBlock (nested 4)).kind, (Enter.firstBlock (nested 4)).items.map fun p =>
      renumber p (Document.ofText (nested 4) .lf) 0) =
        (.orderedList, [[⟨5, 6, ['1', '0']⟩], []]) := by cbv
  obtain ⟨ordered, p, member, changes⟩ := exists_first_item shown
  have changed : (Document.ofText (nested 4) .lf).change? ⟨[⟨5, 6, ['1', '0']⟩], 16⟩ =
      some (Document.ofText (renested 4) .lf) := by cbv
  have accepted : ChangeSet.ofChanges [⟨5, 6, ['1', '0']⟩] (nested 4).size =
      .ok ⟨[⟨5, 6, ['1', '0']⟩], 16⟩ := by cbv
  have applies := @renumber_keeps_outline (nested 4) .lf p _ 0 (Enter.firstBlock_in _) ordered member
  rw [changes] at applies
  obtain ⟨s, d', made, same, kept, _⟩ := applies
  rw [accepted] at made
  cases made
  rw [changed] at same
  cases same
  exact ⟨p, member, changes, changed, kept (by simp) nested_steady⟩

/-- Renumbering can move the content of an item past a line of it, which then leaves the item. -/
theorem nested_leaves_item : ¬∀ (t : Text) (lineBreak : LineBreak) (list p : Place) (offset : Int),
    list.In (Tree.ofText t) → list.kind = .orderedList → p ∈ list.items →
    offset = 0 ∨ offset = -2 → ∀ s d',
      ChangeSet.ofChanges (renumber p (Document.ofText t lineBreak) offset) t.size = .ok s →
      (Document.ofText t lineBreak).change? s = some d' →
      (Place.root (Tree.ofText d'.text)).descendants.map (fun q => (q.depth, q.kind)) =
        (Place.root (Tree.ofText t)).descendants.map fun q => (q.depth, q.kind) := by
  intro all
  have shown : ((Enter.firstBlock (nested 3)).kind, (Enter.firstBlock (nested 3)).items.map fun p =>
      renumber p (Document.ofText (nested 3) .lf) 0) =
        (.orderedList, [[⟨5, 6, ['1', '0']⟩], []]) := by cbv
  obtain ⟨ordered, p, member, changes⟩ := exists_first_item shown
  have accepted : ChangeSet.ofChanges [⟨5, 6, ['1', '0']⟩] (nested 3).size =
      .ok ⟨[⟨5, 6, ['1', '0']⟩], 15⟩ := by cbv
  have changed : (Document.ofText (nested 3) .lf).change? ⟨[⟨5, 6, ['1', '0']⟩], 15⟩ =
      some (Document.ofText (renested 3) .lf) := by cbv
  have same := all (nested 3) .lf _ p 0 (Enter.firstBlock_in _) ordered member (Or.inl rfl) _ _
    (by rw [changes]; exact accepted) changed
  -- the last line was in the second item, and is behind the list afterwards
  have old : ((Place.root (Tree.ofText (nested 3))).descendants.map
      fun q => (q.depth, q.kind)).getLast? = some (4, .text) := by cbv
  have new : ((Place.root (Tree.ofText (renested 3))).descendants.map
      fun q => (q.depth, q.kind)).getLast? = some (2, .text) := by cbv
  have both := congrArg List.getLast? same
  rw [old, show (Document.ofText (renested 3) .lf).text = renested 3 from rfl, new] at both
  cases both

end MarkdownEditing
