import Mathlib.Order.Bounds.Defs
import MarkdownEditing.Proofs.Edit.Accepted
import MarkdownEditing.Proofs.Edit.Interleave
import MarkdownEditing.Proofs.Markup.Recounted

namespace MarkdownEditing

def runLength (n : Nat) : List Nat → Nat
  | [] => 0
  | k :: ns => if k = n + 1 then runLength k ns + 1 else 0

namespace Place

variable {t : Text} {lineBreak : LineBreak} {p q list : Place} {digits : Text} {glyph : Char}

def markDigits (p : Place) : Text := p.tree.text.takeWhile Char.isDigit

def markNumber (p : Place) : Nat := Nat.ofDigitChars 10 p.markDigits 0

/-- The change that gives an item its number plus one plus `offset`, and nothing below zero. -/
def recount (offset : Int) (p : Place) : Change :=
  ⟨p.start, p.start + p.markDigits.size,
    Text.ofNat (max 0 ((p.markNumber : Int) + 1 + offset)).toNat⟩

theorem IsNumbered.markDigits_eq (numbered : p.IsNumbered digits glyph) : p.markDigits = digits := by
  obtain ⟨later, text⟩ := numbered.exists_text
  have ends : glyph.isDigit = false := by
    rcases numbered.delimiter with rfl | rfl <;> rfl
  rw [markDigits, text, List.append_assoc]
  exact Text.takeWhile_stop (List.all_eq_true.mp numbered.all) ends

theorem IsNumbered.ofItem_eq (numbered : p.IsNumbered digits glyph) (inside : p.In (Tree.ofText t)) :
    ItemNumber.ofItem? (Document.ofText t lineBreak) p.start =
      some ⟨0, p.markDigits.size, p.markNumber⟩ := by
  obtain ⟨before, after, parts, size⟩ := numbered.exists_parts inside
  have text : (Document.ofText t lineBreak).text = before ++ (digits ++ [glyph] ++ after) := by
    rw [← List.append_assoc]
    exact parts
  have number : digits.toNat? = some (Nat.ofDigitChars 10 digits 0) := by
    rw [Text.toNat?, if_pos ⟨numbered.some_digit, numbered.all⟩]
    rfl
  rw [← size, ItemNumber.ofItem?_digits text numbered.some_digit numbered.all numbered.delimiter,
    if_pos numbered.short, number, markNumber, numbered.markDigits_eq]
  rfl

theorem IsNumbered.size_le (numbered : p.IsNumbered digits glyph) :
    p.start + (digits.size + 1) ≤ p.stop := by
  obtain ⟨later, text⟩ := numbered.exists_text
  rw [stop_eq, text, Text.size_append, numbered.size_mark]
  omega

theorem mem_items_of_following (member : p ∈ list.items) (following : q ∈ p.followingItems) :
    q ∈ list.items := by
  obtain ⟨front, items⟩ := items_split member
  rw [items]
  exact List.mem_append_right _ (List.mem_cons_of_mem _ following)

theorem followingItems_apart (member : p ∈ list.items) :
    p.followingItems.Pairwise fun a b => a.stop ≤ b.start := by
  obtain ⟨front, items⟩ := items_split member
  have apart := list.items_apart
  rw [items] at apart
  exact (List.pairwise_append.mp apart).2.1.of_cons

end Place

section Renumber

variable {t : Text} {lineBreak : LineBreak} {d : Document} {p q list : Place} {offset : Int}

open Place

theorem renumberFrom_eq {items : List Place} {n : Nat}
    (reads : ∀ q ∈ items,
      ItemNumber.ofItem? d q.start = some ⟨0, q.markDigits.size, q.markNumber⟩) :
    renumberFrom d offset n items =
      (items.take (runLength n (items.map markNumber))).map (recount offset) := by
  induction items generalizing n with
  | nil => rfl
  | cons q items ih =>
    rw [renumberFrom, reads q List.mem_cons_self, List.map_cons, runLength]
    dsimp only
    split
    · rename_i next
      have value : ((n : Int) + 2 + offset).toNat =
          (max 0 ((q.markNumber : Int) + 1 + offset)).toNat := by omega
      rw [List.take_succ_cons, List.map_cons, recount, value, Nat.add_zero,
        ih fun q member => reads q (List.mem_cons_of_mem _ member)]
    · rfl

theorem recount_isNoop (some_digit : p.markDigits ≠ []) : (recount offset p).isNoop = false := by
  have size := Text.size_pos some_digit
  have other : (p.start == p.start + p.markDigits.size) = false := beq_false_of_ne (by omega)
  rw [recount, Change.isNoop, other, Bool.false_and]

variable (inside : list.In (Tree.ofText t)) (ordered : list.kind = .orderedList)
  (member : p ∈ list.items)

include inside ordered member

theorem followingItem_numbered (following : q ∈ p.followingItems) :
    q.In (Tree.ofText t) ∧ ∃ glyph, q.IsNumbered q.markDigits glyph := by
  have item := mem_items_of_following member following
  obtain ⟨q_inside, digits, glyph, numbered⟩ := inside.numbered_of_mem_items ordered item
  rw [← numbered.markDigits_eq] at numbered
  exact ⟨q_inside, glyph, numbered⟩

theorem renumber_eq : renumber p (Document.ofText t lineBreak) offset =
    (p.followingItems.take (runLength p.markNumber (p.followingItems.map markNumber))).map
      (recount offset) := by
  obtain ⟨p_inside, digits, glyph, numbered⟩ := inside.numbered_of_mem_items ordered member
  rw [renumber, numbered.ofItem_eq p_inside]
  apply renumberFrom_eq
  intro q following
  obtain ⟨q_inside, glyph, numbered⟩ := followingItem_numbered inside ordered member following
  exact numbered.ofItem_eq q_inside

theorem recount_whole (following : q ∈ p.followingItems) :
    (recount offset q).Whole t ∧ (recount offset q).stop ≤ t.size ∧
      t.slice (recount offset q).start (recount offset q).stop = q.markDigits := by
  obtain ⟨q_inside, glyph, numbered⟩ := followingItem_numbered inside ordered member following
  obtain ⟨before, after, parts, size⟩ := numbered.exists_parts q_inside
  have whole : t = before ++ q.markDigits ++ ([glyph] ++ after) := by
    rw [parts]
    simp only [List.append_assoc]
  have sizes := congrArg Text.size whole
  simp only [Text.size_append] at sizes
  have start : t.isBoundary before.size = true := by
    rw [whole, List.append_assoc]
    exact Text.isBoundary_left _ _
  have stop : t.isBoundary (before.size + q.markDigits.size) = true := by
    rw [whole, ← Text.size_append]
    exact Text.isBoundary_left _ _
  simp only [recount, Change.Whole, ← size]
  refine ⟨⟨start, stop⟩, by omega, ?_⟩
  rw [whole, Text.slice_middle]

theorem recount_before (m : Nat) :
    ((p.followingItems.take m).map (recount offset)).Pairwise Change.Before := by
  have order := (followingItems_apart member).sublist (List.take_sublist m _)
  refine List.pairwise_map.mpr (order.imp_of_mem ?_)
  intro a b first second apart
  obtain ⟨_, _, numbered⟩ :=
    followingItem_numbered inside ordered member (List.mem_of_mem_take first)
  obtain ⟨_, _, numbered'⟩ :=
    followingItem_numbered inside ordered member (List.mem_of_mem_take second)
  have mark := numbered.size_le
  have some_digit := numbered'.size_pos
  simp only [recount, Change.Before]
  omega

theorem ofChanges_recount (m : Nat) :
    ChangeSet.ofChanges ((p.followingItems.take m).map (recount offset)) t.size =
      .ok ⟨(p.followingItems.take m).map (recount offset), t.size⟩ := by
  apply ChangeSet.ofChanges_of_mem (recount_before inside ordered member m)
  · intro c change
    obtain ⟨q, among, rfl⟩ := List.mem_map.mp change
    have following := List.mem_of_mem_take among
    exact ⟨Nat.le_add_right _ _, (recount_whole inside ordered member following).2.1⟩
  · intro c
    refine (and_iff_left_of_imp fun change => ?_).symm
    obtain ⟨q, among, rfl⟩ := List.mem_map.mp change
    have following := List.mem_of_mem_take among
    obtain ⟨_, _, numbered⟩ := followingItem_numbered inside ordered member following
    exact recount_isNoop numbered.some_digit

/-- The new text is the old one with other digits: the rest of both is the same. -/
theorem recount_interleaves (m : Nat) {s : ChangeSet}
    (made : ChangeSet.ofChanges ((p.followingItems.take m).map (recount offset)) t.size = .ok s) :
    ∃ d' gaps, (Document.ofText t lineBreak).change? s = some d' ∧
      Text.Interleaved 0 gaps ((p.followingItems.take m).map markDigits)
        (s.changes.map fun c => (c.start, c.stop)) t ∧
      Text.Interleaved 0 gaps (s.changes.map Change.insert) s.changedSpans d'.text := by
  rw [ofChanges_recount inside ordered member m] at made
  cases made
  have whole : ∀ c ∈ (p.followingItems.take m).map (recount offset), c.Whole t := by
    intro c change
    obtain ⟨q, among, rfl⟩ := List.mem_map.mp change
    exact (recount_whole inside ordered member (List.mem_of_mem_take among)).1
  have digits : ((p.followingItems.take m).map (recount offset)).map
      (fun c => t.slice c.start c.stop) = (p.followingItems.take m).map markDigits := by
    rw [List.map_map]
    refine List.map_congr_left fun q among => ?_
    exact (recount_whole inside ordered member (List.mem_of_mem_take among)).2.2
  rw [← digits]
  obtain ⟨gaps, changed, applied, old, new⟩ := ChangeSet.interleaved_of_whole (a := []) (u := t) 0
    rfl rfl (ChangeSet.ofChanges_follows (ofChanges_recount inside ordered member m)) whole
  refine ⟨Document.ofText changed lineBreak, gaps, ?_, old, new⟩
  rw [Document.change?, ChangeSet.applyTo?]
  exact congrArg (Option.map (Document.ofText · lineBreak)) applied

end Renumber

open Place

end MarkdownEditing
