import MarkdownEditing.Proofs.Markup.Marks

namespace MarkdownEditing

namespace Enter

variable {s s' : EditState} {tr : Transaction} {x : Site} {p list : Place} {n : Nat}

/-- The carets leave an ordered list counted. Either none of them makes a new item, and no item
comes behind theirs, or exactly one does, in the first item with a caret in it, and there is a next
number for that item and all behind it. -/
inductive StaysCounted (s : EditState) (list : Place) : Prop where
  | idle (last : ∀ p ∈ list.items, ∀ x : Site, x.At s p →
      x.isContinued = true ∧ ∀ q ∈ list.items, q.start ≤ p.start)
  | room {p : Place} {x : Site} (member : p ∈ list.items) (here : x.At s p)
      (fresh : x.isContinued = false)
      (alone : ∀ q ∈ list.items, ∀ y : Site, y.At s q →
        p.start ≤ q.start ∧ (y.isContinued = true ∨ y = x))
      (bound : ∀ q ∈ list.items, p.start ≤ q.start → ∀ n, s.doc.numberAt? q.start = some n →
        n + 1 < ItemNumber.limit)

section Room

theorem none_fresh_iff :
    (freshAt s p).length = 0 ↔ ∀ x : Site, x.At s p → x.isContinued = true := by
  rw [List.length_eq_zero_iff, List.eq_nil_iff_forall_not_mem]
  constructor
  · intro nowhere x here
    by_contra fresh
    exact nowhere x.pos (mem_freshAt.mpr ⟨x, here, Bool.eq_false_of_not_eq_true fresh, rfl⟩)
  · intro continued n position
    obtain ⟨x, here, fresh, _⟩ := mem_freshAt.mp position
    rw [continued x here] at fresh
    cases fresh

theorem one_fresh_iff :
    (freshAt s p).length = 1 ↔ ∃ x : Site, x.At s p ∧ x.isContinued = false ∧
      ∀ y : Site, y.At s p → y.isContinued = true ∨ y = x := by
  rw [List.length_eq_one_iff]
  constructor
  · rintro ⟨n, positions⟩
    have only : ∀ k, k ∈ freshAt s p ↔ k = n := by
      intro k
      rw [positions, List.mem_singleton]
    obtain ⟨x, here, fresh, rfl⟩ := mem_freshAt.mp ((only n).mpr rfl)
    refine ⟨x, here, fresh, fun y there => or_iff_not_imp_left.mpr fun other => ?_⟩
    have fresh' := Bool.eq_false_of_not_eq_true other
    obtain ⟨_, _, found⟩ := here.caret
    obtain ⟨_, _, found'⟩ := there.caret
    exact site_unique found' found ((only y.pos).mp (mem_freshAt.mpr ⟨y, there, fresh', rfl⟩))
  · rintro ⟨x, here, fresh, alone⟩
    refine ⟨x.pos, (freshAt_sorted s p).eq_of_mem_iff (List.pairwise_singleton _ _) fun {n} => ?_⟩
    rw [mem_freshAt, List.mem_singleton]
    constructor
    · rintro ⟨y, there, fresh', rfl⟩
      rcases alone y there with continued | rfl
      · rw [continued] at fresh'
        cases fresh'
      · rfl
    · rintro rfl
      exact ⟨x, here, fresh, rfl⟩

variable (inside : list.In (Tree.ofText s.text)) (ordered : list.kind = .orderedList)

include inside ordered

theorem StaysCounted.roomOnce (stays : StaysCounted s list) :
    RoomOnce (numberOf s.doc) (fun p => (freshAt s p).length) (holdsCaret s) ItemNumber.limit
      Place.start list.items := by
  obtain last | @⟨p, x, member, here, fresh, alone, bound⟩ := stays
  · refine Or.inl fun p member held => ?_
    obtain ⟨x, here⟩ := holdsCaret_iff.mp held
    exact ⟨none_fresh_iff.mpr fun y there => (last p member y there).1, (last p member x here).2⟩
  · have one := one_fresh_iff.mpr ⟨x, here, fresh, fun y there => (alone p member y there).2⟩
    refine Or.inr ⟨p, member, holdsCaret_iff.mpr ⟨x, here⟩, one, ?_, ?_, ?_⟩
    · intro q other held
      obtain ⟨y, there⟩ := holdsCaret_iff.mp held
      exact (alone q other y there).1
    · intro q other behind
      refine none_fresh_iff.mpr fun y there => (alone q other y there).2.resolve_right ?_
      rintro rfl
      have same := Option.some.inj (here.inner.symm.trans there.inner)
      rw [same] at behind
      exact Nat.lt_irrefl _ behind
    · intro q other reach
      exact bound q other reach _ (numberOf_facts inside ordered other).2

theorem StaysCounted.of_roomOnce
    (room : RoomOnce (numberOf s.doc) (fun p => (freshAt s p).length) (holdsCaret s)
      ItemNumber.limit Place.start list.items) : StaysCounted s list := by
  obtain last | ⟨p, member, _, one, foremost, others, bound⟩ := room
  · refine .idle fun p member x here => ?_
    obtain ⟨none_new, reach⟩ := last p member (holdsCaret_iff.mpr ⟨x, here⟩)
    exact ⟨none_fresh_iff.mp none_new x here, reach⟩
  · obtain ⟨x, here, fresh, alone⟩ := one_fresh_iff.mp one
    refine .room member here fresh (fun q other y there => ?_) (fun q other reach n read => ?_)
    · have reach := foremost q other (holdsCaret_iff.mpr ⟨y, there⟩)
      refine ⟨reach, ?_⟩
      rcases Nat.lt_or_eq_of_le reach with behind | same
      · exact Or.inl (none_fresh_iff.mp (others q other behind) y there)
      · rw [← Place.eq_of_start inside ordered member other same] at there
        exact alone y there
    · rw [(numberOf_facts inside ordered other).2] at read
      cases read
      exact bound q other reach

end Room

/-- After Enter splits lines, the items of a counted list and the new ones count up, in the order of
the text, exactly when the carets leave it so. In the new tree that is how its items are numbered if
they begin at those marks. -/
theorem counted_iff (splits : SplitsLines s tr) (next : s.next? tr = some s')
    (inside : list.In s.tree) (ordered : list.kind = .orderedList)
    (counted : Counted s.doc list.items) :
    (∃ marks : List Nat, marks.Pairwise (· < ·) ∧ (∀ n, n ∈ marks ↔ Mark s tr list n) ∧
        ((marks.map s'.doc.numberAt?).IsChain Succeeds ↔ StaysCounted s list)) ∧
      ∀ list' : Place, list'.In s'.tree → list'.kind = .orderedList →
        (∀ n, n ∈ list'.items.map Place.start ↔ Mark s tr list n) →
        (Counted s'.doc list'.items ↔ StaysCounted s list) := by
  have coherent' := splits.coherent.next next
  obtain ⟨changes, accepted⟩ := Transaction.byRange_ofChanges splits.made
  obtain ⟨applied, _⟩ := EditState.next?_changed (ChangeSet.ofChanges_size accepted) next
  rw [splits.coherent.tree] at inside
  have sorted := marks_sorted splits inside ordered
  have members := fun n => @mem_marks s tr list n splits inside ordered
  have numbers := map_marks splits inside ordered counted applied (List.nil_append _).symm
  have chain : ((list.items.flatMap (itemMarks s tr)).map s'.doc.numberAt?).IsChain Succeeds ↔
      StaysCounted s list := by
    rw [numbers, isChain_readable, List.any_nil, isChain_renumbered (consecutive_numbers counted)
      (fun p member => (numberOf_facts inside ordered member).1) (fun p _ free => ?_)
      (Place.items_sorted inside ordered)]
    · exact ⟨.of_roomOnce inside ordered, fun stays => stays.roomOnce inside ordered⟩
    · refine none_fresh_iff.mpr fun x here => ?_
      rw [holdsCaret_iff.mpr ⟨x, here⟩] at free
      cases free
  refine ⟨⟨_, sorted, members, chain⟩, fun list' inside' ordered' begins => ?_⟩
  rw [coherent'.tree] at inside'
  have starts : (list'.items.map Place.start).Pairwise (· < ·) :=
    List.pairwise_map.mpr (Place.items_sorted inside' ordered')
  have same : list'.items.map Place.start = list.items.flatMap (itemMarks s tr) :=
    starts.eq_of_mem_iff sorted fun {n} => (begins n).trans (members n).symm
  rw [counted_iff_of_starts same, chain]

section Caret

variable {r : Range}

theorem mark_iff_of_caret (only : s.selection.ranges = [r]) (found : site s r = .ok x)
    (shown : x.inner.item = some p) (member : p ∈ list.items) :
    Mark s tr list n ↔ n ∈ (list.items.map Place.start).map (tr.changes.mapPos · .after) ∨
      x.isContinued = false ∧
        n = tr.changes.mapPos x.pos .after - (x.inner.marker s.doc 1).size := by
  have at_caret : ∀ {q : Place} {y : Site}, y.At s q → y = x := by
    intro q y there
    obtain ⟨r', range, found'⟩ := there.caret
    rw [only, List.mem_singleton] at range
    rw [range, found] at found'
    exact (Except.ok.inj found').symm
  rw [List.map_map, List.mem_map]
  constructor
  · rintro (member | ⟨_, there, fresh⟩)
    · exact Or.inl ⟨_, member, rfl⟩
    · cases at_caret there
      exact Or.inr ⟨fresh, rfl⟩
  · rintro (⟨q, member, rfl⟩ | ⟨fresh, rfl⟩)
    · exact .old member
    · refine .new member ⟨⟨r, ?_, found⟩, shown⟩ fresh
      rw [only]
      exact List.mem_singleton_self r

end Caret

def firstBlock (t : Text) : Place :=
  (Place.root (Tree.ofText t)).children.headD (Place.root (Tree.ofText t))

theorem firstBlock_in (t : Text) : (firstBlock t).In (Tree.ofText t) := by
  unfold firstBlock
  cases blocks : (Place.root (Tree.ofText t)).children with
  | nil => exact Place.root_in _
  | cons block rest =>
    refine (Place.root_in _).child ?_
    rw [blocks]
    exact List.mem_cons_self

def twoItems : EditState :=
  .ofText ['1', '.', ' ', 'a', '\n', '2', '.', ' ', 'b'] (Selection.caret 4) {}

theorem twoItems_items : (firstBlock twoItems.text).kind = .orderedList ∧
    (firstBlock twoItems.text).items.map Place.start = [0, 5] := by
  have both : ((firstBlock twoItems.text).kind, (firstBlock twoItems.text).items.map Place.start) =
      (.orderedList, [0, 5]) := by cbv
  exact Prod.mk.inj both

def thirdItem : Transaction :=
  ⟨⟨[⟨4, 4, ['\n', '2', '.', ' ']⟩, ⟨5, 6, ['3']⟩], 9⟩, some (Selection.caret 8)⟩

def threeItems : EditState :=
  .ofText ['1', '.', ' ', 'a', '\n', '2', '.', ' ', '\n', '3', '.', ' ', 'b'] (Selection.caret 8) {}

theorem threeItems_items : (firstBlock threeItems.text).kind = .orderedList ∧
    (firstBlock threeItems.text).items.map Place.start = [0, 5, 9] := by
  have both : ((firstBlock threeItems.text).kind,
      (firstBlock threeItems.text).items.map Place.start) = (.orderedList, [0, 5, 9]) := by cbv
  exact Prod.mk.inj both

theorem twoItems_counted : SplitsLines twoItems thirdItem ∧
    twoItems.next? thirdItem = some threeItems ∧
    Counted twoItems.doc (firstBlock twoItems.text).items ∧
    (∀ n, n ∈ (firstBlock threeItems.text).items.map Place.start ↔
      Mark twoItems thirdItem (firstBlock twoItems.text) n) ∧
    StaysCounted twoItems (firstBlock twoItems.text) ∧
    Counted threeItems.doc (firstBlock threeItems.text).items := by
  have made : run twoItems = .ok thirdItem := by cbv
  have next : twoItems.next? thirdItem = some threeItems := by cbv
  have only : twoItems.selection.ranges = [Range.caret 4] := by cbv
  have place : (site twoItems (Range.caret 4)).map (fun x => (x.inner.item, x.pos, x.isContinued,
      x.isEmptyLine, (x.inner.marker twoItems.doc 1).size)) =
      .ok ((firstBlock twoItems.text).items.head?, 4, false, false, 3) := by cbv
  obtain ⟨ordered, starts⟩ := twoItems_items
  obtain ⟨ordered', starts'⟩ := threeItems_items
  have numbers : [0, 5].map twoItems.doc.numberAt? = [some 1, some 2] := rfl
  have numbers' : [0, 5, 9].map threeItems.doc.numberAt? = [some 1, some 2, some 3] := rfl
  have carried : [0, 5].map (thirdItem.changes.mapPos · .after) = [0, 9] := rfl
  have behind : thirdItem.changes.mapPos 4 .after = 8 := rfl
  have counted : Counted twoItems.doc (firstBlock twoItems.text).items := by
    rw [counted_iff_of_starts starts, numbers]
    simp [Succeeds]
  obtain ⟨x, found, summary⟩ := site_of_map place
  simp only [Prod.mk.injEq] at summary
  obtain ⟨first, pos, fresh, filled, size⟩ := summary
  have splits : SplitsLines twoItems thirdItem := by
    refine ⟨EditState.coherent_ofText _ _ _, made, fun r range y found' => ?_⟩
    rw [only, List.mem_singleton] at range
    rw [range, found] at found'
    cases found'
    exact filled
  have marks : ∀ n, n ∈ (firstBlock threeItems.text).items.map Place.start ↔
      Mark twoItems thirdItem (firstBlock twoItems.text) n := by
    intro n
    have some_item : (firstBlock twoItems.text).items ≠ [] := by
      intro empty
      rw [empty] at starts
      cases starts
    rw [mark_iff_of_caret only found (first.trans (List.head?_eq_some_head some_item))
      (List.head_mem some_item), starts, starts', carried, fresh, pos, size, behind]
    simp only [List.mem_cons, List.not_mem_nil, or_false, true_and]
    omega
  have all := counted_iff splits next (firstBlock_in _) ordered counted
  have same := all.2 (firstBlock threeItems.text) (firstBlock_in _) ordered' marks
  have stays : Counted threeItems.doc (firstBlock threeItems.text).items := by
    rw [counted_iff_of_starts starts', numbers']
    simp [Succeeds]
  exact ⟨splits, next, counted, marks, same.mp stays, stays⟩

def longItem : EditState :=
  .ofText ['1', '.', ' ', 'a', '\n', ' ', ' ', ' ', 'b', '\n', '2', '.', ' ', 'c']
    (Selection.caret 9) {}

theorem longItem_items : (firstBlock longItem.text).kind = .orderedList ∧
    (firstBlock longItem.text).items.map Place.start = [0, 10] := by
  have both : ((firstBlock longItem.text).kind, (firstBlock longItem.text).items.map Place.start) =
      (.orderedList, [0, 10]) := by cbv
  exact Prod.mk.inj both

def thirdLine : Transaction :=
  ⟨⟨[⟨9, 9, ['\n', ' ', ' ', ' ']⟩, ⟨10, 11, ['3']⟩], 14⟩, some (Selection.caret 13)⟩

def longerItem : EditState :=
  .ofText ['1', '.', ' ', 'a', '\n', ' ', ' ', ' ', 'b', '\n', ' ', ' ', ' ', '\n', '3', '.', ' ',
    'c'] (Selection.caret 13) {}

theorem longerItem_items : (firstBlock longerItem.text).kind = .orderedList ∧
    (firstBlock longerItem.text).items.map Place.start = [0, 14] := by
  have both : ((firstBlock longerItem.text).kind,
      (firstBlock longerItem.text).items.map Place.start) = (.orderedList, [0, 14]) := by cbv
  exact Prod.mk.inj both

/-- Enter can break the count: a caret on a later line of an item makes no new one, and the items
behind still go up by one. -/
theorem loses_count : ¬∀ (s s' : EditState) (tr : Transaction) (list list' : Place), s.Coherent →
    list.In s.tree → list.kind = .orderedList →
    (∀ p ∈ list.items, ∀ c ∈ p.children, c.isNode = true → c.kind = .paragraph) →
    Counted s.doc list.items →
    (∀ r ∈ s.selection.ranges, r.isCaret = true ∧ (s.doc.lineAt r.head).text.isBlank = false ∧
      ∃ p ∈ list.items, p.start ≤ r.head ∧ r.head ≤ p.stop) →
    run s = .ok tr → s.next? tr = some s' → list'.In s'.tree → list'.kind = .orderedList →
    (∀ n, n ∈ list'.items.map Place.start ↔ Mark s tr list n) → Counted s'.doc list'.items := by
  intro all
  have made : run longItem = .ok thirdLine := by cbv
  have next : longItem.next? thirdLine = some longerItem := by cbv
  have only : longItem.selection.ranges = [Range.caret 9] := by cbv
  have place : (site longItem (Range.caret 9)).map (fun x => (x.inner.item, x.isContinued)) =
      .ok ((firstBlock longItem.text).items.head?, true) := by cbv
  obtain ⟨ordered, starts⟩ := longItem_items
  obtain ⟨ordered', starts'⟩ := longerItem_items
  have numbers : [0, 10].map longItem.doc.numberAt? = [some 1, some 2] := rfl
  have numbers' : [0, 14].map longerItem.doc.numberAt? = [some 1, some 3] := rfl
  have carried : [0, 10].map (thirdLine.changes.mapPos · .after) = [0, 14] := rfl
  have contents : ((firstBlock longItem.text).items.all fun p => p.children.all fun c =>
      !c.isNode || c.kind == .paragraph) = true := by cbv
  have paragraphs : ∀ p ∈ (firstBlock longItem.text).items, ∀ c ∈ p.children,
      c.isNode = true → c.kind = .paragraph := by
    simpa [or_iff_not_imp_left] using contents
  have spans : ((firstBlock longItem.text).items.any fun p =>
      p.start ≤ 9 && 9 ≤ p.stop) = true := by cbv
  have around : ∃ p ∈ (firstBlock longItem.text).items, p.start ≤ 9 ∧ 9 ≤ p.stop := by
    simpa using spans
  have line : (longItem.doc.lineAt 9).text.isBlank = false := rfl
  obtain ⟨x, found, summary⟩ := site_of_map place
  obtain ⟨first, continued⟩ := Prod.mk.inj summary
  have marks : ∀ n, n ∈ (firstBlock longerItem.text).items.map Place.start ↔
      Mark longItem thirdLine (firstBlock longItem.text) n := by
    intro n
    have some_item : (firstBlock longItem.text).items ≠ [] := by
      intro empty
      rw [empty] at starts
      cases starts
    rw [mark_iff_of_caret only found (first.trans (List.head?_eq_some_head some_item))
      (List.head_mem some_item), starts, starts', carried, continued]
    simp
  have counted : Counted longItem.doc (firstBlock longItem.text).items := by
    rw [counted_iff_of_starts starts, numbers]
    simp [Succeeds]
  have carets : ∀ r ∈ longItem.selection.ranges, r.isCaret = true ∧
      (longItem.doc.lineAt r.head).text.isBlank = false ∧
      ∃ p ∈ (firstBlock longItem.text).items, p.start ≤ r.head ∧ r.head ≤ p.stop := by
    rw [only, List.forall_mem_singleton]
    exact ⟨rfl, line, around⟩
  have stays := all longItem longerItem thirdLine (firstBlock longItem.text)
    (firstBlock longerItem.text) (EditState.coherent_ofText _ _ _) (firstBlock_in _) ordered
    paragraphs counted carets made next (firstBlock_in _) ordered' marks
  rw [counted_iff_of_starts starts', numbers'] at stays
  simp [Succeeds] at stays

end Enter

end MarkdownEditing
