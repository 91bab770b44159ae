import MarkdownEditing.Proofs.Edit.RowEdits

namespace MarkdownEditing

open Row

section Ranges

variable {s s' : ChangeSet} {changes : List Change} {size x y : Nat} {side side' : Side}
  {a b r : Range} {selection : Selection}

theorem ChangeSet.mapFrom_of_deletes (deletes : ∀ c ∈ changes, c.start < c.stop ∧ c.insert = [])
    (side side' : Side) (shift : Int) :
    ChangeSet.mapFrom x side shift changes = ChangeSet.mapFrom x side' shift changes := by
  induction changes generalizing shift with
  | nil => rfl
  | cons c rest ih =>
    rw [List.forall_mem_cons] at deletes
    obtain ⟨⟨takes, nothing⟩, later⟩ := deletes
    have never : ∀ side : Side, ¬(c.start = x ∧ c.stop = x ∧ side = .before) := fun _ both =>
      absurd both.2.1 (by omega)
    rw [ChangeSet.mapFrom, ChangeSet.mapFrom, ih later, nothing, Text.size_nil]
    simp only [never, or_false, Nat.add_zero, ite_self]

theorem ChangeSet.mapPos_lt (side side' : Side) (made : ChangeSet.ofChanges changes size = .ok s)
    (inserts : ∀ c ∈ s.changes, c.start = c.stop) (order : x < y) :
    s.mapPos x side < s.mapPos y side' :=
  ChangeSet.mapFrom_lt side side' 0 (ChangeSet.ofChanges_follows made) (Nat.zero_le x)
    (Nat.le_refl x) order (fun c member takes => by
      have empty := inserts c member
      omega) (by decide)

theorem Range.map_empty (x : Nat) (s : ChangeSet) :
    (⟨x, x⟩ : Range).map s = ⟨s.mapPos x .before, s.mapPos x .before⟩ :=
  if_pos (beq_self_eq_true x)

theorem Range.map_forward (wide : x < y) (order : s.mapPos x .after ≤ s.mapPos y .before) :
    (⟨x, y⟩ : Range).map s = ⟨s.mapPos x .after, s.mapPos y .before⟩ := by
  have spread : ¬(⟨x, y⟩ : Range).isCaret = true := by
    rw [Range.isCaret, beq_iff_eq]
    exact Nat.ne_of_lt wide
  have forward : (⟨x, y⟩ : Range).anchor ≤ (⟨x, y⟩ : Range).head := Nat.le_of_lt wide
  rw [Range.map, if_neg spread, if_pos forward, Range.start_of_le forward, Range.stop_of_le forward,
    Nat.max_eq_left order]

theorem Range.map_backward (wide : x < y) (order : s.mapPos x .after ≤ s.mapPos y .before) :
    (⟨y, x⟩ : Range).map s = ⟨s.mapPos y .before, s.mapPos x .after⟩ := by
  have spread : ¬(⟨y, x⟩ : Range).isCaret = true := by
    rw [Range.isCaret, beq_iff_eq]
    exact Nat.ne_of_gt wide
  have start : (⟨y, x⟩ : Range).start = x := Nat.min_eq_right (Nat.le_of_lt wide)
  have stop : (⟨y, x⟩ : Range).stop = y := Nat.max_eq_left (Nat.le_of_lt wide)
  rw [Range.map, if_neg spread, if_neg (Nat.not_le_of_lt wide), start, stop, Nat.max_eq_left order]

variable (made : ChangeSet.ofChanges changes size = .ok s)
  (inserts : ∀ c ∈ s.changes, c.start = c.stop)

include made inserts

theorem Range.ends_map (r : Range) : (r.map s).stop = s.mapPos r.stop .before ∧
    (r.map s).start = s.mapPos r.start (if r.start = r.stop then .before else .after) := by
  rcases r.map_cases s with ⟨empty, start, stop⟩ | ⟨wide, start, stop⟩
  · rw [if_pos empty, empty]
    exact ⟨stop, start⟩
  · have order := ChangeSet.mapPos_lt .after .before made inserts wide
    rw [if_neg (Nat.ne_of_lt wide), stop]
    exact ⟨Nat.max_eq_left (Nat.le_of_lt order), start⟩

theorem Range.Apart.map (apart : a.Apart b) : (a.map s).Apart (b.map s) := by
  obtain ⟨stop, -⟩ := Range.ends_map made inserts a
  obtain ⟨stop', start'⟩ := Range.ends_map made inserts b
  have forward := b.start_le_stop
  rw [Range.apart_iff] at apart ⊢
  rw [stop, stop', start']
  by_cases caret : b.start = b.stop
  · have order := ChangeSet.mapPos_lt .before .before made inserts
      (show a.stop < b.stop by omega)
    rw [if_pos caret, caret]
    omega
  · have order : s.mapPos a.stop .before ≤ s.mapPos b.start .after := ChangeSet.mapFrom_mono
      (ChangeSet.ofChanges_follows made) (Nat.zero_le _) apart.1 (fun other => nomatch other)
      (by decide)
    have wide := ChangeSet.mapPos_lt .after .before made inserts
      (show b.start < b.stop by omega)
    rw [if_neg caret]
    exact ⟨order, fun both => absurd both.2 (Nat.ne_of_lt wide)⟩

theorem Range.map_map (inside : r.Inside size)
    (back : ∀ side, ∀ x ≤ size, s'.mapPos (s.mapPos x side) side = x) : (r.map s).map s' = r := by
  obtain ⟨anchor, head⟩ := r
  obtain ⟨anchor_in, head_in⟩ := inside
  dsimp only at anchor_in head_in
  rcases Nat.lt_trichotomy anchor head with forward | rfl | backward
  · have order := ChangeSet.mapPos_lt .after .before made inserts forward
    have first := back .after anchor anchor_in
    have last := back .before head head_in
    rw [Range.map_forward forward (Nat.le_of_lt order), Range.map_forward order (by omega), first,
      last]
  · rw [Range.map_empty, Range.map_empty, back .before anchor anchor_in]
  · have order := ChangeSet.mapPos_lt .after .before made inserts backward
    have first := back .after head head_in
    have last := back .before anchor anchor_in
    rw [Range.map_backward backward (Nat.le_of_lt order), Range.map_backward order (by omega),
      first, last]

theorem Selection.map_of_inserts (apart : selection.ranges.Pairwise Range.Apart)
    (main : selection.main < selection.ranges.length) :
    selection.map s = ⟨selection.ranges.map (·.map s), selection.main⟩ :=
  Selection.ofRanges_of_apart
    (List.pairwise_map.mpr (apart.imp fun free => free.map made inserts))
    (by rwa [List.length_map])

theorem Selection.map_map (apart : selection.ranges.Pairwise Range.Apart)
    (sound : selection.Sound size)
    (back : ∀ side, ∀ x ≤ size, s'.mapPos (s.mapPos x side) side = x) :
    (selection.map s).map s' = selection := by
  have same : (selection.ranges.map (·.map s)).map (·.map s') = selection.ranges := by
    rw [List.map_map]
    conv => rhs; rw [← List.map_id selection.ranges]
    exact List.map_congr_left fun r member =>
      Range.map_map made inserts (sound.inside r member) back
  rw [Selection.map_of_inserts made inserts apart sound.main, Selection.map, same]
  exact Selection.ofRanges_of_apart apart sound.main

end Ranges

namespace RowEdit

variable {e : RowEdit} {edits : List RowEdit} {x n : Nat} {side : Side} {s s' : EditState}

theorem image_of_insert (inserts : e.old = []) (side : Side) (n : Nat) : e.image side n =
    if n < e.front.size ∨ n = e.front.size ∧ side = .before then n else n + e.new.size := by
  rw [image, inserts, Text.size_nil]
  cases side <;> simp only [ne_eq, not_true_eq_false, false_or, reduceCtorEq, and_false, or_false,
    and_true, if_false, if_true] <;> split_ifs <;> omega

theorem image_swap (inserts : e.old = []) (side : Side) (n : Nat) :
    e.swap.image side (e.image side n) = n := by
  have nothing : e.new = [] ↔ e.new.size = 0 := Text.size_eq_zero_iff.symm
  rw [image_of_insert inserts, image]
  simp only [swap, inserts, Text.size_nil, ne_eq, nothing]
  cases side <;> simp only [reduceCtorEq, or_false, or_true, and_false, and_true, if_false,
    if_true] <;> split_ifs <;> omega

section Put

variable (chained : Chained (edits.map before)) (inserts : ∀ e ∈ edits, e.old = [])
  (inside : x ≤ (flat (edits.map before)).size)

include chained inserts inside

/-- A position goes to the edited row, and from there back. -/
theorem exists_mapPos (side : Side) (size size' : Nat) : ∃ above e below,
    edits = above ++ e :: below ∧
      Document.OnRow (above.map before) e.before (below.map before) x ∧
      Document.OnRow (above.map after) e.after (below.map after)
        ((⟨changesFrom 0 edits, size⟩ : ChangeSet).mapPos x side) ∧
      (⟨changesFrom 0 (edits.map swap), size'⟩ : ChangeSet).mapPos
        ((⟨changesFrom 0 edits, size⟩ : ChangeSet).mapPos x side) side = x := by
  obtain ⟨above, e, below, n, rfl, rfl, high⟩ := exists_edit chained inside
  have inserted := inserts e (by simp)
  have first : ∀ d ∈ above, d.Parted := fun d member =>
    parted_of_chained chained d (by
      rw [List.dropLast_append_of_ne_nil (by simp)]
      exact List.mem_append_left _ member)
  have second : ∀ d ∈ above.map swap, d.Parted := by
    intro d member
    obtain ⟨d, given, rfl⟩ := List.mem_map.mp member
    exact Or.inl (inserts d (by simp [given]))
  have image : ChangeSet.mapFrom _ side 0 _ = _ :=
    mapFrom_changesFrom (e := e) first (high.imp_right Or.inl)
  have bound : e.image side n ≤ n + e.new.size := by
    rw [image_of_insert inserted]
    split <;> omega
  obtain ⟨old, new⟩ := e.size_text
  rw [inserted, Text.size_nil] at old
  have high' : below = [] ∨ e.image side n < e.after.text.size + e.ending.size :=
    high.imp_right fun within => by omega
  have back : ChangeSet.mapFrom _ side 0 (changesFrom 0 (_ ++ e.swap :: below.map swap)) = _ :=
    mapFrom_changesFrom (n := e.image side n) second (by
      rw [List.map_eq_nil_iff]
      exact high'.imp_right Or.inl)
  rw [map_before_swap, map_after_swap, image_swap inserted] at back
  have ending : e.before.ending = e.ending ∧ e.after.ending = e.ending := ⟨rfl, rfl⟩
  refine ⟨above, e, below, rfl, ⟨by omega, ?_⟩, ?_, ?_⟩
  · rw [List.map_eq_nil_iff, ending.1]
    exact high.imp_right fun within => by omega
  · rw [ChangeSet.mapPos, image, Document.OnRow, List.map_eq_nil_iff, ending.2]
    exact ⟨by omega, high'.imp_right fun within => by omega⟩
  · rw [ChangeSet.mapPos, ChangeSet.mapPos, image, List.map_append, List.map_cons]
    exact back

theorem mapPos_swap (side : Side) (size size' : Nat) :
    (⟨changesFrom 0 (edits.map swap), size'⟩ : ChangeSet).mapPos
      ((⟨changesFrom 0 edits, size⟩ : ChangeSet).mapPos x side) side = x := by
  obtain ⟨_, _, _, -, -, -, back⟩ := exists_mapPos chained inserts inside side size size'
  exact back

end Put

theorem inserts_changesFrom (inserts : ∀ e ∈ edits, e.old = []) (pos : Nat) :
    ∀ c ∈ changesFrom pos edits, c.start = c.stop := by
  intro c member
  obtain ⟨above, e, below, rfl, found⟩ := mem_changesFrom member
  obtain ⟨start, stop, -, -⟩ := change?_eq found
  rw [inserts e (List.mem_append_right _ List.mem_cons_self), Text.size_nil] at stop
  omega

theorem deletes_changesFrom (inserts : ∀ e ∈ edits, e.old = []) (pos : Nat) :
    ∀ c ∈ changesFrom pos (edits.map swap), c.start < c.stop ∧ c.insert = [] := by
  intro c member
  obtain ⟨above, e, below, parts, found⟩ := mem_changesFrom member
  have swapped : e ∈ edits.map swap := by
    rw [parts]
    exact List.mem_append_right _ List.mem_cons_self
  obtain ⟨original, in_edits, rfl⟩ := List.mem_map.mp swapped
  obtain ⟨start, stop, insert, changed⟩ := change?_eq found
  have nothing : original.swap.new = [] := inserts original in_edits
  have some_bytes := Text.size_pos fun none_taken => changed ⟨none_taken, nothing⟩
  exact ⟨by omega, insert.trans nothing⟩

section State

variable (holds : s.Holds (edits.map before)) (inserts : ∀ e ∈ edits, e.old = [])
  (coherent : s.Coherent) (coherent' : s'.Coherent) (holds' : s'.Holds (edits.map after))

include holds inserts coherent coherent' holds'

theorem number_mapPos (side : Side) (inside : x ≤ s.doc.size) :
    (s'.doc.lineAt ((⟨changesFrom 0 edits, s.doc.size⟩ : ChangeSet).mapPos x side)).number =
      (s.doc.lineAt x).number := by
  have size : s.doc.size = (flat (edits.map before)).size := congrArg Text.size holds.text
  have size' : s'.doc.size = (flat (edits.map after)).size := congrArg Text.size holds'.text
  have made := ofChanges_edits holds.text (parted_of_chained holds.chained) fun c => Iff.rfl
  have bound : ChangeSet.mapPos _ x side ≤ _ := ChangeSet.mapPos_le made inside
  rw [newSize_edits holds.text, ← size'] at bound
  obtain ⟨above, e, below, rfl, on, on', -⟩ :=
    exists_mapPos holds.chained inserts (size ▸ inside) side s.doc.size s.doc.size
  rw [List.map_append, List.map_cons] at holds holds'
  rw [coherent'.number_onRow holds' on' bound, coherent.number_onRow holds on inside,
    List.length_map, List.length_map]

theorem lineSpan_map {r : Range} (inside : r.Inside s.doc.size) :
    s'.lineSpan (r.map ⟨changesFrom 0 edits, s.doc.size⟩) = s.lineSpan r := by
  have made := ofChanges_edits holds.text (parted_of_chained holds.chained) fun c => Iff.rfl
  obtain ⟨stop, start⟩ := Range.ends_map made (inserts_changesFrom inserts 0) r
  rw [EditState.lineSpan, EditState.lineSpan, start, stop,
    number_mapPos holds inserts coherent coherent' holds' _ (r.start_le_stop.trans inside.stop_le),
    number_mapPos holds inserts coherent coherent' holds' _ inside.stop_le]

end State

end RowEdit

end MarkdownEditing
