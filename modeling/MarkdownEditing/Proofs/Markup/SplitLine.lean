import MarkdownEditing.Proofs.Edit.Single
import MarkdownEditing.Proofs.Markup.Counted

namespace MarkdownEditing

theorem Transaction.byRange_single {s : EditState} {t : Transaction} {r : Range} {e : RangeEdit}
    {edit : Range → Except Refusal RangeEdit} {pos : Nat} (made : byRange s edit = .ok t)
    (only : s.selection.ranges = [r]) (edited : edit r = .ok e)
    (caret : e.range = Range.caret pos) :
    ∃ selection, t.selection = some selection ∧ selection.ranges = [Range.caret pos] := by
  obtain ⟨e', edited', made⟩ := byRange_only made only
  rw [edited] at edited'
  cases edited'
  rw [ofEdits_accepted (ofEdits_ok made)] at made
  have selected := (congrArg Transaction.selection (Except.ok.inj made)).symm
  refine ⟨_, selected, ?_⟩
  simp [carryAll, RangeEdit.carry_alone caret, Selection.ranges_ofRanges_single]

theorem EditState.ranges_next? {s s' : EditState} {t : Transaction} {selection : Selection}
    {pos : Nat} (fits : t.changes.size = s.doc.size) (next : s.next? t = some s')
    (selected : t.selection = some selection) (only : selection.ranges = [Range.caret pos])
    (inside : pos ≤ s'.doc.size) : s'.selection.ranges = [Range.caret pos] := by
  rw [next?, if_neg (fun other => other fits)] at next
  cases applied : s.doc.change? t.changes with
  | none => simp [applied] at next
  | some changed =>
    simp only [applied, Option.bind_eq_bind, Option.bind_some, pure, Option.some.injEq, selected,
      Option.getD_some] at next
    subst next
    dsimp only at inside ⊢
    rw [Selection.clamp, only, List.map_singleton, Selection.ranges_ofRanges_single]
    simp [Range.clamp, Range.caret, inside]

namespace Place.IsNumbered

variable {q : Place} {digits : Text} {glyph : Char} {t a m w : Text}

theorem start_lt_size (numbered : q.IsNumbered digits glyph) (inside : q.In (Tree.ofText t)) :
    q.start < t.size :=
  Nat.lt_of_lt_of_le numbered.start_lt_stop inside.stop_le

theorem not_within (numbered : q.IsNumbered digits glyph) (inside : q.In (Tree.ofText t))
    (parts : t = a ++ m ++ w) (plain : ∀ c ∈ m, c.isDigit = false) (low : a.size ≤ q.start) :
    a.size + m.size ≤ q.start := by
  by_contra short
  -- otherwise the first digit of the number would be among the characters of the piece
  obtain ⟨above, below, mark, mark_size⟩ := numbered.exists_parts inside
  obtain ⟨d, digits, rfl⟩ := List.exists_cons_of_ne_nil numbered.some_digit
  have digit := List.all_eq_true.mp numbered.all d List.mem_cons_self
  have some_bytes := d.utf8Size_pos
  have member : d ∈ t.touched a.size (a.size + m.size) := by
    refine Text.mem_touched.mpr ⟨above, digits ++ [glyph] ++ below, ?_, ?_, ?_, ?_⟩
    · rw [mark]
      simp only [List.cons_append, List.append_assoc]
    · omega
    · omega
    · omega
  rw [plain d (Text.mem_of_mem_touched parts (Nat.le_refl _) (Nat.le_refl _) member)] at digit
  cases digit

end Place.IsNumbered

namespace Enter

namespace Site

variable {s s' : EditState} {tr : Transaction} {r : Range} {x : Site}
  {before held blank rest after : Text}

/-- A change begins at an item behind the caret, in the list of the one that the caret is in. -/
structure AtFollower (x : Site) (s : EditState) (c : Change) (q : Place) : Prop where
  listed : ∃ p, x.inner.item = some p ∧ q ∈ p.followingItems
  inside : q.In (Tree.ofText s.text)
  numbered : ∃ digits glyph, q.IsNumbered digits glyph
  behind : x.pos ≤ q.start
  start : c.start = q.start

theorem AtFollower.pos_le {c : Change} {q : Place} (follower : x.AtFollower s c q) :
    x.pos ≤ c.start := by
  rw [follower.start]
  exact follower.behind

variable (splits : SplitsLines s tr) (only : s.selection.ranges = [r]) (found : site s r = .ok x)

include splits only found

theorem atFollower_of_ne_split : ∀ c ∈ tr.changes.changes, c ≠ x.lineSplit s →
    ∃ q, x.AtFollower s c q := by
  intro c member other
  have alone : ∀ r' ∈ s.selection.ranges, ∀ y, site s r' = .ok y → y = x := by
    intro r' member y there
    rw [only, List.mem_singleton] at member
    rw [member, found] at there
    exact (Except.ok.inj there).symm
  obtain ⟨_, r', range', y, found', same | ⟨p, shown, ordered, counted⟩⟩ :=
    splits.mem_changes.mp member
  · rw [alone r' range' y found'] at same
    exact absurd same other
  · obtain rfl := alone r' range' y found'
    obtain ⟨_, q, digits, glyph, n, _, following, _, inside, numbered, _, rfl⟩ :=
      splits.renumber_change range' found' shown ordered counted
    obtain ⟨list, list_inside, list_ordered, listed⟩ :=
      splits.ordered_item range' found' shown ordered
    obtain ⟨_, _, _, p_numbered⟩ := list_inside.numbered_of_mem_items list_ordered listed
    obtain ⟨_, _, reach⟩ := At.frame_of_item splits.coherent ⟨⟨r', range', found'⟩, shown⟩ p_numbered
    obtain ⟨front, items⟩ := Place.items_split listed
    have apart := Place.items_apart list
    rw [items] at apart
    have behind := List.rel_of_pairwise_cons (List.pairwise_append.mp apart).2.1 following
    exact ⟨q, ⟨_, shown, following⟩, inside, ⟨digits, glyph, numbered⟩, Nat.le_trans reach behind,
      rfl⟩

/-- The split of the line comes first, and every other change is one of a number behind the caret. -/
theorem changes_of_single : ∃ back, tr.changes.changes = x.lineSplit s :: back ∧
    ∀ c ∈ back, ∃ q, x.AtFollower s c q := by
  have range : r ∈ s.selection.ranges := by
    rw [only]
    exact List.mem_singleton_self r
  have split : x.lineSplit s ∈ tr.changes.changes := by
    refine splits.mem_changes.mpr ⟨?_, r, range, x, found, Or.inl rfl⟩
    cases kind : s.doc.lineBreak <;>
      simp [Change.isNoop, lineSplit, EditState.lineBreak, kind, LineBreak.text]
  obtain ⟨_, apart⟩ := splits.applied_changes
  have others := atFollower_of_ne_split splits only found
  obtain ⟨front, back, both⟩ := List.append_of_mem split
  rw [both] at apart others ⊢
  obtain ⟨_, later, before⟩ := List.pairwise_append.mp apart
  have none_before : front = [] := by
    cases front with
    | nil => rfl
    | cons c front =>
      have first := before c List.mem_cons_self _ List.mem_cons_self
      obtain ⟨_, follower⟩ := others c (List.mem_cons_self ..) (by
        rintro rfl
        exact absurd first (Std.Irrefl.irrefl _))
      exact absurd first.2 (Nat.not_lt.mpr follower.pos_le)
  subst none_before
  refine ⟨back, rfl, fun c member => others c (List.mem_cons_of_mem _ member) ?_⟩
  rintro rfl
  exact absurd (List.rel_of_pairwise_cons later member) (Std.Irrefl.irrefl _)

theorem mapPos_of_lt_split {n : Nat} (less : n < x.trimStop) : tr.changes.mapPos n .after = n := by
  obtain ⟨back, changes, others⟩ := changes_of_single splits only found
  obtain ⟨⟨_, accepted⟩, _⟩ := splits.applied_changes
  have bounds := ChangeSet.ofChanges_bounds accepted
  have stop : (x.lineSplit s).start ≤ x.pos := (bounds (x.lineSplit s) (by rw [changes]; simp)).1
  have ahead : ∀ c ∈ tr.changes.changes, x.trimStop ≤ c.start := by
    intro c member
    rw [changes] at member
    rcases List.mem_cons.mp member with rfl | later
    · exact Nat.le_refl _
    · obtain ⟨_, follower⟩ := others c later
      exact Nat.le_trans stop follower.pos_le
  rw [ChangeSet.mapPos, ChangeSet.mapFrom_ahead fun c member => ?_, Int.add_zero, Int.toNat_natCast]
  have first := ahead c member
  have forward := (bounds c member).1
  exact ⟨by omega, forward, Or.inl (by omega)⟩

theorem mapPos_of_split (divides : x.Divides s before held blank rest after) :
    tr.changes.mapPos x.pos .after = (before ++ held ++ (x.lineSplit s).insert).size := by
  obtain ⟨back, changes, others⟩ := changes_of_single splits only found
  obtain ⟨⟨_, accepted⟩, apart⟩ := splits.applied_changes
  have bounds := ChangeSet.ofChanges_bounds accepted
  have ahead : ∀ c ∈ back, x.pos ≤ c.start ∧ c.start ≤ c.stop ∧
      (x.pos < c.stop ∨ Side.after = .before) := by
    intro c later
    have member : c ∈ tr.changes.changes := by
      rw [changes]
      exact List.mem_cons_of_mem _ later
    obtain ⟨_, follower⟩ := others c later
    have low := follower.pos_le
    have forward := (bounds c member).1
    refine ⟨low, forward, Or.inl ?_⟩
    by_contra empty
    -- an insertion at the caret is the split itself
    obtain ⟨r', range', y, found', rfl⟩ := splits.insertion_site member (by omega)
    have same : y.pos = x.pos := by
      have stop : (y.lineSplit s).stop = y.pos := rfl
      omega
    rw [site_unique found' found same] at later
    rw [changes] at apart
    exact absurd (List.rel_of_pairwise_cons apart later) (Std.Irrefl.irrefl _)
  have start := divides.trimStop
  have stop := divides.pos
  have first : (x.lineSplit s).start = x.trimStop ∧ (x.lineSplit s).stop = x.pos := ⟨rfl, rfl⟩
  rw [Text.size_append] at stop
  rw [ChangeSet.mapPos, changes, Text.size_append, Text.size_append]
  rcases ChangeSet.mapFrom_cons x.pos .after 0 (x.lineSplit s) back with
    ⟨less, _⟩ | ⟨_, less | ⟨_, _, side⟩, _⟩ | ⟨_, _, _, image⟩
  · omega
  · omega
  · cases side
  · rw [image, ChangeSet.mapFrom_ahead ahead, Change.growth]
    omega

/-- The text in front of the split stays, and of the text behind the caret what has no digit in it. -/
theorem text_of_single (divides : x.Divides s before held blank rest after)
    (applied : tr.changes.applyTo? s.text = some s'.text) :
    ∃ later, s'.text = before ++ held ++ ((x.lineSplit s).insert ++ later) ∧
      (rest ++ after = [] → later = []) ∧
      ∀ m w, rest ++ after = m ++ w → (∀ c ∈ m, c.isDigit = false) → ∃ w', later = m ++ w' := by
  obtain ⟨back, changes, others⟩ := changes_of_single splits only found
  obtain ⟨⟨_, accepted⟩, _⟩ := splits.applied_changes
  rw [ChangeSet.applyTo?, changes, ChangeSet.ofChanges_size accepted] at applied
  obtain ⟨kept, later, gap, changed, text⟩ := ChangeSet.applyFrom?_cons applied
  have start : (x.lineSplit s).start = 0 + (before ++ held).size := by
    rw [Nat.zero_add, Text.size_append]
    exact divides.trimStop
  have whole : s.text = before ++ (held ++ blank) ++ (rest ++ after) := by
    rw [divides.text]
    simp only [List.append_assoc]
  have stop : (x.lineSplit s).stop = (before ++ (held ++ blank)).size := by
    rw [Text.size_append before]
    exact divides.pos
  have low : (before ++ (held ++ blank)).size = x.pos := stop.symm
  have parts : s.text = [] ++ (before ++ held) ++ (blank ++ (rest ++ after)) := by
    rw [whole]
    simp only [List.nil_append, List.append_assoc]
  have middle := ChangeSet.gap?_middle [] (before ++ held) (blank ++ (rest ++ after))
  rw [Text.size_nil, ← parts, ← start, gap] at middle
  cases middle
  rw [stop] at changed
  refine ⟨later, by rw [text, List.append_assoc], fun last => ?_, fun m w behind plain => ?_⟩
  · rw [last, List.append_nil] at whole
    cases back with
    | nil =>
      rw [ChangeSet.applyFrom?, ChangeSet.gap?, whole, if_neg (by omega)] at changed
      exact (Option.some.inj changed).symm
    | cons c back =>
      -- no number is left behind the caret to change
      obtain ⟨q, follower⟩ := others c List.mem_cons_self
      obtain ⟨_, _, numbered⟩ := follower.numbered
      have high := numbered.start_lt_size follower.inside
      have behind := follower.behind
      rw [whole] at high
      omega
  · rw [behind, ← List.append_assoc] at whole
    have size := congrArg Text.size whole
    rw [Text.size_append, Text.size_append] at size
    have ahead : ∀ c ∈ back.head?, (before ++ (held ++ blank)).size + m.size ≤ c.start := by
      intro c first
      obtain ⟨q, follower⟩ := others c (List.mem_of_head? first)
      obtain ⟨_, _, numbered⟩ := follower.numbered
      rw [follower.start]
      exact numbered.not_within follower.inside whole plain (by rw [low]; exact follower.behind)
    rw [whole] at changed
    exact ChangeSet.applyFrom?_keeps changed (by rw [← whole]; omega) ahead

theorem text_of_last (divides : x.Divides s before held blank rest after)
    (last : ∀ p, x.inner.item = some p → p.followingItems = [])
    (applied : tr.changes.applyTo? s.text = some s'.text) :
    s'.text = before ++ held ++ (x.lineSplit s).insert ++ (rest ++ after) := by
  obtain ⟨back, changes, others⟩ := changes_of_single splits only found
  obtain ⟨⟨_, accepted⟩, _⟩ := splits.applied_changes
  have alone : back = [] := by
    rw [List.eq_nil_iff_forall_not_mem]
    intro c later
    obtain ⟨_, follower⟩ := others c later
    obtain ⟨p, shown, following⟩ := follower.listed
    rw [last p shown] at following
    cases following
  have parts : s.text = before ++ held ++ blank ++ (rest ++ after) := by
    rw [divides.text]
    simp only [List.append_assoc]
  have start := divides.trimStop
  have stop := divides.pos
  rw [Text.size_append] at stop
  have set : tr.changes = ⟨[⟨(before ++ held).size, (before ++ held).size + blank.size,
      (x.lineSplit s).insert⟩], (before ++ held ++ blank ++ (rest ++ after)).size⟩ := by
    rw [alone] at changes
    have size := ChangeSet.ofChanges_size accepted
    rw [parts] at size
    generalize tr.changes = set at changes size
    obtain ⟨all, total⟩ := set
    dsimp only at changes size
    subst changes size
    simp only [Site.lineSplit, Text.size_append, start, stop, Nat.add_assoc]
  rw [set, parts, ChangeSet.applyTo?_replace] at applied
  exact (Option.some.inj applied).symm

theorem caret_of_single (divides : x.Divides s before held blank rest after)
    (next : s.next? tr = some s') :
    s'.selection.ranges = [Range.caret (before ++ held ++ (x.lineSplit s).insert).size] := by
  have range : r ∈ s.selection.ranges := by
    rw [only]
    exact List.mem_singleton_self r
  obtain ⟨e, edited, made⟩ := splits.exists_edit range found
  obtain ⟨⟨_, accepted⟩, _⟩ := splits.applied_changes
  have fits : tr.changes.size = s.doc.size := ChangeSet.ofChanges_size accepted
  obtain ⟨applied, doc, _⟩ := EditState.next?_changed fits next
  have caret : e.range = Range.caret (before ++ held ++ (x.lineSplit s).insert).size := by
    have stop := divides.trimStop
    rw [Text.size_append, Text.size_append, ← stop]
    unfold split at made
    split at made
    · cases made
      rfl
    · cases made
  obtain ⟨selection, selected, single⟩ := Transaction.byRange_single splits.made only edited caret
  refine EditState.ranges_next? fits next selected single ?_
  obtain ⟨later, text, _⟩ := text_of_single splits only found divides applied
  rw [doc, Document.size, Document.ofText, text]
  simp only [Text.size_append]
  omega

end Site

end Enter

end MarkdownEditing
