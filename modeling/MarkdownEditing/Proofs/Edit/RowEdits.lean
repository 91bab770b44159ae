import MarkdownEditing.Proofs.Edit.Abreast
import MarkdownEditing.Proofs.Edit.Merging
import MarkdownEditing.Proofs.Edit.Rows

namespace MarkdownEditing

open Row

structure RowEdit where
  front : Text
  old : Text
  new : Text
  back : Text
  ending : Text

namespace RowEdit

def before (e : RowEdit) : Row := ⟨e.front ++ e.old ++ e.back, e.ending⟩

def after (e : RowEdit) : Row := ⟨e.front ++ e.new ++ e.back, e.ending⟩

def keep (row : Row) : RowEdit := ⟨[], [], [], row.text, row.ending⟩

def swap (e : RowEdit) : RowEdit := ⟨e.front, e.new, e.old, e.back, e.ending⟩

def change? (e : RowEdit) (pos : Nat) : Option Change :=
  if e.old = [] ∧ e.new = [] then none
  else some ⟨pos + e.front.size, pos + e.front.size + e.old.size, e.new⟩

def changesFrom (pos : Nat) : List RowEdit → List Change
  | [] => []
  | e :: edits =>
    (e.change? pos).toList ++ changesFrom (pos + e.before.text.size + e.ending.size) edits

def image (e : RowEdit) (side : Side) (n : Nat) : Nat :=
  if n < e.front.size ∨ n = e.front.size ∧ (e.old ≠ [] ∨ side = .before) then n
  else if n < e.front.size + e.old.size then
    if side = .before then e.front.size else e.front.size + e.new.size
  else n + e.new.size - e.old.size

/-- What an edit puts in keeps away from the next row. -/
def Parted (e : RowEdit) : Prop := e.new = [] ∨ e.old ≠ [] ∨ e.ending ≠ []

variable {e : RowEdit} {edits above below : List RowEdit} {pos size x n : Nat} {side : Side}
  {c : Change} {s : EditState}

@[simp] theorem after_keep (row : Row) : (keep row).after = row := rfl

theorem map_before_swap (edits : List RowEdit) : (edits.map swap).map before = edits.map after := by
  rw [List.map_map]
  rfl

theorem map_after_swap (edits : List RowEdit) : (edits.map swap).map after = edits.map before := by
  rw [List.map_map]
  rfl

theorem image_keep (row : Row) (side : Side) (n : Nat) : (keep row).image side n = n := by
  rw [image, keep, Text.size_nil]
  split_ifs <;> omega

theorem size_text (e : RowEdit) :
    e.before.text.size = e.front.size + e.old.size + e.back.size ∧
      e.after.text.size = e.front.size + e.new.size + e.back.size := by
  simp only [before, after, Text.size_append, and_self]

theorem change?_eq (found : c ∈ e.change? pos) : c.start = pos + e.front.size ∧
    c.stop = pos + e.front.size + e.old.size ∧ c.insert = e.new ∧ ¬(e.old = [] ∧ e.new = []) := by
  rw [change?] at found
  split at found
  · cases found
  · rename_i changed
    cases found
    exact ⟨rfl, rfl, rfl, changed⟩

theorem changesFrom_append (pos : Nat) (above below : List RowEdit) :
    changesFrom pos (above ++ below) =
      changesFrom pos above ++ changesFrom (pos + (flat (above.map before)).size) below := by
  induction above generalizing pos with
  | nil => rfl
  | cons e above ih =>
    rw [List.cons_append, changesFrom, changesFrom, ih, List.append_assoc, List.map_cons, flat_cons,
      Text.size_append, Text.size_append]
    simp only [before, Nat.add_assoc]

theorem mem_changesFrom (member : c ∈ changesFrom pos edits) :
    ∃ above e below, edits = above ++ e :: below ∧
      e.change? (pos + (flat (above.map before)).size) = some c := by
  induction edits generalizing pos with
  | nil => cases member
  | cons e edits ih =>
    rcases List.mem_append.mp member with here | later
    · exact ⟨[], e, edits, rfl, Option.mem_toList.mp here⟩
    · obtain ⟨above, other, below, rfl, found⟩ := ih later
      refine ⟨e :: above, other, below, rfl, ?_⟩
      rw [← found, List.map_cons, flat_cons, Text.size_append, Text.size_append]
      simp only [before, Nat.add_assoc]

theorem size_before (above below : List RowEdit) (e : RowEdit) :
    (flat ((above ++ e :: below).map before)).size = (flat (above.map before)).size +
      (e.before.text.size + e.ending.size + (flat (below.map before)).size) := by
  rw [List.map_append, List.map_cons, flat_append, flat_cons]
  simp only [Text.size_append, before, Nat.add_assoc]

theorem bounds_changesFrom (member : c ∈ changesFrom pos edits) :
    pos ≤ c.start ∧ c.start ≤ c.stop ∧ c.stop ≤ pos + (flat (edits.map before)).size := by
  obtain ⟨above, e, below, rfl, found⟩ := mem_changesFrom member
  obtain ⟨start, stop, -, -⟩ := change?_eq found
  have sizes := e.size_text.1
  rw [size_before]
  omega

theorem isNoop_of_mem_changesFrom (member : c ∈ changesFrom pos edits) : c.isNoop = false := by
  obtain ⟨above, e, below, rfl, found⟩ := mem_changesFrom member
  obtain ⟨start, stop, insert, changed⟩ := change?_eq found
  rw [Change.isNoop, Bool.and_eq_false_iff, beq_eq_false_iff_ne, List.isEmpty_eq_false_iff, insert]
  by_cases put_in : e.new = []
  · have some_bytes := Text.size_pos fun nothing : e.old = [] => changed ⟨nothing, put_in⟩
    left
    omega
  · exact Or.inr put_in

theorem Parted.start_lt (parted : e.Parted) (found : c ∈ e.change? pos) :
    c.start < pos + e.before.text.size + e.ending.size := by
  obtain ⟨start, -, -, changed⟩ := change?_eq found
  have sizes := e.size_text.1
  have some_bytes : 0 < e.old.size ∨ 0 < e.ending.size := by
    rcases parted with none_put_in | taken | ended
    · exact Or.inl (Text.size_pos fun nothing => changed ⟨nothing, none_put_in⟩)
    · exact Or.inl (Text.size_pos taken)
    · exact Or.inr (Text.size_pos ended)
  omega

theorem start_lt_of_parted (parted : ∀ e ∈ edits, e.Parted) (member : c ∈ changesFrom pos edits) :
    c.start < pos + (flat (edits.map before)).size := by
  obtain ⟨above, e, below, rfl, found⟩ := mem_changesFrom member
  have low := (parted e (List.mem_append_right _ List.mem_cons_self)).start_lt found
  rw [size_before]
  omega

theorem before_changesFrom (parted : ∀ e ∈ edits.dropLast, e.Parted) (pos : Nat) :
    (changesFrom pos edits).Pairwise Change.Before := by
  induction edits generalizing pos with
  | nil => exact List.Pairwise.nil
  | cons e edits ih =>
    rw [changesFrom, List.pairwise_append]
    refine ⟨by cases e.change? pos <;> simp, ih ?_ _, fun c here d later => ?_⟩
    · exact fun d member => parted d (List.mem_of_mem_tail (by rwa [List.tail_dropLast]))
    · rw [Option.mem_toList] at here
      cases edits with
      | nil => cases later
      | cons next edits =>
        have low := (parted e (by simp)).start_lt here
        obtain ⟨start, stop, -, -⟩ := change?_eq here
        have sizes := e.size_text.1
        have bounds := bounds_changesFrom later
        have strict : d.stop = d.start → c.start < d.start := by omega
        rw [Change.Before]
        omega

/-- The changes make the edited rows out of the given ones, behind a line break `kept` that is still
to be kept. -/
theorem applyFrom?_changesFrom {t : Text} (a kept : Text)
    (text : t = a ++ kept ++ flat (edits.map before)) :
    ChangeSet.applyFrom? t t.size a.size (changesFrom (a.size + kept.size) edits) =
      some (kept ++ flat (edits.map after)) := by
  -- On the rows; `kept` is the text since the last change, which grows over rows without one.
  induction edits generalizing a kept with
  | nil =>
    have gap := ChangeSet.gap?_middle a kept []
    rw [List.append_nil, ← Text.size_append] at gap
    rw [List.map_nil, flat_nil, List.append_nil] at text
    rw [changesFrom, ChangeSet.applyFrom?, text, List.map_nil, flat_nil, List.append_nil]
    exact gap
  | cons e edits ih =>
    have whole : t = a ++ (kept ++ e.before.text ++ e.ending) ++ flat (edits.map before) := by
      rw [text, List.map_cons, flat_cons]
      simp only [before, List.append_assoc]
    rw [changesFrom, change?]
    split
    · rename_i same
      have later := ih _ _ whole
      rw [Text.size_append, Text.size_append] at later
      rw [Option.toList_none, List.nil_append, Nat.add_assoc, Nat.add_assoc,
        ← Nat.add_assoc kept.size, later]
      simp only [List.map_cons, flat_cons, before, after, same.1, same.2, List.append_assoc]
    · have cut : t = a ++ (kept ++ e.front) ++
          (e.old ++ e.back ++ e.ending ++ flat (edits.map before)) := by
        rw [whole, before]
        simp only [List.append_assoc]
      have gap := ChangeSet.gap?_middle a (kept ++ e.front)
        (e.old ++ e.back ++ e.ending ++ flat (edits.map before))
      rw [← cut, Text.size_append, ← Nat.add_assoc] at gap
      have later := ih (a ++ kept ++ e.front ++ e.old) (e.back ++ e.ending) (by
        rw [cut]
        simp only [List.append_assoc])
      have stop : (a ++ kept ++ e.front ++ e.old).size =
          a.size + kept.size + e.front.size + e.old.size := by
        simp only [Text.size_append]
      have next : a.size + kept.size + e.before.text.size + e.ending.size =
          a.size + kept.size + e.front.size + e.old.size + (e.back ++ e.ending).size := by
        rw [e.size_text.1, Text.size_append]
        omega
      rw [stop, ← next] at later
      rw [Option.toList_some, List.singleton_append, ChangeSet.applyFrom?, gap, later]
      simp only [List.map_cons, flat_cons, after, Option.bind_eq_bind, Option.bind_some,
        Option.pure_def, List.append_assoc]

theorem totalGrowth_changesFrom (pos : Nat) (edits : List RowEdit) :
    ChangeSet.totalGrowth (changesFrom pos edits) =
      ((flat (edits.map after)).size : Int) - (flat (edits.map before)).size := by
  induction edits generalizing pos with
  | nil => rfl
  | cons e edits ih =>
    obtain ⟨old, new⟩ := e.size_text
    have ending : e.before.ending = e.ending ∧ e.after.ending = e.ending := ⟨rfl, rfl⟩
    rw [changesFrom, ChangeSet.totalGrowth_append, ih, List.map_cons, List.map_cons, flat_cons,
      flat_cons]
    simp only [Text.size_append, ending.1, ending.2, old, new]
    rw [change?]
    split
    · rename_i same
      rw [same.1, same.2, Option.toList_none, ChangeSet.totalGrowth]
      omega
    · rw [Option.toList_some, ChangeSet.totalGrowth, ChangeSet.totalGrowth, Change.growth]
      dsimp only
      omega

theorem mapFrom_change? (e : RowEdit) (side : Side) (pos pos' n : Nat) :
    ChangeSet.mapFrom (pos + n) side ((pos' : Int) - pos) (e.change? pos).toList =
      pos' + e.image side n := by
  have nothing : e.old = [] ↔ e.old.size = 0 := Text.size_eq_zero_iff.symm
  rw [change?, image]
  simp only [ne_eq, nothing]
  split
  · rename_i same
    rw [Option.toList_none, ChangeSet.mapFrom, same.2, Text.size_nil]
    split_ifs <;> omega
  · rw [Option.toList_some]
    rcases ChangeSet.mapFrom_cons (pos + n) side ((pos' : Int) - pos)
      ⟨pos + e.front.size, pos + e.front.size + e.old.size, e.new⟩ [] with
      ⟨ahead, same⟩ | ⟨low, touches, same⟩ | ⟨low, behind, strict, same⟩
    · dsimp only at ahead
      rw [same, if_pos (Or.inl (by omega))]
      omega
    · rw [same]
      dsimp only at low touches ⊢
      cases side <;> simp only [reduceCtorEq, or_false, or_true, and_false, and_true, if_false,
        if_true] at touches ⊢ <;> split_ifs <;> omega
    · rw [same, ChangeSet.mapFrom, Change.growth]
      dsimp only at low behind strict ⊢
      cases side <;> simp only [reduceCtorEq, or_false, or_true, and_true, if_false, if_true,
        true_implies] at strict ⊢ <;> split_ifs <;> omega

theorem mapFrom_changesFrom (parted : ∀ e ∈ above, e.Parted)
    (high : below = [] ∨ n < e.before.text.size + e.ending.size ∨
      n = e.before.text.size + e.ending.size ∧ side = .before) :
    ChangeSet.mapFrom ((flat (above.map before)).size + n) side 0
        (changesFrom 0 (above ++ e :: below)) =
      (flat (above.map after)).size + e.image side n := by
  rw [changesFrom_append, ChangeSet.mapFrom_append, totalGrowth_changesFrom, changesFrom,
    ChangeSet.mapFrom_append_ahead, Nat.zero_add, Int.zero_add]
  · exact mapFrom_change? e side _ _ n
  · intro c member
    have bounds := bounds_changesFrom member
    rcases high with rfl | inside | ⟨ends, keeps⟩
    · cases member
    · exact ⟨by omega, bounds.2.1, Or.inl (by omega)⟩
    · exact ⟨by omega, bounds.2.1, Or.inr keeps⟩
  · intro c member
    have bounds := bounds_changesFrom member
    have strict := start_lt_of_parted parted member
    exact ⟨bounds.2.1, by omega, fun _ => by omega⟩

/-- Edits of rows of one text put their changes on rows that end in line breaks, but for the
last. -/
theorem parted_of_chained (chained : Chained (edits.map before)) :
    ∀ e ∈ edits.dropLast, e.Parted := by
  induction edits with
  | nil => exact fun e member => nomatch member
  | cons e edits ih =>
    cases edits with
    | nil => exact fun e member => nomatch member
    | cons next edits =>
      rw [List.dropLast_cons_cons, List.forall_mem_cons]
      obtain ⟨⟨_, ending⟩, later⟩ := chained
      refine ⟨Or.inr (Or.inr ?_), ih later⟩
      rcases ending with same | same <;> exact fun nothing => by simp [before, nothing] at same

theorem exists_edit (chained : Chained (edits.map before))
    (inside : x ≤ (flat (edits.map before)).size) :
    ∃ above e below n, edits = above ++ e :: below ∧ x = (flat (above.map before)).size + n ∧
      (below = [] ∨ n < e.before.text.size + e.ending.size) := by
  obtain ⟨rows, row, rows', parts, low, high⟩ := Document.exists_onRow chained inside
  obtain ⟨above, rest, rfl, rfl, here⟩ := List.map_eq_append_iff.mp parts
  obtain ⟨e, below, rfl, rfl, rfl⟩ := List.map_eq_cons_iff.mp here
  have ending : e.before.ending = e.ending := rfl
  rw [ending] at high
  refine ⟨above, e, below, x - (flat (above.map before)).size, rfl, by omega, ?_⟩
  rcases high with last | inside
  · exact Or.inl (List.map_eq_nil_iff.mp last)
  · exact Or.inr (by omega)

theorem chained_after (chained : Chained (edits.map before)) (clean : ∀ e ∈ edits, '\n' ∉ e.new) :
    Chained (edits.map after) := by
  have becomes : List.Forall₂ (Becomes ['\n']) (edits.map before) (edits.map after) := by
    rw [List.forall₂_map_left_iff, List.forall₂_map_right_iff, List.forall₂_same]
    intro e member
    refine ⟨fun one_line found => ?_, Or.inl rfl⟩
    simp only [before, after, List.mem_append, not_or] at one_line found
    rcases found with (here | here) | here
    · exact one_line.1.1 here
    · exact clean e member here
    · exact one_line.2 here
  exact chained.of_becomes becomes (Or.inl rfl)

/-- They are read back if no carriage return comes to the end of a line. -/
theorem ofText_after (chained : Chained (edits.map before)) (clean : ∀ e ∈ edits, '\n' ∉ e.new)
    (settled : ∀ e ∈ edits, e.after.settle = e.after) :
    Row.ofText (flat (edits.map after)) = edits.map after := by
  rw [ofText_flat (chained_after chained clean)]
  conv => rhs; rw [← List.map_id (edits.map after)]
  refine List.map_congr_left fun row member => ?_
  obtain ⟨e, inside, rfl⟩ := List.mem_map.mp member
  exact settled e inside

/-- What is put in at the start of a row brings no carriage return to its end. -/
theorem settle_after (settled : e.before.settle = e.before) (first : e.front = [])
    (clean : '\r' ∉ e.new) : e.after.settle = e.after := by
  refine if_neg fun found => not_of_settle settled ⟨found.1, ?_⟩
  have ends := found.2
  rw [after, first, List.nil_append] at ends
  rw [before, first, List.nil_append]
  dsimp only at ends ⊢
  cases back : e.back with
  | nil =>
    rw [back, List.append_nil] at ends
    exact absurd (List.mem_of_getLast? ends) clean
  | cons c rest =>
    rw [back, List.getLast?_append_of_ne_nil _ (by simp)] at ends
    rw [List.getLast?_append_of_ne_nil _ (by simp)]
    exact ends

section State

variable (text : s.text = flat (edits.map before))

include text

theorem ofChanges_edits {changes : List Change} (parted : ∀ e ∈ edits.dropLast, e.Parted)
    (same : ∀ c, c ∈ changesFrom 0 edits ↔ c ∈ changes) :
    ChangeSet.ofChanges changes s.doc.size = .ok ⟨changesFrom 0 edits, s.doc.size⟩ := by
  apply ChangeSet.ofChanges_of_mem (before_changesFrom parted 0)
  · intro c member
    have bounds := bounds_changesFrom member
    rw [← text, Nat.zero_add] at bounds
    exact bounds.2
  · intro c
    rw [← same c]
    exact ⟨fun member => ⟨member, isNoop_of_mem_changesFrom member⟩, And.left⟩

theorem newSize_edits : (⟨changesFrom 0 edits, s.doc.size⟩ : ChangeSet).newSize =
    (flat (edits.map after)).size := by
  have size : s.doc.size = (flat (edits.map before)).size := congrArg Text.size text
  rw [ChangeSet.newSize, totalGrowth_changesFrom, size]
  dsimp only
  omega

theorem exists_next? (parted : ∀ e ∈ edits.dropLast, e.Parted)
    (sound : s.selection.Sound s.doc.size) (selection : Option Selection) :
    ∃ s', s.next? ⟨⟨changesFrom 0 edits, s.doc.size⟩, selection⟩ = some s' ∧
      s'.text = flat (edits.map after) ∧ s'.selection = (selection.map (·.clamp s'.doc.size)).getD
        (s.selection.map ⟨changesFrom 0 edits, s.doc.size⟩) := by
  have applied : (⟨changesFrom 0 edits, s.doc.size⟩ : ChangeSet).applyTo? s.text =
      some (flat (edits.map after)) := applyFrom?_changesFrom [] [] text
  obtain ⟨s', next, changed, selected⟩ := EditState.exists_next?
    (t := ⟨⟨changesFrom 0 edits, s.doc.size⟩, selection⟩) rfl applied
  refine ⟨s', next, changed, ?_⟩
  rw [selected]
  cases selection with
  | some selection => rw [← changed]; rfl
  | none =>
    have made := ofChanges_edits text parted fun c => Iff.rfl
    rw [← newSize_edits text]
    refine Selection.clamp_ofRanges (by simp [sound.nonempty]) _ fun q mapped => ?_
    obtain ⟨r, member, rfl⟩ := List.mem_map.mp mapped
    exact (sound.inside r member).map made

end State

section Along

def along (edit : Line → Text → RowEdit) (number start : Nat) : List Row → List RowEdit
  | [] => []
  | row :: rows =>
    edit ⟨number, start, start + row.text.size, row.text⟩ row.ending ::
      along edit (number + 1) (start + row.text.size + row.ending.size) rows

variable {edit edit' : Line → Text → RowEdit} {number start start' : Nat} {row : Row}
  {rows rows' : List Row}

theorem along_append (edit : Line → Text → RowEdit) (number start : Nat) (rows rows' : List Row) :
    along edit number start (rows ++ rows') = along edit number start rows ++
      along edit (number + rows.length) (start + (flat rows).size) rows' := by
  induction rows generalizing number start with
  | nil => rfl
  | cons row rows ih =>
    simp only [List.cons_append, along, ih, List.length_cons, flat_cons, Text.size_append,
      Nat.add_assoc, Nat.add_comm 1]

theorem mem_along (member : e ∈ along edit number start rows) :
    ∃ l ∈ lines number start rows, ∃ row ∈ rows, l.text = row.text ∧ e = edit l row.ending := by
  induction rows generalizing number start with
  | nil => cases member
  | cons row rows ih =>
    rcases List.mem_cons.mp member with rfl | later
    · exact ⟨_, List.mem_cons_self, row, List.mem_cons_self, rfl, rfl⟩
    · obtain ⟨l, line, row', inside, same, made⟩ := ih later
      exact ⟨l, List.mem_cons_of_mem _ line, row', List.mem_cons_of_mem _ inside, same, made⟩

theorem getElem?_along (edit : Line → Text → RowEdit) (number start : Nat)
    (found : rows[n]? = some row) : ∃ l ∈ lines number start rows,
      l.number = number + n ∧ l.text = row.text ∧
        (along edit number start rows)[n]? = some (edit l row.ending) := by
  induction rows generalizing number start n with
  | nil => cases found
  | cons first rows ih =>
    cases n with
    | zero =>
      cases found
      exact ⟨_, List.mem_cons_self, rfl, rfl, rfl⟩
    | succ n =>
      obtain ⟨l, line, same, text, made⟩ := ih (number + 1) _ found
      exact ⟨l, List.mem_cons_of_mem _ line, by omega, text, made⟩

@[simp] theorem length_along (edit : Line → Text → RowEdit) (number start : Nat) (rows : List Row) :
    (along edit number start rows).length = rows.length := by
  induction rows generalizing number start with
  | nil => rfl
  | cons row rows ih => rw [along, List.length_cons, ih, List.length_cons]

variable (same : ∀ l ending, (edit l ending).before = ⟨l.text, ending⟩)

include same

theorem map_before_along (number start : Nat) (rows : List Row) :
    (along edit number start rows).map before = rows := by
  induction rows generalizing number start with
  | nil => rfl
  | cons row rows ih => rw [along, List.map_cons, ih, same]

/-- When edits take back other edits line by line, so do they as a whole. -/
theorem along_swap (again : ∀ l ∈ lines number start rows, ∀ l' ending, l'.number = l.number →
    l'.text = (edit l ending).after.text → edit' l' ending = (edit l ending).swap) (start' : Nat) :
    along edit' number start' ((along edit number start rows).map after) =
      (along edit number start rows).map swap := by
  induction rows generalizing number start start' with
  | nil => rfl
  | cons row rows ih =>
    rw [lines, List.forall_mem_cons] at again
    have ending : (edit ⟨number, start, start + row.text.size, row.text⟩ row.ending).after.ending =
        row.ending := by
      show (edit _ row.ending).before.ending = _
      rw [same]
    rw [along, List.map_cons, List.map_cons, along, ending,
      again.1 ⟨number, start', _, _⟩ row.ending rfl rfl, ih again.2]

theorem eq_of_along (parts : along edit number start rows = above ++ e :: below) :
    e = edit ⟨number + above.length, start + (flat (above.map before)).size,
      start + (flat (above.map before)).size + e.before.text.size, e.before.text⟩ e.ending := by
  induction above generalizing number start rows with
  | nil =>
    cases rows with
    | nil => cases parts
    | cons row rows =>
      obtain ⟨made, -⟩ := List.cons.inj parts
      have text : e.before = row := by rw [← made, same]
      have ending : e.ending = row.ending := congrArg Row.ending text
      rw [text, ending]
      exact made.symm
  | cons first above ih =>
    cases rows with
    | nil => cases parts
    | cons row rows =>
      obtain ⟨made, later⟩ := List.cons.inj parts
      have text : first.before = row := by rw [← made, same]
      have found := ih later
      rw [List.length_cons, List.map_cons, flat_cons, Text.size_append, Text.size_append, text]
      simp only [Nat.add_assoc, Nat.add_comm 1] at found ⊢
      exact found

theorem filterMap_lines {change : Line → Option Change} (each : ∀ l ∈ lines number start rows,
    ∀ ending, change l = (edit l ending).change? l.start) :
    (lines number start rows).filterMap change =
      changesFrom start (along edit number start rows) := by
  induction rows generalizing number start with
  | nil => rfl
  | cons row rows ih =>
    have first := same ⟨number, start, start + row.text.size, row.text⟩ row.ending
    have ending : (edit ⟨number, start, start + row.text.size, row.text⟩ row.ending).ending =
        row.ending := congrArg Row.ending first
    rw [lines, List.forall_mem_cons] at each
    rw [lines, along, changesFrom, first, ending, ← ih each.2, List.filterMap_cons,
      each.1 row.ending]
    cases (edit ⟨number, start, start + row.text.size, row.text⟩ row.ending).change? start <;> rfl

end Along

end RowEdit

end MarkdownEditing
