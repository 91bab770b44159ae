import MarkdownEditing.Proofs.Edit.Merging
import MarkdownEditing.Proofs.Edit.RowEdits
import MarkdownEditing.Proofs.Text.Blank

namespace MarkdownEditing

open Row

namespace Selection

open Range

variable {s : Selection} {set : ChangeSet} {changes : List Change} {size : Nat} {r : Range}

theorem exists_caret_map (apart : s.ranges.Pairwise Apart)
    (made : ChangeSet.ofChanges changes size = .ok set) (member : r ∈ s.ranges)
    (caret : r.start = r.stop) (positive : 0 < r.stop)
    (kept : ∀ c ∈ set.changes, ¬(c.start < r.stop ∧ r.stop ≤ c.stop)) :
    ∃ p ∈ (s.map set).ranges, p.start = set.mapPos r.stop .before ∧
      p.stop = set.mapPos r.stop .before := by
  have follows := ChangeSet.ofChanges_follows made
  have image : (r.map set).start = set.mapPos r.stop .before ∧
      (r.map set).stop = set.mapPos r.stop .before := by
    rcases r.map_cases set with ⟨_, same⟩ | ⟨wide, _⟩
    · exact same
    · omega
  have beside : ∀ q ∈ s.ranges.map (·.map set), q.Yields (r.map set) ∨ (r.map set).Apart q := by
    intro q' mapped
    obtain ⟨q, member', rfl⟩ := List.mem_map.mp mapped
    by_cases other : q = r
    · rw [other]
      exact Or.inl (Or.inr (.refl _))
    have forward := (q.map set).start_le_stop
    rw [Range.Yields, apart_iff, apart_iff, Contains, image.1, image.2]
    rcases apart_or apart member' member other with front | behind
    · -- the byte in front of the caret lies between it and the other range
      rw [apart_iff] at front
      have before : ∀ side x, x ≤ q.stop → set.mapPos x side < set.mapPos r.stop .before :=
        fun side x order => ChangeSet.mapFrom_lt side .before 0 follows (Nat.zero_le x)
          (show x ≤ r.stop - 1 by omega) (by omega)
          (fun c inside takes => kept c inside (by omega)) (by decide)
      have start := before .after q.start q.start_le_stop
      have stop := before .before q.stop (Nat.le_refl _)
      rcases q.map_cases set with ⟨_, first, last⟩ | ⟨_, first, last⟩ <;> omega
    · rw [apart_iff] at behind
      have after : ∀ side x, r.stop ≤ x → set.mapPos r.stop .before ≤ set.mapPos x side :=
        fun side x order =>
          ChangeSet.mapFrom_mono follows (Nat.zero_le _) order (fun _ => rfl) (by decide)
      have start := after .after q.start behind.1
      have stop := after .before q.stop (behind.1.trans q.start_le_stop)
      rcases q.map_cases set with ⟨_, first, last⟩ | ⟨_, first, last⟩ <;> omega
  obtain ⟨p, found, same⟩ := sameSpan_ofRanges s.main (List.mem_map_of_mem member) beside
  exact ⟨p, found, same.1.trans image.1, same.2.trans image.2⟩

end Selection

def trimEdit (spared : Line → Bool) (l : Line) (ending : Text) : RowEdit :=
  if spared l then .keep ⟨l.text, ending⟩
  else ⟨l.text.trimEnd, l.text.drop l.text.trimEnd.length, [], [], ending⟩

section Trim

variable {spared : Line → Bool} {l : Line} {ending : Text} {e : RowEdit} {rows : List Row}
  {number start : Nat}

theorem trimEnd_append_drop (t : Text) : t.trimEnd ++ t.drop t.trimEnd.length = t := by
  obtain ⟨blank, parts, -⟩ := t.trimEnd_parts
  generalize t.trimEnd = kept at parts ⊢
  rw [parts, List.drop_left]

theorem before_trimEdit (spared : Line → Bool) (l : Line) (ending : Text) :
    (trimEdit spared l ending).before = ⟨l.text, ending⟩ := by
  rw [trimEdit]
  split
  · rfl
  · rw [RowEdit.before, List.append_nil, trimEnd_append_drop]

theorem after_trimEdit (spared : Line → Bool) (l : Line) (ending : Text) :
    (trimEdit spared l ending).after = ⟨if spared l then l.text else l.text.trimEnd, ending⟩ := by
  rw [trimEdit]
  split
  · rfl
  · rw [RowEdit.after, List.append_nil, List.append_nil]

theorem new_trimEdit (spared : Line → Bool) (l : Line) (ending : Text) :
    (trimEdit spared l ending).new = [] := by
  rw [trimEdit]
  split <;> rfl

theorem change?_trimEdit (stop : l.stop = l.start + l.text.size) :
    (if spared l then none else trimLine? l) = (trimEdit spared l ending).change? l.start := by
  rw [trimEdit]
  split
  · rfl
  · have size := congrArg Text.size (trimEnd_append_drop l.text)
    rw [Text.size_append] at size
    rw [trimLine?, RowEdit.change?]
    dsimp only
    by_cases nothing : l.text.drop l.text.trimEnd.length = []
    · rw [nothing, Text.size_nil] at size
      rw [if_neg (by omega), if_pos ⟨nothing, rfl⟩]
    · have some_bytes := Text.size_pos nothing
      rw [if_pos (by omega), if_neg fun both => nothing both.1, Change.delete, stop]
      congr 2
      omega

theorem trimLine?_of_trimmed (trimmed : l.text.trimEnd = l.text) : trimLine? l = none := by
  rw [trimLine?, trimmed]
  exact if_neg (Nat.lt_irrefl _)

theorem not_return_of_trimmed {t : Text} : t.trimEnd.getLast? ≠ some '\r' := fun ends =>
  absurd (Text.getLast?_trimEnd ends) (by decide)

theorem settle_trimEdit {row : Row} (settled : row.settle = row) (text : l.text = row.text) :
    (trimEdit spared l row.ending).after.settle = (trimEdit spared l row.ending).after := by
  rw [after_trimEdit]
  split
  · rw [text]
    exact settled
  · exact if_neg fun found => not_return_of_trimmed found.2

end Trim

namespace EditState

variable {s s' : EditState} {final trim user : Bool}

def spares (s : EditState) (trim user : Bool) (l : Line) : Bool :=
  !trim || (!user && caretAtEnd s l)

/-- The line break that formatting puts in behind the text. -/
def missingBreak (s : EditState) (final : Bool) : Text :=
  if final && s.text ≠ [] && !s.lineBreak.isSuffixOf s.text then s.lineBreak else []

def trimEdits (s : EditState) (trim user : Bool) : List RowEdit :=
  RowEdit.along (trimEdit (s.spares trim user)) 1 0 s.rows

def formatEdits (s : EditState) (final trim user : Bool) : List RowEdit :=
  s.trimEdits trim user ++ [⟨[], [], s.missingBreak final, [], []⟩]

theorem map_before_trimEdits (s : EditState) (trim user : Bool) :
    (s.trimEdits trim user).map RowEdit.before = s.rows :=
  RowEdit.map_before_along (before_trimEdit _) 1 0 s.rows

theorem text_formatEdits (s : EditState) (final trim user : Bool) :
    s.text = flat ((s.formatEdits final trim user).map RowEdit.before) := by
  rw [formatEdits, List.map_append, map_before_trimEdits, flat_append, rows, flat_ofText]
  exact (List.append_nil _).symm

theorem parted_formatEdits (s : EditState) (final trim user : Bool) :
    ∀ e ∈ (s.formatEdits final trim user).dropLast, e.Parted := by
  intro e member
  rw [formatEdits, List.dropLast_concat] at member
  obtain ⟨l, -, row, -, -, rfl⟩ := RowEdit.mem_along member
  exact Or.inl (new_trimEdit _ l row.ending)

def formatChanges (s : EditState) (final trim user : Bool) : List Change :=
  (if final && s.text ≠ [] && !s.lineBreak.isSuffixOf s.text then
    [Change.insertAt s.doc.size s.lineBreak] else []) ++
    (if trim then s.doc.lines.filter fun line => user || !caretAtEnd s line else []).filterMap
      trimLine?

theorem formatContent_eq (s : EditState) (final trim user : Bool) :
    formatContent final trim user s =
      match ChangeSet.ofChanges (s.formatChanges final trim user) s.doc.size with
      | .ok set => ⟨set, none⟩
      | .error _ => ⟨ChangeSet.empty s.doc.size, none⟩ := rfl

def formatSet (s : EditState) (final trim user : Bool) : ChangeSet :=
  ⟨RowEdit.changesFrom 0 (s.formatEdits final trim user), s.doc.size⟩

theorem filterMap_trimLine? (coherent : s.Coherent) (trim user : Bool) :
    (if trim then s.doc.lines.filter fun line => user || !caretAtEnd s line else []).filterMap
      trimLine? = RowEdit.changesFrom 0 (s.trimEdits trim user) := by
  have stops : ∀ l ∈ Row.lines 1 0 s.rows, ∀ ending,
      (if s.spares trim user l then none else trimLine? l) =
        (trimEdit (s.spares trim user) l ending).change? l.start := by
    intro l member ending
    obtain ⟨above, row, below, -, rfl⟩ := exists_row_of_mem_lines member
    exact change?_trimEdit rfl
  rw [trimEdits, ← RowEdit.filterMap_lines (before_trimEdit _) stops, coherent.lines_rows]
  cases trim with
  | false => simp [spares]
  | true =>
    rw [if_pos rfl, List.filterMap_filter]
    congr 1
    funext l
    cases user <;> cases found : caretAtEnd s l <;> simp [spares, found]

theorem ofChanges_format (coherent : s.Coherent) (final trim user : Bool) :
    ChangeSet.ofChanges (s.formatChanges final trim user) s.doc.size =
        .ok (s.formatSet final trim user) ∧
      formatContent final trim user s = ⟨s.formatSet final trim user, none⟩ := by
  have same : ∀ c, c ∈ RowEdit.changesFrom 0 (s.formatEdits final trim user) ↔
      c ∈ s.formatChanges final trim user := by
    intro c
    have size : (flat ((s.trimEdits trim user).map RowEdit.before)).size = s.doc.size := by
      rw [map_before_trimEdits, rows, flat_ofText]
      rfl
    rw [formatChanges, filterMap_trimLine? coherent, formatEdits, RowEdit.changesFrom_append,
      List.mem_append, List.mem_append, size, RowEdit.changesFrom, RowEdit.change?, missingBreak,
      or_comm, RowEdit.changesFrom, List.append_nil]
    split <;> simp [s.lineBreak_ne_nil, Change.insertAt, Text.size_nil]
  have made : ChangeSet.ofChanges (s.formatChanges final trim user) s.doc.size =
      .ok (s.formatSet final trim user) :=
    RowEdit.ofChanges_edits (text_formatEdits s final trim user)
      (parted_formatEdits s final trim user) same
  exact ⟨made, by rw [formatContent_eq, made]⟩

theorem exists_formatted (reached : s.Reachable) (final trim user : Bool) :
    ∃ s', s.next? (formatContent final trim user s) = some s' ∧
      s'.text = flat ((s.trimEdits trim user).map RowEdit.after) ++ s.missingBreak final ∧
      s'.selection = s.selection.map (s.formatSet final trim user) := by
  obtain ⟨-, content⟩ := ofChanges_format reached.coherent final trim user
  obtain ⟨s', next, text, selection⟩ := RowEdit.exists_next? (text_formatEdits s final trim user)
    (parted_formatEdits s final trim user) reached.selection_sound none
  refine ⟨s', by rw [content]; exact next, ?_, selection⟩
  rw [text, formatEdits, List.map_append, flat_append]
  exact congrArg (_ ++ ·) (by simp [RowEdit.after])

theorem changes_formatContent (missing : s.missingBreak final = [])
    (trimmed : ∀ l ∈ s.doc.lines, s.spares trim user l = true ∨ trimLine? l = none) :
    (formatContent final trim user s).changes.changes = [] := by
  have nothing_added : (final && s.text ≠ [] && !s.lineBreak.isSuffixOf s.text) = false := by
    rw [missingBreak] at missing
    split at missing
    · exact absurd missing s.lineBreak_ne_nil
    · exact Bool.eq_false_iff.mpr ‹_›
  have nothing_trimmed : (if trim then s.doc.lines.filter fun line => user || !caretAtEnd s line
      else []).filterMap trimLine? = [] := by
    cases trim with
    | false => rfl
    | true =>
      rw [if_pos rfl, List.filterMap_eq_nil_iff]
      intro l member
      obtain ⟨line, asked⟩ := List.mem_filter.mp member
      refine (trimmed l line).resolve_left fun spared => ?_
      cases user <;> cases found : caretAtEnd s l <;> simp_all [spares]
  rw [formatContent, nothing_added, nothing_trimmed]
  simp only [Bool.false_eq_true, if_false, List.nil_append, ChangeSet.ofChanges_nil]
  rfl

section Again

variable (reached : s.Reachable) (returns : s.text.getLast? ≠ some '\r')
  (text : s'.text = flat ((s.trimEdits trim user).map RowEdit.after) ++ s.missingBreak final)

theorem chained_trimEdits (s : EditState) (trim user : Bool) :
    Chained ((s.trimEdits trim user).map RowEdit.before) := by
  rw [map_before_trimEdits]
  exact chained_ofText s.text

theorem ofText_trimmed (s : EditState) (trim user : Bool) :
    Row.ofText (flat ((s.trimEdits trim user).map RowEdit.after)) =
      (s.trimEdits trim user).map RowEdit.after := by
  apply RowEdit.ofText_after (chained_trimEdits s trim user)
  · intro e member
    obtain ⟨l, -, row, -, -, rfl⟩ := RowEdit.mem_along member
    rw [new_trimEdit]
    exact List.not_mem_nil
  · intro e member
    obtain ⟨l, -, row, inside, same, rfl⟩ := RowEdit.mem_along member
    exact settle_trimEdit (settle_ofText inside) same

include returns in
theorem last_trimmed {above : List Row} {last : Row}
    (rows' : (s.trimEdits trim user).map RowEdit.after = above ++ [last]) :
    last.ending = [] ∧ last.text.getLast? ≠ some '\r' := by
  obtain ⟨front, rest, parts, -, here⟩ := List.map_eq_append_iff.mp rows'
  obtain ⟨e, rfl, rfl⟩ := List.map_eq_singleton_iff.mp here
  have chained := chained_trimEdits s trim user
  have whole := flat_ofText s.text
  have rows := map_before_trimEdits s trim user
  rw [parts, List.map_append] at chained rows
  have ending : e.before.ending = [] := (chained.of_append (by simp)).1.2
  have made := RowEdit.eq_of_along (before_trimEdit (s.spares trim user)) parts
  refine ⟨ending, fun ends => ?_⟩
  rw [made, after_trimEdit] at ends
  split at ends
  · refine returns ?_
    rw [← whole, ← EditState.rows, ← rows, flat_append]
    simp only [List.map_cons, List.map_nil, flat_cons, flat_nil, ending, List.append_nil]
    rw [List.getLast?_append, ends]
    rfl
  · exact not_return_of_trimmed ends

include returns in
theorem ofText_closed {above : List Row} {last : Row}
    (rows' : (s.trimEdits trim user).map RowEdit.after = above ++ [last]) :
    Row.ofText (flat (above ++ [last]) ++ s.lineBreak) =
      above ++ [⟨last.text, s.lineBreak⟩, ⟨[], []⟩] := by
  obtain ⟨ending, clean⟩ := last_trimmed returns rows'
  have trimmed := ofText_trimmed s trim user
  rw [rows'] at trimmed
  have chained := chained_ofText (flat (above ++ [last]))
  rw [trimmed] at chained
  have settled : ∀ row ∈ above ++ [⟨last.text, s.lineBreak⟩, ⟨[], []⟩], row.settle = row := by
    intro row inside
    rcases List.mem_append.mp inside with inside | inside
    · apply settle_ofText (t := flat (above ++ [last]))
      rw [trimmed]
      exact List.mem_append_left _ inside
    · rcases List.mem_cons.mp inside with rfl | inside
      · exact if_neg fun found => clean found.2
      · rw [List.mem_singleton.mp inside]
        rfl
  have whole : flat (above ++ [last]) ++ s.lineBreak =
      flat (above ++ [⟨last.text, s.lineBreak⟩, ⟨[], []⟩]) := by
    simp [ending]
  rw [whole, ofText_flat (chained.close_last s.lineBreak_cases),
    List.map_congr_left (g := id) settled, List.map_id]

include returns text

theorem lines_formatted (coherent' : s'.Coherent) : ∀ l ∈ s'.doc.lines, l.text = [] ∨
    l ∈ Row.lines 1 0 ((s.trimEdits trim user).map RowEdit.after) := by
  have trimmed := ofText_trimmed s trim user
  intro l member
  rw [coherent'.lines_rows, EditState.rows, text, missingBreak] at member
  split at member
  · obtain ⟨above, last, rows'⟩ := (List.eq_nil_or_concat
      ((s.trimEdits trim user).map RowEdit.after)).resolve_left (by
        rw [← trimmed]
        exact ofPieces_ne_nil (Line.split_ne_nil _))
    rw [List.concat_eq_append] at rows'
    rw [rows', ofText_closed returns rows', lines_append] at member
    rw [rows', lines_append]
    simp only [Row.lines, List.mem_append, List.mem_cons, List.not_mem_nil, or_false] at member ⊢
    rcases member with above | rfl | rfl
    · exact Or.inr (Or.inl above)
    · exact Or.inr (Or.inr rfl)
    · exact Or.inl rfl
  · rw [List.append_nil, trimmed] at member
    exact Or.inr member

end Again

theorem missingBreak_eq_nil_iff : s.missingBreak final = [] ↔
    (final = true → s.text = [] ∨ s.lineBreak <:+ s.text) := by
  rw [missingBreak]
  simp only [Bool.and_eq_true, decide_eq_true_eq, Bool.not_eq_true', ← Bool.not_eq_true,
    List.isSuffixOf_iff_suffix]
  split
  · rename_i missing
    refine iff_of_false s.lineBreak_ne_nil fun there => ?_
    exact (there missing.1.1).elim missing.1.2 missing.2
  · rename_i there
    refine iff_of_true rfl fun asked => ?_
    by_cases empty : s.text = []
    · exact Or.inl empty
    · exact Or.inr (not_not.mp fun absent => there ⟨⟨asked, empty⟩, absent⟩)

theorem missingBreak_formatted (same : s'.lineBreak = s.lineBreak)
    (text : s'.text = flat ((s.trimEdits trim user).map RowEdit.after) ++ s.missingBreak final) :
    s'.missingBreak final = [] := by
  rw [missingBreak_eq_nil_iff, same, text]
  intro asked
  by_cases missing : s.missingBreak final = []
  · rw [missing, List.append_nil]
    rcases missingBreak_eq_nil_iff.mp missing asked with empty | ends
    · left
      have rows : s.rows = [⟨[], []⟩] := by
        rw [EditState.rows, empty]
        rfl
      rw [trimEdits, rows]
      simp only [RowEdit.along, List.map_cons, List.map_nil, after_trimEdit, flat_cons, flat_nil,
        List.append_nil]
      split <;> rfl
    · right
      obtain ⟨above, row, rows, ending⟩ := exists_of_suffix s.lineBreak_cases ends
      rw [trimEdits, EditState.rows, rows, RowEdit.along_append, List.map_append, flat_append]
      simp only [RowEdit.along, List.map_cons, List.map_nil, after_trimEdit, flat_cons, flat_nil,
        List.append_nil]
      have empty : (if s.spares trim user ⟨1 + above.length + 1, 0 + (flat above).size +
          row.text.size + row.ending.size, 0 + (flat above).size + row.text.size +
            row.ending.size + Text.size [], []⟩ then [] else Text.trimEnd []) = [] := by
        split <;> rfl
      rw [empty, List.append_nil, ← List.append_assoc]
      exact ending.trans (List.suffix_append _ _)
  · rw [missingBreak] at missing ⊢
    split at missing
    · rename_i absent
      rw [if_pos absent]
      exact Or.inr (List.suffix_append _ _)
    · exact absurd rfl missing

section Spared

variable {e : RowEdit} {above below : List RowEdit} {r : Range}
  (parts : s.trimEdits trim user = above ++ e :: below) (untouched : e = .keep e.before)

include parts untouched

/-- No change of the formatting reaches into a row that it keeps. -/
theorem kept_in_row (some_text : e.before.text ≠ []) (final : Bool) :
    ∀ c ∈ (s.formatSet final trim user).changes,
      ¬(c.start < (flat (above.map RowEdit.before)).size + e.before.text.size ∧
        (flat (above.map RowEdit.before)).size + e.before.text.size ≤ c.stop) := by
  intro c member
  have some_bytes := Text.size_pos some_text
  have nothing : e.change? (0 + (flat (above.map RowEdit.before)).size) = none := by
    rw [untouched]
    rfl
  rw [formatSet, formatEdits, parts, List.append_assoc, List.cons_append,
    RowEdit.changesFrom_append, RowEdit.changesFrom, nothing, Option.toList_none, List.nil_append]
    at member
  rcases List.mem_append.mp member with above | below
  · have bounds := RowEdit.bounds_changesFrom above
    omega
  · have bounds := RowEdit.bounds_changesFrom below
    omega

theorem mapPos_kept (final : Bool) : (s.formatSet final trim user).mapPos
    ((flat (above.map RowEdit.before)).size + e.before.text.size) .before =
      (flat (above.map RowEdit.after)).size + e.after.text.size := by
  have parted : ∀ d ∈ above, d.Parted := by
    intro d member
    apply parted_formatEdits s false trim user
    rw [formatEdits, List.dropLast_concat, parts]
    exact List.mem_append_left _ member
  have within := (Nat.lt_or_eq_of_le (Nat.le_add_right e.before.text.size e.ending.size)).imp_right
    fun last => And.intro last (Eq.refl Side.before)
  have image : ChangeSet.mapFrom _ .before 0 (RowEdit.changesFrom 0 (above ++ e ::
      (below ++ [⟨[], [], s.missingBreak final, [], []⟩]))) = _ :=
    RowEdit.mapFrom_changesFrom parted (Or.inr within)
  rw [ChangeSet.mapPos, formatSet, formatEdits, parts, List.append_assoc, List.cons_append, image,
    untouched, RowEdit.image_keep]
  rfl

/-- A caret at the end of a row that is kept is at the end of this row again. -/
theorem caretAtEnd_formatted (reached : s.Reachable) (some_text : e.before.text ≠ []) (final : Bool)
    (selection : s'.selection = s.selection.map (s.formatSet final trim user))
    {l l' : Line}
    (stop : l.stop = (flat (above.map RowEdit.before)).size + e.before.text.size)
    (stop' : l'.stop = (flat (above.map RowEdit.after)).size + e.after.text.size)
    (there : caretAtEnd s l = true) : caretAtEnd s' l' = true := by
  obtain ⟨made, -⟩ := ofChanges_format reached.coherent final trim user
  obtain ⟨r, member, at_end⟩ := List.any_eq_true.mp there
  simp only [Range.isCaret, Bool.and_eq_true, beq_iff_eq] at at_end
  have some_bytes := Text.size_pos some_text
  have caret : r.start = l.stop ∧ r.stop = l.stop := by
    rw [Range.start, Range.stop]
    omega
  obtain ⟨p, found, start, stop''⟩ := Selection.exists_caret_map reached.pairwise_apart made member
    (caret.1.trans caret.2.symm) (by omega) (by
      rw [caret.2, stop]
      exact kept_in_row parts untouched some_text final)
  rw [caret.2, stop, mapPos_kept parts untouched final, ← stop'] at start stop''
  rw [caretAtEnd, selection]
  refine List.any_eq_true.mpr ⟨p, found, ?_⟩
  simp only [Range.isCaret, Bool.and_eq_true, beq_iff_eq]
  rw [Range.start] at start
  rw [Range.stop] at stop''
  omega

end Spared

theorem trimmed_formatted (reached : s.Reachable) (coherent' : s'.Coherent)
    (returns : s.text.getLast? ≠ some '\r')
    (text : s'.text = flat ((s.trimEdits trim user).map RowEdit.after) ++ s.missingBreak final)
    (selection : s'.selection = s.selection.map (s.formatSet final trim user)) :
    ∀ l ∈ s'.doc.lines, s'.spares trim user l = true ∨ trimLine? l = none := by
  intro l' member
  rcases lines_formatted returns text coherent' l' member with empty | here
  · exact Or.inr (trimLine?_of_trimmed (by rw [empty]; rfl))
  obtain ⟨above', row', below', parts', rfl⟩ := exists_row_of_mem_lines here
  obtain ⟨above, rest, parts, rfl, here'⟩ := List.map_eq_append_iff.mp parts'
  obtain ⟨e, below, rfl, rfl, -⟩ := List.map_eq_cons_iff.mp here'
  have made := RowEdit.eq_of_along (before_trimEdit (s.spares trim user)) parts
  generalize line : (⟨_, _, _, _⟩ : Line) = l at made
  have after := after_trimEdit (s.spares trim user) l e.ending
  rw [← made] at after
  by_cases spared : s.spares trim user l = true
  · have untouched : e = .keep e.before := by
      have before := before_trimEdit (s.spares trim user) l e.ending
      rw [← made] at before
      rw [before, made, trimEdit, if_pos spared]
      rfl
    cases trim with
    | false => exact Or.inl rfl
    | true =>
      by_cases empty : e.before.text = []
      · right
        apply trimLine?_of_trimmed
        rw [untouched]
        show (e.before.text).trimEnd = e.before.text
        rw [empty]
        rfl
      · left
        rw [spares, Bool.not_true, Bool.false_or, Bool.and_eq_true] at spared ⊢
        exact ⟨spared.1, caretAtEnd_formatted parts untouched reached empty final selection
          (by rw [← line, Nat.zero_add]) (by rw [Nat.zero_add]) spared.2⟩
  · right
    apply trimLine?_of_trimmed
    rw [after, if_neg spared]
    exact Text.trimEnd_trimEnd _

theorem text_trimmed (s : EditState) : flat ((s.trimEdits true true).map RowEdit.after) =
    flat (s.rows.map fun row => ⟨row.text.trimEnd, row.ending⟩) := by
  have all : ∀ number start rows,
      (RowEdit.along (trimEdit (s.spares true true)) number start rows).map RowEdit.after =
        rows.map fun row => ⟨row.text.trimEnd, row.ending⟩ := by
    intro number start rows
    induction rows generalizing number start with
    | nil => rfl
    | cons row rows ih =>
      rw [RowEdit.along, List.map_cons, List.map_cons, ih, after_trimEdit]
      rfl
  rw [trimEdits, all]

/-- Formatting what has been formatted changes nothing. Asked for by the user it takes the white
space at the end of every line away and adds a missing final line break. -/
theorem formatContent_twice {s : EditState} (reached : s.Reachable)
    (returns : ∀ a b, s.text = a ++ '\r' :: b → ∃ c, b = '\n' :: c) (final trim user : Bool) :
    ∃ s', s.next? (formatContent final trim user s) = some s' ∧
      (formatContent final trim user s').changes.changes = [] ∧
      (final = true → trim = true → user = true →
        s'.text = flat (s.rows.map fun row => ⟨row.text.trimEnd, row.ending⟩) ++
          if s.text ≠ [] ∧ ¬s.lineBreak <:+ s.text then s.lineBreak else []) := by
  obtain ⟨s', next, text, selection⟩ := exists_formatted reached final trim user
  have coherent' := (reached.next next).coherent
  have last : s.text.getLast? ≠ some '\r' := by
    intro ends
    obtain ⟨front, parts⟩ := List.getLast?_eq_some_iff.mp ends
    obtain ⟨c, nothing⟩ := returns front [] parts
    cases nothing
  have same : s'.lineBreak = s.lineBreak := by
    obtain ⟨made, content⟩ := ofChanges_format reached.coherent final trim user
    rw [content] at next
    rw [lineBreak, (next?_changed (ChangeSet.ofChanges_size made) next).2.1]
    rfl
  refine ⟨s', next, changes_formatContent (missingBreak_formatted same text)
    (trimmed_formatted reached coherent' last text selection), ?_⟩
  rintro rfl rfl rfl
  rw [text, text_trimmed, missingBreak]
  simp only [Bool.true_and, Bool.and_eq_true, decide_eq_true_eq, Bool.not_eq_true',
    ← Bool.not_eq_true, List.isSuffixOf_iff_suffix]

def untidy : EditState :=
  .ofText ['a', ' ', '\r', '\n', 'b', '\t'] ⟨[⟨2, 2⟩], 0⟩ {}

theorem untidy_formatContent_twice : ∃ s', untidy.next? (formatContent true true true untidy) = some s' ∧
    (formatContent true true true s').changes.changes = [] ∧
    s'.text = ['a', '\r', '\n', 'b', '\n'] := by
  have returns : ∀ a b, untidy.text = a ++ '\r' :: b → ∃ c, b = '\n' :: c := by
    intro a b parts
    have text : ['a', ' ', '\r', '\n', 'b', '\t'] = a ++ '\r' :: b := parts
    refine ⟨['b', '\t'], ?_⟩
    rcases a with _ | ⟨_, _ | ⟨_, _ | ⟨_, _ | ⟨_, _ | ⟨_, _ | ⟨_, a⟩⟩⟩⟩⟩⟩ <;> simp_all
  have reached : untidy.Reachable := .ofText _ _ _
  obtain ⟨s', next, again, text⟩ := formatContent_twice reached returns true true true
  exact ⟨s', next, again, text rfl rfl rfl⟩

end EditState

end MarkdownEditing
