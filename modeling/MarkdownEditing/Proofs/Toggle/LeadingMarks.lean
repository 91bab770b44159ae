import MarkdownEditing.Proofs.Edit.Inserts
import MarkdownEditing.Proofs.Edit.Toggles

namespace MarkdownEditing

open Row

namespace LeadingMark

variable {mark : LeadingMark} {level n k : Nat} {t u rest ending : Text} {remove alone : Bool}
  {covered : Nat → Bool} {l : Line}

/-- A text begins with exactly `level` marks and a space. -/
def Leads (mark : LeadingMark) (level : Nat) (t : Text) : Prop :=
  ∃ rest, t = mark.marks level ++ ' ' :: rest

theorem run?_marks (low : 1 ≤ level) (rest : Text) :
    mark.run? (mark.marks level ++ ' ' :: rest) = some (level, rest.leadingSpaces + 1) := by
  have all : ∀ c ∈ mark.marks level, (c == mark.char) = true := by
    intro c member
    rw [List.eq_of_mem_replicate member, beq_self_eq_true]
  have stops : (' ' == mark.char) = false := by cases mark <;> rfl
  have run : (mark.marks level ++ ' ' :: rest).takeWhile (· == mark.char) = mark.marks level :=
    Text.takeWhile_stop all stops
  have spaces : Text.leadingSpaces (' ' :: rest) = rest.leadingSpaces + 1 := by
    simp [Text.leadingSpaces]
  rw [run?, run, List.drop_left, spaces, length_marks, if_pos ⟨low, Nat.le_add_left 1 _⟩]

theorem leads_of_run? (found : mark.run? t = some (n, k)) : mark.Leads n t := by
  obtain ⟨⟨rest, rfl⟩, -, some_space⟩ := run?_parts found
  obtain ⟨j, rfl⟩ := Nat.exists_eq_add_of_le' some_space
  exact ⟨Text.spaces j ++ rest, rfl⟩

theorem leads_iff (low : 1 ≤ level) : mark.Leads level t ↔ ∃ k, mark.run? t = some (level, k) := by
  constructor
  · rintro ⟨rest, rfl⟩
    exact ⟨_, run?_marks low rest⟩
  · rintro ⟨k, found⟩
    exact leads_of_run? found

theorem run?_eq_none_iff : mark.run? t = none ↔ ∀ n, 1 ≤ n → ¬mark.Leads n t := by
  constructor
  · rintro none_found n low ⟨rest, rfl⟩
    rw [run?_marks low] at none_found
    cases none_found
  · intro none_leads
    cases found : mark.run? t with
    | none => rfl
    | some run => exact absurd (leads_of_run? found) (none_leads run.1 (run?_parts found).2.1)

theorem atLevel_iff (low : 1 ≤ level) : mark.atLevel level l = true ↔ mark.Leads level l.text := by
  rw [leads_iff low, atLevel]
  cases found : mark.run? l.text with
  | none => simp
  | some run =>
    obtain ⟨n, k⟩ := run
    simp

def lineEdit (mark : LeadingMark) (level : Nat) (remove alone : Bool) (covered : Nat → Bool)
    (l : Line) (ending : Text) : RowEdit :=
  if covered l.number then
    match mark.run? l.text with
    | some (n, spaces) =>
      if n = level then
        if remove then ⟨[], l.text.take (n + spaces), [], l.text.drop (n + spaces), ending⟩
        else .keep ⟨l.text, ending⟩
      else ⟨[], l.text.take n, mark.marks level, l.text.drop n, ending⟩
    | none =>
      if l.text ≠ [] ∨ alone then ⟨[], [], mark.marks level ++ [' '], l.text, ending⟩
      else .keep ⟨l.text, ending⟩
  else .keep ⟨l.text, ending⟩

theorem parts_lineEdit (mark : LeadingMark) (level : Nat) (remove alone : Bool)
    (covered : Nat → Bool) (l : Line) (ending : Text) :
    (mark.lineEdit level remove alone covered l ending).front = [] ∧
      (mark.lineEdit level remove alone covered l ending).ending = ending ∧
      ∀ c ∈ (mark.lineEdit level remove alone covered l ending).new, c = mark.char ∨ c = ' ' := by
  have of_marks : ∀ c ∈ mark.marks level, c = mark.char ∨ c = ' ' := fun c member =>
    Or.inl (List.eq_of_mem_replicate member)
  rw [lineEdit]
  split
  · split
    · split
      · split <;> exact ⟨rfl, rfl, fun c member => nomatch member⟩
      · exact ⟨rfl, rfl, of_marks⟩
    · split
      · refine ⟨rfl, rfl, fun c member => ?_⟩
        rcases List.mem_append.mp member with member | member
        · exact of_marks c member
        · exact Or.inr (List.mem_singleton.mp member)
      · exact ⟨rfl, rfl, fun c member => nomatch member⟩
  · exact ⟨rfl, rfl, fun c member => nomatch member⟩

theorem before_lineEdit (l : Line) (ending : Text) :
    (mark.lineEdit level remove alone covered l ending).before = ⟨l.text, ending⟩ := by
  rw [lineEdit]
  split
  · split
    · split
      · split
        · exact congrArg (Row.mk · ending) (List.take_append_drop _ l.text)
        · rfl
      · exact congrArg (Row.mk · ending) (List.take_append_drop _ l.text)
    · split <;> rfl
  · rfl

theorem change?_lineEdit (l : Line) (ending : Text) :
    (if covered l.number then mark.changeLine level remove alone l else none) =
      (mark.lineEdit level remove alone covered l ending).change? l.start := by
  rw [lineEdit, changeLine]
  split
  · cases found : mark.run? l.text with
    | none =>
      dsimp only
      split
      · simp [RowEdit.change?, Change.insertAt]
      · rfl
    | some run =>
      obtain ⟨n, k⟩ := run
      obtain ⟨⟨rest, text⟩, low, some_space⟩ := run?_parts found
      have marks : l.text.take n = mark.marks n := by
        rw [text, List.take_left' (length_marks mark n)]
      have lead : l.text.take (n + k) = mark.marks n ++ Text.spaces k := by
        rw [text, ← List.append_assoc, List.take_left' (by simp [Text.spaces])]
      have some_marks : mark.marks n ≠ [] := by
        rw [LeadingMark.marks, ne_eq, List.replicate_eq_nil_iff]
        omega
      dsimp only
      split
      · split
        · simp [RowEdit.change?, Change.delete, lead, some_marks, Text.size_append, Nat.add_assoc]
        · rfl
      · simp [RowEdit.change?, marks, some_marks]
  · rfl

theorem lineEdit_outside (outside : covered l.number = false) :
    mark.lineEdit level remove alone covered l ending = .keep ⟨l.text, ending⟩ := by
  rw [lineEdit, outside]
  rfl

theorem leads_lineEdit (inside : covered l.number = true)
    (some_text : l.text ≠ [] ∨
      (mark.lineEdit level false alone covered l ending).after.text ≠ []) :
    mark.Leads level (mark.lineEdit level false alone covered l ending).after.text := by
  rw [lineEdit, if_pos inside] at some_text ⊢
  cases found : mark.run? l.text with
  | none =>
    rw [found] at some_text
    dsimp only at some_text ⊢
    split
    · exact ⟨l.text, by simp [RowEdit.after]⟩
    · rename_i empty
      rw [if_neg empty] at some_text
      exact absurd some_text (by
        simpa [RowEdit.after, RowEdit.keep] using fun given => empty (Or.inl given))
  | some run =>
    obtain ⟨n, k⟩ := run
    obtain ⟨rest, text⟩ := leads_of_run? found
    dsimp only
    split
    · rename_i same
      rw [← same]
      exact ⟨rest, text⟩
    · refine ⟨rest, ?_⟩
      rw [text, List.drop_left' (length_marks mark n)]
      rfl

theorem lineEdit_plain (inside : covered l.number = true) (some_text : l.text ≠ [] ∨ alone = true)
    (none_found : mark.run? l.text = none) :
    mark.lineEdit level remove alone covered l ending =
      ⟨[], [], mark.marks level ++ [' '], l.text, ending⟩ := by
  rw [lineEdit, if_pos inside, none_found]
  exact if_pos some_text

/-- On a line that gets marks and starts with no space the next edit takes back what is put in. -/
theorem lineEdit_again {l' : Line} {alone' : Bool} {covered' : Nat → Bool} (low : 1 ≤ level)
    (number : covered' l'.number = covered l.number)
    (plain : covered l.number = true → (l.text ≠ [] ∨ alone = true) ∧ l.text.head? ≠ some ' ' ∧
      mark.run? l.text = none)
    (text : l'.text = (mark.lineEdit level remove alone covered l ending).after.text) :
    mark.lineEdit level true alone' covered' l' ending =
      (mark.lineEdit level remove alone covered l ending).swap := by
  by_cases inside : covered l.number = true
  · obtain ⟨some_text, first, none_found⟩ := plain inside
    rw [lineEdit_plain inside some_text none_found] at text ⊢
    have shape : l'.text = mark.marks level ++ ' ' :: l.text := by
      rw [text]
      simp [RowEdit.after]
    have none_more : l.text.leadingSpaces = 0 := by
      cases parts : l.text with
      | nil => rfl
      | cons c rest =>
        rw [parts] at first
        exact Text.leadingSpaces_cons rest fun space => first (by rw [space]; rfl)
    have lead : mark.marks level ++ ' ' :: l.text = mark.marks level ++ [' '] ++ l.text := by simp
    have length : (mark.marks level ++ [' ']).length = level + 1 := by simp
    rw [lineEdit, number, if_pos inside, shape, run?_marks low, none_more]
    dsimp only
    rw [if_pos rfl, if_pos rfl, lead, List.take_left' length, List.drop_left' length]
    rfl
  · have outside := Bool.eq_false_iff.mpr inside
    rw [lineEdit_outside outside] at text ⊢
    rw [lineEdit_outside (number.trans outside), text]
    rfl

end LeadingMark

namespace EditState

def covers (s : EditState) (number : Nat) : Bool :=
  (s.selection.ranges.map s.lineSpan).any fun span => span.1 ≤ number && number ≤ span.2

theorem coveredLines_eq {s : EditState} (coherent : s.Coherent) :
    s.coveredLines = (Row.lines 1 0 s.rows).filter fun l => s.covers l.number := by
  rw [coveredLines, coherent.lines_rows]
  rfl

theorem mem_coveredLines_iff {s : EditState} {l : Line} (coherent : s.Coherent) :
    l ∈ s.coveredLines ↔ l ∈ Row.lines 1 0 s.rows ∧ s.covers l.number = true := by
  rw [coveredLines_eq coherent]
  exact List.mem_filter

theorem lineAt_mem_coveredLines {s : EditState} {r : Range} {x : Nat} (coherent : s.Coherent)
    (member : r ∈ s.selection.ranges) (low : r.start ≤ x) (high : x ≤ r.stop) :
    s.doc.lineAt x ∈ s.coveredLines := by
  have stop := (coherent.inside r member).stop_le
  have inside := Nat.le_trans high stop
  have first := coherent.number_lineAt_mono low inside
  have last := coherent.number_lineAt_mono high stop
  obtain ⟨above, row, below, rows, -, line⟩ :=
    Document.exists_row (t := s.text) s.doc.lineBreak inside
  rw [mem_coveredLines_iff coherent, EditState.rows, rows, lines_append]
  refine ⟨List.mem_append_right _ (List.mem_cons.mpr (Or.inl ?_)), ?_⟩
  · rw [coherent.lineAt x, line, Document.lineBelow, Nat.add_comm 1, Nat.zero_add]
  · refine List.any_eq_true.mpr ⟨s.lineSpan r, List.mem_map_of_mem member, ?_⟩
    exact Bool.and_eq_true_iff.mpr ⟨decide_eq_true first, decide_eq_true last⟩

end EditState

namespace LeadingMark

variable {mark : LeadingMark} {level n : Nat} {s s' : EditState} {row row' : Row}

/-- Whether all touched lines have the marks of a level. -/
def levelled (mark : LeadingMark) (level : Nat) (s : EditState) : Bool :=
  s.coveredLines.all (mark.atLevel level)

/-- The touched lines have no marks and begin with no space, and an empty one is the only one. -/
def Bare (mark : LeadingMark) (s : EditState) : Prop :=
  ∀ l ∈ s.coveredLines, (l.text ≠ [] ∨ s.coveredLines.length = 1) ∧ l.text.head? ≠ some ' ' ∧
    mark.run? l.text = none

def edits (mark : LeadingMark) (level : Nat) (s : EditState) : List RowEdit :=
  RowEdit.along (mark.lineEdit level (mark.levelled level s) (s.coveredLines.length == 1) s.covers)
    1 0 s.rows

def caret? (level : Nat) (s : EditState) : Option Selection :=
  match s.coveredLines with
  | [l] => if l.text = [] then some (Selection.caret (l.start + level + 1)) else none
  | _ => none

theorem map_before_edits (mark : LeadingMark) (level : Nat) (s : EditState) :
    (mark.edits level s).map RowEdit.before = s.rows :=
  RowEdit.map_before_along before_lineEdit 1 0 s.rows

theorem holds_edits (mark : LeadingMark) (level : Nat) (s : EditState) :
    s.Holds ((mark.edits level s).map RowEdit.before) :=
  EditState.holds_rows (map_before_edits mark level s).symm

theorem filterMap_changeLine (coherent : s.Coherent) :
    s.coveredLines.filterMap (mark.changeLine level (mark.levelled level s)
      (s.coveredLines.length == 1)) = RowEdit.changesFrom 0 (mark.edits level s) := by
  rw [edits, ← RowEdit.filterMap_lines before_lineEdit fun l _ => change?_lineEdit l]
  conv => lhs; rw [EditState.coveredLines_eq coherent, List.filterMap_filter]
  rw [← EditState.coveredLines_eq coherent]

/-- The changes of the touched lines are made as they are. -/
theorem ofChanges_changeLine (mark : LeadingMark) (level : Nat) (coherent : s.Coherent) :
    ChangeSet.ofChanges (s.coveredLines.filterMap (mark.changeLine level (mark.levelled level s)
      (s.coveredLines.length == 1))) s.doc.size =
        .ok ⟨RowEdit.changesFrom 0 (mark.edits level s), s.doc.size⟩ := by
  rw [filterMap_changeLine coherent]
  exact RowEdit.ofChanges_edits (holds_edits mark level s).text
    (RowEdit.parted_of_chained (holds_edits mark level s).chained) fun c => Iff.rfl

theorem toggle_eq (coherent : s.Coherent) : mark.toggle level s =
    ⟨⟨RowEdit.changesFrom 0 (mark.edits level s), s.doc.size⟩, caret? level s⟩ := by
  have made := ofChanges_changeLine mark level coherent
  rw [levelled] at made
  rw [toggle, made]
  rfl

/-- Toggling marks puts the edited rows in place of the old ones. -/
theorem exists_toggled (reached : s.Reachable) (mark : LeadingMark) (level : Nat) :
    ∃ s', s.next? (mark.toggle level s) = some s' ∧
      s'.rows = (mark.edits level s).map RowEdit.after ∧ s'.selection =
        ((caret? level s).map (·.clamp s'.doc.size)).getD
          (s.selection.map ⟨RowEdit.changesFrom 0 (mark.edits level s), s.doc.size⟩) := by
  have holds := holds_edits mark level s
  obtain ⟨s', next, text, selection⟩ := RowEdit.exists_next? holds.text
    (RowEdit.parted_of_chained holds.chained) reached.selection_sound (caret? level s)
  have clean : ∀ e ∈ mark.edits level s, ∀ c ∈ e.new, c ≠ '\n' ∧ c ≠ '\r' := by
    intro e member c put_in
    obtain ⟨l, -, row, -, -, rfl⟩ := RowEdit.mem_along member
    rcases (parts_lineEdit _ _ _ _ _ _ _).2.2 c put_in with rfl | rfl
    · cases mark <;> decide
    · decide
  refine ⟨s', by rw [toggle_eq reached.coherent]; exact next, ?_, selection⟩
  rw [EditState.rows, text]
  apply RowEdit.ofText_after holds.chained
  · exact fun e member put_in => (clean e member _ put_in).1 rfl
  · intro e member
    have before : e.before ∈ s.rows := by
      rw [← map_before_edits mark level s]
      exact List.mem_map_of_mem member
    refine RowEdit.settle_after (settle_ofText before) ?_ fun put_in =>
      (clean e member _ put_in).2 rfl
    obtain ⟨l, -, row, -, -, rfl⟩ := RowEdit.mem_along member
    exact (parts_lineEdit _ _ _ _ _ _ _).1

theorem exists_covered (coherent : s.Coherent) {l : Line} (member : l ∈ s.coveredLines) :
    ∃ above row below, s.rows = above ++ row :: below ∧ l = Document.lineBelow above row ∧
      s.covers l.number = true := by
  obtain ⟨line, touched⟩ := (EditState.mem_coveredLines_iff coherent).mp member
  obtain ⟨above, row, below, parts, same⟩ := exists_row_of_mem_lines line
  refine ⟨above, row, below, parts, ?_, touched⟩
  rw [same, Document.lineBelow, Nat.zero_add, Nat.add_comm 1]

theorem bare_of_empty (mark : LeadingMark) {l : Line} (only : s.coveredLines = [l])
    (empty : l.text = []) : mark.Bare s := by
  intro l' member
  rw [only, List.mem_singleton] at member
  rw [member, empty, only]
  exact ⟨Or.inr rfl, by simp, rfl⟩

theorem Bare.lineEdit_eq {l : Line} (bare : mark.Bare s) (coherent : s.Coherent)
    (line : l ∈ Row.lines 1 0 s.rows) (touched : s.covers l.number = true) (remove : Bool)
    (ending : Text) :
    mark.lineEdit level remove (s.coveredLines.length == 1) s.covers l ending =
      ⟨[], [], mark.marks level ++ [' '], l.text, ending⟩ := by
  obtain ⟨some_text, -, none_found⟩ :=
    bare l ((EditState.mem_coveredLines_iff coherent).mpr ⟨line, touched⟩)
  exact lineEdit_plain touched (some_text.imp_right beq_iff_eq.mpr) none_found

section Again

variable (low : 1 ≤ level) (coherent : s.Coherent) (coherent' : s'.Coherent)
  (rows' : s'.rows = (mark.edits level s).map RowEdit.after)
  (bare : mark.Bare s)
  (spans : s'.selection.ranges.map s'.lineSpan = s.selection.ranges.map s.lineSpan)

include spans in
theorem covers_again : s'.covers = s.covers := by
  funext number
  rw [EditState.covers, spans, EditState.covers]

include coherent coherent' rows' bare spans

/-- The touched lines have the marks of the level after they are put in. -/
theorem leads_again {l' : Line} (member : l' ∈ s'.coveredLines) : mark.Leads level l'.text := by
  obtain ⟨above', row', below', parts', rfl, touched⟩ := exists_covered coherent' member
  rw [rows'] at parts'
  obtain ⟨above, rest, parts, rfl, cons⟩ := List.map_eq_append_iff.mp parts'
  obtain ⟨e, below, rfl, rfl, -⟩ := List.map_eq_cons_iff.mp cons
  have made := RowEdit.eq_of_along before_lineEdit parts
  have number : (Document.lineBelow (above.map RowEdit.after) e.after).number =
      1 + above.length := by
    rw [Document.lineBelow, List.length_map, Nat.add_comm 1]
  rw [covers_again spans, number] at touched
  generalize line : (⟨_, _, _, _⟩ : Line) = l at made
  have touched' : s.covers l.number = true := by rw [← line]; exact touched
  have here : l ∈ Row.lines 1 0 s.rows := by
    have rows : s.rows = above.map RowEdit.before ++ e.before :: below.map RowEdit.before := by
      rw [← map_before_edits mark level s, parts, List.map_append, List.map_cons]
    rw [← line, rows, lines_append, List.length_map]
    exact List.mem_append_right _ List.mem_cons_self
  rw [bare.lineEdit_eq coherent here touched'] at made
  refine ⟨l.text, ?_⟩
  rw [Document.lineBelow, made]
  simp [RowEdit.after]

include low in
theorem edits_again : mark.edits level s' = (mark.edits level s).map RowEdit.swap := by
  have all : mark.levelled level s' = true := by
    rw [levelled, List.all_eq_true]
    exact fun l' member =>
      (atLevel_iff low).mpr (leads_again coherent coherent' rows' bare spans member)
  rw [edits, all, rows', covers_again spans]
  apply RowEdit.along_swap before_lineEdit
  intro l line l' ending number text
  refine lineEdit_again low (by rw [number]) (fun touched => ?_) text
  obtain ⟨some_text, first, none_found⟩ :=
    bare l ((EditState.mem_coveredLines_iff coherent).mpr ⟨line, touched⟩)
  exact ⟨some_text.imp_right beq_iff_eq.mpr, first, none_found⟩

theorem caret?_again : caret? level s' = none := by
  have leads : ∀ l' ∈ s'.coveredLines, mark.Leads level l'.text := fun l' member =>
    leads_again coherent coherent' rows' bare spans member
  rw [caret?]
  split
  · rename_i l' only
    obtain ⟨rest, text⟩ := leads l' (by rw [only]; exact List.mem_cons_self)
    rw [text]
    exact if_neg (by simp)
  · rfl

end Again

def InBreak (t : Text) (x : Nat) : Prop := ∃ a b, t = a ++ '\r' :: '\n' :: b ∧ x = a.size + 1

theorem eq_of_onRow {above below : List Row} {x : Nat} (rows : s.rows = above ++ row :: below)
    (empty : row.text = []) (on : Document.OnRow above row below x) (inside : x ≤ s.doc.size)
    (off : ¬InBreak s.text x) : x = (flat above).size := by
  have holds := EditState.holds_rows rows
  have chained := (holds.chained.of_append (by simp)).1
  have size := holds.text_size
  obtain ⟨low, high⟩ := on
  rw [empty, Text.size_nil] at high size
  have total : s.text.size = s.doc.size := rfl
  cases below with
  | nil =>
    rw [chained.2, Text.size_nil, flat_nil, Text.size_nil] at size
    omega
  | cons next below =>
    rcases chained.1.2 with feed | both
    · have one : Text.size ['\n'] = 1 := rfl
      rw [feed, one] at high
      have within := high.resolve_left (by simp)
      omega
    · have two : Text.size ['\r', '\n'] = 2 := rfl
      rw [both, two] at high
      have within := high.resolve_left (by simp)
      by_contra other
      refine off ⟨flat above, flat (next :: below), ?_, by omega⟩
      rw [holds.text, flat_append, flat_cons, empty, both]
      simp

theorem selection_on_empty (reached : s.Reachable) {l : Line} (only : s.coveredLines = [l])
    (empty : l.text = [])
    (off : ∀ r ∈ s.selection.ranges, ¬InBreak s.text r.start ∧ ¬InBreak s.text r.stop) :
    s.selection = Selection.caret l.start := by
  have coherent := reached.coherent
  have ends : ∀ r ∈ s.selection.ranges, ∀ x, r.start ≤ x → x ≤ r.stop → ¬InBreak s.text x →
      x = l.start := by
    intro r member x first last off'
    have inside := Nat.le_trans last (coherent.inside r member).stop_le
    have here := EditState.lineAt_mem_coveredLines coherent member first last
    obtain ⟨above, row, below, rows, on, line⟩ :=
      Document.exists_row (t := s.text) s.doc.lineBreak inside
    rw [only, List.mem_singleton, coherent.lineAt x, line] at here
    have text : row.text = [] := by rw [← empty, ← here, Document.lineBelow]
    have start : l.start = (flat above).size := by rw [← here, Document.lineBelow]
    rw [start]
    exact eq_of_onRow rows text on inside off'
  have same : ∀ r ∈ s.selection.ranges, r = Range.caret l.start := by
    intro r member
    have start := ends r member r.start (Nat.le_refl _) r.start_le_stop (off r member).1
    have stop := ends r member r.stop r.start_le_stop (Nat.le_refl _) (off r member).2
    obtain ⟨anchor, head⟩ := r
    rw [Range.start] at start
    rw [Range.stop] at stop
    rw [Range.caret, Range.mk.injEq]
    dsimp only at start stop
    omega
  have sound := reached.selection_sound
  cases selected : s.selection with
  | mk ranges main =>
    have apart := reached.pairwise_apart
    rw [selected] at same sound apart
    cases ranges with
    | nil => exact absurd rfl sound.nonempty
    | cons r rest =>
      cases rest with
      | nil =>
        have place : main = 0 := by simpa using sound.main
        rw [Selection.caret, place, same r List.mem_cons_self]
      | cons r' rest =>
        have free := List.rel_of_pairwise_cons apart (List.mem_cons_self (a := r') (l := rest))
        rw [same r List.mem_cons_self, same r' (by simp)] at free
        exact absurd free (Std.Irrefl.irrefl (r := Range.Apart) _)

/-- What is put in is taken away again by a second toggle, which brings the text and the selection
back. -/
theorem toggle_back (reached : s.Reachable) (low : 1 ≤ level)
    (next : s.next? (mark.toggle level s) = some s')
    (rows' : s'.rows = (mark.edits level s).map RowEdit.after) (bare : mark.Bare s)
    (spans : s'.selection.ranges.map s'.lineSpan = s.selection.ranges.map s.lineSpan)
    (back : s'.selection.map
      ⟨RowEdit.changesFrom 0 ((mark.edits level s).map RowEdit.swap), s'.doc.size⟩ = s.selection) :
    ∃ s'', s'.next? (mark.toggle level s') = some s'' ∧ s''.text = s.text ∧
      s''.selection = s.selection := by
  have reached' := reached.next next
  have edits' := edits_again low reached.coherent reached'.coherent rows' bare spans
  obtain ⟨s'', next', rows'', selection⟩ := exists_toggled reached' mark level
  have text := (EditState.holds_rows rows'').text
  rw [edits', RowEdit.map_after_swap] at text
  rw [caret?_again reached.coherent reached'.coherent rows' bare spans, edits'] at selection
  refine ⟨s'', next', ?_, selection.trans back⟩
  rw [text, (holds_edits mark level s).text]

theorem inserts_edits (level : Nat) (coherent : s.Coherent) (bare : mark.Bare s) :
    ∀ e ∈ mark.edits level s, e.old = [] := by
  intro e member
  obtain ⟨l, line, row, -, -, rfl⟩ := RowEdit.mem_along member
  cases touched : s.covers l.number with
  | false =>
    rw [lineEdit_outside touched]
    rfl
  | true => rw [bare.lineEdit_eq coherent line touched]

theorem mapPos_empty (mark : LeadingMark) (level : Nat) (coherent : s.Coherent) {l : Line}
    (only : s.coveredLines = [l])
    (empty : l.text = []) :
    (⟨RowEdit.changesFrom 0 (mark.edits level s), s.doc.size⟩ : ChangeSet).mapPos l.start .after =
      l.start + level + 1 := by
  have single : RowEdit.changesFrom 0 (mark.edits level s) =
      [⟨l.start, l.start, mark.marks level ++ [' ']⟩] := by
    have none_found : mark.run? l.text = none := by
      rw [empty]
      rfl
    rw [← filterMap_changeLine coherent, only]
    simp [changeLine, none_found, Change.insertAt]
  have space : Text.size [' '] = 1 := rfl
  rw [single]
  simp [ChangeSet.mapPos, ChangeSet.mapFrom, Change.growth, Text.size_append, space]
  omega

theorem caret_le_newSize (mark : LeadingMark) (level : Nat) (coherent : s.Coherent) {l : Line}
    (only : s.coveredLines = [l]) (empty : l.text = []) : l.start + level + 1 ≤
      (⟨RowEdit.changesFrom 0 (mark.edits level s), s.doc.size⟩ : ChangeSet).newSize := by
  have listed : l ∈ s.coveredLines := only ▸ List.mem_cons_self
  obtain ⟨before, after, parts, lies⟩ := coherent.mem_lines (List.mem_filter.mp listed).1
  have inside : l.start ≤ s.doc.size := by
    have size : s.doc.size = (before ++ l.text ++ after).size := congrArg Text.size parts
    rw [Text.size_append, Text.size_append] at size
    rw [lies.start]
    omega
  rw [← mapPos_empty mark level coherent only empty]
  exact ChangeSet.mapPos_le (ofChanges_changeLine mark level coherent) inside

theorem caret_back (reached : s.Reachable) (next : s.next? (mark.toggle level s) = some s')
    (rows' : s'.rows = (mark.edits level s).map RowEdit.after) {l : Line}
    (only : s.coveredLines = [l]) (empty : l.text = [])
    (selected : s.selection = Selection.caret l.start)
    (selection : s'.selection = (Selection.caret (l.start + level + 1)).clamp s'.doc.size) :
    s'.selection.ranges.map s'.lineSpan = s.selection.ranges.map s.lineSpan ∧
      s'.selection.map
        ⟨RowEdit.changesFrom 0 ((mark.edits level s).map RowEdit.swap), s'.doc.size⟩ =
          s.selection := by
  have coherent' := (reached.next next).coherent
  have holds := holds_edits mark level s
  have holds' := EditState.holds_rows rows'
  have inserts := inserts_edits level reached.coherent (bare_of_empty mark only empty)
  have image := mapPos_empty mark level reached.coherent only empty
  have inside : l.start ≤ s.doc.size := by
    have caret := reached.coherent.inside (Range.caret l.start) (by
      rw [selected]
      exact List.mem_cons_self)
    exact caret.1
  have bound : l.start + level + 1 ≤ s'.doc.size := by
    have size' : s'.doc.size = (flat ((mark.edits level s).map RowEdit.after)).size :=
      congrArg Text.size holds'.text
    rw [size', ← RowEdit.newSize_edits holds.text]
    exact caret_le_newSize mark level reached.coherent only empty
  have kept : s'.selection = Selection.caret (l.start + level + 1) := by
    rw [selection]
    refine Selection.clamp_of_apart (List.pairwise_singleton _ _) Nat.zero_lt_one fun r member => ?_
    rw [List.mem_singleton.mp member]
    exact ⟨bound, bound⟩
  have number := RowEdit.number_mapPos holds inserts reached.coherent coherent' holds' .after inside
  have back := RowEdit.mapPos_swap holds.chained inserts
    (Nat.le_trans inside (Nat.le_of_eq (congrArg Text.size holds.text))) .after s.doc.size
      s'.doc.size
  rw [image] at number back
  -- the marks are taken away again, so that the caret goes back like the start of a span
  have sides := ChangeSet.mapFrom_of_deletes (x := l.start + level + 1)
    (RowEdit.deletes_changesFrom inserts 0) .before .after 0
  have map : (⟨RowEdit.changesFrom 0 ((mark.edits level s).map RowEdit.swap), s'.doc.size⟩ :
      ChangeSet).mapPos (l.start + level + 1) .before = l.start := sides.trans back
  rw [kept, selected]
  constructor
  · simp only [Selection.caret, List.map_cons, List.map_nil, EditState.lineSpan, Range.caret,
      Range.start, Range.stop, Nat.min_self, Nat.max_self, number]
  · rw [Selection.map, Selection.caret, List.map_cons, List.map_nil, Range.caret, Range.map_empty,
      map]
    exact Selection.ofRanges_of_apart (List.pairwise_singleton _ _) Nat.zero_lt_one

theorem ranges_back (reached : s.Reachable) (next : s.next? (mark.toggle level s) = some s')
    (rows' : s'.rows = (mark.edits level s).map RowEdit.after) (bare : mark.Bare s)
    (selection : s'.selection =
      s.selection.map ⟨RowEdit.changesFrom 0 (mark.edits level s), s.doc.size⟩) :
    s'.selection.ranges.map s'.lineSpan = s.selection.ranges.map s.lineSpan ∧
      s'.selection.map
        ⟨RowEdit.changesFrom 0 ((mark.edits level s).map RowEdit.swap), s'.doc.size⟩ =
          s.selection := by
  have coherent' := (reached.next next).coherent
  have holds := holds_edits mark level s
  have holds' := EditState.holds_rows rows'
  have inserts := inserts_edits level reached.coherent bare
  have made := RowEdit.ofChanges_edits holds.text (RowEdit.parted_of_chained holds.chained)
    fun c => Iff.rfl
  have sets := RowEdit.inserts_changesFrom inserts 0
  have size : s.doc.size = (flat ((mark.edits level s).map RowEdit.before)).size :=
    congrArg Text.size holds.text
  rw [selection]
  constructor
  · rw [Selection.map_of_inserts made sets reached.pairwise_apart reached.selection_sound.main,
      List.map_map]
    exact List.map_congr_left fun r member => RowEdit.lineSpan_map holds inserts reached.coherent
      coherent' holds' (reached.coherent.inside r member)
  · exact Selection.map_map made sets reached.pairwise_apart reached.selection_sound
      fun side x inside =>
        RowEdit.mapPos_swap holds.chained inserts (size ▸ inside) side s.doc.size s'.doc.size

/-- Toggling marks leaves the lines alone that no range touches, and gives the others the marks of
the level unless all of them have these. Where there were no marks, a second toggle brings back the
text and the selection. -/
theorem toggle_and_back (reached : s.Reachable) (mark : LeadingMark) (low : 1 ≤ level) :
    ∃ s', s.next? (mark.toggle level s) = some s' ∧ s'.rows.length = s.rows.length ∧
      (∀ n row row', s.rows[n]? = some row → s'.rows[n]? = some row' →
        (s.covers (n + 1) = false → row' = row) ∧
        (s.covers (n + 1) = true → ¬(∀ l ∈ s.coveredLines, mark.Leads level l.text) →
          row.text ≠ [] ∨ row'.text ≠ [] → mark.Leads level row'.text)) ∧
      ((∀ r ∈ s.selection.ranges, ¬InBreak s.text r.start ∧ ¬InBreak s.text r.stop) →
        ((∃ l, s.coveredLines = [l] ∧ l.text = []) ∨
          ∀ l ∈ s.coveredLines, l.text ≠ [] ∧ l.text.head? ≠ some ' ' ∧
            ∀ n, 1 ≤ n → ¬mark.Leads n l.text) →
        ∃ s'', s'.next? (mark.toggle level s') = some s'' ∧ s''.text = s.text ∧
          s''.selection = s.selection) := by
  obtain ⟨s', next, rows', selection⟩ := exists_toggled reached mark level
  refine ⟨s', next, ?_, fun n row row' found found' => ?_, fun off lines => ?_⟩
  · rw [rows', List.length_map, edits, RowEdit.length_along]
  · obtain ⟨l, -, number, text, made⟩ := RowEdit.getElem?_along
      (mark.lineEdit level (mark.levelled level s) (s.coveredLines.length == 1) s.covers) 1 0 found
    rw [rows', List.getElem?_map, edits, made, Option.map_some, Option.some.injEq] at found'
    rw [Nat.add_comm, ← number]
    refine ⟨fun outside => ?_, fun inside some_other some_text => ?_⟩
    · rw [← found', lineEdit_outside outside, RowEdit.after_keep, text]
    · have unlevelled : mark.levelled level s = false := by
        refine Bool.eq_false_iff.mpr fun all => some_other fun l member => ?_
        exact (atLevel_iff low).mp (List.all_eq_true.mp all l member)
      rw [unlevelled] at found'
      rw [← found'] at some_text ⊢
      exact leads_lineEdit inside (by rwa [text])
  · rcases lines with ⟨l, only, empty⟩ | plain
    · have selected := selection_on_empty reached only empty off
      have goes : caret? level s = some (Selection.caret (l.start + level + 1)) := by
        rw [caret?, only]
        exact if_pos empty
      rw [goes, Option.map_some, Option.getD_some] at selection
      obtain ⟨spans, back⟩ := caret_back reached next rows' only empty selected selection
      exact toggle_back reached low next rows' (bare_of_empty mark only empty) spans back
    · have bare : mark.Bare s := fun l member =>
        ⟨Or.inl (plain l member).1, (plain l member).2.1, run?_eq_none_iff.mpr (plain l member).2.2⟩
      have stays : caret? level s = none := by
        rw [caret?]
        split
        · rename_i l only
          exact if_neg (plain l (by rw [only]; exact List.mem_cons_self)).1
        · rfl
      rw [stays, Option.map_none, Option.getD_none] at selection
      obtain ⟨spans, back⟩ := ranges_back reached next rows' bare selection
      exact toggle_back reached low next rows' bare spans back

def threeLines : EditState :=
  .ofText ['a', '\r', '\n', 'b', '\n', 'c'] ⟨[⟨0, 0⟩, ⟨5, 3⟩], 1⟩ {}

theorem threeLines_toggle_and_back : ∃ s',
    threeLines.next? (LeadingMark.heading.toggle 2 threeLines) = some s' ∧
    (∃ row, s'.rows[1]? = some row ∧ LeadingMark.heading.Leads 2 row.text) ∧
    ∃ s'', s'.next? (LeadingMark.heading.toggle 2 s') = some s'' ∧ s''.text = threeLines.text ∧
      s''.selection = ⟨[⟨0, 0⟩, ⟨5, 3⟩], 1⟩ := by
  have reached : threeLines.Reachable := .ofText _ _ _
  have rows : threeLines.rows = [⟨['a'], ['\r', '\n']⟩, ⟨['b'], ['\n']⟩, ⟨['c'], []⟩] := by cbv
  have lines : threeLines.coveredLines = [⟨1, 0, 1, ['a']⟩, ⟨2, 3, 4, ['b']⟩, ⟨3, 5, 6, ['c']⟩] := by
    cbv
  have selection : threeLines.selection = ⟨[⟨0, 0⟩, ⟨5, 3⟩], 1⟩ := by cbv
  have touched : threeLines.covers 2 = true := by cbv
  have only_break : ∀ x, InBreak threeLines.text x → x = 2 := by
    rintro x ⟨a, b, parts, rfl⟩
    have text : ['a', '\r', '\n', 'b', '\n', 'c'] = a ++ '\r' :: '\n' :: b := parts
    clear parts
    rcases a with _ | ⟨c, _ | ⟨_, _ | ⟨_, _ | ⟨_, _ | ⟨_, _ | ⟨_, a⟩⟩⟩⟩⟩⟩ <;> simp at text
    rw [← text.1]
    rfl
  have off : ∀ r ∈ threeLines.selection.ranges,
      ¬InBreak threeLines.text r.start ∧ ¬InBreak threeLines.text r.stop := by
    intro r member
    have places : r.start ≠ 2 ∧ r.stop ≠ 2 := by
      rw [selection] at member
      rcases List.mem_cons.mp member with rfl | member
      · decide
      · rw [List.mem_singleton.mp member]
        decide
    exact ⟨fun there => places.1 (only_break _ there), fun there => places.2 (only_break _ there)⟩
  have letter : ∀ c ∈ ['a', 'b', 'c'], ∀ n, 1 ≤ n → ¬LeadingMark.heading.Leads n [c] := by
    rintro c among n low ⟨rest, text⟩
    obtain ⟨m, rfl⟩ := Nat.exists_eq_add_of_le' low
    have first : c = '#' := (List.cons.inj text).1
    subst first
    exact absurd among (by decide)
  have plain : ∀ l ∈ threeLines.coveredLines, l.text ≠ [] ∧ l.text.head? ≠ some ' ' ∧
      ∀ n, 1 ≤ n → ¬LeadingMark.heading.Leads n l.text := by
    intro l member
    rw [lines] at member
    simp only [List.mem_cons, List.not_mem_nil, or_false] at member
    rcases member with rfl | rfl | rfl <;> exact ⟨by simp, by simp, letter _ (by simp)⟩
  obtain ⟨s', next, length, each, back⟩ := toggle_and_back reached .heading (show 1 ≤ 2 by decide)
  obtain ⟨s'', next', text, same⟩ := back off (Or.inr plain)
  refine ⟨s', next, ?_, s'', next', text, same.trans selection⟩
  rw [rows] at length
  obtain ⟨row, found⟩ : ∃ row, s'.rows[1]? = some row :=
    ⟨_, List.getElem?_eq_getElem (by rw [length]; decide)⟩
  refine ⟨row, found, (each 1 ⟨['b'], ['\n']⟩ row (by rw [rows]; rfl) found).2 touched ?_
    (Or.inl (by simp))⟩
  intro all
  obtain ⟨rest, text⟩ := all ⟨1, 0, 1, ['a']⟩ (by rw [lines]; exact List.mem_cons_self)
  cases text

end LeadingMark

end MarkdownEditing
