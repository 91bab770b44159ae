import MarkdownEditing.Markup.Frame
import MarkdownEditing.Proofs.Syntax.Scanned
import MarkdownEditing.Proofs.Text.Blank

namespace MarkdownEditing

namespace Text

variable {t u v : Text} {settings : EditorSettings}

theorem advance_of_no_tab {t : Text} (tab column : Nat) (no_tab : '\t' ∉ t) :
    advance tab column t = column + t.length := by
  induction t generalizing column with
  | nil => rfl
  | cons c t ih =>
    have step : stepColumn tab column c = column + 1 := if_neg fun same => no_tab (by simp [same])
    rw [advance, List.foldl_cons, step, ← advance, ih _ fun member => no_tab (by simp [member]),
      List.length_cons]
    omega

theorem advance_spaces (tab column n : Nat) : advance tab column (spaces n) = column + n := by
  rw [advance_of_no_tab, spaces, List.length_replicate]
  intro member
  cases mem_spaces member

theorem advance_tabs (tab k n : Nat) :
    advance tab (k * tab) (List.replicate n '\t') = (k + n) * tab := by
  induction n generalizing k with
  | zero => rfl
  | succ n ih =>
    have step : stepColumn tab (k * tab) '\t' = (k + 1) * tab := by
      rw [stepColumn, if_pos rfl, Nat.mul_mod_left, Nat.sub_zero, Nat.succ_mul]
    rw [List.replicate_succ, advance, List.foldl_cons, step, ← advance, ih, Nat.add_right_comm,
      Nat.add_assoc]

theorem advance_tabs_spaces (tab m n : Nat) :
    advance tab 0 (List.replicate m '\t' ++ spaces n) = m * tab + n := by
  have tabs := advance_tabs tab 0 m
  rw [Nat.zero_mul, Nat.zero_add] at tabs
  rw [advance_append, tabs, advance_spaces]

theorem isIndent_tabs_spaces (m n : Nat) :
    ∀ c ∈ List.replicate m '\t' ++ spaces n, isIndent c = true := by
  intro c member
  rcases List.mem_append.mp member with tab | space
  · rw [List.eq_of_mem_replicate tab]
    rfl
  · rw [mem_spaces space]
    rfl

/-- A column is spelled in one way by tabs and fewer spaces than a tab is wide. -/
theorem tabs_spaces_unique {tab m n m' n' : Nat} (few : n < tab) (few' : n' < tab)
    (same : m * tab + n = m' * tab + n') : m = m' ∧ n = n' := by
  have some_tab : 0 < tab := Nat.zero_lt_of_lt few
  have spelled : (m * tab + n) / tab = m ∧ (m * tab + n) % tab = n :=
    (Nat.div_mod_unique some_tab).mpr ⟨by rw [Nat.mul_comm, Nat.add_comm], few⟩
  have spelled' : (m' * tab + n') / tab = m' ∧ (m' * tab + n') % tab = n' :=
    (Nat.div_mod_unique some_tab).mpr ⟨by rw [Nat.mul_comm, Nat.add_comm], few'⟩
  rw [same] at spelled
  exact ⟨spelled.1.symm.trans spelled'.1, spelled.2.symm.trans spelled'.2⟩

def indent (t : Text) : Text := t.takeWhile isIndent

def flush (t : Text) : Text := t.dropWhile isIndent

theorem indent_append_flush (t : Text) : t.indent ++ t.flush = t := List.takeWhile_append_dropWhile

theorem columnAt_indent (t : Text) (tab : Nat) :
    t.columnAt tab t.indent.size = advance (max tab 1) 0 t.indent := by
  have indent := takeBytes_left t.indent t.flush
  rw [indent_append_flush] at indent
  rw [columnAt, indent]

theorem columnAt_of_no_tab {own : Text} (rest : Text) (tab : Nat) {n : Nat} (no_tab : '\t' ∉ own)
    (single : ∀ c ∈ own, c.utf8Size = 1) (inside : n ≤ own.size) :
    (own ++ rest).columnAt tab n = n := by
  have all := size_eq_length single
  have front : Text.size (own.take n) = n := by
    rw [size_eq_length fun c member => single c (List.mem_of_mem_take member), List.length_take]
    omega
  have parts : own ++ rest = own.take n ++ (own.drop n ++ rest) := by
    rw [← List.append_assoc, List.take_append_drop]
  have cut := takeBytes_left (own.take n) (own.drop n ++ rest)
  rw [front, ← parts] at cut
  rw [columnAt, cut, advance_of_no_tab _ _ fun member => no_tab (List.mem_of_mem_take member),
    List.length_take]
  omega

/-- `u` is `t` with the indentation that the settings ask for: all the rest stays, in its columns. -/
structure Reindented (settings : EditorSettings) (t u : Text) : Prop where
  flush : u.flush = t.flush
  column : u.columnAt settings.tabSize u.indent.size = t.columnAt settings.tabSize t.indent.size
  tabbed : settings.indentUnit.isTab = true → ∃ tabs blanks,
    u.indent = List.replicate tabs '\t' ++ spaces blanks ∧ blanks < max settings.tabSize 1
  spaced : settings.indentUnit.isTab = false → u = t

namespace Reindented

theorem trans (first : Reindented settings t u) (second : Reindented settings u v) :
    Reindented settings t v where
  flush := second.flush.trans first.flush
  column := second.column.trans first.column
  tabbed := second.tabbed
  spaced := fun unit => (second.spaced unit).trans (first.spaced unit)

theorem unique (first : Reindented settings t u) (second : Reindented settings t v) : u = v := by
  cases unit : settings.indentUnit.isTab with
  | false => rw [first.spaced unit, second.spaced unit]
  | true =>
    obtain ⟨tabs, blanks, indent, few⟩ := first.tabbed unit
    obtain ⟨tabs', blanks', indent', few'⟩ := second.tabbed unit
    have columns := first.column.trans second.column.symm
    rw [columnAt_indent, columnAt_indent, indent, indent', advance_tabs_spaces,
      advance_tabs_spaces] at columns
    obtain ⟨rfl, rfl⟩ := tabs_spaces_unique few few' columns
    calc u = u.indent ++ u.flush := (indent_append_flush u).symm
      _ = v.indent ++ v.flush := by rw [indent, indent', first.flush, second.flush]
      _ = v := indent_append_flush v

end Reindented

/-- With tabs the indentation is spelled by division and remainder, also where there is none. -/
theorem normalizeIndent_of_tabs (t : Text) (unit : settings.indentUnit.isTab = true) :
    t.normalizeIndent settings =
      List.replicate (advance (max settings.tabSize 1) 0 t.indent / max settings.tabSize 1) '\t' ++
        spaces (advance (max settings.tabSize 1) 0 t.indent % max settings.tabSize 1) ++
          t.flush := by
  rw [normalizeIndent]
  dsimp only
  split
  · rename_i kept
    have none_there : t.indent = [] := kept.resolve_right (by simp [unit])
    have parts := indent_append_flush t
    rw [none_there, List.nil_append] at parts
    rw [none_there, parts]
    simp [advance, spaces]
  · rfl

theorem normalizeIndent_of_flush
    (flush : settings.indentUnit.isTab = false ∨ ∀ c ∈ t.head?, isIndent c = false) :
    t.normalizeIndent settings = t := by
  refine if_pos (flush.symm.imp_left fun visible => ?_)
  cases t with
  | nil => rfl
  | cons c t => exact List.takeWhile_cons_of_neg (by simp [visible c rfl])

theorem reindented_normalizeIndent (settings : EditorSettings) (t : Text) :
    Reindented settings t (t.normalizeIndent settings) := by
  cases unit : settings.indentUnit.isTab with
  | false =>
    have kept : t.normalizeIndent settings = t := if_pos (Or.inr unit)
    rw [kept]
    exact ⟨rfl, rfl, fun tabs => absurd (unit.symm.trans tabs) Bool.false_ne_true, fun _ => rfl⟩
  | true =>
    have some_tab : 0 < max settings.tabSize 1 := Nat.le_max_right _ _
    have blank := isIndent_tabs_spaces
      (advance (max settings.tabSize 1) 0 t.indent / max settings.tabSize 1)
      (advance (max settings.tabSize 1) 0 t.indent % max settings.tabSize 1)
    have indent := takeWhile_run blank (head?_dropWhile isIndent t)
    have rest := dropWhile_run blank (head?_dropWhile isIndent t)
    rw [normalizeIndent_of_tabs t unit]
    refine ⟨rest, ?_, fun _ => ⟨_, _, indent, Nat.mod_lt _ some_tab⟩,
      fun spaces => absurd (unit.symm.trans spaces) Bool.noConfusion⟩
    rw [columnAt_indent, columnAt_indent]
    refine (congrArg (advance (max settings.tabSize 1) 0) indent).trans ?_
    rw [advance_tabs_spaces]
    exact Nat.div_add_mod' _ _

example : normalizeIndent [' ', ' ', '\t', ' ', '-'] { indentUnit := .tab, tabSize := 4 } =
    ['\t', ' ', '-'] := by decide

end Text

end MarkdownEditing
