import MarkdownEditing.Settings.Save

namespace MarkdownEditing

namespace Settings

open Toml

variable {α : Type} {v : Value} {n : Nat} {b : Bool}

/-- What an entry gives for a field: what its value means, and the default without an entry. -/
def Gives (means : Value → α → Prop) (fallback : α) : Option Value → α → Prop
  | some v, a => means v a
  | none, a => a = fallback

inductive IsCount : Value → Nat → Prop
  | integer (n : Nat) : n < countLimit → IsCount (.integer n) n

inductive IsFlag : Value → Bool → Prop
  | boolean (b : Bool) : IsFlag (.boolean b) b

inductive IsIndent : Value → IndentUnit → Prop
  | tab (name : Text) : name.map Char.toLower = ['t', 'a', 'b'] → IsIndent (.string name) .tab
  | spaces (n : Nat) : 1 ≤ n → n < countLimit → IsIndent (.integer n) (.spaces n)

/-- A line break is its name, or a table with nothing but its name over nothing. -/
inductive IsLineBreak : Value → LineBreak → Prop
  | name (b : LineBreak) : IsLineBreak (.string b.name) b
  | table (origin inner : Origin) (b : LineBreak) :
    IsLineBreak (.table origin [(b.name, .table inner [])]) b
  | array (origin : Origin) (ofTables : Bool) (b : LineBreak) :
    IsLineBreak (.table origin [(b.name, .array ofTables [])]) b

inductive IsRecord : Value → Prop
  | table (origin : Origin) (entries : List (Text × Value)) : IsRecord (.table origin entries)
  | array (ofTables : Bool) (items : List Value) : IsRecord (.array ofTables items)

def field? (key : String) (place : Nat) : Value → Option Value
  | .table _ entries => entries.lookup key.toList
  | .array _ items => items[place]?
  | _ => none

structure IsFormat (v : Value) (f : FormatSettings) : Prop where
  isRecord : IsRecord v
  insertFinalNewline : Gives IsFlag true (field? "insert_final_newline" 0 v) f.insertFinalNewline
  trimTrailingWhitespace :
    Gives IsFlag true (field? "trim_trailing_whitespace" 1 v) f.trimTrailingWhitespace

structure IsEditor (v : Value) (e : EditorSettings) : Prop where
  isRecord : IsRecord v
  indentUnit : Gives IsIndent (.spaces 4) (field? "indent_unit" 0 v) e.indentUnit
  tabSize : Gives IsCount 4 (field? "tab_size" 1 v) e.tabSize
  lineBreak : Gives IsLineBreak .lf (field? "line_break" 2 v) e.lineBreak
  format : Gives IsFormat ⟨true, true⟩ (field? "format" 3 v) e.format

/-- The document describes the settings. -/
def Describes (t : Table) (s : Settings) : Prop :=
  Gives IsEditor ⟨.spaces 4, 4, .lf, ⟨true, true⟩⟩ (t.find? "editor".toList) s.editor

theorem fieldOr_iff {read : Value → Except SettingsFault α} {means : Value → α → Prop}
    (reads : ∀ v a, read v = .ok a ↔ means v a) (entry : Option Value) (fallback a : α) :
    fieldOr entry read fallback = .ok a ↔ Gives means fallback entry a := by
  cases entry with
  | none =>
    simp only [fieldOr, Gives, Except.ok.injEq]
    exact eq_comm
  | some v => exact reads v a

theorem count?_iff : count? v = some n ↔ IsCount v n := by
  constructor
  · intro found
    unfold count? at found
    split at found
    · rename_i m
      split at found
      · rename_i fits
        obtain ⟨k, rfl⟩ := Int.eq_ofNat_of_zero_le fits.1
        cases found
        exact .integer k (Int.ofNat_lt.mp fits.2)
      · cases found
    · cases found
  · intro count
    cases count with
    | integer n small =>
      have fits : (0 : Int) ≤ n ∧ (n : Int) < countLimit :=
        ⟨Int.natCast_nonneg n, Int.ofNat_lt.mpr small⟩
      rw [count?, if_pos fits, Int.toNat_natCast]

theorem countOf_iff (v : Value) (n : Nat) : countOf v = .ok n ↔ IsCount v n := by
  rw [← count?_iff, countOf]
  cases count? v <;> simp

theorem flagOf_iff (v : Value) (b : Bool) : flagOf v = .ok b ↔ IsFlag v b := by
  constructor
  · intro found
    cases v with
    | boolean c =>
      cases found
      exact .boolean b
    | _ => cases found
  · rintro ⟨⟩
    rfl

theorem indentOf_of_count (count : count? v = some (n + 1)) : indentOf v = .ok (.spaces (n + 1)) := by
  unfold indentOf
  split
  · cases count
  · rw [count]
    rfl

theorem indentOf_iff (v : Value) (unit : IndentUnit) : indentOf v = .ok unit ↔ IsIndent v unit := by
  constructor
  · intro found
    unfold indentOf at found
    split at found
    · rename_i name
      split at found
      · rename_i named
        cases found
        exact .tab name (by simpa [isTabName] using named)
      · cases found
    · split at found
      · cases found
      · rename_i n some_space count
        cases found
        cases count?_iff.mp count with
        | integer n small => exact .spaces n (Nat.one_le_iff_ne_zero.mpr some_space) small
      · cases found
  · intro indent
    cases indent with
    | tab name named =>
      have same : isTabName name = true := by simpa [isTabName] using named
      simp only [indentOf, same, ↓reduceIte]
    | spaces n some_space small =>
      obtain ⟨m, rfl⟩ := Nat.exists_eq_add_of_le' some_space
      exact indentOf_of_count (count?_iff.mpr (.integer (m + 1) small))

theorem lineBreakNamed_iff (name : Text) (b : LineBreak) :
    lineBreakNamed name = .ok b ↔ name = b.name := by
  constructor
  · intro found
    unfold lineBreakNamed at found
    split at found
    · rename_i same
      cases found
      exact same
    · split at found
      · rename_i same
        cases found
        exact same
      · cases found
  · rintro rfl
    cases b <;> rfl

theorem lineBreakOf_iff (v : Value) (b : LineBreak) : lineBreakOf v = .ok b ↔ IsLineBreak v b := by
  constructor
  · intro found
    unfold lineBreakOf at found
    split at found
    · rw [(lineBreakNamed_iff _ b).mp found]
      exact .name b
    · rw [(lineBreakNamed_iff _ b).mp found]
      exact .table _ _ b
    · rw [(lineBreakNamed_iff _ b).mp found]
      exact .array _ _ b
    · cases found
  · rintro (_ | _ | _) <;> exact (lineBreakNamed_iff _ b).mpr rfl

theorem bind_iff {β : Type} (x : Except SettingsFault α) (next : α → Except SettingsFault β) (b : β) :
    (x >>= next) = .ok b ↔ ∃ a, x = .ok a ∧ next a = .ok b := by
  cases x with
  | error fault => simp [bind, Except.bind]
  | ok a => simp [bind, Except.bind]

theorem formatOf_iff (v : Value) (f : FormatSettings) : formatOf v = .ok f ↔ IsFormat v f := by
  have fields : ∀ final trim : Option Value,
      (do
        let final ← fieldOr final flagOf true
        let trim ← fieldOr trim flagOf true
        return ⟨final, trim⟩ : Except SettingsFault FormatSettings) = .ok f ↔
      Gives IsFlag true final f.insertFinalNewline ∧ Gives IsFlag true trim f.trimTrailingWhitespace := by
    intro final trim
    simp only [bind_iff, fieldOr_iff flagOf_iff, pure, Except.pure, Except.ok.injEq]
    constructor
    · rintro ⟨first, gives_first, second, gives_second, rfl⟩
      exact ⟨gives_first, gives_second⟩
    · rintro ⟨gives_first, gives_second⟩
      exact ⟨_, gives_first, _, gives_second, rfl⟩
  cases v with
  | table origin entries =>
    refine (fields _ _).trans ⟨fun both => ⟨.table origin entries, both.1, both.2⟩, ?_⟩
    rintro ⟨-, first, second⟩
    exact ⟨first, second⟩
  | array ofTables items =>
    refine (fields _ _).trans ⟨fun both => ⟨.array ofTables items, both.1, both.2⟩, ?_⟩
    rintro ⟨-, first, second⟩
    exact ⟨first, second⟩
  | _ =>
    refine ⟨fun found => ?_, fun format => ?_⟩
    · cases found
    · cases format.isRecord

theorem editorOf_iff (v : Value) (e : EditorSettings) : editorOf v = .ok e ↔ IsEditor v e := by
  cases v with
  | table origin entries =>
    simp only [editorOf, bind_iff, fieldOr_iff formatOf_iff, fieldOr_iff indentOf_iff,
      fieldOr_iff lineBreakOf_iff, fieldOr_iff countOf_iff, pure, Except.pure, Except.ok.injEq]
    constructor
    · rintro ⟨format, gives_format, unit, gives_unit, lineBreak, gives_break, size, gives_size, rfl⟩
      exact ⟨.table origin entries, gives_unit, gives_size, gives_break, gives_format⟩
    · rintro ⟨-, gives_unit, gives_size, gives_break, gives_format⟩
      exact ⟨_, gives_format, _, gives_unit, _, gives_break, _, gives_size, rfl⟩
  | array ofTables items =>
    simp only [editorOf, bind_iff, fieldOr_iff formatOf_iff, fieldOr_iff indentOf_iff,
      fieldOr_iff lineBreakOf_iff, fieldOr_iff countOf_iff, pure, Except.pure, Except.ok.injEq]
    constructor
    · rintro ⟨unit, gives_unit, size, gives_size, lineBreak, gives_break, format, gives_format, rfl⟩
      exact ⟨.array ofTables items, gives_unit, gives_size, gives_break, gives_format⟩
    · rintro ⟨-, gives_unit, gives_size, gives_break, gives_format⟩
      exact ⟨_, gives_unit, _, gives_size, _, gives_break, _, gives_format, rfl⟩
  | _ =>
    refine ⟨fun found => ?_, fun editor => ?_⟩
    · cases found
    · cases editor.isRecord

/-- A document loads as the settings that it describes, and is refused if it describes none. -/
theorem ofTable_iff (t : Table) (s : Settings) : ofTable t = .ok s ↔ Describes t s := by
  simp only [ofTable, bind_iff, fieldOr_iff editorOf_iff, pure, Except.pure, Except.ok.injEq]
  constructor
  · rintro ⟨editor, gives, rfl⟩
    exact gives
  · intro gives
    exact ⟨_, gives, rfl⟩

theorem IsIndent.some_space {unit : IndentUnit} (indent : IsIndent v unit) : unit ≠ .spaces 0 := by
  cases indent with
  | tab name named => exact nofun
  | spaces n some_space small =>
    rintro ⟨⟩
    cases some_space

theorem Gives.some_space {entry : Option Value} {unit : IndentUnit}
    (gives : Gives IsIndent (.spaces 4) entry unit) : unit ≠ .spaces 0 := by
  cases entry with
  | none =>
    rw [gives]
    decide
  | some v => exact IsIndent.some_space gives

theorem Describes.some_space {t : Table} {s : Settings} (described : Describes t s) :
    s.editor.indentUnit ≠ .spaces 0 := by
  unfold Describes at described
  cases entry : t.find? "editor".toList with
  | none =>
    rw [entry] at described
    rw [show s.editor = _ from described]
    decide
  | some v =>
    rw [entry] at described
    exact (show IsEditor v s.editor from described).indentUnit.some_space

end Settings

end MarkdownEditing
