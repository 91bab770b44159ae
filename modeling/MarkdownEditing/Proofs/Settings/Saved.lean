import MarkdownEditing.Proofs.Settings.Described
import MarkdownEditing.Proofs.Settings.Lines
import MarkdownEditing.Proofs.Text.Bytes

namespace MarkdownEditing

open Toml

namespace IndentUnit

def toValue : IndentUnit → Value
  | tab => .string ['t', 'a', 'b']
  | spaces n => .integer n

end IndentUnit

namespace Settings

/-- The settings whose indent is not empty and whose counts are counts of 64 bits. -/
structure Savable (s : Settings) : Prop where
  some_space : s.editor.indentUnit ≠ .spaces 0
  indent : ∀ n, s.editor.indentUnit = .spaces n → n < countLimit
  tabSize : s.editor.tabSize < countLimit

def formatEntries (f : FormatSettings) : List (Text × Value) :=
  [("insert_final_newline".toList, .boolean f.insertFinalNewline),
    ("trim_trailing_whitespace".toList, .boolean f.trimTrailingWhitespace)]

def plainEntries (e : EditorSettings) : List (Text × Value) :=
  [("indent_unit".toList, e.indentUnit.toValue), ("tab_size".toList, .integer e.tabSize),
    ("line_break".toList, .string e.lineBreak.name)]

def toTable (s : Settings) : Table :=
  ⟨.header, [("editor".toList, .table .header
    (plainEntries s.editor ++ [("format".toList, .table .header (formatEntries s.editor.format))]))]⟩

variable {s : Settings} {p : Progress} {root : Table} {v : Value} {text rest : Text}

theorem spells_indentUnit (savable : s.Savable) :
    Spells s.editor.indentUnit.toToml s.editor.indentUnit.toValue := by
  cases unit : s.editor.indentUnit with
  | tab => exact @spells_quoted ['t', 'a', 'b'] nofun (List.all_eq_true.mp rfl)
  | spaces n => exact spells_ofNat (savable.indent n unit)

theorem spells_lineBreak (b : LineBreak) : Spells ('"' :: b.name ++ ['"']) (.string b.name) := by
  cases b <;> exact spells_quoted nofun (List.all_eq_true.mp rfl)

theorem spells_flag (b : Bool) : Spells (flagToml b) (.boolean b) := by
  cases b with
  | true => exact @spells_word ['t', 'r', 'u', 'e'] nofun (List.all_eq_true.mp rfl) _ rfl
  | false => exact @spells_word ['f', 'a', 'l', 's', 'e'] nofun (List.all_eq_true.mp rfl) _ rfl

theorem lines?_entryToml (key : String) (some_key : key.toList ≠ [])
    (all : key.toList.all isBareChar = true) (spells : Spells text v)
    (added : addAt p.root p.path [key.toList] v = some root) (rest : Text) (fuel : Nat) :
    lines? p (entryToml key text ++ rest) (fuel + 1) = lines? { p with root } rest fuel := by
  have line := lines?_entry some_key (List.all_eq_true.mp all) spells added rest fuel
  have shape : entryToml key text ++ rest =
      key.toList ++ ' ' :: '=' :: ' ' :: (text ++ '\n' :: rest) := by
    simp [entryToml]
  rw [shape, line]

def editorRead (entries : List (Text × Value)) : Progress :=
  ⟨⟨.header, [("editor".toList, .table .header entries)]⟩, [⟨"editor".toList, false⟩]⟩

def formatRead (entries formats : List (Text × Value)) : Progress :=
  ⟨⟨.header, [("editor".toList,
      .table .header (entries ++ [("format".toList, .table .header formats)]))]⟩,
    [⟨"editor".toList, false⟩, ⟨"format".toList, false⟩]⟩

theorem lines?_editorHeader (rest : Text) (fuel : Nat) :
    lines? ⟨Table.empty, []⟩ ("[editor]\n".toList ++ rest) (fuel + 1) =
      lines? (editorRead []) rest fuel := lines?_header rfl fuel

theorem lines?_editorEntries (savable : s.Savable) (rest : Text) (fuel : Nat) :
    lines? (editorRead []) (entryToml "indent_unit" s.editor.indentUnit.toToml ++
        (entryToml "tab_size" (Text.ofNat s.editor.tabSize) ++
          (entryToml "line_break" ('"' :: s.editor.lineBreak.name ++ ['"']) ++ rest))) (fuel + 3) =
      lines? (editorRead (plainEntries s.editor)) rest fuel :=
  (lines?_entryToml "indent_unit" nofun rfl (spells_indentUnit savable) rfl _ _).trans
    ((lines?_entryToml "tab_size" nofun rfl (spells_ofNat savable.tabSize) rfl _
      _).trans
    (lines?_entryToml "line_break" nofun rfl (spells_lineBreak _) rfl _ _))

theorem lines?_formatHeader (e : EditorSettings) (rest : Text) (fuel : Nat) :
    lines? (editorRead (plainEntries e)) ("\n[editor.format]\n".toList ++ rest) (fuel + 1) =
      lines? (formatRead (plainEntries e) []) rest fuel :=
  (lines?_feed _ _ _).trans (lines?_header rfl fuel)

theorem lines?_formatEntries (e : EditorSettings) (fuel : Nat) :
    lines? (formatRead (plainEntries e) [])
        (entryToml "insert_final_newline" (flagToml e.format.insertFinalNewline) ++
          entryToml "trim_trailing_whitespace" (flagToml e.format.trimTrailingWhitespace))
        (fuel + 3) = some (formatRead (plainEntries e) (formatEntries e.format)).root := by
  have final := lines?_entryToml "insert_final_newline" nofun rfl
    (spells_flag e.format.insertFinalNewline) (p := formatRead (plainEntries e) []) rfl
    (entryToml "trim_trailing_whitespace" (flagToml e.format.trimTrailingWhitespace)) (fuel + 2)
  have trim := lines?_entryToml "trim_trailing_whitespace" nofun rfl
    (spells_flag e.format.trimTrailingWhitespace) (p := formatRead (plainEntries e)
      [("insert_final_newline".toList, .boolean e.format.insertFinalNewline)]) rfl [] (fuel + 1)
  rw [List.append_nil] at trim
  exact final.trans (trim.trans (lines?_nil _ fuel))

theorem toToml_begins (s : Settings) : ∃ rest, s.toToml = "[editor]\n".toList ++ rest := by
  unfold toToml
  simp only [List.append_assoc]
  exact ⟨_, rfl⟩

theorem parse?_toToml (savable : s.Savable) : parse? s.toToml = some s.toTable := by
  obtain ⟨rest, begins⟩ := toToml_begins s
  have no_mark : skipMark s.toToml = s.toToml := by
    rw [begins]
    rfl
  have long : 8 ≤ s.toToml.length + 1 := by
    have header : "[editor]\n".toList.length = 9 := rfl
    rw [begins, List.length_append, header]
    omega
  obtain ⟨fuel, enough⟩ := Nat.exists_eq_add_of_le' long
  rw [parse?, no_mark, enough]
  unfold toToml
  simp only [List.append_assoc]
  rw [lines?_editorHeader, lines?_editorEntries savable, lines?_formatHeader, lines?_formatEntries]
  rfl

theorem means_toValue (savable : s.Savable) :
    IsIndent s.editor.indentUnit.toValue s.editor.indentUnit := by
  cases unit : s.editor.indentUnit with
  | tab => exact .tab _ rfl
  | spaces n =>
    have some_space : n ≠ 0 := by
      rintro rfl
      exact savable.some_space unit
    exact .spaces n (Nat.one_le_iff_ne_zero.mpr some_space) (savable.indent n unit)

theorem describes_toTable (savable : s.Savable) : Describes s.toTable s where
  isRecord := .table _ _
  indentUnit := means_toValue savable
  tabSize := .integer _ savable.tabSize
  lineBreak := .name _
  format := ⟨.table _ _, .boolean _, .boolean _⟩

theorem load_iff (content : List Nat) (s : Settings) :
    (SettingsFile.bytes content).load = .ok (some s) ↔
      ∃ t table, Utf8.decode content = .ok t ∧ parse? t = some table ∧ Describes table s := by
  constructor
  · intro loaded
    unfold SettingsFile.load at loaded
    dsimp only at loaded
    split at loaded
    · cases loaded
    · rename_i t decoded
      cases parsed : parse? t with
      | none =>
        rw [ofToml, parsed] at loaded
        cases loaded
      | some table =>
        rw [ofToml, parsed] at loaded
        dsimp only at loaded
        cases read : ofTable table with
        | error fault =>
          rw [read] at loaded
          cases loaded
        | ok s' =>
          rw [read] at loaded
          cases loaded
          exact ⟨t, table, decoded, parsed, (ofTable_iff table s).mp read⟩
  · rintro ⟨t, table, decoded, parsed, described⟩
    simp only [SettingsFile.load, decoded, ofToml, parsed, (ofTable_iff table s).mpr described]
    rfl

/-- Settings come back from the file they are saved to. A file loads exactly as the settings that its
text describes, and the indent of these is never empty. -/
theorem save_load :
    (∀ s : Settings, s.Savable → s.toFile.load = .ok (some s)) ∧
      ∀ (content : List Nat) (s : Settings),
        ((SettingsFile.bytes content).load = .ok (some s) ↔
          ∃ t table, Utf8.decode content = .ok t ∧ parse? t = some table ∧ Describes table s) ∧
        ((SettingsFile.bytes content).load = .ok (some s) → s.editor.indentUnit ≠ .spaces 0) := by
  refine ⟨fun s savable => ?_, fun content s => ⟨load_iff content s, fun loaded => ?_⟩⟩
  · exact (load_iff _ s).mpr ⟨s.toToml, s.toTable, Utf8.decode_encode _, parse?_toToml savable,
      describes_toTable savable⟩
  · obtain ⟨t, table, -, -, described⟩ := (load_iff content s).mp loaded
    exact described.some_space

def tabbed : Settings := ⟨⟨.tab, 8, .crlf, ⟨false, true⟩⟩⟩

theorem tabbed_savable : tabbed.Savable where
  some_space := nofun
  indent := nofun
  tabSize := by decide

/-- Settings with tabs come back, and from a file without a word on the indent come four spaces. -/
theorem load_tabbed : tabbed.Savable ∧ tabbed.toFile.load = .ok (some tabbed) ∧
    (SettingsFile.bytes (Utf8.encode ['[', 'e', 'd', 'i', 't', 'o', 'r', ']'])).load =
      .ok (some {}) ∧ ({} : Settings).editor.indentUnit ≠ .spaces 0 := by
  have default_loads : (SettingsFile.bytes (Utf8.encode ['[', 'e', 'd', 'i', 't', 'o', 'r', ']'])).load =
      .ok (some {}) := by
    have loads : (SettingsFile.bytes
        (Utf8.encode ['[', 'e', 'd', 'i', 't', 'o', 'r', ']'])).load.toOption = some (some {}) := by
      decide +kernel
    revert loads
    cases (SettingsFile.bytes (Utf8.encode ['[', 'e', 'd', 'i', 't', 'o', 'r', ']'])).load with
    | error => intro loads; cases loads
    | ok s => intro loads; rw [Option.some.inj loads]
  exact ⟨tabbed_savable, save_load.1 tabbed tabbed_savable, default_loads,
    (save_load.2 _ _).2 default_loads⟩

end Settings

end MarkdownEditing
