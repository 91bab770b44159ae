import MarkdownEditing.Proofs.Toggle.ListMarkers
import MarkdownEditing.Proofs.Toggle.Restyled

namespace MarkdownEditing

namespace ListKind

open Text

variable {kind : ListKind} {t u content rest : Text} {index : Nat} {b c : Char}
  {remove several : Bool} {bullet : Option Char} {l : Line}

def IsTask (t : Text) : Prop := ∃ i j b rest, t = taskBox i j b ++ ' ' :: rest ∧ IsState b

/-- A checked task with an unchecked box somewhere behind its own. -/
def CheckedOverOpen (t : Text) : Prop :=
  ∃ i j b rest, t = taskBox i j b ++ ' ' :: rest ∧ (b = 'x' ∨ b = 'X') ∧ HasOpenBox rest

def AllTasks (texts : List Text) : Prop :=
  ∀ t ∈ texts, IsTask t ∨ (1 < texts.length ∧ t = [])

theorem afterTodo?_isSome_iff : (afterTodo? t).isSome ↔ IsTask t := by
  constructor
  · intro found
    obtain ⟨content, found⟩ := Option.isSome_iff_exists.mp found
    obtain ⟨i, j, b, k, rfl, state⟩ := afterTodo?_parts found
    exact ⟨i, j, b, spaces k ++ content, rfl, state⟩
  · rintro ⟨i, j, b, rest, rfl, state⟩
    obtain ⟨content, found⟩ := afterSpaces?_cons rest
    rw [afterTodo?_task i j state, found]
    rfl

theorem count_spaces (n : Nat) : (spaces n).count '[' = 0 :=
  List.count_eq_zero.mpr fun member => by cases mem_spaces member

theorem ListMarker.count_le {m : Text} (marker : ListMarker m) : m.count '[' ≤ 1 := by
  cases marker with
  | @bullet c glyph => exact List.count_le_length
  | @number digits c _ all mark =>
    have none_digit : digits.count '[' = 0 :=
      List.count_eq_zero.mpr fun member => absurd (all _ member) (by decide)
    rw [List.count_append, none_digit, Nat.zero_add]
    exact List.count_le_length
  | @task c b gap glyph state =>
    have other : c ≠ '[' := by
      rintro rfl
      cases glyph
    rw [List.count_cons_of_ne other, List.count_append, count_spaces, Nat.zero_add]
    rcases state with rfl | rfl | rfl <;> decide

theorem Lead.count_le {m : Text} (lead : Lead m) : m.count '[' ≤ 1 := by
  have dark : ∀ {blank : Text}, (∀ c ∈ blank, isWhite c = true) → blank.count '[' = 0 :=
    fun white => List.count_eq_zero.mpr fun member => absurd (white _ member) (by decide)
  cases lead with
  | blank white =>
    rw [dark white]
    exact Nat.zero_le 1
  | marked gap white marker =>
    rw [List.count_append, List.count_append, dark white, count_spaces, Nat.zero_add]
    exact marker.count_le

theorem not_onlyMarker {front tail : Text} (brackets : 2 ≤ front.count '[') :
    ¬OnlyMarker (front ++ ' ' :: tail) (front ++ 'x' :: tail) := by
  rintro ⟨m, m', content, lead, -, old, new⟩
  rcases List.append_eq_append_iff.mp old with ⟨w, rfl, _⟩ | ⟨w, rfl, rfl⟩
  · have count := lead.count_le
    rw [List.count_append] at count
    omega
  · rw [← List.append_assoc] at new
    have same := (List.append_inj' new rfl).2
    cases same

theorem count_taskBox (i j : Nat) (state : IsState b) : (taskBox i j b).count '[' = 1 := by
  rw [taskBox, List.count_append, List.count_cons_of_ne (by decide), List.count_append, count_spaces,
    count_spaces]
  rcases state with rfl | rfl | rfl <;> decide

theorem restyleLine_checked (hidden : CheckedOverOpen l.text) :
    ¬OnlyMarker l.text (todo.restyleLine true several bullet l index) := by
  obtain ⟨i, j, b, rest, text, checked, open_box⟩ := hidden
  obtain ⟨v, found⟩ := Option.isSome_iff_exists.mp (check?_isSome_iff.mpr open_box)
  obtain ⟨content, gap⟩ := afterSpaces?_cons rest
  have task : afterMarker? todo l.text index = some content := by
    rw [afterMarker?, text, afterTodo?_task i j (Or.inr checked), gap]
  have next : nextState? todo l.text = some (taskBox i j b ++ ' ' :: v) := by
    have passed : check? (' ' :: rest) = (check? rest).map ([' '] ++ ·) :=
      check?_append (by simp : '-' ∉ [' ']) rest
    rw [nextState?, text, check?_checked i j checked, passed, found]
    rfl
  obtain ⟨a, k, z, rfl, rfl⟩ := check?_parts found
  have first := count_taskBox i j (Or.inr checked)
  have brackets : 2 ≤ (taskBox i j b ++ ' ' :: (a ++ '-' :: (spaces (k + 1) ++ ['[']))).count '[' := by
    rw [List.count_append, first, List.count_cons_of_ne (by decide), List.count_append,
      List.count_cons_of_ne (by decide), List.count_append, List.count_singleton_self]
    omega
  have differ : ¬OnlyMarker (_ ++ ' ' :: ']' :: z) (_ ++ 'x' :: ']' :: z) :=
    not_onlyMarker brackets
  rw [restyleLine, task]
  simp only [if_true, next, Option.getD_some]
  rw [text]
  simpa [taskBox, spaces] using differ

/-- No line break is hidden in the text. -/
def Solid (t : Text) : Prop := ∀ c ∈ t, c ≠ '\n' ∧ c ≠ '\r'

theorem solid_nil : Solid [] := fun _ member => absurd member List.not_mem_nil

theorem solid_spaces (n : Nat) : Solid (spaces n) := by
  intro c member
  rw [mem_spaces member]
  decide

theorem Solid.append (first : Solid t) (second : Solid u) : Solid (t ++ u) := fun c member =>
  (List.mem_append.mp member).elim (first c) (second c)

theorem solid_taskBox (i j : Nat) (state : IsState b) : Solid (taskBox i j b) := by
  have boxed : Solid ['[', b, ']'] := by
    rcases state with rfl | rfl | rfl <;> simp [Solid]
  have dash : Solid ['-'] := by simp [Solid]
  exact (solid_spaces i).append (dash.append ((solid_spaces (j + 1)).append boxed))

theorem solid_newMarker (glyph : kind = .bullet → ∀ c ∈ bullet, isBullet c = true) :
    Solid (kind.newMarker index bullet ++ [' ']) := by
  refine Solid.append ?_ (solid_spaces 1)
  cases kind with
  | bullet =>
    intro c member
    rw [List.mem_singleton.mp member]
    cases bullet with
    | none => decide
    | some c =>
      have glyph_c := glyph rfl c rfl
      constructor <;> rintro rfl <;> cases glyph_c
  | numbering =>
    refine Solid.append (fun c member => ?_) (by simp [Solid])
    have digit := isDigit_of_mem_ofNat member
    constructor <;> rintro rfl <;> cases digit
  | todo => exact solid_taskBox 0 0 (Or.inl rfl)

def Releads (t u : Text) : Prop :=
  ∃ m m' content, Lead m ∧ Lead m' ∧ Solid m' ∧ t = m ++ content ∧ u = m' ++ content

theorem releads_refl (t : Text) : Releads t t :=
  ⟨[], [], t, lead_nil, lead_nil, solid_nil, rfl, rfl⟩

/-- The new marker comes in the place of any marker that is there. -/
theorem releads_newMarker (glyph : kind = .bullet → ∀ c ∈ bullet, isBullet c = true) (t : Text) :
    Releads t (kind.newMarker index bullet ++ ' ' :: removeMarker t) := by
  have whole : kind.newMarker index bullet ++ ' ' :: removeMarker t =
      kind.newMarker index bullet ++ [' '] ++ removeMarker t := by simp
  rw [whole]
  cases found : afterAnyMarker? t with
  | none =>
    refine ⟨[], kind.newMarker index bullet ++ [' '], t, lead_nil, lead_newMarker glyph,
      solid_newMarker glyph, rfl, ?_⟩
    rw [removeMarker, found, Option.getD_none]
  | some content =>
    obtain ⟨m, lead, text⟩ := afterAnyMarker?_lead found
    refine ⟨m, kind.newMarker index bullet ++ [' '], content, lead, lead_newMarker glyph,
      solid_newMarker glyph, text, ?_⟩
    rw [removeMarker, found, Option.getD_some]

theorem nextState?_cases (marked : kind.afterMarker? t index = some content)
    (next : kind.nextState? t = some u) : Releads t u ∨
      (kind = .todo ∧ CheckedOverOpen t ∧ ∃ a j z, t = a ++ taskBox 0 j ' ' ++ z ∧
        u = a ++ taskBox 0 j 'x' ++ z) := by
  cases kind with
  | bullet => cases next
  | numbering => cases next
  | todo =>
    obtain ⟨i, j, b, k, rfl, state⟩ := afterTodo?_parts marked
    rw [nextState?] at next
    rcases state with rfl | checked
    · rw [check?_open] at next
      cases next
      exact Or.inl ⟨_, _, content, lead_task i j k (Or.inl rfl),
        lead_task i j k (Or.inr (Or.inl rfl)),
        (solid_taskBox i j (Or.inr (Or.inl rfl))).append (solid_spaces (k + 1)),
        by rw [List.append_assoc], by rw [List.append_assoc]⟩
    · obtain ⟨a, j', z, whole, changed⟩ := check?_parts next
      rw [check?_checked i j checked, Option.map_eq_some_iff] at next
      obtain ⟨v, found, _⟩ := next
      have passed : check? (spaces (k + 1) ++ content) =
          (check? (spaces k ++ content)).map ([' '] ++ ·) :=
        check?_append (by simp : '-' ∉ [' ']) (spaces k ++ content)
      rw [passed, Option.map_eq_some_iff] at found
      obtain ⟨v', found', _⟩ := found
      have open_box := check?_isSome_iff.mp (Option.isSome_iff_exists.mpr ⟨v', found'⟩)
      exact Or.inr ⟨rfl, ⟨i, j, b, spaces k ++ content, rfl, checked, open_box⟩, a, j', z, whole,
        changed⟩

/-- A line gets another lead in front of its content, or it is a checked task and a box in its
content is checked. -/
theorem restyleLine_cases (remove several : Bool) (l : Line) (index : Nat)
    (glyph : kind = .bullet → ∀ c ∈ bullet, isBullet c = true) :
    Releads l.text (kind.restyleLine remove several bullet l index) ∨
    (kind = .todo ∧ remove = true ∧ CheckedOverOpen l.text ∧ ∃ a j z,
      l.text = a ++ taskBox 0 j ' ' ++ z ∧
        kind.restyleLine remove several bullet l index = a ++ taskBox 0 j 'x' ++ z) := by
  rw [restyleLine]
  cases marked : kind.afterMarker? l.text index with
  | none =>
    dsimp only
    split
    · exact Or.inl (releads_refl l.text)
    · exact Or.inl (releads_newMarker glyph l.text)
  | some content =>
    dsimp only
    split
    · rename_i removing
      cases next : kind.nextState? l.text with
      | none =>
        obtain ⟨m, lead, text⟩ := afterMarker?_lead marked
        exact Or.inl ⟨m, [], content, lead, lead_nil, solid_nil, text, rfl⟩
      | some u =>
        rw [Option.getD_some]
        rcases nextState?_cases marked next with releads | ⟨task, hidden, box⟩
        · exact Or.inl releads
        · exact Or.inr ⟨task, removing, hidden, box⟩
    · exact Or.inl (releads_refl l.text)

/-- What toggling does to one of the texts of a group. -/
structure Restyles (kind : ListKind) (texts : List Text) (old new : Text) : Prop where
  clean : '\n' ∉ old → '\n' ∉ new
  returns : new.getLast? = some '\r' → old.getLast? = some '\r'
  marker : OnlyMarker old new ↔ ¬(kind = .todo ∧ AllTasks texts ∧ CheckedOverOpen old)

theorem getLast?_of_solid (solid : Solid t) (ends : (t ++ u).getLast? = some '\r') :
    u.getLast? = some '\r' := by
  rw [List.getLast?_append, Option.or_eq_some_iff] at ends
  rcases ends with ends | ⟨_, ends⟩
  · exact ends
  · exact absurd rfl (solid _ (List.mem_of_getLast? ends)).2

theorem suggested_glyph (placed : List (Line × Nat)) :
    ∀ c ∈ ListKind.bullet.suggested placed, isBullet c = true := by
  have from_found : ∀ found : Option Char, (∀ c ∈ found, isBullet c = true) →
      ∀ c ∈ placed.foldl (fun found p =>
        if (ListKind.bullet.afterMarker? p.1.text p.2).isSome then p.1.text.trimStart.head?
        else found) found, isBullet c = true := by
    induction placed with
    | nil => exact fun found glyph => glyph
    | cons p placed ih =>
      intro found glyph
      apply ih
      dsimp only
      split
      · rename_i marked
        obtain ⟨content, marked⟩ := Option.isSome_iff_exists.mp marked
        obtain ⟨i, d, n, glyph_d, text, _⟩ := afterBullet?_lead marked
        have dark : isWhite d = false := by
          simp only [isBullet, Bool.or_eq_true, beq_iff_eq] at glyph_d
          rcases glyph_d with (rfl | rfl) | rfl <;> rfl
        intro c first
        rw [text, trimStart_spaces i _ dark] at first
        cases first
        exact glyph_d
      · exact glyph
  exact from_found none fun c member => nomatch member

theorem map_fst_placed (ls : List Line) : (placed ls).map Prod.fst = ls :=
  List.map_fst_zip (Nat.le_of_eq (length_placesFrom _ _ _ _).symm)

theorem allMarked_todo {ls : List Line} :
    todo.allMarked (1 < ls.length) (placed ls) = true ↔ AllTasks (ls.map Line.text) := by
  have lines : ∀ P : Line → Prop, (∀ p ∈ placed ls, P p.1) ↔ ∀ l ∈ ls, P l := by
    intro P
    conv => rhs; rw [← map_fst_placed ls]
    rw [List.forall_mem_map]
  rw [allMarked, List.all_eq_true, AllTasks, List.forall_mem_map, List.length_map, ← lines]
  refine forall₂_congr fun p _ => ?_
  show ((afterTodo? p.1.text).isSome || _) = true ↔ _
  rw [Bool.or_eq_true, Bool.and_eq_true, decide_eq_true_eq, List.isEmpty_iff, afterTodo?_isSome_iff]

theorem Releads.restyles {texts : List Text} (releads : Releads t u)
    (hides : kind = .todo ∧ AllTasks texts ∧ CheckedOverOpen t → ¬OnlyMarker t u) :
    Restyles kind texts t u := by
  obtain ⟨m, m', content, lead, lead', solid, old, new⟩ := releads
  have only : OnlyMarker t u := ⟨m, m', content, lead, lead', old, new⟩
  refine ⟨?_, ?_, iff_of_true only fun found => hides found only⟩
  · rw [old, new]
    intro clean member
    rcases List.mem_append.mp member with inside | inside
    · exact (solid _ inside).1 rfl
    · exact clean (List.mem_append_right m inside)
  · rw [old, new]
    intro ends
    have last := getLast?_of_solid solid ends
    rw [List.getLast?_append, last]
    rfl

theorem restyles_box {texts : List Text} {a z : Text} {j : Nat}
    (found : kind = .todo ∧ AllTasks texts ∧ CheckedOverOpen (a ++ taskBox 0 j ' ' ++ z))
    (other : ¬OnlyMarker (a ++ taskBox 0 j ' ' ++ z) (a ++ taskBox 0 j 'x' ++ z)) :
    Restyles kind texts (a ++ taskBox 0 j ' ' ++ z) (a ++ taskBox 0 j 'x' ++ z) := by
  refine ⟨?_, ?_, iff_of_false other (not_not_intro found)⟩
  · intro clean member
    rcases List.mem_append.mp member with inside | inside
    · rcases List.mem_append.mp inside with inside | inside
      · exact clean (List.mem_append_left z (List.mem_append_left _ inside))
      · exact (solid_taskBox 0 j (Or.inr (Or.inl rfl)) _ inside).1 rfl
    · exact clean (List.mem_append_right _ inside)
  · have shape : ∀ b, a ++ taskBox 0 j b ++ z =
        (a ++ '-' :: (spaces (j + 1) ++ ['[', b])) ++ ']' :: z := by
      intro b
      simp [taskBox, spaces]
    rw [shape, shape, List.getLast?_append_cons, List.getLast?_append_cons]
    exact id

theorem restyle_lines (kind : ListKind) (ls : List Line) :
    List.Forall₂ (Restyles kind (ls.map Line.text)) (ls.map Line.text) (kind.restyle ls) := by
  have texts : ls.map Line.text = (placed ls).map fun p => p.1.text := by
    conv => lhs; rw [← map_fst_placed ls, List.map_map]
    rfl
  have glyph : kind = .bullet → ∀ c ∈ kind.suggested (placed ls), isBullet c = true := by
    rintro rfl
    exact suggested_glyph (placed ls)
  suffices related : ∀ all, ls.map Line.text = all →
      List.Forall₂ (Restyles kind all) ((placed ls).map fun p => p.1.text) (kind.restyle ls) by
    have found := related _ rfl
    rwa [← texts] at found
  rintro _ rfl
  rw [restyle, List.forall₂_map_left_iff, List.forall₂_map_right_iff, List.forall₂_same]
  rintro ⟨l, index⟩ -
  dsimp only
  have hides : kind = .todo ∧ AllTasks (ls.map Line.text) ∧ CheckedOverOpen l.text →
      ¬OnlyMarker l.text (kind.restyleLine (kind.allMarked (1 < ls.length) (placed ls))
        (1 < ls.length) (kind.suggested (placed ls)) l index) := by
    rintro ⟨rfl, tasks, hidden⟩
    rw [allMarked_todo.mpr tasks]
    exact restyleLine_checked hidden
  rcases restyleLine_cases (kind.allMarked (1 < ls.length) (placed ls)) (1 < ls.length) l index glyph
    with releads | ⟨rfl, removing, hidden, a, j, z, old, new⟩
  · exact releads.restyles hides
  · have found : todo = .todo ∧ AllTasks (ls.map Line.text) ∧ CheckedOverOpen l.text :=
      ⟨rfl, allMarked_todo.mp removing, hidden⟩
    have other := hides found
    rw [old, new] at other
    rw [old] at found
    rw [old, new]
    exact restyles_box found other

section Rows

open Row RowGroup

variable {rows rest : List Row} {parts : List RowGroup} {spans : List (Nat × Nat)} {number : Nat}
  {lineBreak : Text}

theorem restyle_rows (kind : ListKind) (rows : List Row) :
    List.Forall₂ (fun row u => Restyles kind (rows.map Row.text) row.text u) rows
      (kind.restyle (lines 1 0 rows)) := by
  have related := kind.restyle_lines (lines 1 0 rows)
  rw [map_text_lines, List.forall₂_map_left_iff] at related
  exact related

theorem becomes_styled (kind : ListKind) (lineBreak : Text) {above below : List Row}
    (chained : Chained (above ++ rows ++ below)) (some_row : rows ≠ []) :
    List.Forall₂ (Becomes lineBreak) rows (kind.styled lineBreak rows) := by
  refine becomes_between ((restyle_rows kind rows).imp fun _ _ restyled => restyled.clean) ?_
  obtain ⟨front, last, rfl⟩ := (List.eq_nil_or_concat rows).resolve_left some_row
  have inner : Chained (above ++ front ++ ([last] ++ below)) := by simpa using chained
  intro row member
  rw [List.concat_eq_append, List.dropLast_concat] at member
  rcases (inner.of_append (by simp)).2 row (List.mem_append_right _ member) with same | same <;>
    simp [same]

theorem becomes_mapOwn (cut : Cut number spans parts) (chained : Chained (joined parts rest)) :
    List.Forall₂ (Becomes lineBreak) (joined parts rest)
      (joined (mapOwn (kind.styled lineBreak) parts) rest) := by
  induction cut with
  | nil => exact List.forall₂_same.mpr fun row _ => .refl lineBreak row
  | @cons _ _ _ part parts some_row _ _ cut ih =>
    have above : List.Forall₂ (Becomes lineBreak) part.above part.above :=
      List.forall₂_same.mpr fun row _ => .refl lineBreak row
    have own := becomes_styled kind lineBreak chained some_row
    refine List.rel_append (List.rel_append above own) ?_
    by_cases last : parts = []
    · subst last
      exact List.forall₂_same.mpr fun row _ => .refl lineBreak row
    · exact ih (chained.of_append (joined_ne_nil rest cut last)).1

end Rows

end ListKind

def LineGroup.Holds (g : LineGroup) (number : Nat) : Prop := g.first ≤ number ∧ number ≤ g.last

namespace ListKind

open Row RowGroup

variable {s : EditState} {parts : List RowGroup} {rest : List Row}

theorem restyles_of_getElem? {kind : ListKind} {rows : List Row} {row : Row} {u : Text} {j : Nat}
    (found : rows[j]? = some row) (found' : (kind.restyle (lines 1 0 rows))[j]? = some u) :
    Restyles kind (rows.map Row.text) row.text u := by
  obtain ⟨inside, rfl⟩ := List.getElem?_eq_some_iff.mp found
  obtain ⟨inside', rfl⟩ := List.getElem?_eq_some_iff.mp found'
  exact (List.forall₂_iff_get.mp (restyle_rows kind rows)).2 j inside inside'

theorem getElem?_styled {kind : ListKind} {lineBreak : Text} {own : List Row} {row' : Row} {j : Nat}
    (found : (kind.styled lineBreak own)[j]? = some row') : ∃ row, own[j]? = some row ∧
      Restyles kind (own.map Row.text) row.text row'.text ∧
      row'.ending = if j + 1 = own.length then row.ending else lineBreak := by
  rw [styled, getElem?_between, length_restyle, length_lines] at found
  obtain ⟨u, new, rfl⟩ := Option.map_eq_some_iff.mp found
  have inside := (List.getElem?_eq_some_iff.mp new).1
  rw [length_restyle, length_lines] at inside
  have old : own[j]? = some own[j] := List.getElem?_eq_getElem inside
  refine ⟨own[j], old, restyles_of_getElem? old new, ?_⟩
  dsimp only
  split
  · rename_i final
    exact lastEnding_of_getElem? old final
  · rfl

/-- The rows after toggling, read back from the new text. -/
theorem rows_toggled {s' : EditState} (kind : ListKind) (rows : s.rows = joined parts rest)
    (cut : Cut 1 ((LineGroup.ofState s).map LineGroup.span) parts)
    (text : s'.text = flat (joined (mapOwn (kind.styled s.lineBreak) parts) rest)) :
    s'.rows = (joined (mapOwn (kind.styled s.lineBreak) parts) rest).map settle := by
  have chained : Chained (joined parts rest) := by
    rw [← rows]
    exact chained_ofText s.text
  rw [EditState.rows, text]
  exact ofText_flat (chained.of_becomes (becomes_mapOwn cut chained) s.lineBreak_cases)

/-- Toggling a list style leaves the lines outside of the groups alone, and of each line in them it
rewrites the marker only, but that it checks a box in the content of a checked task when all lines
are tasks. -/
theorem toggle_only_markers (reached : s.Reachable) (kind : ListKind) :
    ∃ s', s.next? (kind.toggle s) = some s' ∧ s'.rows.length = s.rows.length ∧
      ∀ n row row', s.rows[n]? = some row → s'.rows[n]? = some row' →
        ((∀ g ∈ LineGroup.ofState s, ¬g.Holds (n + 1)) → row' = row) ∧
        ∀ g ∈ LineGroup.ofState s, g.Holds (n + 1) →
          (s.lineBreak = ['\n'] → row.text.getLast? = some '\r' → n + 1 = g.last) →
          (OnlyMarker row.text row'.text ↔
            ¬(kind = .todo ∧ AllTasks ((g.lines s.doc).map Line.text) ∧ CheckedOverOpen row.text)) := by
  obtain ⟨parts, rest, rows, cut⟩ := EditState.exists_parts reached.coherent reached.pairwise_apart
  obtain ⟨s', next, text, -, -⟩ := next?_toggle rows cut reached.coherent kind
  have rows' := rows_toggled kind rows cut text
  have length := kind.length_styled s.lineBreak
  refine ⟨s', next, ?_, fun n row row' found found' => ?_⟩
  · rw [rows', List.length_map, length_joined_mapOwn length, rows]
  have settled : row.settle = row := settle_ofText (List.mem_of_getElem? found)
  rw [rows] at found
  rw [rows', List.getElem?_map] at found'
  refine ⟨fun outside => ?_, fun g member held kept => ?_⟩
  · rw [cut.getElem?_outside length, found, Option.map_some, Option.some.injEq] at found'
    · rw [← found', settled]
    · intro p in_spans
      obtain ⟨g, member, rfl⟩ := List.mem_map.mp in_spans
      have missed := outside g member
      rw [LineGroup.Holds] at missed
      rw [LineGroup.span]
      omega
  · obtain ⟨part, -, above, below, above', below', old, new, same, first, last⟩ :=
      cut.exists_part length (List.mem_map_of_mem member) rest
    obtain ⟨low, high⟩ := held
    have start : g.first = above.length + 1 := by rw [Nat.add_comm]; exact first
    have stop : g.last + 1 = g.first + part.own.length := last
    obtain ⟨j, rfl⟩ := Nat.exists_eq_add_of_le (by omega : above.length ≤ n)
    have inside : j < part.own.length := by omega
    rw [old, List.append_assoc, List.getElem?_append_right (Nat.le_add_right _ _),
      Nat.add_sub_cancel_left, List.getElem?_append_left inside] at found
    rw [new, ← same, List.append_assoc, List.getElem?_append_right (Nat.le_add_right _ _),
      Nat.add_sub_cancel_left, List.getElem?_append_left (by rw [length]; exact inside)] at found'
    obtain ⟨new_row, restyled, rfl⟩ := Option.map_eq_some_iff.mp found'
    obtain ⟨old_row, here, related, ending⟩ := getElem?_styled restyled
    obtain rfl := Option.some.inj (here.symm.trans found)
    have texts : (g.lines s.doc).map Line.text = part.own.map Row.text := by
      rw [LineGroup.lines_eq reached.coherent (rows.trans old) start stop, map_text_lines]
    have unsettled : ¬(new_row.ending = ['\n'] ∧ new_row.text.getLast? = some '\r') := by
      rintro ⟨feed, ends⟩
      have returns := related.returns ends
      rw [ending] at feed
      split at feed
      · exact not_of_settle settled ⟨feed, returns⟩
      · have final := kept feed returns
        omega
    rw [settle, if_neg unsettled, texts]
    exact related.marker

def mixedLines : EditState :=
  .ofText ['1', '.', ' ', 'a', '\n', '\n', '*', ' ', 'b', '\n', 'c'] ⟨[⟨7, 1⟩], 0⟩ {}

theorem mixedLines_only_markers : ∃ s',
    mixedLines.next? (ListKind.bullet.toggle mixedLines) = some s' ∧
      s'.rows = [⟨['*', ' ', 'a'], ['\n']⟩, ⟨[], ['\n']⟩, ⟨['*', ' ', 'b'], ['\n']⟩, ⟨['c'], []⟩] ∧
      mixedLines.rows[3]? = s'.rows[3]? ∧ OnlyMarker ['1', '.', ' ', 'a'] ['*', ' ', 'a'] := by
  have rows : mixedLines.rows =
      [⟨['1', '.', ' ', 'a'], ['\n']⟩, ⟨[], ['\n']⟩, ⟨['*', ' ', 'b'], ['\n']⟩, ⟨['c'], []⟩] := by cbv
  have groups : LineGroup.ofState mixedLines = [⟨1, 3, [⟨7, 1⟩]⟩] := by cbv
  have toggled : (mixedLines.next? (ListKind.bullet.toggle mixedLines)).map EditState.text =
      some ['*', ' ', 'a', '\n', '\n', '*', ' ', 'b', '\n', 'c'] := by cbv
  have reached : mixedLines.Reachable := .ofText _ _ _
  obtain ⟨s', next, -, each⟩ := toggle_only_markers reached .bullet
  rw [next] at toggled
  have rows' : s'.rows =
      [⟨['*', ' ', 'a'], ['\n']⟩, ⟨[], ['\n']⟩, ⟨['*', ' ', 'b'], ['\n']⟩, ⟨['c'], []⟩] := by
    rw [EditState.rows, Option.some.inj toggled]
    cbv
  rw [rows, rows', groups] at each
  have inside := (each 0 _ _ rfl rfl).2 _ List.mem_cons_self ⟨by decide, by decide⟩
    (fun _ ends => absurd ends (by decide))
  have outside := (each 3 _ _ rfl rfl).1 (by
    intro g member held
    rw [List.mem_singleton.mp member] at held
    exact absurd held.2 (by decide))
  refine ⟨s', next, rows', by rw [rows, rows']; rfl, inside.mpr ?_⟩
  rintro ⟨⟨⟩, _⟩

def taskInTask : EditState :=
  .ofText ['-', ' ', '[', 'x', ']', ' ', 'a', ' ', '-', ' ', '[', ' ', ']', ' ', 'b']
    (.caret 15) {}

/-- Toggling does not take the task's own marker away, it checks the other box. -/
theorem checks_in_content : ∃ s', taskInTask.next? (ListKind.todo.toggle taskInTask) = some s' ∧
    s'.text = ['-', ' ', '[', 'x', ']', ' ', 'a', ' ', '-', ' ', '[', 'x', ']', ' ', 'b'] ∧
    ¬OnlyMarker taskInTask.text s'.text := by
  have toggled : (taskInTask.next? (ListKind.todo.toggle taskInTask)).map EditState.text =
      some ['-', ' ', '[', 'x', ']', ' ', 'a', ' ', '-', ' ', '[', 'x', ']', ' ', 'b'] := by cbv
  obtain ⟨s', next, text⟩ := Option.map_eq_some_iff.mp toggled
  refine ⟨s', next, text, ?_⟩
  have brackets : 2 ≤ ['-', ' ', '[', 'x', ']', ' ', 'a', ' ', '-', ' ', '['].count '[' := by decide
  have other : ¬OnlyMarker (_ ++ ' ' :: [']', ' ', 'b']) (_ ++ 'x' :: [']', ' ', 'b']) :=
    not_onlyMarker brackets
  rw [text]
  exact other

end ListKind

end MarkdownEditing
