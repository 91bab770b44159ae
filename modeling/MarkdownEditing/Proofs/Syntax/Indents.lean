import MarkdownEditing.Proofs.Syntax.Containers

namespace MarkdownEditing

namespace Text

theorem le_advance {tab : Nat} (some_tab : 0 < tab) (column : Nat) (t : Text) :
    column ≤ advance tab column t := by
  induction t generalizing column with
  | nil => exact Nat.le_refl _
  | cons c t ih =>
    have step : column ≤ stepColumn tab column c := by
      have below := Nat.mod_lt column some_tab
      unfold stepColumn
      split <;> omega
    exact Nat.le_trans step (ih _)

theorem lt_advance {tab : Nat} (some_tab : 0 < tab) (column : Nat) {t : Text} (some_text : t ≠ []) :
    column < advance tab column t := by
  cases t with
  | nil => exact absurd rfl some_text
  | cons c t =>
    have step : column < stepColumn tab column c := by
      have below := Nat.mod_lt column some_tab
      unfold stepColumn
      split <;> omega
    exact Nat.lt_of_lt_of_le step (le_advance some_tab _ t)

end Text

namespace Cursor

variable {c : Cursor}

theorem column_le_skipBlank (c : Cursor) : c.column ≤ c.skipBlank.column :=
  Text.le_advance (by decide) _ _

theorem skipBlank_nil (none_left : c.rest = []) : c.skipBlank.rest = [] := by
  rw [skipBlank]
  dsimp only
  rw [none_left, List.drop_nil]

end Cursor

namespace Container

/-- Items with their content in columns that do not decrease from `least` on, up to the next quote, in
which columns are counted anew. Outermost first. -/
def Increasing : Nat → List Container → Prop
  | _, [] => True
  | _, .quote :: containers => Increasing 0 containers
  | least, .list _ :: containers => Increasing least containers
  | least, .item column :: containers => least ≤ column ∧ Increasing column containers

def floor : Nat → List Container → Nat
  | least, [] => least
  | _, .quote :: containers => floor 0 containers
  | least, .list _ :: containers => floor least containers
  | _, .item column :: containers => floor column containers

variable {least : Nat} {xs ys : List Container}

theorem increasing_append :
    Increasing least (xs ++ ys) ↔ Increasing least xs ∧ Increasing (floor least xs) ys := by
  induction xs generalizing least with
  | nil => simp [Increasing, floor]
  | cons x xs ih => cases x <;> simp [Increasing, floor, ih, and_assoc]

theorem floor_append : floor least (xs ++ ys) = floor (floor least xs) ys := by
  induction xs generalizing least with
  | nil => rfl
  | cons x xs ih => cases x <;> exact ih

end Container

namespace BlockStart

def Formed : BlockStart → List Token → Prop
  | item style bare, tokens => bareAfterMarker? (tokens.drop style.markerWidth) = some bare
  | fence _ length, _ => 3 ≤ length
  | _, _ => True

theorem ReadFrom.formed {start : BlockStart} {tokens : List Token}
    (read : start.ReadFrom tokens) : start.Formed tokens := by
  cases read with
  | item style bare tokens opens follows => exact follows
  | fence mark tokens delimiter enough => exact enough
  | blank | quote | heading | thematicBreak | text => exact True.intro

theorem formed_ofCursor (c : Cursor) : (ofCursor c).Formed c.rest := (readFrom_ofCursor c).formed

end BlockStart

namespace Continuation

open Container (floor)

theorem floor_ofLine (containers : List Container) (c : Cursor) {least : Nat}
    (reaches : c.skipBlank.rest = [] ∨ least ≤ c.skipBlank.column) :
    (ofLine containers c).cursor.skipBlank.rest = [] ∨
      floor least (containers.take (ofLine containers c).count) ≤
        (ofLine containers c).cursor.skipBlank.column := by
  induction containers generalizing c least with
  | nil => exact reaches
  | cons container containers ih =>
    cases container with
    | quote =>
      rw [ofLine]
      split
      · split
        · exact ih _ (Or.inr (Nat.zero_le _))
        · exact reaches
      · exact reaches
    | list style =>
      rw [ofLine]
      split
      · exact reaches
      · exact ih c reaches
    | item column =>
      rw [ofLine]
      split
      · exact reaches
      · rename_i inside
        refine ih { c with base := max c.base column } ?_
        by_cases none_left : c.skipBlank.rest = []
        · exact Or.inl none_left
        · exact Or.inr (Nat.not_lt.mp fun less => inside ⟨none_left, less⟩)

end Continuation

namespace Stack

open Container (Increasing floor increasing_append floor_append)

variable {s : Stack} {c : Cursor} {ending : List Token}

@[simp] theorem containers_push (s : Stack) (x : Container) :
    (s.push x).containers = s.containers ++ [x] := by
  simp [containers, push]

theorem containers_popMany (s : Stack) (n : Nat) :
    (s.popMany n).containers = s.containers.take (s.layers.length - n) := by
  rw [containers, layers_popMany, containers, List.take_reverse, List.length_map, List.map_drop]
  rcases Nat.le_total n s.layers.length with less | more
  · rw [Nat.sub_sub_self less]
  · have none_left : (s.layers.map Layer.container).length ≤ n := by rwa [List.length_map]
    rw [List.drop_of_length_le none_left, Nat.sub_eq_zero_of_le more, Nat.sub_zero,
      List.drop_of_length_le (Nat.le_of_eq (List.length_map _))]

theorem containers_openLeaf (s : Stack) (start : BlockStart) (tokens ending : List Token) :
    (s.openLeaf start tokens ending).containers = s.containers := by
  cases start <;> simp [openLeaf] <;> rfl

theorem containers_closeAfter (s : Stack) (count : Nat) (start : BlockStart) :
    (s.closeAfter count start).containers = s.containers.take count ∨
      ∃ style bare, start = .item style bare ∧
        (s.closeAfter count start).containers = s.containers.take count ++ [.list style] := by
  have kept : ∀ keep ≤ s.layers.length,
      (s.popMany (s.layers.length - keep)).containers = s.containers.take keep := by
    intro keep less
    rw [containers_popMany, Nat.sub_sub_self less]
  have length := s.length_containers
  rcases s.closeAfter_cases count start with ⟨style, bare, here, item, same⟩ | ⟨_, same⟩
  · have inside := (List.getElem?_eq_some_iff.mp here).1
    refine Or.inr ⟨style, bare, item, ?_⟩
    rw [same, kept _ (by omega), List.take_add_one, here]
    rfl
  · refine Or.inl ?_
    rcases Nat.le_total count s.layers.length with less | more
    · rw [same, kept _ less]
    · rw [same, Nat.sub_eq_zero_of_le more, List.take_of_length_le (by omega)]
      rfl

theorem containers_cutBack (s : Stack) (c : Continuation) :
    (s.cutBack c).containers = s.containers.take c.count ∨
      ∃ style bare, BlockStart.ofCursor c.cursor.skipBlank = .item style bare ∧
        (s.cutBack c).containers = s.containers.take c.count ++ [.list style] := by
  rw [cutBack, containers_emit, ← containers_closeLeaf s]
  exact containers_closeAfter s.closeLeaf c.count _

theorem le_contentColumn (column : Nat) (rest : List Token) : column ≤ contentColumn column rest := by
  cases rest with
  | nil => exact Nat.le_succ _
  | cons t rest =>
    have stop := Text.le_advance (show 0 < Cursor.tabStop by decide) column t.text
    rw [contentColumn]
    split
    · exact stop
    · exact Nat.le_succ _

/-- Where something follows the marker of an item, it stands in the item's content. -/
theorem contentColumn_reaches {column : Nat} {rest : List Token} {bare : Bool}
    (spaced : BlockStart.bareAfterMarker? rest = some bare) (base : Nat) :
    (⟨rest, column, base⟩ : Cursor).skipBlank.rest = [] ∨
      contentColumn column rest ≤ (⟨rest, column, base⟩ : Cursor).skipBlank.column := by
  cases rest with
  | nil => exact Or.inl rfl
  | cons t rest =>
    have white : t.kind = .whitespace := by
      rw [BlockStart.bareAfterMarker?] at spaced
      split at spaced
      · assumption
      · cases spaced
    have skip : (⟨t :: rest, column, base⟩ : Cursor).skipBlank =
        ⟨rest, Text.advance Cursor.tabStop column t.text, base⟩ := by
      simp [Cursor.skipBlank, Cursor.blank, white]
    rw [skip, contentColumn]
    cases rest with
    | nil => exact Or.inl rfl
    | cons u rest =>
      refine Or.inr ?_
      split
      · exact Nat.le_refl _
      · rename_i wide
        have more : ¬Text.advance Cursor.tabStop column t.text - column ≤ Cursor.tabStop :=
          fun narrow => wide ⟨white, List.cons_ne_nil u rest, narrow⟩
        show column + 1 ≤ Text.advance Cursor.tabStop column t.text
        omega

theorem containers_listed (s : Stack) (style : ListStyle) :
    (if s.inList style then s else s.push (.list style)).containers = s.containers ∨
      (if s.inList style then s else s.push (.list style)).containers =
        s.containers ++ [.list style] := by
  split
  · exact Or.inl rfl
  · exact Or.inr (containers_push s _)

def Fenced (s : Stack) : Prop :=
  ∀ mark length held, s.leaf = some (.fence mark length, held) → 0 < length

theorem fenced_of_none (closed : s.leaf = none) : s.Fenced := by
  intro mark length held leaf
  rw [closed] at leaf
  cases leaf

theorem Fenced.emit (fenced : s.Fenced) (trees : List Tree) : (s.emit trees).Fenced := by
  obtain ⟨layers, done, leaf⟩ := s
  intro mark length held same
  cases leaf with
  | none => cases same
  | some both =>
    obtain ⟨leaf, held'⟩ := both
    cases same
    exact fenced mark length held' rfl

theorem fenced_openLeaf (closed : s.leaf = none) (c : Cursor) (tokens ending : List Token) :
    (s.openLeaf (BlockStart.ofCursor c) tokens ending).Fenced := by
  have formed := BlockStart.formed_ofCursor c
  cases start : BlockStart.ofCursor c with
  | blank | heading _ | thematicBreak => exact (fenced_of_none closed).emit _
  | fence mark length =>
    rw [start] at formed
    rintro _ _ _ ⟨⟩
    exact Nat.lt_of_lt_of_le (by decide) formed
  | quote | item _ _ | text => rintro _ _ _ ⟨⟩

theorem fenced_openBlocks (closed : s.leaf = none) : (s.openBlocks c ending).Fenced := by
  fun_induction openBlocks s c ending with
  | case1 s c led t ts shape quote next inner ih => exact ih (leaf_emit_eq_none rfl _)
  | case2 s c led style bare t ts shape item marker column rest next listed inner ih =>
    exact ih (leaf_emit_eq_none rfl _)
  | case3 s c led no_quote no_item => exact fenced_openLeaf (leaf_emit_eq_none closed _) _ _ _

theorem Fenced.fenceLine (fenced : s.Fenced) (mark : Kind) (length : Nat) (c : Cursor)
    (ending : List Token) : (s.fenceLine mark length c ending).Fenced := by
  obtain ⟨leaves, _, _, same | same⟩ := s.fenceLine_leaves mark length c ending
  · rw [same]
    exact fenced.emit leaves
  · rw [same]
    exact fenced_of_none (leaf_closeLeaf _)

theorem Fenced.addLine (fenced : s.Fenced) (tokens ending : List Token) :
    (s.addLine tokens ending).Fenced := by
  obtain ⟨c, s', _, made, step, _⟩ := s.exists_lineStep tokens ending
  rw [made]
  cases step with
  | fence => exact (fenced.emit _).fenceLine _ _ _ _
  | paragraph => exact fenced.emit _
  | reopen => exact fenced_openBlocks (leaf_cutBack s c)

theorem Fenced.lines (fenced : s.Fenced) (tokens : List Token) : (s.lines tokens).Fenced := by
  fun_induction Stack.lines s tokens with
  | case1 s => exact fenced
  | case2 s t ts ih => exact ih (fenced.addLine _ _)

theorem increasing_openBlocks (increasing : Increasing 0 s.containers)
    (reaches : c.skipBlank.rest = [] ∨ floor 0 s.containers ≤ c.skipBlank.column) :
    Increasing 0 (s.openBlocks c ending).containers := by
  fun_induction openBlocks s c ending with
  | case1 s c led t ts shape quote next inner ih =>
    apply ih
    · simp only [inner, led, containers_emit, containers_push]
      exact increasing_append.mpr ⟨increasing, True.intro⟩
    · refine Or.inr ?_
      simp only [inner, containers_emit, containers_push, floor_append]
      exact Nat.zero_le _
  | case2 s c led style bare t ts shape item marker column rest next listed inner ih =>
    have spaced := BlockStart.formed_ofCursor c.skipBlank
    rw [item, shape] at spaced
    have follows : BlockStart.bareAfterMarker? rest = some bare := by
      rw [← spaced, drop_marker]
    have behind : column ≤ next.base := le_contentColumn column rest
    have reaches' := @contentColumn_reaches column rest bare follows next.base
    have here : floor 0 s.containers ≤ column := by
      have some_tab : 0 < Cursor.tabStop := by decide
      rcases reaches with none_left | reaches
      · rw [none_left] at shape
        cases shape
      · exact Nat.le_trans reaches (Text.le_advance some_tab _ _)
    -- A list has no column of its own, so the item behind it is compared with what is around both.
    have listed_inside : Increasing 0 listed.containers ∧ floor 0 listed.containers ≤ column := by
      have kept : led.containers = s.containers := containers_emit s _
      have either : listed.containers = led.containers ∨
          listed.containers = led.containers ++ [.list style] := containers_listed led style
      rcases either with same | more
      · rw [same, kept]
        exact ⟨increasing, here⟩
      · rw [more, kept]
        refine ⟨increasing_append.mpr ⟨increasing, True.intro⟩, ?_⟩
        rw [floor_append]
        exact here
    apply ih
    · simp only [inner, containers_emit, containers_push]
      exact increasing_append.mpr ⟨listed_inside.1, Nat.le_trans listed_inside.2 behind, True.intro⟩
    · simp only [inner, containers_emit, containers_push, floor_append]
      exact reaches'.imp Cursor.skipBlank_nil fun less =>
        Nat.le_trans less next.skipBlank.column_le_skipBlank
  | case3 s c led no_quote no_item =>
    rw [containers_openLeaf]
    simpa [led] using increasing

theorem containers_fenceLine (s : Stack) (mark : Kind) (length : Nat) (c : Cursor)
    (ending : List Token) : (s.fenceLine mark length c ending).containers = s.containers := by
  obtain ⟨leaves, _, _, same | same⟩ := s.fenceLine_leaves mark length c ending <;> simp [same]

theorem increasing_addLine (increasing : Increasing 0 s.containers) (tokens ending : List Token) :
    Increasing 0 (s.addLine tokens ending).containers := by
  have reaches := Continuation.floor_ofLine s.containers ⟨tokens, 0, 0⟩ (Or.inr (Nat.zero_le _))
  obtain ⟨c, s', read, made, step, _⟩ := s.exists_lineStep tokens ending
  rw [read] at reaches
  rw [made]
  cases step with
  | fence =>
    rw [containers_fenceLine, containers_emit]
    exact increasing
  | paragraph =>
    rw [containers_emit]
    exact increasing
  | reopen =>
    have taken : Increasing 0 (s.containers.take c.count) := by
      have parts := List.take_append_drop c.count s.containers
      rw [← parts] at increasing
      exact (increasing_append.mp increasing).1
    rcases containers_cutBack s c with same | ⟨style, _, _, same⟩
    · apply increasing_openBlocks
      · rw [same]
        exact taken
      · rw [same]
        exact reaches
    · apply increasing_openBlocks
      · rw [same]
        exact increasing_append.mpr ⟨taken, True.intro⟩
      · rw [same, floor_append]
        exact reaches

theorem increasing_lines (increasing : Increasing 0 s.containers) (tokens : List Token) :
    Increasing 0 (s.lines tokens).containers := by
  fun_induction lines s tokens with
  | case1 s => exact increasing
  | case2 s t ts ih => exact ih (increasing_addLine increasing _ _)

end Stack

end MarkdownEditing
