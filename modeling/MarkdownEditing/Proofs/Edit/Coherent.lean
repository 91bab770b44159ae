import MarkdownEditing.Proofs.Edit.Covered

namespace MarkdownEditing

namespace Range

def Inside (r : Range) (size : Nat) : Prop := r.anchor ≤ size ∧ r.head ≤ size

theorem inside_clamp (r : Range) (size : Nat) : (r.clamp size).Inside size :=
  ⟨Nat.min_le_right _ _, Nat.min_le_right _ _⟩

theorem Inside.merge {a b : Range} {size : Nat} (first : a.Inside size) (second : b.Inside size) :
    (a.merge b).Inside size := by
  obtain ⟨first_anchor, first_head⟩ := first
  obtain ⟨second_anchor, second_head⟩ := second
  simp only [Inside, Range.merge, start, stop]
  omega

end Range

namespace Selection

variable {size : Nat}

theorem inside_mergeInto {chosen : Range} {merged : List Range} {main : Nat} {ranges : List Range}
    (done : ∀ r ∈ merged, r.Inside size) (left : ∀ r ∈ ranges, r.Inside size) :
    ∀ r ∈ (mergeInto chosen merged main ranges).ranges, r.Inside size := by
  induction ranges generalizing merged main with
  | nil =>
    intro r member
    exact done r (List.mem_reverse.mp member)
  | cons next rest ih =>
    have here := left next List.mem_cons_self
    cases merged with
    | nil =>
      apply ih _ fun r member => left r (List.mem_cons_of_mem _ member)
      intro r member
      have same := List.mem_singleton.mp member
      rw [same]
      exact here
    | cons last earlier =>
      apply ih _ fun r member => left r (List.mem_cons_of_mem _ member)
      intro r member
      dsimp only at member
      split at member
      · rcases List.mem_cons.mp member with rfl | member
        · exact (done last List.mem_cons_self).merge here
        · exact done r (List.mem_cons_of_mem _ member)
      · rcases List.mem_cons.mp member with rfl | member
        · exact here
        · exact done r member

theorem inside_ofRanges {ranges : List Range} (main : Nat) (inside : ∀ r ∈ ranges, r.Inside size) :
    ∀ r ∈ (ofRanges ranges main).ranges, r.Inside size := by
  unfold ofRanges
  split
  · intro r member
    have same := List.mem_singleton.mp member
    rw [same]
    exact ⟨Nat.zero_le _, Nat.zero_le _⟩
  · exact inside_mergeInto (by simp) fun r member => inside r (List.mem_mergeSort.mp member)

theorem inside_clamp (s : Selection) (size : Nat) : ∀ r ∈ (s.clamp size).ranges, r.Inside size := by
  apply inside_ofRanges
  intro r member
  obtain ⟨old, _, rfl⟩ := List.mem_map.mp member
  exact old.inside_clamp size

end Selection

namespace EditState

/-- What holds of every state: document and tree are made from the text, and the selection lies in
it. -/
structure Coherent (s : EditState) : Prop where
  doc : s.doc = Document.ofText s.text s.doc.lineBreak
  tree : s.tree = Tree.ofText s.text
  inside : ∀ r ∈ s.selection.ranges, r.Inside s.doc.size

/-- The states that come up while editing. -/
inductive Reachable : EditState → Prop
  | ofText (t : Text) (selection : Selection) (settings : EditorSettings) :
      Reachable (ofText t selection settings)
  | withSelection {s : EditState} (reached : Reachable s) (selection : Selection) :
      Reachable (s.withSelection selection)
  | withSettings {s : EditState} (reached : Reachable s) (settings : EditorSettings) :
      Reachable (s.withSettings settings)
  | next {s s' : EditState} {t : Transaction} (reached : Reachable s) (next : s.next? t = some s') :
      Reachable s'

variable {s s' : EditState}

theorem coherent_ofText (t : Text) (selection : Selection) (settings : EditorSettings) :
    (ofText t selection settings).Coherent :=
  ⟨rfl, rfl, selection.inside_clamp _⟩

theorem Coherent.withSelection (coherent : s.Coherent) (selection : Selection) :
    (s.withSelection selection).Coherent :=
  ⟨coherent.doc, coherent.tree, selection.inside_clamp _⟩

theorem coherent_withSettings (s : EditState) (settings : EditorSettings) :
    (s.withSettings settings).Coherent := coherent_ofText _ _ _

theorem next?_changed {t : Transaction} (fits : t.changes.size = s.doc.size)
    (next : s.next? t = some s') :
    t.changes.applyTo? s.text = some s'.text ∧
      s'.doc = Document.ofText s'.text s.doc.lineBreak ∧
      s'.tree = (if t.changes.isEmpty then s.tree else Tree.ofText s'.text) ∧
      ∀ r ∈ s'.selection.ranges, r.Inside s'.doc.size := by
  rw [next?, if_neg (fun other => other fits)] at next
  cases applied : t.changes.applyTo? s.doc.text with
  | none => simp [Document.change?, applied] at next
  | some changed =>
    simp only [Document.change?, applied, Option.map_some, Option.bind_eq_bind, Option.bind_some,
      pure, Option.some.injEq] at next
    subst next
    exact ⟨applied, rfl, rfl, Selection.inside_clamp _ _⟩

theorem exists_next? {t : Transaction} {u : Text} (fits : t.changes.size = s.doc.size)
    (applied : t.changes.applyTo? s.text = some u) :
    ∃ s', s.next? t = some s' ∧ s'.text = u ∧
      s'.selection = (t.selection.getD (s.selection.map t.changes)).clamp u.size := by
  have changed : s.doc.change? t.changes = some (Document.ofText u s.doc.lineBreak) :=
    congrArg (Option.map _) applied
  rw [next?, if_neg (fun other => other fits), changed]
  exact ⟨_, rfl, rfl, rfl⟩

theorem applyTo?_empty {c : ChangeSet} {t t' : Text} (none_made : c.isEmpty = true)
    (fits : c.size = t.size) (applied : c.applyTo? t = some t') : t' = t := by
  have empty : c.changes = [] := List.isEmpty_iff.mp none_made
  rw [ChangeSet.applyTo?, empty, fits, ChangeSet.applyFrom?] at applied
  by_cases some_bytes : 0 < t.size
  · obtain ⟨_, _, rfl⟩ := ChangeSet.gap?_eq applied some_bytes
    rw [Text.slice, Text.takeBytes_size, Text.dropBytes_zero]
  · rw [ChangeSet.gap?, if_neg some_bytes] at applied
    cases applied
    exact (Text.size_eq_zero_iff.mp (by omega)).symm

theorem Coherent.next (coherent : s.Coherent) {t : Transaction} (next : s.next? t = some s') :
    s'.Coherent := by
  by_cases fits : t.changes.size = s.doc.size
  · obtain ⟨applied, doc, tree, inside⟩ := next?_changed fits next
    have lineBreak : s'.doc.lineBreak = s.doc.lineBreak := by
      rw [doc]
      rfl
    refine ⟨by rw [lineBreak]; exact doc, ?_, inside⟩
    rw [tree]
    split
    · rename_i none_made
      rw [coherent.tree, applyTo?_empty none_made fits applied]
      rfl
    · rfl
  · rw [next?, if_pos fits] at next
    cases next
    exact coherent

theorem Reachable.coherent (reached : s.Reachable) : s.Coherent := by
  induction reached with
  | ofText t selection settings => exact coherent_ofText t selection settings
  | withSelection _ selection coherent => exact coherent.withSelection selection
  | withSettings _ settings _ => exact coherent_withSettings _ settings
  | next _ next coherent => exact coherent.next next

theorem survivors_of_byRange {t : Transaction} {edit : Range → Except Refusal RangeEdit}
    (made : Transaction.byRange s edit = .ok t) (next : s.next? t = some s') :
    (t.changes.survivors s.text).Sublist s'.text := by
  obtain ⟨changes, accepted⟩ := Transaction.byRange_ofChanges made
  exact ChangeSet.survivors_sublist accepted
    (next?_changed (ChangeSet.ofChanges_size accepted) next).1

theorem Coherent.lineAt (coherent : s.Coherent) (offset : Nat) :
    s.doc.lineAt offset = (Document.ofText s.text s.doc.lineBreak).lineAt offset :=
  congrArg (Document.lineAt · offset) coherent.doc

end EditState

end MarkdownEditing
