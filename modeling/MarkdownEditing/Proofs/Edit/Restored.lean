import MarkdownEditing.Proofs.Edit.Interleave

namespace MarkdownEditing

namespace Text.Interleaved

variable {pos pos' : Nat} {gaps gaps' pieces pieces' : List Text} {spans spans' : List (Nat × Nat)}
  {u v : Text}

theorem text_unique (first : Interleaved pos gaps pieces spans u)
    (second : Interleaved pos' gaps pieces spans' v) : u = v := by
  induction first generalizing pos' spans' v with
  | last =>
    cases second
    rfl
  | piece gap piece _ ih =>
    cases second with
    | piece _ _ later => rw [ih later]

theorem parts_unique (first : Interleaved pos gaps pieces spans u)
    (second : Interleaved pos gaps' pieces' spans u) : gaps = gaps' ∧ pieces = pieces' := by
  generalize same : u = w at second
  induction first generalizing gaps' pieces' w with
  | last =>
    cases second
    rw [same]
    exact ⟨rfl, rfl⟩
  | @piece pos gap piece gaps pieces spans u rest ih =>
    generalize here : (pos + gap.size, pos + gap.size + piece.size) = span at second
    generalize later : span :: spans = all at second
    cases second with
    | last => cases later
    | @piece _ gap' piece' _ _ spans' u' rest' =>
      obtain ⟨rfl, rfl⟩ := List.cons.inj later
      obtain ⟨starts, stops⟩ := Prod.mk.inj here
      obtain ⟨front, rfl⟩ := append_inj_of_size same (by
        rw [size_append, size_append]
        omega)
      obtain ⟨rfl, rfl⟩ := append_inj_of_size front (by omega)
      obtain ⟨rfl, rfl⟩ := ih u rfl rest'
      exact ⟨rfl, rfl⟩

theorem filter_eq {keep : Char → Bool} (first : Interleaved pos gaps pieces spans u)
    (second : Interleaved pos' gaps pieces' spans' v)
    (agree : pieces.map (List.filter keep) = pieces'.map (List.filter keep)) :
    u.filter keep = v.filter keep := by
  induction first generalizing pos' pieces' spans' v with
  | last =>
    cases second with
    | last => rfl
    | piece => cases agree
  | piece gap piece _ ih =>
    cases second with
    | last => cases agree
    | piece _ _ later =>
      obtain ⟨here, behind⟩ := List.cons.inj agree
      simp only [List.filter_append, here, ih later behind]

theorem isBoundary_spans (laid : Interleaved 0 gaps pieces spans u) :
    ∀ r ∈ spans, u.isBoundary r.1 = true ∧ u.isBoundary r.2 = true := by
  intro r member
  have cuts := laid.cut?_spans (a := []) rfl rfl
  obtain ⟨piece, _, cut⟩ := List.mem_map.mp (cuts ▸ List.mem_map_of_mem member)
  rw [cut?] at cut
  split at cut
  · rename_i both
    exact Bool.and_eq_true_iff.mp both
  · cases cut

end Text.Interleaved

namespace ChangeSet

open Text (Interleaved)

variable {t u : Text} {changes changes' : List Change} {set back : ChangeSet}

theorem interleaved_of_applied (made : ofChanges changes t.size = .ok set)
    (whole : ∀ c ∈ set.changes, c.Whole t) (applied : set.applyTo? t = some u) :
    ∃ gaps, Interleaved 0 gaps (set.changes.map fun c => t.slice c.start c.stop)
        (set.changes.map fun c => (c.start, c.stop)) t ∧
      Interleaved 0 gaps (set.changes.map Change.insert) set.changedSpans u := by
  obtain ⟨gaps, changed, direct, old, new⟩ := interleaved_of_whole (a := []) 0
    (List.nil_append t).symm Text.size_nil (ofChanges_follows made) whole
  rw [applyTo?, ofChanges_size made, direct] at applied
  cases applied
  exact ⟨gaps, old, new⟩

theorem applyTo?_back (made : ofChanges changes t.size = .ok set)
    (whole : ∀ c ∈ set.changes, c.Whole t) (applied : set.applyTo? t = some u)
    (made' : ofChanges changes' u.size = .ok back)
    (spans : back.changes.map (fun c => (c.start, c.stop)) = set.changedSpans)
    (pieces : back.changes.map Change.insert = set.changes.map fun c => t.slice c.start c.stop) :
    back.applyTo? u = some t := by
  obtain ⟨gaps, old, new⟩ := interleaved_of_applied made whole applied
  have whole' : ∀ c ∈ back.changes, c.Whole u := by
    intro c member
    apply new.isBoundary_spans (c.start, c.stop)
    rw [← spans]
    exact List.mem_map_of_mem member
  obtain ⟨v, restored⟩ := applyTo?_isSome whole' (ofChanges_size made')
  obtain ⟨gaps', between, after⟩ := interleaved_of_applied made' whole' restored
  rw [spans] at between
  rw [(between.parts_unique new).1, pieces] at after
  rw [restored, after.text_unique old]

theorem filter_applyTo? {keep : Char → Bool} (made : ofChanges changes t.size = .ok set)
    (whole : ∀ c ∈ set.changes, c.Whole t) (applied : set.applyTo? t = some u)
    (neutral : ∀ c ∈ set.changes, c.insert.filter keep = (t.slice c.start c.stop).filter keep) :
    u.filter keep = t.filter keep := by
  obtain ⟨_, old, new⟩ := interleaved_of_applied made whole applied
  apply new.filter_eq old
  rw [List.map_map, List.map_map]
  exact List.map_congr_left neutral

end ChangeSet

end MarkdownEditing
