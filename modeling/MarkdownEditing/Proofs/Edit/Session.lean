import Mathlib
import MarkdownEditing.Edit.Editor
import MarkdownEditing.Proofs.Edit.Whole

namespace MarkdownEditing

namespace Range

variable {last r : Range}

theorem start_le_stop (r : Range) : r.start ≤ r.stop := by
  rw [start, stop]
  omega

theorem start_merge (last r : Range) : (last.merge r).start = last.start := by
  have order := last.start_le_stop
  rw [merge]
  show min last.start (max last.stop r.stop) = last.start
  omega

theorem stop_le_of_not_joins (apart : ¬last.joins r = true) : last.stop ≤ r.start := by
  simp only [joins, Bool.or_eq_true, decide_eq_true_eq, not_or] at apart
  omega

end Range

namespace Selection

/-- A selection of a text of `size` bytes: at least one range, in order and without overlap, inside
the text, and a main one among them. -/
structure Sound (s : Selection) (size : Nat) : Prop where
  nonempty : s.ranges ≠ []
  apart : s.ranges.Pairwise fun a b => a.stop ≤ b.start
  inside : ∀ r ∈ s.ranges, r.Inside size
  main : s.main < s.ranges.length

variable {chosen : Range} {merged ranges : List Range} {main size : Nat}

theorem apart_mergeInto (apart : merged.Pairwise fun later earlier => earlier.stop ≤ later.start) :
    (mergeInto chosen merged main ranges).ranges.Pairwise fun a b => a.stop ≤ b.start := by
  induction ranges generalizing merged main with
  | nil => exact List.pairwise_reverse.mpr apart
  | cons r rest ih =>
    cases merged with
    | nil => exact ih (List.pairwise_singleton _ r)
    | cons last earlier =>
      apply ih
      have behind : ∀ first ∈ earlier, first.stop ≤ last.start := fun first member =>
        List.rel_of_pairwise_cons apart member
      dsimp only
      by_cases joined : last.joins r = true
      · rw [if_pos joined]
        refine List.Pairwise.cons ?_ apart.of_cons
        intro first member
        rw [Range.start_merge]
        exact behind first member
      · rw [if_neg joined]
        refine List.Pairwise.cons ?_ apart
        intro first member
        have after := Range.stop_le_of_not_joins joined
        rcases List.mem_cons.mp member with rfl | member
        · exact after
        · have before := behind first member
          have order := last.start_le_stop
          omega

theorem main_mergeInto (valid : main < merged.length ∨ (main = 0 ∧ ranges ≠ [])) :
    (mergeInto chosen merged main ranges).main <
      (mergeInto chosen merged main ranges).ranges.length := by
  induction ranges generalizing merged main with
  | nil =>
    rcases valid with below | ⟨_, empty⟩
    · rw [mergeInto, List.length_reverse]
      exact below
    · exact absurd rfl empty
  | cons r rest ih =>
    cases merged with
    | nil =>
      apply ih
      left
      have first : main = 0 := by
        rcases valid with below | ⟨first, _⟩
        · cases below
        · exact first
      dsimp only [List.length_singleton]
      split <;> omega
    | cons last earlier =>
      apply ih
      left
      have below : main < earlier.length + 1 := by
        rcases valid with below | ⟨first, _⟩
        · exact below
        · omega
      dsimp only
      by_cases joined : last.joins r = true
      · rw [if_pos joined, List.length_cons]
        split <;> omega
      · rw [if_neg joined, List.length_cons, List.length_cons]
        split <;> omega

theorem sound_ofRanges {ranges : List Range} (main : Nat) (inside : ∀ r ∈ ranges, r.Inside size) :
    (ofRanges ranges main).Sound size := by
  have valid : (ofRanges ranges main).main < (ofRanges ranges main).ranges.length := by
    unfold ofRanges
    split
    · decide
    · rename_i chosen found
      apply main_mergeInto
      right
      refine ⟨rfl, ?_⟩
      intro empty
      have length : (ranges.mergeSort Range.precedes).length = ranges.length :=
        List.length_mergeSort ranges
      rw [empty] at length
      rw [List.length_eq_zero_iff.mp length.symm] at found
      cases found
  refine ⟨?_, ?_, inside_ofRanges main inside, valid⟩
  · intro empty
    rw [empty] at valid
    cases valid
  · unfold ofRanges
    split
    · exact List.pairwise_singleton _ _
    · exact apart_mergeInto List.Pairwise.nil

theorem sound_clamp (s : Selection) (size : Nat) : (s.clamp size).Sound size := by
  apply sound_ofRanges
  intro r member
  obtain ⟨old, _, rfl⟩ := List.mem_map.mp member
  exact old.inside_clamp size

end Selection

namespace Editor

inductive Operation
  | select (selection : Selection)
  | run (command : Command)
  | dispatch (t : Transaction)

/-- One operation, with the patch it gives if it edits. There is no result when an edit would cut a
character. -/
def perform? (e : Editor) : Operation → Option (Editor × Option Patch)
  | .select selection => some (e.setSelection selection, none)
  | .run command =>
    match e.run command with
    | .ok (edited, patch) => some (edited, some patch)
    | .error (.declined _) => some (e, none)
    | .error .splitsCharacter => none
  | .dispatch t => (e.dispatch? t).map fun (edited, patch) => (edited, some patch)

def session? (e : Editor) : List Operation → Option (Editor × List Patch)
  | [] => some (e, [])
  | operation :: rest => do
    let (next, patch) ← e.perform? operation
    let (last, patches) ← next.session? rest
    return (last, patch.toList ++ patches)

/-- What every operation keeps to: state and selection fit the text, under the given settings. -/
structure InStep (e : Editor) (settings : EditorSettings) : Prop where
  coherent : e.state.Coherent
  selection : e.state.selection.Sound e.state.doc.size
  lineBreak : e.state.doc.lineBreak = e.state.settings.lineBreak
  settings : e.state.settings = settings

variable {e edited : Editor} {settings : EditorSettings} {t : Transaction} {patch : Patch}

theorem dispatch?_next (done : e.dispatch? t = some (edited, patch)) :
    e.state.next? t = some edited.state ∧ edited.version = e.version + 1 := by
  cases next : e.state.next? t with
  | none => simp [dispatch?, next] at done
  | some state =>
    simp only [dispatch?, next, Option.bind_eq_bind, Option.bind_some, pure, Option.some.injEq,
      Prod.mk.injEq] at done
    obtain ⟨rfl, _⟩ := done
    exact ⟨rfl, rfl⟩

theorem run_dispatch? {c : Command} (done : e.run c = .ok (edited, patch)) :
    ∃ t, c.compile e.state = .ok t ∧ e.dispatch? t = some (edited, patch) := by
  cases made : c.compile e.state with
  | error why => simp [run, made, bind, Except.bind] at done
  | ok t =>
    simp only [run, made, bind, Except.bind] at done
    split at done
    · rename_i result dispatched
      cases done
      exact ⟨t, rfl, dispatched⟩
    · cases done

theorem InStep.sound_next (inStep : e.InStep settings) {s : EditState}
    (next : e.state.next? t = some s) :
    s.Coherent ∧ s.selection.Sound s.doc.size ∧ s.doc.lineBreak = s.settings.lineBreak ∧
      s.settings = settings := by
  refine ⟨inStep.coherent.next next, ?_⟩
  by_cases fits : t.changes.size = e.state.doc.size
  · rw [EditState.next?, if_neg (fun other => other fits)] at next
    cases changed : e.state.doc.change? t.changes with
    | none => simp [changed] at next
    | some doc =>
      obtain ⟨text, _, rfl⟩ := Option.map_eq_some_iff.mp changed
      simp only [changed, Option.bind_eq_bind, Option.bind_some, pure, Option.some.injEq] at next
      subst next
      exact ⟨Selection.sound_clamp _ _, inStep.lineBreak, inStep.settings⟩
  · rw [EditState.next?, if_pos fits] at next
    cases next
    exact ⟨inStep.selection, inStep.lineBreak, inStep.settings⟩

theorem InStep.dispatch? (inStep : e.InStep settings)
    (done : e.dispatch? t = some (edited, patch)) :
    edited.InStep settings ∧ edited.version = e.version + 1 := by
  obtain ⟨next, version⟩ := dispatch?_next done
  obtain ⟨coherent, selection, lineBreak, same⟩ := inStep.sound_next next
  exact ⟨⟨coherent, selection, lineBreak, same⟩, version⟩

theorem perform?_run {c : Command} {given : Option Patch}
    (done : e.perform? (.run c) = some (edited, given)) :
    (given = none ∧ edited = e) ∨
      ∃ t patch, given = some patch ∧ e.dispatch? t = some (edited, patch) := by
  simp only [perform?] at done
  split at done
  · rename_i result patch ran
    cases done
    obtain ⟨t, _, dispatched⟩ := run_dispatch? ran
    exact Or.inr ⟨t, patch, rfl, dispatched⟩
  · cases done
    exact Or.inl ⟨rfl, rfl⟩
  · cases done

theorem InStep.perform? (inStep : e.InStep settings) {operation : Operation} {given : Option Patch}
    (done : e.perform? operation = some (edited, given)) :
    edited.InStep settings ∧ edited.version = e.version + given.toList.length := by
  cases operation with
  | select selection =>
    cases done
    exact ⟨⟨inStep.coherent.withSelection selection, selection.sound_clamp _, inStep.lineBreak,
      inStep.settings⟩, rfl⟩
  | run c =>
    rcases perform?_run done with ⟨rfl, rfl⟩ | ⟨t, patch, rfl, dispatched⟩
    · exact ⟨inStep, rfl⟩
    · exact inStep.dispatch? dispatched
  | dispatch t =>
    obtain ⟨⟨state, patch⟩, dispatched, same⟩ := Option.map_eq_some_iff.mp done
    cases same
    exact inStep.dispatch? dispatched

theorem InStep.session? (inStep : e.InStep settings) {operations : List Operation}
    {patches : List Patch} (done : e.session? operations = some (edited, patches)) :
    edited.InStep settings ∧ edited.version = e.version + patches.length := by
  induction operations generalizing e patches with
  | nil =>
    cases done
    exact ⟨inStep, rfl⟩
  | cons operation rest ih =>
    cases first : e.perform? operation with
    | none => simp [Editor.session?, first] at done
    | some result =>
      obtain ⟨next, given⟩ := result
      cases later : next.session? rest with
      | none => simp [Editor.session?, first, later] at done
      | some result =>
        obtain ⟨last, more⟩ := result
        simp only [Editor.session?, first, later, Option.bind_eq_bind, Option.bind_some, pure,
          Option.some.injEq, Prod.mk.injEq] at done
        obtain ⟨rfl, rfl⟩ := done
        obtain ⟨middle, version⟩ := inStep.perform? first
        obtain ⟨final, version'⟩ := ih middle later
        rw [List.length_append]
        exact ⟨final, by omega⟩

theorem inStep_ofText (t : Text) (selection : Selection) (settings : EditorSettings) :
    (ofState (EditState.ofText t selection settings)).InStep settings :=
  ⟨EditState.coherent_ofText t selection settings, selection.sound_clamp _, rfl, rfl⟩

/-- After any session the editor's tree and lines are those of its text, its selection is sound, the
line break is that of the settings and the version counts the patches. From there a command that gives
no patch changes nothing. -/
theorem session_in_step (text : Text) (selection : Selection) (settings : EditorSettings)
    {operations : List Operation} {patches : List Patch}
    (done : (ofState (EditState.ofText text selection settings)).session? operations =
      some (edited, patches)) :
    edited.state.tree = Tree.ofText edited.state.text ∧
      edited.state.doc.lines = Line.ofText edited.state.text ∧
      edited.state.selection.Sound edited.state.doc.size ∧
      edited.state.doc.lineBreak = edited.state.settings.lineBreak ∧
      edited.state.settings = settings ∧
      edited.version = patches.length ∧
      ∀ (c : Command) (after : Editor), edited.perform? (.run c) = some (after, none) →
        after = edited := by
  obtain ⟨inStep, version⟩ := (inStep_ofText text selection settings).session? done
  have lines := congrArg Document.lines inStep.coherent.doc
  refine ⟨inStep.coherent.tree, lines, inStep.selection, inStep.lineBreak, inStep.settings, ?_, ?_⟩
  · rw [version]
    exact Nat.zero_add _
  · intro c after declined
    rcases perform?_run declined with ⟨_, same⟩ | ⟨_, _, given, _⟩
    · exact same
    · cases given

def listSession : List Operation :=
  [.run .enter, .dispatch ⟨.empty 3, none⟩, .select ⟨[⟨9, 1⟩, ⟨2, 2⟩], 1⟩, .run .enter]

theorem listSession_in_step : ∃ edited patches,
    (ofState (EditState.ofText ['-', ' ', 'a'] (Selection.caret 3) {})).session? listSession =
        some (edited, patches) ∧
      edited.state.text = ['-', ' ', 'a', '\n', '-', ' '] ∧
      edited.state.selection = ⟨[⟨1, 6⟩], 0⟩ ∧ edited.version = 2 ∧
      edited.state.tree = Tree.ofText edited.state.text := by
  have shown : ((ofState (EditState.ofText ['-', ' ', 'a'] (Selection.caret 3) {})).session?
      listSession).map (fun result =>
        (result.1.state.text, result.1.state.selection, result.2.length)) =
      some (['-', ' ', 'a', '\n', '-', ' '], ⟨[⟨1, 6⟩], 0⟩, 2) := by cbv
  obtain ⟨⟨edited, patches⟩, done, parts⟩ := Option.map_eq_some_iff.mp shown
  simp only [Prod.mk.injEq] at parts
  obtain ⟨tree, _, _, _, _, version, _⟩ := session_in_step _ _ _ done
  exact ⟨edited, patches, done, parts.1, parts.2.1, version.trans parts.2.2, tree⟩

end Editor

end MarkdownEditing
