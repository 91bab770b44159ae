import Mathlib.Algebra.Order.BigOperators.Group.List
import MarkdownEditing.Proofs.Edit.Canonical
import MarkdownEditing.Proofs.Edit.Interleave
import MarkdownEditing.Proofs.Markup.Blanked

namespace MarkdownEditing

namespace Text

variable {t : Text} {start stop : Nat}

def visible (t : Text) : Nat := t.countP (!isWhite ·)

theorem visible_append (t u : Text) : (t ++ u).visible = t.visible + u.visible :=
  List.countP_append

theorem visible_eq_zero (blank : t.isBlank = true) : t.visible = 0 := by
  rw [visible, List.countP_eq_zero]
  intro c member
  simp [List.all_eq_true.mp blank c member]

theorem visible_pos {c : Char} (member : c ∈ t) (shown : isWhite c = false) : 0 < t.visible :=
  List.countP_pos_iff.mpr ⟨c, member, by simp [shown]⟩

theorem slice_append_dropBytes (t : Text) (order : start ≤ stop) :
    t.slice start stop ++ t.dropBytes stop = t.dropBytes start := by
  induction t generalizing start stop with
  | nil => rfl
  | cons c t ih =>
    unfold slice
    by_cases long : c.utf8Size ≤ stop
    · by_cases before : c.utf8Size ≤ start
      · have rest := ih (Nat.sub_le_sub_right order c.utf8Size)
        simp only [takeBytes, dropBytes, long, before, ↓reduceIte]
        exact rest
      · simp only [takeBytes, dropBytes, long, before, ↓reduceIte, List.cons_append,
          takeBytes_append_dropBytes]
    · have before : ¬c.utf8Size ≤ start := by omega
      simp only [takeBytes, dropBytes, long, before, ↓reduceIte, List.nil_append]

theorem dropBytes_size (t : Text) : t.dropBytes t.size = [] := by
  have whole := dropBytes_left t []
  rwa [List.append_nil] at whole

end Text

namespace ChangeSet

variable {t u : Text} {changes : List Change} {set : ChangeSet} {pos : Nat}

theorem gap?_append_dropBytes {start stop : Nat} {kept : Text} (order : start ≤ stop)
    (found : gap? t start stop = some kept) : kept ++ t.dropBytes stop = t.dropBytes start := by
  by_cases some_bytes : start < stop
  · rw [(gap?_eq found some_bytes).2.2]
    exact t.slice_append_dropBytes order
  · have same : start = stop := by omega
    rw [gap?, if_neg some_bytes] at found
    cases found
    rw [same]
    rfl

/-- The visible characters that changes take away and put in make up the difference between the text
from `pos` on and the changed one. -/
theorem visible_applyFrom? (follows : Follows pos changes) (inside : ∀ c ∈ changes, c.stop ≤ t.size)
    (below : pos ≤ t.size) (applied : applyFrom? t t.size pos changes = some u) :
    u.visible + (changes.map fun c => (t.slice c.start c.stop).visible).sum =
      (t.dropBytes pos).visible + (changes.map fun c => c.insert.visible).sum := by
  induction changes generalizing pos u with
  | nil =>
    have kept := gap?_append_dropBytes below applied
    rw [Text.dropBytes_size, List.append_nil] at kept
    rw [kept]
    rfl
  | cons c rest ih =>
    obtain ⟨first, forward, later⟩ := follows
    obtain ⟨kept, changed, gap, applied', rfl⟩ := applyFrom?_cons applied
    have here := inside c List.mem_cons_self
    have tail := ih later (fun d member => inside d (List.mem_cons_of_mem c member)) here applied'
    have front := congrArg Text.visible (gap?_append_dropBytes first gap)
    have taken := congrArg Text.visible (t.slice_append_dropBytes forward)
    rw [Text.visible_append] at front taken
    simp only [List.map_cons, List.sum_cons, Text.visible_append]
    omega

theorem totalGrowth_neg (some_change : changes ≠ [])
    (deletes : ∀ c ∈ changes, c.start < c.stop ∧ c.insert = []) : totalGrowth changes < 0 := by
  induction changes with
  | nil => exact absurd rfl some_change
  | cons c rest ih =>
    obtain ⟨wide, nothing⟩ := deletes c List.mem_cons_self
    have growth : c.growth < 0 := by
      rw [Change.growth, nothing, Text.size_nil]
      omega
    cases rest with
    | nil =>
      rw [totalGrowth, totalGrowth]
      omega
    | cons d rest =>
      have later := ih (List.cons_ne_nil d rest) fun e member =>
        deletes e (List.mem_cons_of_mem c member)
      rw [totalGrowth]
      omega

end ChangeSet

/-- The change takes some of the text away and puts at most blanks in, and those only for something
visible. -/
structure Change.Wears (c : Change) (t : Text) : Prop where
  forward : c.start < c.stop
  blank : c.insert.isBlank = true
  visible : c.insert ≠ [] → 0 < (t.slice c.start c.stop).visible

/-- What is worn down: the visible characters first, then the bytes. -/
def Text.wear (t : Text) : Nat × Nat := (t.visible, t.size)

theorem ChangeSet.wear_lt {t u : Text} {changes : List Change} {set : ChangeSet}
    (made : ofChanges changes t.size = .ok set) (some_change : set.changes ≠ [])
    (wears : ∀ c ∈ set.changes, c.Wears t) (applied : set.applyTo? t = some u) :
    Prod.Lex (· < ·) (· < ·) u.wear t.wear := by
  have none_put : (set.changes.map fun c => c.insert.visible).sum = 0 := by
    apply List.sum_eq_zero
    intro n member
    obtain ⟨c, change, rfl⟩ := List.mem_map.mp member
    exact Text.visible_eq_zero (wears c change).blank
  have follows := ofChanges_follows made
  have bounds := fun c member => (ofChanges_bounds made c member).2
  have conserved := visible_applyFrom? follows bounds (Nat.zero_le _)
    (by rw [applyTo?, ofChanges_size made] at applied; exact applied)
  rw [none_put, Text.dropBytes_zero] at conserved
  by_cases shown : (set.changes.map fun c => (t.slice c.start c.stop).visible).sum = 0
  · -- nothing visible goes, so nothing is put in and the text becomes shorter
    have deletes : ∀ c ∈ set.changes, c.start < c.stop ∧ c.insert = [] := by
      intro c member
      have zero := List.sum_eq_zero_iff.mp shown _ (List.mem_map_of_mem member)
      refine ⟨(wears c member).forward, ?_⟩
      by_contra put_in
      have visible := (wears c member).visible put_in
      omega
    have shorter := totalGrowth_neg some_change deletes
    obtain ⟨size, growth⟩ := size_applyTo? made applied
    have set_size := ofChanges_size made
    have same : u.visible = t.visible := by omega
    rw [Text.wear, Text.wear, same]
    exact Prod.Lex.right _ (by omega)
  · exact Prod.Lex.left _ _ (by omega)

namespace Backspace

variable {s s' : EditState} {pos : Nat} {e : RangeEdit} {t : Transaction}

theorem Makes.wears (coherent : s.Coherent) (inside : pos ≤ s.doc.size) (makes : Makes s pos e) :
    ∃ c, e.changes = [c] ∧ c.Wears s.text := by
  cases makes with
  | takes low high => exact ⟨_, rfl, high, rfl, fun other => absurd rfl other⟩
  | @blanks f lead glyphs rest found item on column =>
    obtain ⟨insert, edit_eq, -, indent, -⟩ := blankMarker_eq coherent inside found item on
    obtain ⟨before, after, parts, lies, -⟩ := coherent.lies_lineAt inside
    have width := on.start_lt
    rw [edit_eq]
    refine ⟨_, rfl, ?_, ?_, fun _ => ?_⟩
    · dsimp only
      omega
    · exact List.all_eq_true.mpr fun c member => isWhite_of_isIndent c (indent c member)
    · obtain ⟨c, glyph, shown⟩ := on.visible
      have whole : s.text = (before ++ lead) ++ (glyphs ++ f.after) ++ (rest ++ after) := by
        rw [parts, on.text]
        simp only [List.append_assoc]
      have start : (s.doc.lineAt pos).start + f.start = (before ++ lead).size := by
        rw [lies.start, on.start, Text.size_append]
      have stop : (s.doc.lineAt pos).start + f.stop =
          (before ++ lead).size + (glyphs ++ f.after).size := by
        rw [lies.start, on.stop, Text.size_append, Text.size_append, Nat.add_assoc]
      dsimp only
      rw [start, stop, whole, Text.slice_middle]
      exact Text.visible_pos (List.mem_append_left _ glyph) shown

def Presses (s s' : EditState) : Prop := ∃ t, run s = .ok t ∧ s.next? t = some s'

theorem Presses.wear_lt (reached : s.Reachable) (presses : Presses s s') :
    Prod.Lex (· < ·) (· < ·) s'.text.wear s.text.wear := by
  have coherent := reached.coherent
  obtain ⟨t, made, next⟩ := presses
  have each : ∀ r ∈ s.selection.ranges, ∀ e, (edit s r).mapError Refusal.declined = .ok e →
      ∃ c, e.changes = [c] ∧ c.Wears s.text := fun r range e edited =>
    (edit_makes coherent (coherent.inside r range) (Refusal.ok_of_mapError edited)).wears coherent
      (coherent.inside r range).2
  have wears : ∀ c ∈ t.changes.changes, c.Wears s.text := by
    intro c member
    obtain ⟨⟨r, range, e, edited, inside⟩, -⟩ := (Transaction.mem_byRange made).mp member
    obtain ⟨d, only, wears⟩ := each r range e edited
    rw [only] at inside
    rw [List.mem_singleton.mp inside]
    exact wears
  have some_change : t.changes.changes ≠ [] := by
    obtain ⟨r, range⟩ := List.exists_mem_of_ne_nil _ reached.selection_sound.nonempty
    obtain ⟨e, edited⟩ := Transaction.byRange_each made range
    obtain ⟨c, only, wears⟩ := each r range e edited
    have effective : c.isNoop = false := by
      have wide := wears.forward
      simp only [Change.isNoop, Bool.and_eq_false_iff, beq_eq_false_iff_ne]
      omega
    apply List.ne_nil_of_mem
    exact (Transaction.mem_byRange made).mpr ⟨⟨r, range, e, edited, by simp [only]⟩, effective⟩
  obtain ⟨changes, accepted⟩ := Transaction.byRange_ofChanges made
  have applied := (EditState.next?_changed (ChangeSet.ofChanges_size accepted) next).1
  exact ChangeSet.wear_lt accepted some_change wears applied

theorem reachable_of_presses {states : Nat → EditState} (first : (states 0).Reachable)
    (presses : ∀ n, Presses (states n) (states (n + 1))) (n : Nat) : (states n).Reachable := by
  induction n with
  | zero => exact first
  | succ n reached =>
    obtain ⟨t, -, next⟩ := presses n
    exact reached.next next

/-- Each press that succeeds leaves fewer visible characters, or as many in fewer bytes, so Backspace
cannot be pressed over and over. -/
theorem presses_run_out :
    (∀ s s', s.Reachable → Presses s s' → Prod.Lex (· < ·) (· < ·)
      (s'.text.countP (!isWhite ·), s'.text.size) (s.text.countP (!isWhite ·), s.text.size)) ∧
    ∀ states : Nat → EditState, (states 0).Reachable →
      ∃ n, ¬Presses (states n) (states (n + 1)) := by
  constructor
  · exact fun s s' reached presses => presses.wear_lt reached
  · intro states first
    by_contra forever
    have presses : ∀ n, Presses (states n) (states (n + 1)) := by simpa using forever
    have reached := reachable_of_presses first presses
    obtain ⟨n, stays⟩ := WellFounded.not_rel_apply_succ (r := Prod.Lex (· < ·) (· < ·))
      fun n => (states n).text.wear
    exact stays ((presses n).wear_lt (reached n))

theorem markedItem_presses_run_out :
    (∃ s', Presses markedItem s' ∧ Prod.Lex (· < ·) (· < ·)
      (s'.text.countP (!isWhite ·), s'.text.size)
      (markedItem.text.countP (!isWhite ·), markedItem.text.size)) ∧
    ¬Presses markedItem markedItem := by
  have made : run markedItem =
      .ok ⟨⟨[⟨0, 2, [' ', ' ']⟩], 3⟩, some (Selection.caret 2)⟩ := by cbv
  have applied : (⟨[⟨0, 2, [' ', ' ']⟩], 3⟩ : ChangeSet).applyTo? markedItem.text =
      some [' ', ' ', 'a'] := by cbv
  have reached : markedItem.Reachable := .ofText _ _ _
  obtain ⟨s', next, -⟩ := EditState.exists_next? (t := ⟨⟨[⟨0, 2, [' ', ' ']⟩], 3⟩, _⟩) rfl applied
  have presses : Presses markedItem s' := ⟨_, made, next⟩
  obtain ⟨_, stays⟩ := presses_run_out.2 (fun _ => markedItem) reached
  exact ⟨⟨s', presses, presses_run_out.1 markedItem s' reached presses⟩, stays⟩

end Backspace

end MarkdownEditing
