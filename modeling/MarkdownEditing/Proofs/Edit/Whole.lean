import MarkdownEditing.Edit.Format
import MarkdownEditing.Proofs.Edit.Coherent
import MarkdownEditing.Proofs.Markup.Harmless

namespace MarkdownEditing

def Change.Whole (c : Change) (t : Text) : Prop :=
  t.isBoundary c.start = true ∧ t.isBoundary c.stop = true

instance (c : Change) (t : Text) : Decidable (c.Whole t) :=
  inferInstanceAs (Decidable (_ ∧ _))

theorem Change.Harmless.whole {c : Change} {t : Text} (harmless : c.Harmless t) : c.Whole t :=
  ⟨harmless.start, harmless.stop⟩

namespace Text

variable {t : Text} {start stop : Nat}

theorem isBoundary_min (first : t.isBoundary start = true) (second : t.isBoundary stop = true) :
    t.isBoundary (min start stop) = true := by
  rcases Nat.le_total start stop with order | order
  · rw [Nat.min_eq_left order]
    exact first
  · rw [Nat.min_eq_right order]
    exact second

theorem isBoundary_max (first : t.isBoundary start = true) (second : t.isBoundary stop = true) :
    t.isBoundary (max start stop) = true := by
  rcases Nat.le_total start stop with order | order
  · rw [Nat.max_eq_right order]
    exact second
  · rw [Nat.max_eq_left order]
    exact first

theorem isBoundary_of_slice_left (boundary : t.isBoundary stop = true)
    (full : start + (t.slice start stop).size = stop) : t.isBoundary start = true := by
  have parts := takeBytes_append_dropBytes (t.takeBytes stop) start
  have sizes := congrArg size parts
  rw [size_append, size_takeBytes_of_isBoundary boundary] at sizes
  rw [slice] at full
  have whole := takeBytes_append_dropBytes t stop
  rw [← parts, List.append_assoc] at whole
  exact isBoundary_iff.mpr ⟨_, _, whole.symm, by omega⟩

theorem isBoundary_of_slice_right (boundary : t.isBoundary start = true)
    (full : start + (t.slice start stop).size = stop) : t.isBoundary stop = true := by
  have parts := slice_of_isBoundary boundary (Nat.le.intro full)
  have sizes := congrArg size parts
  rw [size_append, size_takeBytes_of_isBoundary boundary, full] at sizes
  exact isBoundary_iff.mpr ⟨_, _, (takeBytes_append_dropBytes t stop).symm, sizes.symm⟩

end Text

namespace Line.Lies

variable {l : Line} {t before after : Text}

theorem isBoundary_add (lies : l.Lies before after) (parts : t = before ++ l.text ++ after)
    {a b : Text} (text : l.text = a ++ b) : t.isBoundary (l.start + a.size) = true := by
  rw [lies.start, ← Text.size_append, parts, text]
  simp only [List.append_assoc]
  rw [← List.append_assoc]
  exact Text.isBoundary_left _ _

theorem isBoundary_start (lies : l.Lies before after) (parts : t = before ++ l.text ++ after) :
    t.isBoundary l.start = true := by
  simpa using lies.isBoundary_add parts (List.nil_append l.text).symm

theorem isBoundary_stop (lies : l.Lies before after) (parts : t = before ++ l.text ++ after) :
    t.isBoundary l.stop = true := by
  rw [lies.stop, ← lies.start]
  exact lies.isBoundary_add parts (List.append_nil l.text).symm

end Line.Lies

namespace ChangeSet

variable {t : Text} {s : ChangeSet}

theorem gap?_isSome {start stop : Nat} (first : t.isBoundary start = true)
    (second : t.isBoundary stop = true) : ∃ kept, gap? t start stop = some kept := by
  unfold gap?
  split
  · exact ⟨_, by rw [Text.cut?, first, second]; rfl⟩
  · exact ⟨_, rfl⟩

theorem applyFrom?_isSome {changes : List Change} {stop pos : Nat}
    (whole : ∀ c ∈ changes, c.Whole t) (first : t.isBoundary pos = true)
    (last : t.isBoundary stop = true) : ∃ changed, applyFrom? t stop pos changes = some changed := by
  induction changes generalizing pos with
  | nil => exact gap?_isSome first last
  | cons c rest ih =>
    obtain ⟨c_start, c_stop⟩ := whole c List.mem_cons_self
    obtain ⟨kept, gap⟩ := gap?_isSome first c_start
    obtain ⟨changed, later⟩ := ih (fun d member => whole d (List.mem_cons_of_mem _ member)) c_stop
    exact ⟨kept ++ c.insert ++ changed, by simp [applyFrom?, gap, later]⟩

theorem applyTo?_isSome (whole : ∀ c ∈ s.changes, c.Whole t) (fits : s.size = t.size) :
    ∃ changed, s.applyTo? t = some changed := by
  rw [applyTo?, fits]
  exact applyFrom?_isSome whole (Text.isBoundary_zero t) (Text.isBoundary_size t)

end ChangeSet

def ChangeSet.Fits (s : ChangeSet) (size : Nat) : Prop :=
  s.size = size ∧ ∀ c ∈ s.changes, c.start ≤ c.stop ∧ c.stop ≤ size

theorem ChangeSet.fits_of_ofChanges {changes : List Change} {size : Nat} {s : ChangeSet}
    (made : ofChanges changes size = .ok s) : s.Fits size :=
  ⟨ofChanges_size made, ofChanges_bounds made⟩

theorem ChangeSet.fits_empty (size : Nat) : (ChangeSet.empty size).Fits size :=
  ⟨rfl, fun _ member => absurd member List.not_mem_nil⟩

namespace EditState

variable {s : EditState} {t : Transaction}

theorem next?_isSome (fits : t.changes.size = s.doc.size)
    (whole : ∀ c ∈ t.changes.changes, c.Whole s.text) : ∃ s', s.next? t = some s' := by
  obtain ⟨changed, applied⟩ := ChangeSet.applyTo?_isSome whole fits
  have changed_doc : s.doc.change? t.changes = some (Document.ofText changed s.doc.lineBreak) := by
    rw [Document.change?]
    exact congrArg (Option.map _) applied
  rw [next?, if_neg (fun other => other fits), changed_doc]
  exact ⟨_, rfl⟩

end EditState

end MarkdownEditing
