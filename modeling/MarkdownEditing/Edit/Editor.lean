import MarkdownEditing.Edit.Command

namespace MarkdownEditing

/-- What an edit did: the spans of inserted text, the main range afterwards, and the new version. -/
structure Patch where
  changed : List (Nat × Nat)
  selected : Nat × Nat
  version : Nat
  deriving DecidableEq, Repr

structure Editor where
  state : EditState
  version : Nat

namespace Editor

def ofState (s : EditState) : Editor := ⟨s, 0⟩

def setSelection (e : Editor) (selection : Selection) : Editor :=
  { e with state := e.state.withSelection selection }

/-- Take a transaction, or nothing if a change would cut a character. -/
def dispatch? (e : Editor) (t : Transaction) : Option (Editor × Patch) := do
  let state ← e.state.next? t
  let main := state.selection.mainRange
  return (⟨state, e.version + 1⟩, ⟨t.changes.changedSpans, (main.start, main.stop), e.version + 1⟩)

def run (e : Editor) (c : Command) : Except Refusal (Editor × Patch) := do
  let t ← c.compile e.state
  match e.dispatch? t with
  | some result => return result
  | none => throw .splitsCharacter

end Editor

end MarkdownEditing
