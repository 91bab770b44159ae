import MarkdownEditing.Edit.Editor
import MarkdownEditing.Settings.Save
import MarkdownEditing.Syntax.Recorder
import MarkdownEditing.Proofs.Syntax.Parsing
import MarkdownEditing.Proofs.Syntax.Containers
import MarkdownEditing.Proofs.Edit.Compile
import MarkdownEditing.Proofs.Edit.Commute
import MarkdownEditing.Proofs.Edit.Session
import MarkdownEditing.Proofs.Syntax.Appending
import MarkdownEditing.Proofs.Markup.Agreement
import MarkdownEditing.Proofs.Settings.Lines
import MarkdownEditing.Proofs.Settings.Described
import MarkdownEditing.Proofs.Settings.Saved
import MarkdownEditing.Proofs.Edit.Carried
import MarkdownEditing.Proofs.Markup.Numbers
import MarkdownEditing.Proofs.Markup.Items
import MarkdownEditing.Proofs.Markup.Carets
import MarkdownEditing.Proofs.Markup.Counting
import MarkdownEditing.Proofs.Markup.Counted
import MarkdownEditing.Proofs.Markup.Marks
import MarkdownEditing.Proofs.Markup.Recounted
import MarkdownEditing.Proofs.Edit.Canonical
import MarkdownEditing.Proofs.Edit.Conflicts
import MarkdownEditing.Proofs.Edit.Tracking
import MarkdownEditing.Proofs.Markup.Siblings
import MarkdownEditing.Proofs.Markup.NewItem
import MarkdownEditing.Proofs.Markup.Runs
import MarkdownEditing.Proofs.Markup.Local
import MarkdownEditing.Proofs.Markup.Landing
import MarkdownEditing.Proofs.Markup.Structure
import MarkdownEditing.Proofs.Toggle.Wrapped
import MarkdownEditing.Proofs.Toggle.Neutral
import MarkdownEditing.Proofs.Toggle.OnlyMarkers
import MarkdownEditing.Proofs.Toggle.Cycles
import MarkdownEditing.Proofs.Edit.Formatted
import MarkdownEditing.Proofs.Toggle.MainRange
import MarkdownEditing.Proofs.Toggle.Distances
import MarkdownEditing.Proofs.Toggle.LeadingMarks
import MarkdownEditing.Proofs.Markup.Worn
import MarkdownEditing.Proofs.Edit.Fallbacks
import MarkdownEditing.Proofs.Text.Addressing
import MarkdownEditing.Proofs.Markup.LanguageFence
import MarkdownEditing.Proofs.Text.Indentation
import MarkdownEditing.Proofs.Syntax.Grammar
import MarkdownEditing.Proofs.Syntax.LineByLine
import MarkdownEditing.Proofs.Markup.WalkBack
