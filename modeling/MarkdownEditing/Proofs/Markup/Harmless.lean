import MarkdownEditing.Markup.Renumber
import MarkdownEditing.Proofs.Edit.Coherent
import MarkdownEditing.Proofs.Syntax.Led
import MarkdownEditing.Proofs.Text.Lines

namespace MarkdownEditing

structure Change.Harmless (c : Change) (t : Text) : Prop where
  start : t.isBoundary c.start = true
  stop : t.isBoundary c.stop = true
  erasable : (t.touched c.start c.stop).all isErasable = true

theorem Change.Harmless.of_parts {c : Change} {t a m b : Text} (parts : t = a ++ m ++ b)
    (start : c.start = a.size) (stop : c.stop = a.size + m.size)
    (erasable : ∀ d ∈ m, isErasable d = true) : c.Harmless t where
  start := by rw [parts, start, List.append_assoc]; exact Text.isBoundary_left _ _
  stop := by rw [parts, stop, ← Text.size_append]; exact Text.isBoundary_left _ _
  erasable := Text.touched_all parts (Nat.le_of_eq start.symm) (Nat.le_of_eq stop) erasable

namespace Line

variable {l : Line} {t before after : Text} {start stop : Nat} {c : Char}

theorem Lies.harmless_of_erasable (lies : l.Lies before after)
    (parts : t = before ++ l.text ++ after) {a m b : Text} (text : l.text = a ++ (m ++ b))
    (erasable : ∀ d ∈ m, isErasable d = true) (insert : Text) :
    (⟨l.start + a.size, l.start + (a.size + m.size), insert⟩ : Change).Harmless t := by
  have whole : t = (before ++ a) ++ m ++ (b ++ after) := by
    rw [parts, text]
    simp only [List.append_assoc]
  apply Change.Harmless.of_parts whole
  · rw [lies.start, Text.size_append]
  · rw [lies.start, Text.size_append, Nat.add_assoc]
  · exact erasable

theorem Lies.at_of_touched (lies : l.Lies before after) (parts : t = before ++ l.text ++ after)
    {a b : Text} (here : t = a ++ c :: b) (low : l.start < a.size + c.utf8Size)
    (high : l.Reaches after stop) (begins : a.size < stop) :
    (∃ u v, l.text = u ++ c :: v ∧ a.size = l.start + u.size) ∨ c = '\r' := by
  rw [lies.start] at low
  rw [parts, List.append_assoc] at here
  have behind : ∃ u, a = before ++ u ∧ l.text ++ after = u ++ c :: b := by
    rcases List.append_eq_append_iff.mp here with found | ⟨u, same, rest⟩
    · exact found
    · cases u with
      | nil => exact ⟨[], by rw [same, List.append_nil, List.append_nil], rest.symm⟩
      | cons d u =>
        obtain ⟨rfl, _⟩ := List.cons.inj rest
        rw [same, Text.size_append, Text.size_cons] at low
        omega
  obtain ⟨u, rfl, rest⟩ := behind
  have in_break : ∀ x, u = l.text ++ x → after = x ++ c :: b → c = '\r' := by
    rintro x rfl later
    rw [Text.size_append, Text.size_append] at begins
    rcases high.2 with on_line | ⟨⟨beyond, break_text⟩, stop_eq⟩
    · rw [lies.stop] at on_line
      omega
    · rw [lies.stop] at stop_eq
      have none_between : x = [] := Text.size_eq_zero_iff.mp (by omega)
      rw [none_between, break_text] at later
      exact (List.cons.inj later).1.symm
  rcases List.append_eq_append_iff.mp rest with ⟨x, same, later⟩ | ⟨v, same, later⟩
  · exact Or.inr (in_break x same later)
  · cases v with
    | nil => exact Or.inr (in_break [] (by rw [same]; simp) later.symm)
    | cons d v =>
      obtain ⟨rfl, _⟩ := List.cons.inj later
      exact Or.inl ⟨u, v, same, by rw [lies.start, Text.size_append]⟩

theorem Lies.mem_of_touched (lies : l.Lies before after) (parts : t = before ++ l.text ++ after)
    (low : l.start ≤ start) (high : l.Reaches after stop) (member : c ∈ t.touched start stop) :
    c ∈ l.text ∨ c = '\r' := by
  obtain ⟨a, b, here, _, ends, begins⟩ := Text.mem_touched.mp member
  rcases lies.at_of_touched parts here (by omega) high begins with ⟨u, v, text, _⟩ | same
  · rw [text]
    exact Or.inl (by simp)
  · exact Or.inr same

theorem Lies.touched_erasable (lies : l.Lies before after) (parts : t = before ++ l.text ++ after)
    (low : l.start ≤ start) (high : l.Reaches after stop)
    (erasable : ∀ d ∈ l.text, isErasable d = true) :
    (t.touched start stop).all isErasable = true := by
  apply List.all_eq_true.mpr
  intro c member
  rcases lies.mem_of_touched parts low high member with inside | rfl
  · exact erasable c inside
  · decide

end Line

namespace EditState

variable {s : EditState} {pos : Nat}

theorem Coherent.lies_lineAt (coherent : s.Coherent) (inside : pos ≤ s.doc.size) :
    ∃ before after, s.text = before ++ (s.doc.lineAt pos).text ++ after ∧
      (s.doc.lineAt pos).Lies before after ∧ (s.doc.lineAt pos).Reaches after pos ∧
      ∀ other, (s.doc.lineAt pos).start ≤ other → other ≤ pos →
        s.doc.lineAt other = s.doc.lineAt pos := by
  obtain ⟨before, after, parts, lies, reaches, _, stable⟩ :=
    @Document.lineAt_lies s.text s.doc.lineBreak _ inside
  rw [← coherent.lineAt] at parts lies reaches stable
  refine ⟨before, after, parts, lies, reaches, ?_⟩
  intro other low high
  rw [coherent.lineAt, stable other low high]

end EditState

namespace ItemNumber

theorem read?_parts {t : Text} {n : ItemNumber} (found : read? t = some n) :
    ∃ indent digits rest : Text, t = indent ++ digits ++ rest ∧ n.indent = indent.size ∧
      n.digitsStop = indent.size + digits.size ∧ ∀ d ∈ digits, Char.isDigit d = true := by
  have first := List.takeWhile_append_dropWhile (p := isWhite) (l := t)
  have second := List.takeWhile_append_dropWhile (p := isDigit) (l := t.dropWhile isWhite)
  unfold read? at found
  dsimp only at found
  split at found
  · split at found
    · obtain ⟨value, counted, rfl⟩ := Option.map_eq_some_iff.mp found
      refine ⟨_, _, (t.dropWhile isWhite).dropWhile isDigit, ?_, rfl, rfl, ?_⟩
      · rw [List.append_assoc, second, first]
      · unfold Text.toNat? at counted
        split at counted
        · rename_i digits
          exact List.all_eq_true.mp digits.2
        · cases counted
    · cases found
  · cases found

end ItemNumber

section Renumber

variable {t : Text} {lineBreak : LineBreak} {item : Place} {c : Change} {offset : Int}

theorem mem_renumberFrom {d : Document} {previous : Nat} {items : List Place}
    (member : c ∈ renumberFrom d offset previous items) :
    ∃ item ∈ items, ∃ n, ItemNumber.ofItem? d item.start = some n ∧
      c = ⟨item.start + n.indent, item.start + n.digitsStop,
        Text.ofNat ((n.value : Int) + 1 + offset).toNat⟩ := by
  fun_induction renumberFrom d offset previous items with
  | case1 => cases member
  | case2 => cases member
  | case3 previous item items n found counted ih =>
    rcases List.mem_cons.mp member with rfl | member
    · have next : (previous : Int) + 2 + offset = n.value + 1 + offset := by omega
      exact ⟨item, List.mem_cons_self, n, found, by rw [next]⟩
    · obtain ⟨other, inside, rest⟩ := ih member
      exact ⟨other, List.mem_cons_of_mem _ inside, rest⟩
  | case4 => cases member

theorem renumber_harmless (inside : item.In (Tree.ofText t))
    (member : c ∈ renumber item (Document.ofText t lineBreak) offset) : c.Harmless t := by
  rw [renumber] at member
  split at member
  · cases member
  · obtain ⟨other, following, n, found, rfl⟩ := mem_renumberFrom member
    have other_inside := inside.following (List.mem_filter.mp following).1
    have boundary := other_inside.isBoundary_start
    rw [Tree.text_ofText] at boundary
    obtain ⟨a, b, rfl, size⟩ := Text.isBoundary_iff.mp boundary
    have window : Document.slice (Document.ofText (a ++ b) lineBreak) other.start
        (other.start + ItemNumber.window) = b.takeBytes ItemNumber.window := by
      rw [Document.slice, ← size]
      change Text.slice (a ++ b) _ _ = _
      rw [Text.slice, Text.takeBytes_append, Text.dropBytes_left]
    rw [ItemNumber.ofItem?, window] at found
    obtain ⟨indent, digits, rest, shown, indent_size, digits_stop, all⟩ :=
      ItemNumber.read?_parts found
    have parts := Text.takeBytes_append_dropBytes b ItemNumber.window
    rw [shown] at parts
    have whole : a ++ b = (a ++ indent) ++ digits ++ (rest ++ b.dropBytes ItemNumber.window) := by
      generalize b.dropBytes ItemNumber.window = later at parts ⊢
      rw [← parts]
      simp only [List.append_assoc]
    apply Change.Harmless.of_parts whole
    · rw [indent_size, ← size, Text.size_append]
    · rw [digits_stop, ← size, Text.size_append, Nat.add_assoc]
    · intro d inside_digits
      exact isErasable_of_isDigit (all d inside_digits)

end Renumber

end MarkdownEditing
