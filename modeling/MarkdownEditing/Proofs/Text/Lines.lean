import MarkdownEditing.Proofs.Text.Cut
import MarkdownEditing.Document

namespace MarkdownEditing

namespace Line

theorem split_ne_nil (t : Text) : split t ≠ [] := by
  cases t with
  | nil => simp [split]
  | cons c t =>
    simp only [split]
    split
    · simp
    · split <;> simp

theorem join_split (t : Text) : Text.join ['\n'] (split t) = t := by
  induction t with
  | nil => rfl
  | cons c t ih =>
    have some_piece := split_ne_nil t
    simp only [split]
    cases pieces : split t with
    | nil => exact absurd pieces some_piece
    | cons piece rest =>
      rw [pieces] at ih
      split
      · rename_i feed
        subst feed
        simp only [Text.join, List.intersperse_cons_cons, List.flatten_cons] at ih ⊢
        rw [ih]
        rfl
      · cases rest with
        | nil => simpa [Text.join] using ih
        | cons next rest =>
          simp only [Text.join, List.intersperse_cons_cons, List.flatten_cons] at ih ⊢
          rw [← ih, List.cons_append]

theorem not_mem_split {t piece : Text} (member : piece ∈ split t) : '\n' ∉ piece := by
  induction t generalizing piece with
  | nil =>
    have empty : piece = [] := by simpa [split] using member
    simp [empty]
  | cons c t ih =>
    simp only [split] at member
    split at member
    · rcases List.mem_cons.mp member with rfl | member
      · simp
      · exact ih member
    · rename_i other
      cases pieces : split t with
      | nil => exact absurd pieces (split_ne_nil t)
      | cons first rest =>
        rw [pieces] at member ih
        rcases List.mem_cons.mp member with rfl | member
        · have clean := ih List.mem_cons_self
          simp only [List.mem_cons, not_or]
          exact ⟨fun same => other same.symm, clean⟩
        · exact ih (List.mem_cons_of_mem _ member)

/-- A line stands between `before`, the lines above it with their breaks, and `after`, which begins
with its own break unless it is the last line. -/
structure Lies (l : Line) (before after : Text) : Prop where
  start : l.start = before.size
  stop : l.stop = before.size + l.text.size
  opens : before = [] ∨ before.getLast? = some '\n'
  single : '\n' ∉ l.text
  closes : after = [] ∨ (∃ rest, after = '\n' :: rest ∧ l.text.getLast? ≠ some '\r') ∨
    ∃ rest, after = '\r' :: '\n' :: rest

/-- An offset is on a line up to the end of the line's text, or inside a break of two characters. -/
def Reaches (l : Line) (after : Text) (offset : Nat) : Prop :=
  l.start ≤ offset ∧
    (offset ≤ l.stop ∨ (∃ rest, after = '\r' :: '\n' :: rest) ∧ offset = l.stop + 1)

variable {l : Line} {t before after : Text}

theorem Lies.lastLine (lies : l.Lies before after) {u : Text} (clean : '\n' ∉ u) :
    (before ++ u).lastLine = u := by
  rw [Text.lastLine_append before clean, Text.lastLine_of_ends lies.opens, List.nil_append]

theorem Lies.cut_cases (lies : l.Lies before after) {a b : Text}
    (parts : before ++ l.text ++ after = a ++ b) (reaches : l.Reaches after a.size) :
    (∃ u v, a = before ++ u ∧ l.text = u ++ v ∧ b = v ++ after) ∨
      ∃ rest, a = before ++ l.text ++ ['\r'] ∧ b = '\n' :: rest := by
  obtain ⟨low, high⟩ := reaches
  rw [lies.start] at low
  rw [lies.stop] at high
  rw [List.append_assoc] at parts
  rcases List.append_eq_append_iff.mp parts with ⟨u, rfl, rest⟩ | ⟨w, rfl, rest⟩
  · rcases List.append_eq_append_iff.mp rest with ⟨x, rfl, rest'⟩ | ⟨v, same, rest'⟩
    · rcases high with inText | ⟨⟨beyond, break_text⟩, inBreak⟩
      · have none_left : x = [] := by
          rw [Text.size_append, Text.size_append] at inText
          exact Text.size_eq_zero_iff.mp (by omega)
        subst none_left
        exact Or.inl ⟨l.text, [], by simp, by simp, by simpa using rest'.symm⟩
      · rw [break_text] at rest'
        rw [Text.size_append, Text.size_append] at inBreak
        have one : Text.size x = 1 := by omega
        cases x with
        | nil => simp at one
        | cons c x =>
          obtain ⟨rfl, rest''⟩ := List.cons.inj rest'
          have no_more : x = [] := by
            rw [Text.size_cons, show '\r'.utf8Size = 1 from rfl] at one
            exact Text.size_eq_zero_iff.mp (by omega)
          subst no_more
          exact Or.inr ⟨beyond, by simp, by simpa using rest''.symm⟩
    · exact Or.inl ⟨u, v, rfl, same, rest'⟩
  · have none_left : w = [] := by
      rw [Text.size_append] at low
      exact Text.size_eq_zero_iff.mp (by omega)
    subst none_left
    exact Or.inl ⟨[], l.text, by simp, by simp, by simpa using rest⟩

theorem dropReturn_break (piece rest : Text) :
    ∃ after, piece ++ '\n' :: rest = dropReturn piece ++ after ∧
      ((after = '\n' :: rest ∧ (dropReturn piece).getLast? ≠ some '\r' ∧
          piece.size = (dropReturn piece).size) ∨
        (after = '\r' :: '\n' :: rest ∧ piece.size = (dropReturn piece).size + 1)) := by
  unfold dropReturn
  split
  · rename_i ends
    obtain ⟨start, rfl⟩ := List.getLast?_eq_some_iff.mp ends
    refine ⟨'\r' :: '\n' :: rest, by simp, Or.inr ⟨rfl, ?_⟩⟩
    simp [Text.size_append, show '\r'.utf8Size = 1 from rfl]
  · rename_i ends
    exact ⟨'\n' :: rest, rfl, Or.inl ⟨rfl, ends, rfl⟩⟩

theorem join_cons_cons (piece next : Text) (rest : List Text) :
    Text.join ['\n'] (piece :: next :: rest) = piece ++ '\n' :: Text.join ['\n'] (next :: rest) := by
  simp [Text.join]

theorem mem_dropReturn {piece : Text} {c : Char} (member : c ∈ dropReturn piece) : c ∈ piece := by
  unfold dropReturn at member
  split at member
  · exact (List.dropLast_sublist piece).mem member
  · exact member

theorem head_lies (number : Nat) {before piece : Text} (next : Text) (rest : List Text)
    (opens : before = [] ∨ before.getLast? = some '\n') (clean : '\n' ∉ piece) :
    ∃ after, before ++ Text.join ['\n'] (piece :: next :: rest) =
        before ++ dropReturn piece ++ after ∧
      Lies ⟨number, before.size, before.size + (dropReturn piece).size, dropReturn piece⟩
        before after ∧
      ∀ offset, before.size ≤ offset → offset ≤ before.size + piece.size →
        Reaches ⟨number, before.size, before.size + (dropReturn piece).size, dropReturn piece⟩
          after offset := by
  obtain ⟨after, parts, ends⟩ := dropReturn_break piece (Text.join ['\n'] (next :: rest))
  have joined : before ++ Text.join ['\n'] (piece :: next :: rest) =
      before ++ dropReturn piece ++ after := by
    rw [join_cons_cons, parts, List.append_assoc]
  have single : '\n' ∉ dropReturn piece := fun member => clean (mem_dropReturn member)
  rcases ends with ⟨same, keeps, size⟩ | ⟨same, size⟩
  · refine ⟨after, joined, ⟨rfl, rfl, opens, single, Or.inr (Or.inl ⟨_, same, keeps⟩)⟩, ?_⟩
    intro offset low high
    exact ⟨low, Or.inl (by simpa only [← size] using high)⟩
  · refine ⟨after, joined, ⟨rfl, rfl, opens, single, Or.inr (Or.inr ⟨_, same⟩)⟩, ?_⟩
    intro offset low high
    refine ⟨low, ?_⟩
    by_cases inText : offset ≤ before.size + (dropReturn piece).size
    · exact Or.inl inText
    · exact Or.inr ⟨⟨_, same⟩, by dsimp only; omega⟩

theorem numbered_cons_cons (number start : Nat) (piece next : Text) (rest : List Text) :
    numbered number start (piece :: next :: rest) =
      ⟨number, start, start + (dropReturn piece).size, dropReturn piece⟩ ::
        numbered (number + 1) (start + piece.size + 1) (next :: rest) := rfl

theorem numbered_tail (number : Nat) (before piece next : Text) (rest : List Text) :
    numbered (number + 1) (before.size + piece.size + 1) (next :: rest) =
      numbered (number + 1) (before ++ piece ++ ['\n']).size (next :: rest) := by
  simp [Text.size_append, show '\n'.utf8Size = 1 from rfl, Nat.add_assoc]

theorem lies_of_mem_numbered {number : Nat} (before : Text) {pieces : List Text} {l : Line}
    (opens : before = [] ∨ before.getLast? = some '\n') (clean : ∀ piece ∈ pieces, '\n' ∉ piece)
    (member : l ∈ numbered number before.size pieces) :
    ∃ above after, before ++ Text.join ['\n'] pieces = above ++ l.text ++ after ∧
      l.Lies above after := by
  induction pieces generalizing number before with
  | nil => simp [numbered] at member
  | cons piece pieces ih =>
    cases pieces with
    | nil =>
      have same : l = ⟨number, before.size, before.size + piece.size, piece⟩ := by
        simpa [numbered] using member
      subst same
      refine ⟨before, [], ?_, ⟨rfl, rfl, opens, clean piece (by simp), Or.inl rfl⟩⟩
      simp [Text.join]
    | cons next rest =>
      rw [numbered_cons_cons, List.mem_cons] at member
      rcases member with same | member
      · obtain ⟨after, parts, lies, _⟩ := head_lies number next rest opens (clean piece (by simp))
        subst same
        exact ⟨before, after, parts, lies⟩
      · rw [numbered_tail] at member
        obtain ⟨above, after, parts, lies⟩ :=
          ih _ (Or.inr (by simp)) (fun p m => clean p (List.mem_cons_of_mem _ m)) member
        refine ⟨above, after, ?_, lies⟩
        rw [← parts, join_cons_cons]
        simp

theorem lies_of_mem {t : Text} {l : Line} (member : l ∈ ofText t) :
    ∃ before after, t = before ++ l.text ++ after ∧ l.Lies before after := by
  have found := lies_of_mem_numbered [] (Or.inl rfl) (fun _ => not_mem_split) member
  simpa [join_split] using found

def pick? (offset : Nat) (lines : List Line) : Option Line :=
  (lines.takeWhile fun l => l.start ≤ offset).getLast?

theorem pick?_cons_of_lt {offset : Nat} {l : Line} {lines : List Line} (low : l.start ≤ offset)
    (next : ∀ below ∈ lines.head?, offset < below.start) : pick? offset (l :: lines) = some l := by
  cases lines with
  | nil => simp [pick?, low]
  | cons below lines =>
    have high : ¬below.start ≤ offset := Nat.not_le.mpr (next below (by simp))
    simp [pick?, low, high]

theorem pick?_cons_of_le {offset : Nat} {l below : Line} {lines : List Line}
    (low : l.start ≤ offset) (next : below.start ≤ offset) :
    pick? offset (l :: below :: lines) = pick? offset (below :: lines) := by
  simp [pick?, low, next]

theorem head?_numbered_start {number start : Nat} {pieces : List Text} {l : Line}
    (first : l ∈ (numbered number start pieces).head?) : l.start = start := by
  cases pieces with
  | nil => simp [numbered] at first
  | cons piece pieces =>
    cases pieces with
    | nil =>
      have same : (⟨number, start, start + piece.size, piece⟩ : Line) = l := by
        simpa [numbered] using first
      rw [← same]
    | cons next rest =>
      have same : (⟨number, start, start + (dropReturn piece).size, dropReturn piece⟩ : Line) = l := by
        simpa [numbered_cons_cons] using first
      rw [← same]

theorem pick?_numbered (number : Nat) (before : Text) {pieces : List Text} {offset : Nat}
    (some_piece : pieces ≠ []) (opens : before = [] ∨ before.getLast? = some '\n')
    (clean : ∀ piece ∈ pieces, '\n' ∉ piece) (low : before.size ≤ offset)
    (high : offset ≤ (before ++ Text.join ['\n'] pieces).size) :
    ∃ l above after, before ++ Text.join ['\n'] pieces = above ++ l.text ++ after ∧
      l.Lies above after ∧ l.Reaches after offset ∧ before.size ≤ l.start ∧
      l ∈ numbered number before.size pieces ∧
      ∀ other, l.start ≤ other → other ≤ offset →
        pick? other (numbered number before.size pieces) = some l := by
  induction pieces generalizing number before with
  | nil => exact absurd rfl some_piece
  | cons piece pieces ih =>
    cases pieces with
    | nil =>
      have end_of_text : offset ≤ before.size + piece.size := by
        simpa [Text.join, Text.size_append] using high
      refine ⟨⟨number, before.size, before.size + piece.size, piece⟩, before, [], by simp [Text.join],
        ⟨rfl, rfl, opens, clean piece (by simp), Or.inl rfl⟩, ⟨low, Or.inl end_of_text⟩,
        Nat.le_refl _, by simp [numbered], ?_⟩
      intro other first _
      exact pick?_cons_of_lt first (by simp)
    | cons next rest =>
      obtain ⟨after, parts, lies, reaches⟩ :=
        head_lies number next rest opens (clean piece (by simp))
      by_cases here : offset ≤ before.size + piece.size
      · refine ⟨_, before, after, parts, lies, reaches offset low here, Nat.le_refl _,
          by simp [numbered], ?_⟩
        intro other first second
        rw [numbered_cons_cons]
        refine pick?_cons_of_lt first ?_
        intro below member
        rw [head?_numbered_start member]
        omega
      · -- below the first line, the line feed counts as text above
        have size : (before ++ piece ++ ['\n']).size = before.size + piece.size + 1 := by
          simp [Text.size_append, show '\n'.utf8Size = 1 from rfl, Nat.add_assoc]
        have joined : before ++ Text.join ['\n'] (piece :: next :: rest) =
            before ++ piece ++ ['\n'] ++ Text.join ['\n'] (next :: rest) := by
          rw [join_cons_cons]
          simp
        obtain ⟨l, above, after, parts, lies, reaches, beyond, member, stable⟩ :=
          ih (number + 1) (before ++ piece ++ ['\n']) (by simp) (Or.inr (by simp))
            (fun p m => clean p (List.mem_cons_of_mem _ m)) (by omega) (by rw [← joined]; exact high)
        rw [size] at beyond stable member
        refine ⟨l, above, after, by rw [joined, parts], lies, reaches, by omega, ?_, ?_⟩
        · rw [numbered_cons_cons]
          exact List.mem_cons_of_mem _ member
        · intro other first second
          rw [numbered_cons_cons, ← stable other first second]
          cases lines : numbered (number + 1) (before.size + piece.size + 1) (next :: rest) with
          | nil => simp [lines] at member
          | cons below lines' =>
            have starts : below.start = before.size + piece.size + 1 :=
              head?_numbered_start (by rw [lines]; simp)
            exact pick?_cons_of_le (by dsimp only; omega) (by omega)

end Line

namespace Document

variable {t : Text} {lineBreak : LineBreak} {offset : Nat}

theorem lineAt_lies (inside : offset ≤ t.size) :
    ∃ before after, t = before ++ ((ofText t lineBreak).lineAt offset).text ++ after ∧
      ((ofText t lineBreak).lineAt offset).Lies before after ∧
      ((ofText t lineBreak).lineAt offset).Reaches after offset ∧
      (ofText t lineBreak).lineAt offset ∈ (ofText t lineBreak).lines ∧
      ∀ other, ((ofText t lineBreak).lineAt offset).start ≤ other → other ≤ offset →
        (ofText t lineBreak).lineAt other = (ofText t lineBreak).lineAt offset := by
  obtain ⟨l, above, after, parts, lies, reaches, _, member, stable⟩ :=
    Line.pick?_numbered 1 [] (Line.split_ne_nil t) (Or.inl rfl)
      (fun _ => Line.not_mem_split) (Nat.zero_le offset) (by simpa [Line.join_split] using inside)
  have found : ∀ other, l.start ≤ other → other ≤ offset →
      (ofText t lineBreak).lineAt other = l := by
    intro other first second
    have chosen := stable other first second
    have clamped : min other t.size = other := Nat.min_eq_left (Nat.le_trans second inside)
    simp only [Line.pick?, Text.size_nil] at chosen
    simp only [lineAt, ofText, size, Line.ofText, clamped, chosen, Option.getD_some]
  have same := found offset reaches.1 (Nat.le_refl _)
  rw [same]
  refine ⟨above, after, by simpa [Line.join_split] using parts, lies, reaches, member, found⟩

/-- An offset is at most one byte behind the text of its line, in the middle of the line break. -/
theorem le_lineAt_stop (lineBreak : LineBreak) (inside : offset ≤ t.size) :
    offset ≤ ((ofText t lineBreak).lineAt offset).stop + 1 := by
  obtain ⟨_, _, _, _, reaches, _, _⟩ := @lineAt_lies t lineBreak _ inside
  rcases reaches.2 with on_line | ⟨_, in_break⟩ <;> omega

theorem lineAt_start_le {a m b : Text} (parts : t = a ++ m ++ b) (single : '\n' ∉ m)
    (high : offset ≤ a.size + m.size) : ((ofText t lineBreak).lineAt offset).start ≤ a.size := by
  have inside : offset ≤ t.size := by
    rw [parts, Text.size_append, Text.size_append]
    omega
  obtain ⟨before, after, whole, lies, reaches, _, _⟩ := @lineAt_lies t lineBreak _ inside
  have low := reaches.1
  rw [lies.start] at low ⊢
  refine Nat.le_of_not_lt fun beyond => ?_
  rw [parts, List.append_assoc, List.append_assoc] at whole
  rcases List.append_eq_append_iff.mp whole with ⟨u, rfl, rest⟩ | ⟨u, rfl, _⟩
  · obtain ⟨v, rfl⟩ : ∃ v, m = u ++ v := by
      rcases List.append_eq_append_iff.mp rest with ⟨v, rfl, _⟩ | ⟨v, rfl, _⟩
      · have empty : v = [] := by
          simp only [Text.size_append] at low
          exact Text.size_eq_zero_iff.mp (by omega)
        exact ⟨[], by rw [empty]; simp⟩
      · exact ⟨v, rfl⟩
    have feed : u.getLast? = some '\n' := by
      rcases lies.opens with empty | feed
      · rw [empty, Text.size_nil] at beyond
        omega
      · cases u with
        | nil =>
          rw [List.append_nil] at beyond
          omega
        | cons d u => simpa [List.getLast?_append] using feed
    exact single (List.mem_append_left v (List.mem_of_getLast? feed))
  · rw [Text.size_append] at beyond
    omega

theorem lineAt_of_parts {above m below : Text} (parts : t = above ++ m ++ below)
    (some_text : m ≠ []) (clean : ∀ c, c = '\n' ∨ c = '\r' → c ∉ m) :
    ∃ tail, ((ofText t lineBreak).lineAt above.size).text = above.lastLine ++ m ++ tail ∧
      ((ofText t lineBreak).lineAt above.size).start + above.lastLine.size = above.size := by
  have inside : above.size ≤ t.size := by
    rw [parts, List.append_assoc, Text.size_append]
    omega
  obtain ⟨before, after, whole, lies, reaches, _, _⟩ := @lineAt_lies t lineBreak _ inside
  generalize (ofText t lineBreak).lineAt above.size = l at whole lies reaches
  rw [parts, List.append_assoc] at whole
  rcases lies.cut_cases whole.symm reaches with ⟨u, v, rfl, text, rest⟩ | ⟨beyond, _, rest⟩
  · have no_feed : '\n' ∉ u := by
      intro member
      exact lies.single (by rw [text]; exact List.mem_append_left v member)
    have last := lies.lastLine no_feed
    have start := lies.start
    rw [last, Text.size_append, start, text]
    rcases List.append_eq_append_iff.mp rest with ⟨w, rfl, _⟩ | ⟨w, same, after_text⟩
    · exact ⟨w, by rw [List.append_assoc], rfl⟩
    · cases w with
      | nil => exact ⟨[], by rw [same]; simp, rfl⟩
      | cons c w =>
        have member : c ∈ m := by
          rw [same]
          simp
        rcases lies.closes with none_left | ⟨beyond, break_text, _⟩ | ⟨beyond, break_text⟩
        · rw [none_left] at after_text
          cases after_text
        · rw [break_text] at after_text
          exact absurd member (clean c (Or.inl (List.cons.inj after_text).1.symm))
        · rw [break_text] at after_text
          exact absurd member (clean c (Or.inr (List.cons.inj after_text).1.symm))
  · cases m with
    | nil => exact absurd rfl some_text
    | cons c m =>
      exact absurd List.mem_cons_self (clean c (Or.inl (List.cons.inj rest).1))

end Document

end MarkdownEditing
