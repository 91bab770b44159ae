import MarkdownEditing.Proofs.Syntax.Reopened

namespace MarkdownEditing

open Token (Aligned)

namespace Stack

open Token (Lined Spread endColumn)

variable {ts ts' : List Token} {s s' : Stack} {ending : List Token}

theorem lines_single {tokens ending : List Token} (lined : Lined tokens ending [])
    (some_tokens : tokens ++ ending ≠ []) (s : Stack) :
    s.lines (tokens ++ ending) = s.addLine tokens ending := by
  have taken := lined.takeWhile_eq
  rw [List.append_nil] at taken
  have short : ending.length ≤ 1 := by
    rcases lined.ends with ⟨t, rfl, _⟩ | ⟨rfl, _⟩ <;> simp
  have line : s.line (tokens ++ ending) = (s.addLine tokens ending, []) := by
    rw [Stack.line]
    rw [taken, List.drop_left, List.take_of_length_le short, List.drop_of_length_le short]
  cases whole : tokens ++ ending with
  | nil => exact absurd whole some_tokens
  | cons t us =>
    rw [whole] at line
    rw [Stack.lines, line, Stack.lines]

theorem endColumn_of_feed {above : List Token} {feed : Token} (raw : feed.Raw)
    (last : above.getLast? = some feed) (newline : feed.kind = .newline) : endColumn above = 0 := by
  obtain ⟨front, rfl⟩ := List.getLast?_eq_some_iff.mp last
  obtain ⟨before, text⟩ := raw.ends_of_newline newline
  have join : Token.join (front ++ [feed]) = Token.join front ++ before ++ ['\n'] := by
    simp [text]
  rw [endColumn, join, Text.lastLine_feed]
  rfl

theorem keepsSides_empty (line : List Token) : empty.KeepsSides empty line := by
  intro outer inner outer' inner' column column' stand front
  simp [containers, empty] at front

theorem aligned_line {below below' : List Token} (aligned : Aligned below below') :
    ∃ tokens tokens' ending later later', Lined tokens ending later ∧ Lined tokens' ending later' ∧
      below = tokens ++ (ending ++ later) ∧ below' = tokens' ++ (ending ++ later') ∧
      Aligned tokens tokens' ∧ Aligned later later' := by
  have lengths : ∀ ts : List Token, (ts.takeWhile (·.kind != .newline)).length =
      ((ts.map Token.kind).takeWhile (· != .newline)).length := by
    intro ts
    rw [List.takeWhile_map, List.length_map]
    rfl
  have same : (below.takeWhile (·.kind != .newline)).length =
      (below'.takeWhile (·.kind != .newline)).length := by
    rw [lengths, lengths, aligned.map_kind_eq]
  have front : ∀ ts : List Token, ts.takeWhile (·.kind != .newline) =
      ts.take (ts.takeWhile (·.kind != .newline)).length := fun ts =>
    List.prefix_iff_eq_take.mp (List.takeWhile_prefix _)
  have lined := Lined.first_line below
  have lined' := Lined.first_line below'
  have here := front below
  have here' := front below'
  rw [← same] at here' lined'
  generalize (below.takeWhile (·.kind != .newline)).length = n at *
  have feeds : ∀ t ∈ (below.drop n).take 1, t.kind ≠ .text := by
    intro t member
    rcases lined.ends with ⟨u, one, feed⟩ | ⟨none_left, _⟩
    · rw [one, List.mem_singleton] at member
      rw [member, feed]
      decide
    · rw [none_left] at member
      cases member
  have ending := ((aligned.drop n).take 1).eq_of_kinds feeds
  refine ⟨_, _, _, _, _, lined, ending ▸ lined', ?_, ?_, ?_, (aligned.drop n).drop 1⟩
  · rw [List.take_append_drop, here, List.take_append_drop]
  · rw [ending, List.take_append_drop, here', List.take_append_drop]
  · rw [here, here']
    exact aligned.take n

def Complete (above : List Token) : Prop :=
  above = [] ∨ ∃ t, above.getLast? = some t ∧ t.kind = .newline

theorem Complete.of_aligned {above above' : List Token} (complete : Complete above)
    (read : Aligned above above') : Complete above' := by
  rcases complete with rfl | ⟨feed, last, newline⟩
  · exact Or.inl (List.forall₂_nil_left_iff.mp read)
  · have kinds := congrArg List.getLast? read.map_kind_eq
    rw [List.getLast?_map, List.getLast?_map, last] at kinds
    obtain ⟨feed', last', same⟩ := Option.map_eq_some_iff.mp kinds.symm
    exact Or.inr ⟨feed', last', same.trans newline⟩

theorem Complete.endColumn_eq {above : List Token} (complete : Complete above)
    (raw : ∀ t ∈ above, t.Raw) : endColumn (empty.lines above).raw = 0 := by
  have read : (empty.lines above).raw = above := raw_lines empty above
  rw [read]
  rcases complete with rfl | ⟨feed, last, newline⟩
  · rfl
  · exact endColumn_of_feed (raw feed (List.mem_of_getLast? last)) last newline

/-- Two texts whose tokens are the same but for numbers, up to the end of a line that is behind
complete ones. -/
structure LineBehind (ts ts' above above' tokens tokens' ending : List Token) : Prop where
  complete : Complete above
  read : Aligned above above'
  line : Aligned tokens tokens'
  some_line : tokens ++ ending ≠ []
  parts : ∃ later, Lined tokens ending later ∧ ts = above ++ (tokens ++ (ending ++ later))
  parts' : ∃ later, Lined tokens' ending later ∧ ts' = above' ++ (tokens' ++ (ending ++ later))

/-- What is true of no lines, and stays true with every next line, is true of all of the text. -/
theorem line_induction {related : List Token → List Token → Prop} (aligned : Aligned ts ts')
    (start : related [] [])
    (step : ∀ {above above' tokens tokens' ending : List Token},
      LineBehind ts ts' above above' tokens tokens' ending → related above above' →
        related (above ++ (tokens ++ ending)) (above' ++ (tokens' ++ ending))) :
    related ts ts' := by
  have from_here : ∀ (n : Nat) {above below above' below' : List Token}, below.length = n →
      ts = above ++ below → ts' = above' ++ below' → Aligned above above' → Aligned below below' →
      (below ≠ [] → Complete above) → related above above' → related ts ts' := by
    intro n
    -- On the number of tokens below, of which each line takes at least one.
    induction n using Nat.strong_induction_on with
    | _ n ih =>
    intro above below above' below' size parts parts' read left before here
    by_cases none_left : below = []
    · subst none_left
      obtain rfl := List.forall₂_nil_left_iff.mp left
      rw [parts, parts', List.append_nil, List.append_nil]
      exact here
    · obtain ⟨tokens, tokens', ending, later, later', lined, lined', rfl, rfl, line, rest⟩ :=
        aligned_line left
      have some_line : tokens ++ ending ≠ [] := by
        intro empty_line
        obtain ⟨rfl, rfl⟩ := List.append_eq_nil_iff.mp empty_line
        rcases lined.ends with ⟨_, one, _⟩ | ⟨_, rfl⟩
        · cases one
        · exact none_left rfl
      refine ih later.length ?_ rfl (by rw [parts]; simp only [List.append_assoc])
        (by rw [parts']; simp only [List.append_assoc])
        (read.append (line.append (Token.aligned_refl ending))) rest ?_
        (step ⟨before none_left, read, line, some_line, ⟨later, lined, parts⟩,
          ⟨later', lined', parts'⟩⟩ here)
      · have some_tokens := List.length_pos_iff.mpr some_line
        simp only [List.length_append] at size some_tokens
        omega
      · intro some_later
        rcases lined.ends with ⟨feed, rfl, newline⟩ | ⟨_, none_later⟩
        · exact Or.inr ⟨feed, by simp, newline⟩
        · exact absurd none_later some_later
  exact from_here ts.length rfl (List.nil_append ts).symm (List.nil_append ts').symm .nil aligned
    (fun _ => Or.inl rfl) start

namespace LineBehind

variable {above above' tokens tokens' : List Token}

theorem lines_eq (behind : LineBehind ts ts' above above' tokens tokens' ending) :
    empty.lines (above ++ (tokens ++ ending)) = (empty.lines above).addLine tokens ending ∧
      empty.lines (above' ++ (tokens' ++ ending)) = (empty.lines above').addLine tokens' ending := by
  obtain ⟨complete, read, line, some_line, ⟨later, lined, _⟩, ⟨later', lined', _⟩⟩ := behind
  have some_line' : tokens' ++ ending ≠ [] := by
    intro empty_line
    obtain ⟨rfl, rfl⟩ := List.append_eq_nil_iff.mp empty_line
    rw [List.forall₂_nil_right_iff.mp line] at some_line
    exact some_line rfl
  have single : Lined tokens ending [] := ⟨lined.plain, lined.ends.imp_right fun last =>
    ⟨last.1, rfl⟩⟩
  have single' : Lined tokens' ending [] := ⟨lined'.plain, lined'.ends.imp_right fun last =>
    ⟨last.1, rfl⟩⟩
  rw [lines_append _ complete, lines_append _ (complete.of_aligned read),
    lines_single single some_line, lines_single single' some_line']
  exact ⟨rfl, rfl⟩

theorem alike_lines (behind : LineBehind ts ts' above above' tokens tokens' ending)
    (keeps : KeepsBlanks ts ts') (raw : ∀ t ∈ ts, t.Raw) (spread : Spread ts)
    (alike : (empty.lines above).Alike (empty.lines above'))
    (sides : (empty.lines above).KeepsSides (empty.lines above') tokens) :
    (empty.lines (above ++ (tokens ++ ending))).Alike
      (empty.lines (above' ++ (tokens' ++ ending))) := by
  obtain ⟨step, step'⟩ := behind.lines_eq
  obtain ⟨complete, read, line, some_line, ⟨later, lined, rfl⟩, ⟨later', lined', rfl⟩⟩ := behind
  have raw_above : ∀ t ∈ above, t.Raw := fun t member => raw t (List.mem_append_left _ member)
  have raw_tokens : ∀ t ∈ tokens, t.Raw := fun t member => raw t (by simp [member])
  have whole : empty.lines (above ++ (tokens ++ (ending ++ later))) =
      (empty.lines (above ++ (tokens ++ ending))).lines later := by
    rcases lined.ends with ⟨feed, rfl, newline⟩ | ⟨_, rfl⟩
    · rw [← lines_append _ (Or.inr ⟨feed, by simp, newline⟩)]
      simp only [List.append_assoc]
    · rw [Stack.lines, List.append_nil]
  obtain ⟨more, walk, _⟩ := (extends_lines (empty.lines (above ++ (tokens ++ ending)))
    later).walk_finish
  rw [← whole, step] at walk
  have ends := (lined.drop tokens.length).takeWhile_eq
  rw [List.drop_length, List.nil_append] at ends
  have increasing : ∀ above : List Token, Container.Increasing 0 (empty.lines above).containers :=
    fun above => increasing_lines (s := empty) True.intro above
  rw [step, step']
  exact aligned_addLine keeps walk alike line sides (increasing above) (increasing above')
    (Fenced.lines (fenced_of_none rfl) above) (by rw [raw_lines]; rfl) (by rw [raw_lines]; rfl)
    (complete.endColumn_eq raw_above)
    ((complete.of_aligned read).endColumn_eq (read.forall_raw raw_above)) raw_tokens lined.plain
    spread.right_of_append.left_of_append ends

end LineBehind

theorem KeepsLines.keepsSides (keeps : KeepsLines ts ts') {above above' tokens tokens' : List Token}
    (behind : LineBehind ts ts' above above' tokens tokens' ending) :
    (empty.lines above).KeepsSides (empty.lines above') tokens := by
  obtain ⟨complete, read, line, _, ⟨later, lined, parts⟩, ⟨later', _, parts'⟩⟩ := behind
  rcases complete with rfl | ⟨feed, last, newline⟩
  · obtain rfl := List.forall₂_nil_left_iff.mp read
    rw [Stack.lines]
    exact keepsSides_empty tokens
  · obtain ⟨front, rfl⟩ := List.getLast?_eq_some_iff.mp last
    have size : front.length + 1 = (front ++ [feed]).length := by simp
    have size' : front.length + 1 = above'.length := by rw [size, read.length_eq]
    have here : ts[front.length]? = some feed := by
      rw [parts, List.append_assoc, List.getElem?_append_right (Nat.le_refl _), Nat.sub_self]
      rfl
    have sides := keeps here newline
    rw [size, parts, List.take_left, List.drop_left, lined.takeWhile_eq, ← size, size', parts',
      List.take_left] at sides
    exact sides

theorem aligned_lines (steady : Steady ts ts') (aligned : Aligned ts ts')
    (raw : ∀ t ∈ ts, t.Raw) (spread : Spread ts) : (empty.lines ts).Alike (empty.lines ts') := by
  apply @line_induction ts ts' (fun above above' => (empty.lines above).Alike (empty.lines above'))
    aligned
  · rw [Stack.lines]
    exact alike_empty
  · intro above above' tokens tokens' ending behind alike
    exact behind.alike_lines steady.blanks raw spread alike (steady.lines.keepsSides behind)

end Stack

namespace Tree

/-- A text whose numbers change keeps all of its structure when its lines still fit together. -/
theorem aligned_ofTokens {ts ts' : List Token} (steady : Stack.Steady ts ts')
    (aligned : Token.Aligned ts ts') (raw : ∀ t ∈ ts, t.Raw) (spread : Token.Spread ts) :
    Visit.Aligned (ofTokens ts).walk (ofTokens ts').walk := by
  have whole := aligned_node .root (Stack.aligned_lines steady aligned raw spread).finish_aligned
  simpa [Aligned, ofTokens] using whole

end Tree

end MarkdownEditing
