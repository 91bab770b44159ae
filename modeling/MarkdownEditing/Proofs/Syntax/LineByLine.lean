import MarkdownEditing.Proofs.Syntax.Recorded
import MarkdownEditing.Proofs.Syntax.Tokens

namespace MarkdownEditing

namespace Token

variable {before rest ending after : List Token}

def lines : List Token → List (List Token)
  | [] => []
  | t :: ts =>
    if t.kind = .newline then [t] :: lines ts
    else
      match lines ts with
      | [] => [[t]]
      | line :: later => (t :: line) :: later

theorem lines_of_lined (lined : Lined rest ending after) (some_tokens : rest ++ ending ≠ []) :
    lines (rest ++ (ending ++ after)) = (rest ++ ending) :: lines after := by
  induction rest with
  | nil =>
    rcases lined.ends with ⟨t, rfl, same⟩ | ⟨rfl, _⟩
    · simp [lines, same]
    · exact absurd rfl some_tokens
  | cons t rest ih =>
    have plain : t.kind ≠ .newline := lined.plain t List.mem_cons_self
    rw [List.cons_append, lines, if_neg plain]
    by_cases single : rest ++ ending = []
    · -- the last token of a line without a break is the last of all
      obtain ⟨rfl, rfl⟩ := List.append_eq_nil_iff.mp single
      have last : after = [] := by
        rcases lined.ends with ⟨_, same, _⟩ | ⟨_, last⟩
        · cases same
        · exact last
      rw [last]
      rfl
    · rw [ih (lined.of_append (a := [t])) single]
      rfl

/-- The line that begins at token `start` goes on to token `stop`: just behind the next line break, or
to the end of the tokens or a token that stands for it if that comes first. -/
structure EndsLine (tokens : List Token) (start stop : Nat) : Prop where
  ordered : start ≤ stop
  inside : stop ≤ tokens.length
  single : ∀ i t, start ≤ i → i + 1 < stop → tokens[i]? = some t → t.kind ≠ .newline
  goes_on : ∀ i t, start ≤ i → i < stop → tokens[i]? = some t → t.kind ≠ .eof
  ends : (start < stop ∧ ∃ t, tokens[stop - 1]? = some t ∧ t.kind = .newline) ∨
    stop = tokens.length ∨ ∃ t, tokens[stop]? = some t ∧ t.kind = .eof

theorem endsLine_of_lineAhead (line : LineAhead rest ending after) :
    EndsLine (before ++ (rest ++ (ending ++ after))) before.length
      (before.length + (rest ++ ending).length) := by
  have few : ending.length ≤ 1 := by
    rcases line.ends with ⟨t, rfl, _⟩ | ⟨rfl, _⟩ <;> simp
  have inside : ∀ i t, before.length ≤ i → i - before.length < rest.length →
      (before ++ (rest ++ (ending ++ after)))[i]? = some t → t.kind.isLineEnd = false := by
    intro i t low high here
    rw [List.getElem?_append_right low, List.getElem?_append_left high] at here
    exact line.plain t (List.mem_of_getElem? here)
  have last : ∀ t ∈ ending, t.kind = .newline := by
    rcases line.ends with ⟨t, rfl, same⟩ | ⟨rfl, _⟩
    · simpa using same
    · exact List.forall_mem_nil _
  rw [List.length_append]
  refine ⟨by omega, by simp only [List.length_append]; omega, ?_, ?_, ?_⟩
  · intro i t low high here same
    have plain := inside i t low (by omega) here
    rw [same] at plain
    cases plain
  · intro i t low high here same
    by_cases left : i - before.length < rest.length
    · have plain := inside i t low left here
      rw [same] at plain
      cases plain
    · rw [List.getElem?_append_right low, List.getElem?_append_right (by omega),
        List.getElem?_append_left (by omega)] at here
      have newline := last t (List.mem_of_getElem? here)
      rw [same] at newline
      cases newline
  · rcases line.ends with ⟨t, rfl, same⟩ | ⟨rfl, stops⟩
    · refine Or.inl ⟨by simp, t, ?_, same⟩
      rw [List.getElem?_append_right (by simp), List.getElem?_append_right (by simp)]
      simp
    · refine Or.inr ?_
      cases after with
      | nil => exact Or.inl (by simp)
      | cons t after => exact Or.inr ⟨t, by simp, stops t rfl⟩

namespace EndsLine

variable {tokens : List Token} {start stop : Nat} {t : Token}

theorem advances_iff (line : EndsLine tokens start stop) (here : tokens[start]? = some t) :
    start < stop ↔ t.kind ≠ .eof := by
  constructor
  · intro less
    exact line.goes_on start t (Nat.le_refl _) less here
  · intro other
    refine Nat.lt_of_le_of_ne line.ordered ?_
    rintro rfl
    rcases line.ends with ⟨less, _⟩ | last | ⟨u, there, same⟩
    · exact Nat.lt_irrefl _ less
    · have inside := (List.getElem?_eq_some_iff.mp here).1
      omega
    · rw [here] at there
      cases there
      exact other same

/-- A line does not go past a token that stands for the end of the tokens. -/
theorem stop_le {i : Nat} (line : EndsLine tokens start stop) (below : start ≤ i)
    (here : tokens[i]? = some t) (same : t.kind = .eof) : stop ≤ i := by
  rcases Nat.lt_or_ge i stop with past | short
  · exact absurd same (line.goes_on i t below past here)
  · exact short

end EndsLine

end Token

namespace Stack

variable {rest : List Token}

theorem exists_line_parts (s : Stack) (some_tokens : rest ≠ []) :
    ∃ content ending, Token.Lined content ending (s.line rest).2 ∧
      rest = content ++ (ending ++ (s.line rest).2) ∧ content ++ ending ≠ [] := by
  refine ⟨_, _, Token.Lined.first_line rest, line_parts rest, ?_⟩
  intro nothing
  obtain ⟨t, ts, rfl⟩ := List.exists_cons_of_ne_nil some_tokens
  have shorter := s.length_line_lt t ts
  have whole := congrArg List.length (line_parts (t :: ts))
  rw [← List.append_assoc, nothing] at whole
  exact Nat.lt_irrefl _ (whole ▸ shorter)

end Stack

namespace Recording

def begin (tokens : List Token) : Recording := ⟨(Recorder.ofTokens tokens).start.1, [], none⟩

inductive BetweenLines (tokens : List Token) : Recording → Prop
  | begin : BetweenLines tokens (begin tokens)
  | line {s next : Recording} (between : BetweenLines tokens s)
      (inside : s.recorder.atEnd = false) (read : s.line? = some next) : BetweenLines tokens next

/-- The loop over the lines goes one round for each of them, which takes that line and nothing else,
and stops at the end of the tokens. -/
inductive ReadsLines : Recording → List (List Token) → Recording → Prop
  | stop {s : Recording} (all : s.recorder.atEnd = true) : ReadsLines s [] s
  | line {s next last : Recording} {line : List Token} {later : List (List Token)}
      (inside : s.recorder.atEnd = false) (read : s.line? = some next)
      (taken : s.recorder.ahead = line ++ next.recorder.ahead) (goes_on : ReadsLines next later last) :
      ReadsLines s (line :: later) last

variable {tokens rest : List Token} {s : Recording}

theorem atEnd_recorded {s : Stack} (reads : tokens = s.raw ++ rest) :
    (s.recorded tokens).recorder.atEnd = true ↔ rest = [] := by
  have sizes := congrArg List.length reads
  rw [List.length_append] at sizes
  rw [Recorder.atEnd, decide_eq_true_eq, ← List.length_eq_zero_iff]
  show tokens.length ≤ s.raw.length ↔ rest.length = 0
  omega

/-- Between two lines the recording is that of a stack of open blocks. -/
theorem BetweenLines.exists_recorded (between : BetweenLines tokens s) :
    ∃ (stack : Stack) (rest : List Token), s = stack.recorded tokens ∧ tokens = stack.raw ++ rest := by
  induction between with
  | begin => exact ⟨Stack.empty, tokens, rfl, rfl⟩
  | line _ _ read ih =>
    obtain ⟨stack, rest, rfl, reads⟩ := ih
    obtain ⟨content, ending, after, rfl, line⟩ := Token.exists_lineAhead rest
    rw [Stack.recorded_addLine (s := stack) tokens line reads] at read
    refine ⟨_, after, (Option.some.inj read).symm, ?_⟩
    rw [stack.raw_addLine, List.append_assoc, List.append_assoc]
    exact reads

/-- From the start of a line, reading a line goes to where that line ends. -/
theorem BetweenLines.exists_line (between : BetweenLines tokens s) :
    ∃ next, s.line? = some next ∧ Token.EndsLine tokens s.recorder.index next.recorder.index := by
  obtain ⟨stack, rest, rfl, reads⟩ := between.exists_recorded
  obtain ⟨content, ending, after, rfl, line⟩ := Token.exists_lineAhead rest
  refine ⟨_, Stack.recorded_addLine (s := stack) tokens line reads, ?_⟩
  have ends := @Token.endsLine_of_lineAhead stack.raw _ _ _ line
  rw [← reads, ← List.length_append, ← stack.raw_addLine] at ends
  exact ends

theorem BetweenLines.tokens_eq (between : BetweenLines tokens s) : s.recorder.tokens = tokens := by
  obtain ⟨stack, rest, rfl, _⟩ := between.exists_recorded
  rfl

section

-- `t` stands for the end of the tokens, at or behind the place where the lines are being read
variable {t : Token} {i : Nat} (between : BetweenLines tokens s) (ahead : s.recorder.index ≤ i)
  (here : tokens[i]? = some t) (last : t.kind = .eof)

include between ahead here

theorem BetweenLines.not_atEnd : s.recorder.atEnd = false := by
  have inside := (List.getElem?_eq_some_iff.mp here).1
  rw [Recorder.atEnd, between.tokens_eq, decide_eq_false_iff_not]
  omega

include last

theorem BetweenLines.still_ahead {next : Recording} (read : s.line? = some next) :
    BetweenLines tokens next ∧ next.recorder.index ≤ i := by
  obtain ⟨_, same, line⟩ := between.exists_line
  rw [same] at read
  cases read
  exact ⟨.line between (between.not_atEnd ahead here) same, line.stop_le ahead here last⟩

theorem BetweenLines.not_readsLines : ¬∃ lines stop, ReadsLines s lines stop := by
  rintro ⟨lines, stop, reads⟩
  induction reads with
  | stop all =>
    rw [between.not_atEnd ahead here] at all
    cases all
  | line inside read taken goes_on ih =>
    obtain ⟨later, still⟩ := between.still_ahead ahead here last read
    exact ih later still

theorem BetweenLines.lines?_eq_none : s.lines? = none := by
  fun_induction lines? s with
  | case1 s finished =>
    rw [between.not_atEnd ahead here] at finished
    cases finished
  | case2 s inside next read progress ih =>
    obtain ⟨later, still⟩ := between.still_ahead ahead here last read
    exact ih later still
  | case3 | case4 => rfl

end

theorem readsLines_recorded {s : Stack} (reads : tokens = s.raw ++ rest)
    (plain : ∀ t ∈ rest, t.kind ≠ .eof) :
    ReadsLines (s.recorded tokens) (Token.lines rest) ((s.lines rest).recorded tokens) := by
  fun_induction Stack.lines s rest with
  | case1 s => exact .stop ((atEnd_recorded reads).mpr rfl)
  | case2 s t ts ih =>
    have inside : (s.recorded tokens).recorder.atEnd = false := by
      rw [Bool.eq_false_iff, Ne, atEnd_recorded reads]
      exact List.cons_ne_nil t ts
    obtain ⟨step, below⟩ := Stack.recorded_line reads plain
    obtain ⟨content, ending, lined, parts, some_parts⟩ :=
      s.exists_line_parts (List.cons_ne_nil t ts)
    have first : Token.lines (t :: ts) =
        (content ++ ending) :: Token.lines (s.line (t :: ts)).2 := by
      rw [← Token.lines_of_lined lined some_parts, ← parts]
    rw [first]
    refine .line inside step ?_ (ih below fun u member => plain u (s.mem_of_mem_line member))
    rw [Stack.recorded_ahead reads, Stack.recorded_ahead below, List.append_assoc]
    exact parts

/-- At the start of a line with tokens left, whatever is open there, reading a line ends where the
line does: behind its break, at the end of the tokens or at a token that stands for it. It gets on
unless it begins at such a token. So tokens without one are read with one round for each line, and the
loop over the lines of any others never ends. -/
theorem document_line_by_line (tokens : List Token) :
    (∀ s, BetweenLines tokens s → s.recorder.atEnd = false →
      ∃ next, s.line? = some next ∧
        Token.EndsLine tokens s.recorder.index next.recorder.index ∧
        (s.recorder.index < next.recorder.index ↔ s.recorder.nth 0 ≠ .eof)) ∧
    ((∀ t ∈ tokens, t.kind ≠ .eof) →
      ∃ last, (begin tokens).ReadsLines (Token.lines tokens) last ∧
        (begin tokens).lines? = some last ∧ (document? tokens).isSome = true) ∧
    ((∃ t ∈ tokens, t.kind = .eof) →
      (¬∃ lines last, (begin tokens).ReadsLines lines last) ∧ document? tokens = none) := by
  refine ⟨?_, ?_, ?_⟩
  · intro s between inside
    obtain ⟨next, read, line⟩ := between.exists_line
    refine ⟨next, read, line, ?_⟩
    rw [Recorder.atEnd, between.tokens_eq, decide_eq_false_iff_not, Nat.not_le] at inside
    have here : tokens[s.recorder.index]? = some tokens[s.recorder.index] :=
      List.getElem?_eq_getElem inside
    rw [line.advances_iff here, Recorder.nth, between.tokens_eq, Nat.add_zero, here]
    rfl
  · intro plain
    refine ⟨(Stack.empty.lines tokens).recorded tokens,
      readsLines_recorded (s := Stack.empty) rfl plain, ?_, ?_⟩
    · exact Stack.recorded_lines (s := Stack.empty) tokens tokens rfl plain
    · rw [document?_eq plain]
      rfl
  · rintro ⟨t, member, last⟩
    obtain ⟨i, here⟩ := List.mem_iff_getElem?.mp member
    have failed := BetweenLines.begin.lines?_eq_none (Nat.zero_le i) here last
    refine ⟨BetweenLines.begin.not_readsLines (Nat.zero_le i) here last, ?_⟩
    rw [document?]
    exact congrArg (Option.bind · _) failed

def lazyItem : List Token := Token.scan ['>', ' ', '-', ' ', 'a', '\n', 'b']

theorem lazyItem_line_by_line :
    (∃ s next, BetweenLines lazyItem s ∧ s.recorder.atEnd = false ∧ s.leaf.isSome = true ∧
      s.line? = some next ∧ Token.EndsLine lazyItem s.recorder.index next.recorder.index) ∧
    (∃ last, (begin lazyItem).ReadsLines (Token.lines lazyItem) last) ∧
    document? (lazyItem ++ [⟨.eof, []⟩]) = none := by
  have first : (begin lazyItem).line?.map (fun s => (s.recorder.atEnd, s.leaf.isSome)) =
      some (false, true) := by decide +kernel
  obtain ⟨s, read, state⟩ := Option.map_eq_some_iff.mp first
  obtain ⟨inside, held⟩ := Prod.mk.inj state
  have between : BetweenLines lazyItem s := .line .begin (by decide +kernel) read
  obtain ⟨next, second, ends, _⟩ := (document_line_by_line lazyItem).1 s between inside
  obtain ⟨last, rounds, _⟩ := (document_line_by_line lazyItem).2.1
    fun _ member => (Token.raw_of_mem_scan member).ne_eof
  obtain ⟨_, failed⟩ := (document_line_by_line (lazyItem ++ [⟨.eof, []⟩])).2.2
    ⟨⟨.eof, []⟩, by simp, rfl⟩
  exact ⟨⟨s, next, between, inside, held, second, ends⟩, ⟨last, rounds⟩, failed⟩

def endOnly : List Token := [⟨.eof, []⟩]

/-- Where a token stands for the end of the tokens, a line begins that has no line break and does not
go to the end either, and the document is never read. -/
theorem endOnly_stays :
    BetweenLines endOnly (begin endOnly) ∧ (begin endOnly).recorder.atEnd = false ∧
      (∀ t ∈ endOnly, t.kind ≠ .newline) ∧
      (begin endOnly).line?.map (·.recorder.index) = some 0 ∧ endOnly.length = 1 ∧
      document? endOnly = none := by
  refine ⟨.begin, by decide +kernel, by decide, by decide +kernel, rfl, by decide +kernel⟩

end Recording

end MarkdownEditing
