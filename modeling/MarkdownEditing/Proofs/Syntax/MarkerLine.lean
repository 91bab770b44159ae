import MarkdownEditing.Proofs.Markup.Markers
import MarkdownEditing.Proofs.Syntax.Leading
import MarkdownEditing.Proofs.Syntax.Scanned

namespace MarkdownEditing

namespace Text

variable {t u : Text} {accepts : Char → Bool}

theorem takeWhile_append_of_head (stops : ∀ c ∈ u.head?, accepts c = false) (t : Text) :
    (t ++ u).takeWhile accepts = t.takeWhile accepts ∧
      (t ++ u).dropWhile accepts = t.dropWhile accepts ++ u := by
  induction t with
  | nil =>
    cases u with
    | nil => exact ⟨rfl, rfl⟩
    | cons c u => simp [stops c rfl]
  | cons c t ih =>
    by_cases accepted : accepts c = true
    · simp [accepted, ih.1, ih.2]
    · simp [accepted]

def Breaks (t : Text) : Prop := t = [] ∨ (∃ u, t = '\n' :: u) ∨ ∃ u, t = '\r' :: '\n' :: u

def BeginsWord (t : Text) : Prop := ∃ c u, t = c :: u ∧ isWordChar c = true

theorem BeginsWord.not_breaks (word : t.BeginsWord) : ¬t.Breaks := by
  obtain ⟨c, u, rfl, here⟩ := word
  obtain ⟨_, _, feed, ret, _⟩ := isWordChar_facts here
  rintro (none_left | ⟨_, same⟩ | ⟨_, same⟩)
  · cases none_left
  · exact feed (List.cons.inj same).1
  · exact ret (List.cons.inj same).1

theorem head_of_follows (follows : t.Breaks ∨ t.BeginsWord) :
    (∀ c ∈ t.head?, isIndent c = false) ∧ (t.Breaks → ∀ c ∈ t.head?, isWordChar c = false) := by
  rcases follows with breaks | word
  · rcases breaks with rfl | ⟨u, rfl⟩ | ⟨u, rfl⟩
    · simp
    · simp [isIndent, show isWordChar '\n' = false from rfl]
    · simp [isIndent, show isWordChar '\r' = false from rfl]
  · refine ⟨?_, fun breaks => absurd breaks word.not_breaks⟩
    obtain ⟨c, u, rfl, here⟩ := word
    rintro _ ⟨⟩
    exact (isWordChar_facts here).1

end Text

namespace Token

open Text (Breaks BeginsWord)

variable {t u : Text}

theorem firstLine_of_breaks (breaks : t.Breaks) : firstLine t = [] := by
  rcases breaks with rfl | ⟨u, rfl⟩ | ⟨u, rfl⟩
  · rw [firstLine, scan, List.takeWhile_nil]
  · rw [firstLine, scan, first]
    simp [isIndent]
  · rw [firstLine, scan, first]
    simp [isIndent]

theorem firstLine_parts (t : Text) : ∃ after, t = join (firstLine t) ++ after ∧ Breaks after := by
  refine ⟨join ((scan t).dropWhile (·.kind != .newline)), ?_, ?_⟩
  · rw [firstLine, ← join_append, List.takeWhile_append_dropWhile, join_scan]
  · cases left : (scan t).dropWhile (·.kind != .newline) with
    | nil => exact Or.inl rfl
    | cons token later =>
      have newline : token.kind = .newline := by
        have head := List.head?_dropWhile_not (fun token : Token => token.kind != .newline) (scan t)
        rw [left] at head
        simpa using head
      have raw := raw_of_mem_scan ((List.dropWhile_sublist _).mem
        (left ▸ List.mem_cons_self : token ∈ (scan t).dropWhile _))
      cases raw with
      | blank => cases newline
      | lineBreak before either =>
        rcases either with rfl | rfl
        · exact Or.inr (Or.inl ⟨_, rfl⟩)
        · exact Or.inr (Or.inr ⟨_, rfl⟩)
      | mark c kind glyph => exact absurd newline (markKind?_spec glyph).2.1
      | word => cases newline

theorem join_firstLine_of_clean (clean : '\n' ∉ t) : join (firstLine t) = t := by
  obtain ⟨after, parts, breaks⟩ := firstLine_parts t
  rcases breaks with rfl | ⟨u, rfl⟩ | ⟨u, rfl⟩
  · rw [List.append_nil] at parts
    exact parts.symm
  all_goals
    rw [parts] at clean
    simp at clean

theorem size_le_firstLine (clean : ∀ c ∈ t, c ≠ '\n' ∧ c ≠ '\r') (u : Text) :
    t.size ≤ (join (firstLine (t ++ u))).size := by
  obtain ⟨after, parts, breaks⟩ := firstLine_parts (t ++ u)
  generalize join (firstLine (t ++ u)) = line at parts
  rcases List.append_eq_append_iff.mp parts with ⟨more, rfl, _⟩ | ⟨more, rfl, rest⟩
  · rw [Text.size_append]
    omega
  · cases more with
    | nil => rw [List.append_nil]
    | cons c more =>
      have inside : c ∈ line ++ c :: more := by simp
      rcases breaks with rfl | ⟨_, rfl⟩ | ⟨_, rfl⟩
      · cases rest
      · exact absurd (List.cons.inj rest).1.symm (clean c inside).1
      · exact absurd (List.cons.inj rest).1.symm (clean c inside).2

theorem scan_of_word (begins : t.BeginsWord) :
    scan t = ⟨.text, t.takeWhile isWordChar⟩ :: scan (t.dropWhile isWordChar) := by
  obtain ⟨c, u, rfl, word⟩ := begins
  have whole := scan_word (t := (c :: u).takeWhile isWordChar)
    (fun d member => mem_of_mem_takeWhile member) (by simp [word]) (head?_dropWhile _ (c :: u))
  rw [List.takeWhile_append_dropWhile] at whole
  exact whole

/-- Quote marks and blanks are tokens of their own before anything but a blank. -/
theorem scan_markup (markup : ∀ c ∈ t, c = '>' ∨ isIndent c = true)
    (stops : ∀ c ∈ u.head?, isIndent c = false) :
    scan (t ++ u) = scan t ++ scan u ∧ Continuation.Markup (scan t) := by
  fun_induction scan t with
  | case1 => exact ⟨rfl, fun token member => absurd member List.not_mem_nil⟩
  | case2 c t ih =>
    obtain ⟨here, later⟩ := List.forall_mem_cons.mp markup
    have cut : first c (t ++ u) = ((first c t).1, (first c t).2 ++ u) ∧
        ((first c t).1.kind = .whitespace ∨ (first c t).1.kind = .gt) ∧
          ∀ d ∈ (first c t).2, d = '>' ∨ isIndent d = true := by
      by_cases indent : isIndent c = true
      · obtain ⟨taken, dropped⟩ := Text.takeWhile_append_of_head stops t
        simp only [first, if_pos indent, taken, dropped, true_or, true_and]
        exact fun d member => later d ((List.dropWhile_sublist _).mem member)
      · obtain rfl : c = '>' := here.resolve_right indent
        exact ⟨rfl, Or.inr rfl, later⟩
    obtain ⟨same, kind, rest⟩ := cut
    obtain ⟨split, inner⟩ := ih rest
    rw [List.cons_append, scan, same]
    exact ⟨congrArg _ split, List.forall_mem_cons.mpr ⟨kind, inner⟩⟩

theorem firstLine_markup (markup : ∀ c ∈ t, c = '>' ∨ isIndent c = true)
    (stops : ∀ c ∈ u.head?, isIndent c = false) :
    firstLine (t ++ u) = scan t ++ firstLine u := by
  obtain ⟨split, inner⟩ := scan_markup markup stops
  rw [firstLine, split, List.takeWhile_append_of_pos, firstLine]
  intro token member
  rcases inner token member with same | same <;> simp [same]

theorem content_of_visible {c : Char} (indent : isIndent c = false)
    (other : c ≠ '>' ∧ c ≠ '\n' ∧ c ≠ '\r') (t : Text) :
    Continuation.Content (scan (c :: t)) ∧ Continuation.Content (firstLine (c :: t)) := by
  obtain ⟨quote, feed, ret⟩ := other
  have kinds : (first c t).1.kind ≠ .whitespace ∧ (first c t).1.kind ≠ .gt ∧
      (first c t).1.kind ≠ .newline := by
    unfold first
    simp only [indent, feed, ret, false_and, Bool.false_eq_true, if_false]
    split
    · rename_i kind glyph
      obtain ⟨blank, newline, _⟩ := markKind?_spec glyph
      refine ⟨blank, ?_, newline⟩
      rintro rfl
      exact quote (markKind?_inj glyph (show markKind? '>' = some .gt from rfl))
    · split <;> simp
  obtain ⟨blank, mark, newline⟩ := kinds
  rw [firstLine, scan, List.takeWhile_cons_of_pos (by simpa using newline)]
  exact ⟨⟨_, _, rfl, blank, mark⟩, _, _, rfl, blank, mark⟩

end Token

theorem ListStyle.glyph_injective {style style' : ListStyle} (same : style.glyph = style'.glyph) :
    style = style' := by
  cases style <;> cases style' <;> first | rfl | cases same

namespace BlockStart

open Token (scan firstLine)
open Text (Breaks BeginsWord)

variable {digits rest mark : Text} {glyph : Char} {k : Nat} {column base : Nat}
  {style : ListStyle} {ts : List Token}

theorem word_of_digits (all : digits.all Char.isDigit = true) :
    ∀ c ∈ digits, isWordChar c = true ∧ c ≠ '.' := by
  intro c member
  have digit := List.all_eq_true.mp all c member
  have white := (digit_facts digit).2.2.2.2
  refine ⟨?_, by rintro rfl; cases digit⟩
  rw [isWordChar, white, Bool.not_false, Bool.true_and, Option.isNone_iff_eq_none]
  unfold markKind?
  split <;> first | rfl | cases digit

theorem isItemNumber_iff (some_digit : digits ≠ []) (all : digits.all Char.isDigit = true) :
    isItemNumber digits = decide (digits.length ≤ 9) := by
  simp [isItemNumber, some_digit, all]

theorem spaces_indent (k : Nat) : ∀ c ∈ Text.spaces k, isIndent c = true := by
  intro c member
  rw [Text.mem_spaces member]
  rfl

theorem bareAfterMarker?_spaces (follows : rest.Breaks ∨ rest.BeginsWord) :
    (bareAfterMarker? (firstLine (Text.spaces k ++ rest))).isSome = true ↔ k ≠ 0 ∨ rest.Breaks := by
  cases k with
  | zero =>
    rw [show Text.spaces 0 ++ rest = rest from rfl]
    rcases follows with breaks | word
    · rw [Token.firstLine_of_breaks breaks]
      exact iff_of_true rfl (Or.inr breaks)
    · rw [firstLine, Token.scan_of_word word]
      refine iff_of_false Bool.false_ne_true ?_
      rintro (other | breaks)
      · exact other rfl
      · exact word.not_breaks breaks
  | succ k =>
    have some_space : Text.spaces (k + 1) ≠ [] := by simp [Text.spaces]
    rw [firstLine, Token.scan_blank (spaces_indent _) some_space (Text.head_of_follows follows).1]
    exact iff_of_true rfl (Or.inl (Nat.succ_ne_zero k))

theorem isItemNumber_of_point (word : Text) (member : '.' ∈ word) : isItemNumber word = false := by
  cases all : word.all Char.isDigit with
  | false => simp [isItemNumber, all]
  | true => cases List.all_eq_true.mp all '.' member

theorem orderedItem?_point (some_digit : digits ≠ []) (all : digits.all Char.isDigit = true)
    (ts : List Token) : orderedItem? (digits ++ ['.']) ts =
      if digits.length ≤ 9 then (bareAfterMarker? ts).map (item .period) else none := by
  unfold orderedItem?
  rw [if_pos (by simp), List.dropLast_concat, isItemNumber_iff some_digit all]
  simp

theorem orderedItem?_glued {more : Text} (some_more : more ≠ []) (ts : List Token) :
    orderedItem? (digits ++ '.' :: more) ts = none := by
  have inside : '.' ∈ (digits ++ '.' :: more).dropLast := by
    rw [List.dropLast_append_of_ne_nil (List.cons_ne_nil _ _),
      List.dropLast_cons_of_ne_nil some_more]
    simp
  unfold orderedItem?
  simp only [isItemNumber_of_point _ inside,
    isItemNumber_of_point (digits ++ '.' :: more) (by simp)]
  split
  · rfl
  · split <;> simp

theorem orderedItem?_paren (some_digit : digits ≠ []) (all : digits.all Char.isDigit = true)
    (ts : List Token) : orderedItem? digits (⟨.rparen, [')']⟩ :: ts) =
      if digits.length ≤ 9 then (bareAfterMarker? ts).map (item .paren) else none := by
  have other : digits.getLast? ≠ some '.' := by
    intro last
    exact (word_of_digits all '.' (List.mem_of_getLast? last)).2 rfl
  rw [orderedItem?, if_neg other, isItemNumber_iff some_digit all]
  simp

theorem firstLine_point (words : ∀ c ∈ digits, isWordChar c = true)
    (stops : ∀ c ∈ rest.head?, isWordChar c = false) :
    firstLine (digits ++ ['.'] ++ rest) = ⟨.text, digits ++ ['.']⟩ :: firstLine rest := by
  have pointed : ∀ c ∈ digits ++ ['.'], isWordChar c = true :=
    List.forall_mem_append.mpr ⟨words, List.forall_mem_singleton.mpr rfl⟩
  rw [firstLine, Token.scan_word pointed (by simp) stops]
  rfl

theorem firstLine_glued (words : ∀ c ∈ digits, isWordChar c = true) (begins : rest.BeginsWord) :
    ∃ more ts, more ≠ [] ∧
      firstLine (digits ++ ['.'] ++ rest) = ⟨.text, digits ++ '.' :: more⟩ :: ts := by
  obtain ⟨c, u, shape, here⟩ := begins
  refine ⟨rest.takeWhile isWordChar, firstLine (rest.dropWhile isWordChar),
    by simp [shape, here], ?_⟩
  have same : digits ++ ['.'] ++ rest =
      (digits ++ '.' :: rest.takeWhile isWordChar) ++ rest.dropWhile isWordChar := by
    simp [List.takeWhile_append_dropWhile]
  have all_words : ∀ d ∈ digits ++ '.' :: rest.takeWhile isWordChar, isWordChar d = true :=
    List.forall_mem_append.mpr ⟨words, List.forall_mem_cons.mpr
      ⟨rfl, fun d member => Token.mem_of_mem_takeWhile member⟩⟩
  rw [same, firstLine, Token.scan_word all_words (by simp) (head?_dropWhile _ rest)]
  rfl

/-- A number with its delimiter is the first thing on the line, and begins an item if it has at most
nine digits and something between it and the next word. -/
theorem orderedItem?_number (some_digit : digits ≠ []) (all : digits.all Char.isDigit = true)
    (delimiter : glyph = '.' ∨ glyph = ')') (follows : rest.Breaks ∨ rest.BeginsWord) :
    ∃ word ts, firstLine (digits ++ [glyph] ++ (Text.spaces k ++ rest)) = ⟨.text, word⟩ :: ts ∧
      ∃ style : ListStyle, style.glyph = glyph ∧ orderedItem? word ts =
        if digits.length ≤ 9 then
          (bareAfterMarker? (firstLine (Text.spaces k ++ rest))).map (item style)
        else none := by
  have words : ∀ c ∈ digits, isWordChar c = true := fun c member => (word_of_digits all c member).1
  rcases delimiter with rfl | rfl
  · by_cases apart : k ≠ 0 ∨ rest.Breaks
    · have stops : ∀ c ∈ (Text.spaces k ++ rest).head?, isWordChar c = false := by
        cases k with
        | zero =>
          exact (Text.head_of_follows follows).2 (apart.resolve_left (absurd rfl))
        | succ k =>
          rintro _ ⟨⟩
          rfl
      exact ⟨_, _, firstLine_point words stops, .period, rfl, orderedItem?_point some_digit all _⟩
    · -- the word behind a point without a space is no number, and takes the point in
      have glued : k = 0 ∧ ¬rest.Breaks := by simpa using apart
      have none_bare : bareAfterMarker? (firstLine (Text.spaces k ++ rest)) = none := by
        rw [← Option.not_isSome_iff_eq_none, bareAfterMarker?_spaces follows]
        exact apart
      obtain ⟨more, ts, some_more, line⟩ := firstLine_glued words (follows.resolve_left glued.2)
      refine ⟨digits ++ '.' :: more, ts, ?_, .period, rfl, ?_⟩
      · rw [glued.1]
        exact line
      · rw [orderedItem?_glued some_more, none_bare, Option.map_none, ite_self]
  · refine ⟨digits, ⟨.rparen, [')']⟩ :: firstLine (Text.spaces k ++ rest), ?_, .paren, rfl,
      orderedItem?_paren some_digit all _⟩
    rw [firstLine, List.append_assoc, Token.scan_word words some_digit (by rintro _ ⟨⟩; rfl),
      List.singleton_append, Token.scan_glyph (show markKind? ')' = some .rparen from rfl)]
    rfl

theorem ofCursor_number (some_digit : digits ≠ []) (all : digits.all Char.isDigit = true)
    (delimiter : glyph = '.' ∨ glyph = ')') (follows : rest.Breaks ∨ rest.BeginsWord) :
    (∃ bare, ofCursor ⟨firstLine (digits ++ [glyph] ++ (Text.spaces k ++ rest)), column, base⟩ =
        .item style bare) ↔
      column - base ≤ Cursor.maxIndent ∧ style.glyph = glyph ∧ digits.length ≤ 9 ∧
        (k ≠ 0 ∨ rest.Breaks) := by
  obtain ⟨word, ts, line, style', same, ordered⟩ :=
    orderedItem?_number (k := k) some_digit all delimiter follows
  have glyph_iff : style.glyph = glyph ↔ style = style' := by
    rw [← same]
    exact ⟨ListStyle.glyph_injective, congrArg _⟩
  have starts : ofCursor ⟨⟨.text, word⟩ :: ts, column, base⟩ =
      if column - base ≤ Cursor.maxIndent then (orderedItem? word ts).getD text else text := by
    simp only [ofCursor, Cursor.nearBase, decide_eq_true_eq]
  rw [line, starts, ordered, glyph_iff, ← bareAfterMarker?_spaces follows]
  generalize bareAfterMarker? (firstLine (Text.spaces k ++ rest)) = found
  by_cases near : column - base ≤ Cursor.maxIndent
  · by_cases short : digits.length ≤ 9
    · cases found <;> simp [near, short, eq_comm]
    · simp [near, short]
  · simp [near]

theorem bullet?_word {kind : Kind} (bullet : kind = .dash ∨ kind = .star ∨ kind = .plus)
    (words : ts = [] ∨ ∃ u us, ts = u :: us ∧ u.kind = .text) (style : ListStyle) (space : Text) :
    bullet? style ⟨kind, [glyph]⟩ (⟨.whitespace, space⟩ :: ts) = some (item style false) := by
  have other : isThematicBreak kind (⟨kind, [glyph]⟩ :: ⟨.whitespace, space⟩ :: ts) = false := by
    rcases words with rfl | ⟨u, us, rfl, word⟩
    · rcases bullet with rfl | rfl | rfl <;> rfl
    · rcases bullet with rfl | rfl | rfl <;> simp [isThematicBreak, word]
  rw [bullet?, if_neg (by simp [other])]
  rfl

theorem bullet_cases (bullet : glyph = '-' ∨ glyph = '+' ∨ glyph = '*') :
    ∃ (kind : Kind) (style : ListStyle), markKind? glyph = some kind ∧
      (kind = .dash ∨ kind = .star ∨ kind = .plus) ∧ style.glyph = glyph ∧
      ∀ ts column base, ofCursor ⟨⟨kind, [glyph]⟩ :: ts, column, base⟩ =
        if column - base ≤ Cursor.maxIndent then (bullet? style ⟨kind, [glyph]⟩ ts).getD text
        else text := by
  rcases bullet with rfl | rfl | rfl
  · exact ⟨.dash, .dash, rfl, by simp, rfl, fun _ _ _ => by simp [ofCursor, Cursor.nearBase]⟩
  · exact ⟨.plus, .plus, rfl, by simp, rfl, fun _ _ _ => by simp [ofCursor, Cursor.nearBase]⟩
  · exact ⟨.star, .star, rfl, by simp, rfl, fun _ _ _ => by simp [ofCursor, Cursor.nearBase]⟩

theorem firstLine_box {box : Text}
    (boxed : box = [] ∨ ∃ n, n ≠ 0 ∧ box = Text.spaces n ++ ['[', ' ', ']']) (some_space : k ≠ 0)
    (follows : rest.Breaks ∨ rest.BeginsWord) :
    ∃ space ts, firstLine (box ++ (Text.spaces k ++ rest)) = ⟨.whitespace, space⟩ :: ts ∧
      (ts = [] ∨ ∃ u us, ts = u :: us ∧ u.kind = .text) := by
  have spaced : ∀ n, n ≠ 0 → Text.spaces n ≠ [] := fun n some_space => by
    simpa [Text.spaces] using some_space
  have of_word : ∀ {t : Text}, t.BeginsWord → ∃ u us, firstLine t = u :: us ∧ u.kind = .text := by
    intro t word
    rw [firstLine, Token.scan_of_word word]
    exact ⟨_, _, rfl, rfl⟩
  rcases boxed with rfl | ⟨n, some_blank, rfl⟩
  · refine ⟨Text.spaces k, firstLine rest, ?_, ?_⟩
    · rw [List.nil_append, firstLine, Token.scan_blank (spaces_indent k) (spaced k some_space)
        (Text.head_of_follows follows).1]
      rfl
    · exact follows.imp Token.firstLine_of_breaks of_word
  · refine ⟨Text.spaces n, firstLine (['[', ' ', ']'] ++ (Text.spaces k ++ rest)), ?_,
      Or.inr (of_word ⟨'[', _, rfl, rfl⟩)⟩
    rw [List.append_assoc, firstLine, Token.scan_blank (spaces_indent n) (spaced n some_blank)
      (by rintro _ ⟨⟩; rfl)]
    rfl

/-- Where a bullet with its blanks, and maybe a task box, begins an item. -/
theorem ofCursor_bullet {box : Text} (bullet : glyph = '-' ∨ glyph = '+' ∨ glyph = '*')
    (boxed : box = [] ∨ ∃ n, n ≠ 0 ∧ box = Text.spaces n ++ ['[', ' ', ']']) (some_space : k ≠ 0)
    (follows : rest.Breaks ∨ rest.BeginsWord) :
    (∃ bare, ofCursor ⟨firstLine (glyph :: box ++ (Text.spaces k ++ rest)), column, base⟩ =
        .item style bare) ↔ column - base ≤ Cursor.maxIndent ∧ style.glyph = glyph := by
  obtain ⟨space, ts, line, words⟩ := firstLine_box boxed some_space follows
  obtain ⟨kind, style', mark, is_bullet, same, starts⟩ := bullet_cases bullet
  have cut : firstLine (glyph :: box ++ (Text.spaces k ++ rest)) =
      ⟨kind, [glyph]⟩ :: ⟨.whitespace, space⟩ :: ts := by
    rw [← line, firstLine, List.cons_append, Token.scan_glyph mark]
    rcases is_bullet with rfl | rfl | rfl <;> rfl
  have glyph_iff : style.glyph = glyph ↔ style = style' := by
    rw [← same]
    exact ⟨ListStyle.glyph_injective, congrArg _⟩
  rw [cut, starts, bullet?_word is_bullet words, glyph_iff]
  by_cases near : column - base ≤ Cursor.maxIndent <;> simp [near, eq_comm]

theorem near_of_item {c : Cursor} {bare : Bool} (starts : ofCursor c = .item style bare) :
    c.column - c.base ≤ Cursor.maxIndent := by
  by_contra far
  have outside : c.nearBase = false := decide_eq_false far
  rw [ofCursor, outside] at starts
  split at starts <;> cases starts

theorem ofCursor_number_word (number : isItemNumber digits = true) (delimiter : glyph = '.' ∨ glyph = ')')
    (same : style.glyph = glyph) (some_space : k ≠ 0) (word : rest.BeginsWord)
    (near : column - base ≤ Cursor.maxIndent) :
    ofCursor ⟨firstLine (digits ++ [glyph] ++ (Text.spaces k ++ rest)), column, base⟩ =
      .item style false := by
  simp only [isItemNumber, Bool.and_eq_true, decide_eq_true_eq] at number
  obtain ⟨⟨some_digit, short⟩, all⟩ := number
  obtain ⟨first, ts, line, style', same', ordered⟩ :=
    orderedItem?_number (k := k) some_digit all delimiter (Or.inr word)
  have spaced : Text.spaces k ≠ [] := by simpa [Text.spaces] using some_space
  have blank : bareAfterMarker? (firstLine (Text.spaces k ++ rest)) = some false := by
    rw [firstLine, Token.scan_blank (spaces_indent k) spaced (Text.head_of_follows (Or.inr word)).1]
    rfl
  rw [line, ListStyle.glyph_injective (same.trans same'.symm)]
  simp [ofCursor, Cursor.nearBase, near, ordered, short, blank]

theorem ofCursor_bullet_word (bullet : glyph = '-' ∨ glyph = '+' ∨ glyph = '*')
    (same : style.glyph = glyph) (some_space : k ≠ 0) (word : rest.BeginsWord)
    (near : column - base ≤ Cursor.maxIndent) :
    ofCursor ⟨firstLine (glyph :: (Text.spaces k ++ rest)), column, base⟩ = .item style false := by
  obtain ⟨kind, style', mark, is_bullet, same', starts⟩ := bullet_cases bullet
  obtain ⟨space, ts, line, words⟩ := firstLine_box (Or.inl rfl) some_space (Or.inr word)
  have cut : firstLine (glyph :: (Text.spaces k ++ rest)) =
      ⟨kind, [glyph]⟩ :: ⟨.whitespace, space⟩ :: ts := by
    rw [← line, firstLine, List.nil_append, Token.scan_glyph mark]
    rcases is_bullet with rfl | rfl | rfl <;> rfl
  rw [cut, starts, if_pos near, bullet?_word is_bullet words,
    ListStyle.glyph_injective (same.trans same'.symm)]
  rfl

theorem ofCursor_marks (marks : style.Marks mark) (some_space : k ≠ 0) (word : rest.BeginsWord)
    (near : column - base ≤ Cursor.maxIndent) :
    ofCursor ⟨firstLine (mark ++ (Text.spaces k ++ rest)), column, base⟩ = .item style false := by
  cases style with
  | dash =>
    rw [show mark = ['-'] from marks]
    exact ofCursor_bullet_word (by simp) rfl some_space word near
  | star =>
    rw [show mark = ['*'] from marks]
    exact ofCursor_bullet_word (by simp) rfl some_space word near
  | plus =>
    rw [show mark = ['+'] from marks]
    exact ofCursor_bullet_word (by simp) rfl some_space word near
  | period =>
    obtain ⟨digits, number, rfl⟩ := marks
    exact ofCursor_number_word number (by simp) rfl some_space word near
  | paren =>
    obtain ⟨digits, number, rfl⟩ := marks
    exact ofCursor_number_word number (by simp) rfl some_space word near

end BlockStart

end MarkdownEditing
