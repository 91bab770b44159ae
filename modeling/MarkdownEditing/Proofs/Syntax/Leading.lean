import MarkdownEditing.Proofs.Syntax.Continuing

namespace MarkdownEditing

namespace Continuation

variable {cs ds : List Container} {c : Cursor} {style : ListStyle} {column : Nat}

theorem ofLine_append (full : (ofLine cs c).count = cs.length) (ds : List Container) :
    (ofLine (cs ++ ds) c).count = cs.length + (ofLine ds (ofLine cs c).cursor).count ∧
      (ofLine (cs ++ ds) c).cursor = (ofLine ds (ofLine cs c).cursor).cursor := by
  fun_induction ofLine cs c with
  | case1 c => exact ⟨(Nat.zero_add _).symm, rfl⟩
  | case2 cs c t ts shape mark inner ih =>
    obtain ⟨count, cursor⟩ := ih (Nat.succ.inj full)
    rw [List.cons_append, ofLine]
    simp only [shape, if_pos mark, count, cursor, List.length_cons]
    exact ⟨Nat.add_right_comm _ _ 1, rfl⟩
  | case3 cs c t ts shape other => cases full
  | case4 cs c shape => cases full
  | case5 style cs c inner none_count => cases full
  | case6 style cs c inner some_count ih =>
    obtain ⟨count, cursor⟩ := ih (Nat.succ.inj full)
    have same : inner.count = cs.length := Nat.succ.inj full
    have some_left : cs.length ≠ 0 := fun none_left => some_count (same.trans none_left)
    rw [List.cons_append, ofLine]
    simp only [count, cursor, List.length_cons]
    rw [if_neg fun none_left => some_left (Nat.eq_zero_of_add_eq_zero_right none_left)]
    exact ⟨Nat.add_right_comm _ _ 1, rfl⟩
  | case7 column cs c outdented => cases full
  | case8 column cs c inside inner ih =>
    obtain ⟨count, cursor⟩ := ih (Nat.succ.inj full)
    rw [List.cons_append, ofLine]
    simp only [if_neg inside, count, cursor, List.length_cons]
    exact ⟨Nat.add_right_comm _ _ 1, rfl⟩

theorem full_of_append (last : ∀ style, cs.getLast? ≠ some (.list style))
    (more : cs.length ≤ (ofLine (cs ++ ds) c).count) : (ofLine cs c).count = cs.length := by
  have further : ∀ {x : Container} {cs : List Container},
      (∀ style, (x :: cs).getLast? ≠ some (.list style)) →
        ∀ style, cs.getLast? ≠ some (.list style) := by
    intro x cs last style
    cases cs with
    | nil => simp
    | cons next cs => exact List.getLast?_cons_cons ▸ last style
  fun_induction ofLine cs c with
  | case1 c => rfl
  | case2 cs c t ts shape mark inner ih =>
    rw [List.cons_append, ofLine] at more
    simp only [shape, if_pos mark, List.length_cons] at more
    exact congrArg Nat.succ (ih (further last) (Nat.le_of_succ_le_succ more))
  | case3 cs c t ts shape other =>
    rw [List.cons_append, ofLine] at more
    simp [shape, other, stop] at more
  | case4 cs c shape =>
    rw [List.cons_append, ofLine] at more
    simp [shape, stop] at more
  -- Nothing inside the list goes on, so it would have to be the last container.
  | case5 style cs c inner none_count ih =>
    rw [List.cons_append, ofLine] at more
    split at more
    · cases more
    · have none_left : cs.length = 0 :=
        (ih (further last) (Nat.le_of_succ_le_succ more)).symm.trans none_count
      rw [List.eq_nil_of_length_eq_zero none_left] at last
      exact absurd rfl (last style)
  | case6 style cs c inner some_count ih =>
    rw [List.cons_append, ofLine] at more
    split at more
    · cases more
    · exact congrArg Nat.succ (ih (further last) (Nat.le_of_succ_le_succ more))
  | case7 column cs c outdented =>
    rw [List.cons_append, ofLine, if_pos outdented] at more
    simp [stop] at more
  | case8 column cs c inside inner ih =>
    rw [List.cons_append, ofLine, if_neg inside] at more
    exact congrArg Nat.succ (ih (further last) (Nat.le_of_succ_le_succ more))

/-- A line leaves a list where it begins something before the content of the list's item. -/
theorem ofLine_outdented (style : ListStyle) (ds : List Container)
    (outdented : c.skipBlank.rest ≠ [] ∧ c.skipBlank.column < column) :
    ofLine (.list style :: .item column :: ds) c = stop c := by
  rw [ofLine, ofLine, if_pos outdented]
  rfl

theorem ofLine_indented (style : ListStyle) (ds : List Container)
    (inside : ¬(c.skipBlank.rest ≠ [] ∧ c.skipBlank.column < column)) :
    0 < (ofLine (.list style :: .item column :: ds) c).count := by
  rw [ofLine, ofLine, if_neg inside]
  simp

/-- A line departs from containers at an open list exactly when it goes on with what is around the
list and then begins something before the content of the list's item. -/
theorem departs_iff (last : ∀ style, cs.getLast? ≠ some (.list style)) :
    (ofLine (cs ++ .list style :: .item column :: ds) c).count = cs.length ↔
      (ofLine cs c).count = cs.length ∧ (ofLine cs c).cursor.skipBlank.rest ≠ [] ∧
        (ofLine cs c).cursor.skipBlank.column < column := by
  constructor
  · intro departs
    have full := full_of_append last (Nat.le_of_eq departs.symm)
    refine ⟨full, ?_⟩
    obtain ⟨total, _⟩ := ofLine_append full (.list style :: .item column :: ds)
    by_contra inside
    have some_count := ofLine_indented style ds inside
    omega
  · rintro ⟨full, outdented⟩
    rw [(ofLine_append full _).1, ofLine_outdented style ds outdented]
    rfl

theorem cursor_of_departs (last : ∀ style, cs.getLast? ≠ some (.list style))
    (departs : (ofLine (cs ++ .list style :: .item column :: ds) c).count = cs.length) :
    (ofLine (cs ++ .list style :: .item column :: ds) c).cursor = (ofLine cs c).cursor := by
  obtain ⟨full, outdented⟩ := (departs_iff last).mp departs
  rw [(ofLine_append full _).2, ofLine_outdented style ds outdented]
  rfl

def Markup (tokens : List Token) : Prop := ∀ t ∈ tokens, t.kind = .whitespace ∨ t.kind = .gt

/-- Tokens that begin neither with a blank nor with a quote mark. -/
def Content (tokens : List Token) : Prop :=
  ∃ t ts, tokens = t :: ts ∧ t.kind ≠ .whitespace ∧ t.kind ≠ .gt

variable {f g w w' : List Token} {base : Nat}

theorem Markup.skipBlank (markup : Markup f) (column base : Nat) :
    ∃ g column' blank, Markup g ∧ ∀ w, Content w →
      (⟨f ++ w, column, base⟩ : Cursor).skipBlank = ⟨g ++ w, column', base⟩ ∧
        (⟨f ++ w, column, base⟩ : Cursor).blank = blank := by
  cases f with
  | nil =>
    refine ⟨[], column, [], markup, ?_⟩
    rintro w ⟨t, ts, rfl, visible, _⟩
    simp [Cursor.skipBlank, Cursor.blank, visible, Text.advance]
  | cons t ts =>
    obtain ⟨first, later⟩ := List.forall_mem_cons.mp markup
    by_cases blank : t.kind = .whitespace
    · refine ⟨ts, Text.advance Cursor.tabStop column t.text, [t], later, ?_⟩
      intro w _
      simp [Cursor.skipBlank, Cursor.blank, blank]
    · refine ⟨t :: ts, column, [], markup, ?_⟩
      intro w _
      simp [Cursor.skipBlank, Cursor.blank, blank, Text.advance]

theorem ofLine_quote (cs : List Container) (markup : Markup f) (column base : Nat) :
    (∀ w, Content w → ofLine (.quote :: cs) ⟨f ++ w, column, base⟩ = stop ⟨f ++ w, column, base⟩) ∨
      ∃ lead g column' base', Markup g ∧ ∀ w, Content w →
        ofLine (.quote :: cs) ⟨f ++ w, column, base⟩ =
          let inner := ofLine cs ⟨g ++ w, column', base'⟩
          ⟨inner.count + 1, lead ++ inner.lead, inner.cursor⟩ := by
  obtain ⟨g, skipped, blank, g_markup, skips⟩ := markup.skipBlank column base
  cases g with
  | nil =>
    refine Or.inl fun w content => ?_
    obtain ⟨skip, _⟩ := skips w content
    obtain ⟨t, ts, rfl, _, other⟩ := content
    rw [ofLine, skip]
    simp [other]
  | cons t g =>
    by_cases mark : t.kind = .gt ∧ skipped - base ≤ Cursor.maxIndent
    · obtain ⟨_, later⟩ := List.forall_mem_cons.mp g_markup
      obtain ⟨_, _, space, _, spaces⟩ := Markup.skipBlank later (skipped + 1) (skipped + 1)
      refine Or.inr ⟨blank.map Tree.leaf ++ [Tree.token .quoteMark [t]], g, skipped + 1,
        skipped + 1 + space.length, later, fun w content => ?_⟩
      obtain ⟨skip, same⟩ := skips w content
      have after : Cursor.afterQuoteMark skipped (g ++ w) =
          ⟨g ++ w, skipped + 1, skipped + 1 + space.length⟩ := by
        rw [Cursor.afterQuoteMark, (spaces w content).2]
      rw [ofLine, skip, same]
      simp only [List.cons_append]
      rw [if_pos ⟨mark.1, decide_eq_true mark.2⟩, after]
      simp
    · refine Or.inl fun w content => ?_
      rw [ofLine, (skips w content).1]
      simp only [List.cons_append]
      rw [if_neg fun both => mark ⟨both.1, of_decide_eq_true both.2⟩]

/-- How a line goes on with containers shows in the quote marks and blanks in front of its content. -/
theorem ofLine_markup (cs : List Container) (markup : Markup f) (column base : Nat) :
    ∃ count lead g column' base', Markup g ∧ ∀ w, Content w →
      ofLine cs ⟨f ++ w, column, base⟩ = ⟨count, lead, ⟨g ++ w, column', base'⟩⟩ := by
  -- one container after the other, each with what the ones around it leave of the markup
  induction cs generalizing f column base with
  | nil => exact ⟨0, [], f, column, base, markup, fun w _ => rfl⟩
  | cons container cs ih =>
    cases container with
    | quote =>
      rcases ofLine_quote cs markup column base with stops | ⟨lead, g, skipped, base', later, marked⟩
      · exact ⟨0, [], f, column, base, markup, stops⟩
      · obtain ⟨count, lead', h, column', base'', h_markup, inner⟩ := ih later skipped base'
        refine ⟨count + 1, lead ++ lead', h, column', base'', h_markup, fun w content => ?_⟩
        rw [marked w content, inner w content]
    | list style =>
      obtain ⟨count, lead, h, column', base', h_markup, inner⟩ := ih markup column base
      by_cases none_count : count = 0
      · refine ⟨0, [], f, column, base, markup, fun w content => ?_⟩
        rw [ofLine, inner w content, if_pos none_count]
        rfl
      · refine ⟨count + 1, lead, h, column', base', h_markup, fun w content => ?_⟩
        rw [ofLine, inner w content, if_neg none_count]
    | item start =>
      obtain ⟨g, skipped, blank, g_markup, skips⟩ := markup.skipBlank column base
      have some_left : ∀ w, Content w → g ++ w ≠ [] := by
        rintro w ⟨t, ts, rfl, _⟩
        simp
      by_cases outdented : skipped < start
      · refine ⟨0, [], f, column, base, markup, fun w content => ?_⟩
        rw [ofLine, (skips w content).1, if_pos ⟨some_left w content, outdented⟩]
        rfl
      · obtain ⟨count, lead, h, column', base', h_markup, inner⟩ := ih markup column (max base start)
        refine ⟨count + 1, lead, h, column', base', h_markup, fun w content => ?_⟩
        rw [ofLine, (skips w content).1, if_neg fun both => outdented both.2, inner w content]

theorem content_of_markup (cs : List Container) (markup : Markup f) :
    ∃ count g column base, Markup g ∧ ∀ w, Content w →
      (ofLine cs ⟨f ++ w, 0, 0⟩).count = count ∧
        (ofLine cs ⟨f ++ w, 0, 0⟩).cursor.skipBlank = ⟨g ++ w, column, base⟩ := by
  obtain ⟨count, lead, g, column, base, g_markup, reads⟩ := ofLine_markup cs markup 0 0
  obtain ⟨h, skipped, _, h_markup, skips⟩ := g_markup.skipBlank column base
  refine ⟨count, h, skipped, base, h_markup, fun w content => ?_⟩
  rw [reads w content]
  exact ⟨rfl, (skips w content).1⟩

end Continuation

end MarkdownEditing
