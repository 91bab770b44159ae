import MarkdownEditing.Proofs.Syntax.Containers

namespace MarkdownEditing

namespace Visit

def within (around : List (Kind × Nat)) (pos : Nat) : List Visit → List (Kind × Nat)
  | [] => around
  | .enter kind :: visits => within ((kind, pos) :: around) pos visits
  | .leaf _ raw :: visits => within around (pos + (Token.join raw).size) visits
  | .leave :: visits => within around.tail pos visits

theorem within_append (around : List (Kind × Nat)) (pos : Nat) (a b : List Visit) :
    within around pos (a ++ b) = within (within around pos a) (pos + (text a).size) b := by
  fun_induction within around pos a with
  | case1 => simp
  | case2 around pos kind visits ih => rw [List.cons_append, within, ih, text_enter]
  | case3 around pos kind raw visits ih =>
    rw [List.cons_append, within, ih, text_leaf, Text.size_append, Nat.add_assoc]
  | case4 around pos visits ih => rw [List.cons_append, within, ih, text_leave]

end Visit

namespace Tree

open Visit (within)

mutual

theorem within_walk (t : Tree) (around : List (Kind × Nat)) (pos : Nat) (rest : List Visit) :
    within around pos (t.walk ++ rest) = within around (pos + t.size) rest := by
  cases t with
  | token kind raw => rw [walk_token, List.singleton_append, within, size]
  | node kind children =>
    rw [walk_node, List.cons_append, List.append_assoc, within, within_walkAll children,
      List.singleton_append, within, List.tail_cons, size]

theorem within_walkAll (ts : List Tree) (around : List (Kind × Nat)) (pos : Nat)
    (rest : List Visit) :
    within around pos (walkAll ts ++ rest) = within around (pos + sizeAll ts) rest := by
  cases ts with
  | nil => rw [walkAll_nil, List.nil_append, sizeAll, Nat.add_zero]
  | cons t ts =>
    rw [walkAll_cons, List.append_assoc, within_walk t, within_walkAll ts, sizeAll, Nat.add_assoc]

end

end Tree

namespace Place

theorem within_before {start : Nat} {above : List Level} (starts : Starts start above) :
    Visit.within [] 0 (before above) = above.map fun level => (level.kind, level.start) := by
  induction above generalizing start with
  | nil => rfl
  | cons level above ih =>
    rw [before, Visit.within_append, ih starts.2, size_before starts.2, Nat.zero_add, Visit.within]
    have inner := Tree.within_walkAll level.left.reverse
      ((level.kind, level.start) :: above.map fun level => (level.kind, level.start)) level.start []
    rw [List.append_nil, Visit.within] at inner
    rw [inner, List.map_cons]

end Place

namespace Stack

open Visit (within)

variable {s s' s'' : Stack} {p p' : List Visit → Prop} {tokens ending : List Token}

/-- What is read after `s` begins items only behind walks with the property `p`. -/
def Begins (s s' : Stack) (p : List Visit → Prop) : Prop :=
  ∃ more, s'.walk = s.walk ++ more ∧
    ∀ x y, more = x ++ .enter .listItem :: y → p (s.walk ++ x)

theorem Begins.trans (first : s.Begins s' p) (second : s'.Begins s'' p) : s.Begins s'' p := by
  obtain ⟨more, walk, begins⟩ := first
  obtain ⟨more', walk', begins'⟩ := second
  refine ⟨more ++ more', by rw [walk', walk, List.append_assoc], ?_⟩
  intro x y parts
  rcases List.append_eq_append_iff.mp parts with ⟨mid, rfl, rest⟩ | ⟨mid, rfl, rest⟩
  · rw [← List.append_assoc, ← walk]
    exact begins' mid y rest
  · cases mid with
    | nil =>
      have here := begins' [] y rest.symm
      rw [List.append_nil, walk, List.append_nil] at here
      exact here
    | cons visit mid =>
      obtain ⟨rfl, rfl⟩ := List.cons.inj rest
      exact begins x mid rfl

theorem Begins.mono (begins : s.Begins s' p) (weaker : ∀ visits, p visits → p' visits) :
    s.Begins s' p' := by
  obtain ⟨more, walk, begins⟩ := begins
  exact ⟨more, walk, fun x y parts => weaker _ (begins x y parts)⟩

theorem Grows.begins (grows : s.Grows s') : s.Begins s' p := by
  obtain ⟨more, walk, calm⟩ := grows
  refine ⟨more, walk, fun x y parts => ?_⟩
  have inside : .enter .listItem ∈ more := by rw [parts]; simp
  exact absurd rfl (calm.plain _ inside).2

theorem begins_push (closed : s.leaf = none) (c : Container) (here : c.kind = .listItem → p s.walk) :
    s.Begins (s.push c) p := by
  refine ⟨_, walk_push closed c, fun x y parts => ?_⟩
  cases x with
  | nil =>
    rw [List.nil_append, List.cons.injEq, Visit.enter.injEq] at parts
    rw [List.append_nil]
    exact here parts.1
  | cons visit x => simp at parts

def Late (n : Nat) (visits : List Visit) : Prop :=
  ∃ kind start around, within [] 0 visits = (kind, start) :: around ∧ n ≤ start

theorem Late.mono {m n : Nat} {visits : List Visit} (late : Late n visits) (less : m ≤ n) :
    Late m visits := by
  obtain ⟨kind, start, around, within, behind⟩ := late
  exact ⟨kind, start, around, within, Nat.le_trans less behind⟩

theorem listed_cases (closed : s.leaf = none) (style : ListStyle) :
    (s.inList style = true ∧ (if s.inList style then s else s.push (.list style)).walk = s.walk) ∨
      Late (Visit.text s.walk).size (if s.inList style then s else s.push (.list style)).walk := by
  by_cases open_list : s.inList style = true
  · rw [if_pos open_list]
    exact Or.inl ⟨open_list, rfl⟩
  · rw [if_neg open_list, walk_push closed]
    refine Or.inr ⟨style.listKind, (Visit.text s.walk).size, within [] 0 s.walk, ?_, Nat.le_refl _⟩
    rw [Visit.within_append, within, within, Nat.zero_add]
    rfl

/-- An item that begins as the blocks at the cursor are opened is in a list that begins there too,
unless it is the first thing to begin and goes into the open list. -/
theorem begins_openBlocks {c : Cursor} (closed : s.leaf = none) :
    s.Begins (s.openBlocks c ending) fun visits =>
      Late (Visit.text s.walk).size visits ∨
        ∃ style bare, s.inList style = true ∧ BlockStart.ofCursor c.skipBlank = .item style bare ∧
          (Visit.text visits).size = (Visit.text s.walk).size + Text.size (Token.join c.blank) := by
  -- after a quote mark or the mark of an item, nothing is in the open list any more
  fun_induction openBlocks s c ending with
  | case1 s c led t ts shape quote next inner ih =>
    have still_closed := leaf_emit_eq_none closed (c.blank.map Tree.leaf)
    have mark := Tree.IsLeaf.calm ⟨.quoteMark, [t], List.cons_ne_nil t [], rfl⟩
    have marked := grows_emit (led.push .quote) (Tree.calm_cons mark (Tree.calm_leaves next.blank))
    refine (grows_emit s (Tree.calm_leaves c.blank)).begins.trans
      ((begins_push still_closed .quote (by rintro ⟨⟩)).trans (marked.begins.trans
        ((ih (leaf_emit_eq_none rfl _)).mono ?_)))
    rintro visits (late | ⟨style, bare, in_list, _⟩)
    · refine Or.inl (late.mono ?_)
      simp only [inner, led, walk_emit, walk_push still_closed, Visit.text_append, Text.size_append]
      omega
    · rw [inList_iff, layers_emit] at in_list
      cases in_list
  | case2 s c led style bare t ts shape item marker column rest next listed inner ih =>
    have still_closed := leaf_emit_eq_none closed (c.blank.map Tree.leaf)
    have marked := grows_emit (listed.push (.item next.base))
      (Tree.calm_append (Tree.calm_glue .listMark marker) (Tree.calm_leaves next.blank))
    have listed_closed : listed.leaf = none := leaf_listed still_closed style
    refine (grows_emit s (Tree.calm_leaves c.blank)).begins.trans
      ((grows_listed still_closed style).begins.trans
        ((begins_push listed_closed (.item next.base) fun _ => ?_).trans (marked.begins.trans
          ((ih (leaf_emit_eq_none rfl _)).mono ?_))))
    · rcases listed_cases still_closed style with ⟨open_list, same⟩ | late
      · refine Or.inr ⟨style, bare, ?_, item, ?_⟩
        · rw [inList_iff, layers_emit] at open_list
          exact inList_iff.mpr open_list
        · have same_walk : listed.walk = led.walk := same
          rw [same_walk, walk_emit, Visit.text_append, Text.size_append, Tree.text_walkAll,
            Tree.rawAll_map_leaf]
      · refine Or.inl (late.mono ?_)
        rw [walk_emit, Visit.text_append, Text.size_append]
        omega
    · rintro visits (late | ⟨style, bare, in_list, _⟩)
      · refine Or.inl (late.mono ?_)
        have same_text : listed.raw = led.raw := raw_listed still_closed style
        simp only [inner, led, text_walk, raw_emit, raw_push listed_closed, same_text,
          Token.join_append, Text.size_append]
        omega
      · rw [inList_iff, layers_emit] at in_list
        cases in_list
  | case3 s c led no_quote no_item =>
    exact ((grows_emit s (Tree.calm_leaves c.blank)).trans
      (grows_openLeaf (leaf_emit_eq_none closed _) _ _ _)).begins

/-- A list that is innermost once a line has closed what it does not go on with was left by the line:
it waits for its next item. -/
theorem containers_of_inList {c : Continuation} {start : BlockStart} {style : ListStyle}
    (stops : Continuation.Stops s.containers c)
    (in_list : (s.closeAfter c.count start).inList style = true) :
    s.containers[c.count]? = some (.list style) := by
  have length := s.length_containers
  rcases s.closeAfter_cases c.count start with ⟨style', bare, here, _, same⟩ | ⟨_, same⟩
  · have inside := (List.getElem?_eq_some_iff.mp here).1
    rw [same, inList_iff, layers_popMany] at in_list
    exact (topStyle?_drop (by omega) in_list).2
  · -- all that the line goes on with is left, and that does not end in a list
    rw [same, inList_iff, layers_popMany] at in_list
    obtain ⟨some_count, here⟩ := topStyle?_drop (length ▸ stops.le) in_list
    exact absurd here (stops.kept some_count style)

/-- A line goes on with all that is around an open list and begins an item of its style. -/
def NextItem (s : Stack) (c : Continuation) (style : ListStyle) (bare : Bool) : Prop :=
  s.containers[c.count]? = some (.list style) ∧
    BlockStart.ofCursor c.cursor.skipBlank = .item style bare

/-- An item that begins on a line is in a list that begins there too, unless it is the first thing to
begin there and goes into a list whose items the line goes on with. -/
theorem begins_addLine (between : s.Between) :
    s.Begins (s.addLine tokens ending) fun visits =>
      Late (Visit.text s.walk).size visits ∨
        ∃ style bare, s.NextItem (Continuation.ofLine s.containers ⟨tokens, 0, 0⟩) style bare ∧
          (Visit.text visits).size = (Visit.text s.walk).size + Text.size (Token.join
            (Tree.rawAll (Continuation.ofLine s.containers ⟨tokens, 0, 0⟩).lead ++
              (Continuation.ofLine s.containers ⟨tokens, 0, 0⟩).cursor.blank)) := by
  have stops := between.stops_ofLine ⟨tokens, 0, 0⟩
  rcases s.grows_addLine tokens ending with grows | ⟨c, read, made, _, single, _⟩
  · exact grows.begins
  · rw [read] at stops
    rw [made, read]
    have text : Visit.text (s.cutBack c).walk =
        Visit.text s.walk ++ Token.join (Tree.rawAll c.lead) := by
      rw [text_walk, raw_cutBack, Token.join_append, text_walk]
    refine (s.grows_cutBack single).begins.trans ((begins_openBlocks (leaf_cutBack s c)).mono ?_)
    rintro visits (late | ⟨style, bare, in_list, starts, size⟩)
    · refine Or.inl (late.mono ?_)
      rw [text, Text.size_append]
      omega
    · rw [cutBack, inList_iff, layers_emit, ← inList_iff] at in_list
      rw [← containers_closeLeaf] at stops
      have waits := containers_of_inList stops in_list
      rw [containers_closeLeaf] at waits
      refine Or.inr ⟨style, bare, ⟨waits, starts⟩, ?_⟩
      rw [size, text, Text.size_append, Token.join_append, Text.size_append]
      omega

end Stack

end MarkdownEditing
