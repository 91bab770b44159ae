import MarkdownEditing.Proofs.Syntax.Containers
import MarkdownEditing.Proofs.Syntax.Delimited

namespace MarkdownEditing

namespace Tree

variable {mark : Kind} {marks info tokens : List Token} {rest children us : List Tree}
  {more : Prop}

/-- The children of a fenced code block are a run of marks, more tokens of the same line that do not
go on with it, and a rest that begins with the line break. -/
structure OpeningLine (mark : Kind) (marks info : List Token) (rest children : List Tree) :
    Prop where
  parts : children = glue .codeMark marks ++ info.map leaf ++ rest
  delimiter : mark = .backtick ∨ mark = .tilde
  some_marks : marks ≠ []
  same : ∀ t ∈ marks, t.kind = mark
  ends : ∀ t ∈ info.head?, t.kind ≠ mark
  single : ∀ t ∈ info, t.kind ≠ .newline
  broken : ∀ c ∈ rest.head?, ∃ t, c = leaf t ∧ t.kind = .newline

def Opens (more : Prop) (children : List Tree) : Prop :=
  ∃ mark marks info rest, OpeningLine mark marks info rest children ∧ (more → rest ≠ [])

theorem Opens.imp {more' : Prop} (opens : Opens more children) (weaker : more' → more) :
    Opens more' children := by
  obtain ⟨mark, marks, info, rest, line, broken⟩ := opens
  exact ⟨mark, marks, info, rest, line, fun goes_on => broken (weaker goes_on)⟩

theorem Opens.append (opens : Opens more children) (goes_on : more) (more' : Prop)
    (us : List Tree) : Opens more' (children ++ us) := by
  obtain ⟨mark, marks, info, rest, line, broken⟩ := opens
  have some_rest := broken goes_on
  refine ⟨mark, marks, info, rest ++ us, ⟨?_, line.delimiter, line.some_marks, line.same, line.ends,
    line.single, ?_⟩, fun _ => List.append_ne_nil_of_left_ne_nil some_rest us⟩
  · rw [line.parts, List.append_assoc]
  · rw [List.head?_append_of_ne_nil _ some_rest]
    exact line.broken

theorem opens_of_fence {length : Nat} {ending : List Token}
    (read : (BlockStart.fence mark length).ReadFrom tokens)
    (plain : ∀ t ∈ tokens, t.kind ≠ .newline) (ended : ∀ t ∈ ending.head?, t.kind = .newline)
    (goes_on : more → ending ≠ []) :
    Opens more (glue .codeMark (tokens.take length) ++ (tokens.drop length).map leaf ++
      ending.map leaf) := by
  cases read with
  | fence mark tokens delimiter long =>
    obtain ⟨marks, info, parts, width, same, ends⟩ := Inline.split_run mark tokens
    rw [width] at long ⊢
    rw [parts, List.forall_mem_append] at plain
    refine ⟨mark, marks, info, ending.map leaf,
      ⟨?_, delimiter, List.ne_nil_of_length_pos (by omega), same, ends, plain.2, ?_⟩, ?_⟩
    · rw [parts, List.take_left, List.drop_left]
    · intro tree first
      rw [List.head?_map] at first
      obtain ⟨t, head, rfl⟩ := Option.map_eq_some_iff.mp first
      exact ⟨t, rfl, ended t head⟩
    · intro more
      rw [ne_eq, List.map_eq_nil_iff]
      exact goes_on more

def Fronted (t : Tree) : Prop := Everywhere (fun kind ts => kind = .fencedCode → Opens False ts) t

theorem fronted_node {kind : Kind} (other : kind ≠ .fencedCode)
    (inside : ∀ c ∈ children, c.Fronted) : (node kind children).Fronted :=
  .node (fun fence => absurd fence other) inside

theorem fronted_leaves (leaves : ∀ c ∈ us, c.isNode = false) : ∀ c ∈ us, c.Fronted :=
  everywhere_of_leaves leaves

theorem fronted_parse (tokens : List Token) : ∀ c ∈ Inline.parse tokens, c.Fronted := by
  apply Inline.forall_parse
  · rintro t ⟨kind, raw, _, rfl⟩
    exact .token kind raw
  · rintro kind children (rfl | rfl | rfl | rfl) inside <;> exact fronted_node (by decide) inside

end Tree

open MarkdownEditing.Tree (Spreads fronted_node fronted_leaves fronted_parse leaf_leaves leaf_glue)

namespace Stack

variable {s : Stack} {us : List Tree} {tokens ending : List Token} {more : Prop}

structure Fronted (more : Prop) (s : Stack) : Prop where
  all : s.All Tree.Fronted
  opened : ∀ mark length held, s.leaf = some (.fence mark length, held) → Tree.Opens more held

theorem fronted_of_none (all : s.All Tree.Fronted) (closed : s.leaf = none) : s.Fronted more := by
  refine ⟨all, fun mark length held leaf => ?_⟩
  rw [closed] at leaf
  cases leaf

theorem Fronted.imp {more' : Prop} (fronted : s.Fronted more) (weaker : more' → more) :
    s.Fronted more' :=
  ⟨fronted.all, fun mark length held leaf => (fronted.opened mark length held leaf).imp weaker⟩

theorem Fronted.closeLeaf (fronted : s.Fronted more) : s.closeLeaf.All Tree.Fronted := by
  cases open_leaf : s.leaf with
  | none =>
    rw [closeLeaf_of_none open_leaf]
    exact fronted.all
  | some both =>
    obtain ⟨leaf, held⟩ := both
    have inside := fronted.all.held leaf held open_leaf
    rw [closeLeaf_of_some open_leaf]
    refine ⟨?_, fronted.all.before, fun _ _ none_open => by cases none_open⟩
    refine Spreads.append fronted.all.done ?_
    rw [List.forall_mem_singleton]
    cases leaf with
    | paragraph => exact fronted_node (by decide) inside
    | fence mark length =>
      exact .node (fun _ => (fronted.opened mark length held open_leaf).imp False.elim) inside

theorem fronted_popMany (all : s.All Tree.Fronted) (closed : s.leaf = none) (n : Nat) :
    (s.popMany n).All Tree.Fronted := by
  induction n generalizing s with
  | zero => exact all
  | succ n ih =>
    refine ih ?_ (leaf_pop s)
    rw [pop, closeLeaf_of_none closed]
    split
    · exact all
    · rename_i layer layers shape
      have below := all.before
      rw [shape, List.forall_mem_cons] at below
      refine ⟨?_, below.2, fun _ _ none_open => by cases none_open⟩
      refine Spreads.append below.1 ?_
      rw [List.forall_mem_singleton]
      refine fronted_node ?_ all.done
      cases layer.container with
      | quote => decide
      | list style => cases style <;> decide
      | item column => exact Kind.noConfusion

theorem Fronted.emit (fronted : s.Fronted True) (more : Prop) (inside : ∀ c ∈ us, c.Fronted) :
    (s.emit us).Fronted more := by
  refine ⟨fronted.all.emit inside, fun mark length held leaf => ?_⟩
  cases open_leaf : s.leaf with
  | none =>
    rw [leaf_emit_eq_none open_leaf] at leaf
    cases leaf
  | some both =>
    obtain ⟨own, held'⟩ := both
    rw [emit_of_some open_leaf] at leaf
    cases leaf
    exact (fronted.opened mark length held' open_leaf).append True.intro more us

theorem fronted_openLeaf (all : s.All Tree.Fronted) (closed : s.leaf = none) (c : Cursor)
    (plain : ∀ t ∈ c.rest, t.kind ≠ .newline) (ended : ∀ t ∈ ending.head?, t.kind = .newline)
    (goes_on : more → ending ≠ []) :
    (s.openLeaf (BlockStart.ofCursor c) c.rest ending).Fronted more := by
  have line_end := fronted_leaves (leaf_leaves ending)
  have emitted : ∀ {us}, (∀ c ∈ us, c.Fronted) → (s.emit us).Fronted more := fun inside =>
    fronted_of_none (all.emit inside) (leaf_emit_eq_none closed _)
  have paragraph : Fronted more { s with
      leaf := some (.paragraph, Inline.parse c.rest ++ ending.map Tree.leaf) } := by
    refine ⟨all.withLeaf _ (Spreads.append (fronted_parse _) line_end), ?_⟩
    rintro mark length held ⟨⟩
  have read := BlockStart.readFrom_ofCursor c
  cases start : BlockStart.ofCursor c with
  | blank => exact emitted line_end
  | heading level =>
    refine emitted ?_
    rw [List.forall_mem_singleton]
    exact fronted_node (by decide) (Spreads.append (Spreads.append (fronted_leaves (leaf_glue _ _))
      (fronted_parse _)) line_end)
  | thematicBreak =>
    refine emitted ?_
    rw [List.forall_mem_singleton]
    exact fronted_node (by decide) (Spreads.append (fronted_leaves (leaf_leaves _)) line_end)
  | fence mark length =>
    rw [start] at read
    refine ⟨all.withLeaf _ (Spreads.append (Spreads.append (fronted_leaves (leaf_glue _ _))
      (fronted_leaves (leaf_leaves _))) line_end), ?_⟩
    rintro _ _ _ ⟨⟩
    exact Tree.opens_of_fence read plain ended goes_on
  | quote | item _ _ | text => exact paragraph

theorem fronted_openBlocks {c : Cursor} (all : s.All Tree.Fronted) (closed : s.leaf = none)
    (plain : ∀ t ∈ c.rest, t.kind ≠ .newline) (ended : ∀ t ∈ ending.head?, t.kind = .newline)
    (goes_on : more → ending ≠ []) : (s.openBlocks c ending).Fronted more := by
  have skipped : ∀ {c : Cursor}, (∀ t ∈ c.rest, t.kind ≠ .newline) →
      ∀ t ∈ c.skipBlank.rest, t.kind ≠ .newline :=
    fun line t member => line t (Cursor.mem_of_mem_skipBlank member)
  have blank : ∀ {s : Stack} {c : Cursor}, s.All Tree.Fronted →
      (s.emit (c.blank.map Tree.leaf)).All Tree.Fronted :=
    fun all => all.emit (fronted_leaves (leaf_leaves _))
  fun_induction Stack.openBlocks s c ending with
  | case1 s c led t ts shape quote next inner ih =>
    have line := skipped plain
    rw [shape, List.forall_mem_cons] at line
    refine ih (((blank all).push _).emit ?_) (leaf_emit_eq_none rfl _) (skipped line.2)
    exact List.forall_mem_cons.mpr ⟨.token _ _, fronted_leaves (leaf_leaves _)⟩
  | case2 s c led style bare t ts shape item marker column rest next listed inner ih =>
    have line := skipped plain
    rw [shape, List.forall_mem_cons] at line
    have listed_all : listed.All Tree.Fronted := by
      dsimp only [listed]
      split
      · exact blank all
      · exact (blank all).push _
    refine ih ((listed_all.push _).emit ?_) (leaf_emit_eq_none rfl _)
      (skipped fun u member => line.2 u (List.mem_of_mem_drop member))
    exact Spreads.append (fronted_leaves (leaf_glue _ _)) (fronted_leaves (leaf_leaves _))
  | case3 s c led no_quote no_item =>
    exact fronted_openLeaf (blank all) (leaf_emit_eq_none closed _) _ (skipped plain) ended goes_on

theorem Fronted.fenceLine (fronted : s.Fronted True) (mark : Kind) (length : Nat) (c : Cursor)
    (ending : List Token) : (s.fenceLine mark length c ending).Fronted more := by
  obtain ⟨leaves, _, single, made⟩ := s.fenceLine_leaves mark length c ending
  have inside := fronted_leaves fun t member => (single t member).isNode
  rcases made with same | same
  · rw [same]
    exact fronted.emit more inside
  · rw [same]
    exact fronted_of_none (Fronted.closeLeaf (fronted.emit True inside)) (leaf_closeLeaf _)

theorem Fronted.addLine (fronted : s.Fronted True) (plain : ∀ t ∈ tokens, t.kind ≠ .newline)
    (ended : ∀ t ∈ ending.head?, t.kind = .newline) (goes_on : more → ending ≠ []) :
    (s.addLine tokens ending).Fronted more := by
  obtain ⟨c, s', _, made, step, parts, single⟩ := s.exists_lineStep tokens ending
  rw [made]
  rw [← parts, List.forall_mem_append] at plain
  have lead := fronted_leaves fun tree member => (single tree member).isLeaf.isNode
  cases step with
  | fence => exact (fronted.emit True lead).fenceLine _ _ _ _
  | paragraph =>
    refine fronted.emit more (Spreads.append (Spreads.append lead (fronted_parse _)) ?_)
    exact fronted_leaves (leaf_leaves _)
  | reopen =>
    have cut : (s.cutBack c).All Tree.Fronted :=
      (fronted_popMany fronted.closeLeaf (leaf_closeLeaf s) _).emit lead
    exact fronted_openBlocks cut (leaf_cutBack s c) plain.2 ended goes_on

/-- Lines keep the opening lines of fences, which have their line breaks as long as there are more
tokens. -/
theorem Fronted.lines (fronted : s.Fronted (tokens ≠ [])) : (s.lines tokens).Fronted False := by
  fun_induction Stack.lines s tokens with
  | case1 s => exact fronted.imp False.elim
  | case2 s t ts ih =>
    have lined := Token.Lined.first_line (t :: ts)
    have before := fronted.imp fun _ : True => List.cons_ne_nil t ts
    refine ih (before.addLine lined.plain ?_ ?_)
    · intro u first
      rcases lined.ends with ⟨nl, single, kind⟩ | ⟨none_left, _⟩
      · rw [single] at first
        cases first
        exact kind
      · rw [none_left] at first
        cases first
    · -- only the last line may go without a line break
      rcases lined.ends with ⟨nl, single, _⟩ | ⟨_, nothing⟩
      · exact fun _ => by rw [single]; exact List.cons_ne_nil nl []
      · exact fun more => absurd nothing more

end Stack

theorem Tree.fronted_ofText (t : Text) : (Tree.ofText t).Fronted := by
  have begun : Stack.empty.Fronted (Token.scan t ≠ []) :=
    ⟨Stack.All.empty _, fun _ _ _ none_open => by cases none_open⟩
  exact fronted_node (by decide)
    (Stack.fronted_popMany begun.lines.closeLeaf (Stack.leaf_closeLeaf _) _).done

end MarkdownEditing
