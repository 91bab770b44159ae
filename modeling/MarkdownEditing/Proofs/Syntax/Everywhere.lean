import MarkdownEditing.Proofs.Syntax.Lossless
import MarkdownEditing.Proofs.Syntax.Places
import MarkdownEditing.Proofs.Syntax.Shape

namespace MarkdownEditing

namespace Tree

structure Spreads (P : Tree → Prop) : Prop where
  token : ∀ kind raw, P (token kind raw)
  block : ∀ kind children, kind.isInline = false → (∀ c ∈ children, P c) → P (node kind children)
  line : ∀ tokens, (∀ t ∈ tokens, t.Raw) → ∀ c ∈ Inline.parse tokens, P c

namespace Spreads

variable {P : Tree → Prop} {ts us : List Tree}

theorem append (first : ∀ c ∈ ts, P c) (second : ∀ c ∈ us, P c) : ∀ c ∈ ts ++ us, P c :=
  List.forall_mem_append.mpr ⟨first, second⟩

variable (spreads : Spreads P)

include spreads

theorem of_leaves (leaves : ∀ c ∈ ts, c.isNode = false) : ∀ c ∈ ts, P c := by
  intro c member
  cases c with
  | token kind raw => exact spreads.token kind raw
  | node kind children => cases leaves _ member

theorem map_leaf (tokens : List Token) : ∀ c ∈ tokens.map leaf, P c :=
  spreads.of_leaves (leaf_leaves tokens)

theorem glue (mark : Kind) (tokens : List Token) : ∀ c ∈ glue mark tokens, P c :=
  spreads.of_leaves (leaf_glue mark tokens)

end Spreads

end Tree

open MarkdownEditing.Tree (Spreads)

theorem Container.isInline_kind (container : Container) : container.kind.isInline = false := by
  cases container with
  | quote => rfl
  | list style => cases style <;> rfl
  | item column => rfl

theorem OpenLeaf.isInline_kind (leaf : OpenLeaf) : leaf.kind.isInline = false := by
  cases leaf <;> rfl

namespace Stack

variable {P : Tree → Prop} {s : Stack} {us : List Tree} {tokens ending : List Token}

structure All (P : Tree → Prop) (s : Stack) : Prop where
  done : ∀ c ∈ s.done, P c
  before : ∀ layer ∈ s.layers, ∀ c ∈ layer.before, P c
  held : ∀ leaf held, s.leaf = some (leaf, held) → ∀ c ∈ held, P c

namespace All

theorem empty (P : Tree → Prop) : Stack.empty.All P :=
  ⟨fun _ member => absurd member List.not_mem_nil, fun _ member => absurd member List.not_mem_nil,
    fun _ _ none_open => by cases none_open⟩

theorem emit (all : s.All P) (more : ∀ c ∈ us, P c) : (s.emit us).All P := by
  rw [Stack.emit]
  split
  · rename_i leaf held open_leaf
    refine ⟨all.done, all.before, ?_⟩
    intro leaf' held' same
    cases same
    exact Spreads.append (all.held leaf held open_leaf) more
  · exact ⟨Spreads.append all.done more, all.before, all.held⟩

theorem push (all : s.All P) (container : Container) : (s.push container).All P := by
  refine ⟨fun _ member => absurd member List.not_mem_nil, ?_, fun _ _ none_open => by cases none_open⟩
  intro layer member
  rcases List.mem_cons.mp member with rfl | member
  · exact all.done
  · exact all.before layer member

theorem withLeaf (all : s.All P) (leaf : OpenLeaf) (held : ∀ c ∈ us, P c) :
    All P { s with leaf := some (leaf, us) } := by
  refine ⟨all.done, all.before, ?_⟩
  intro leaf' held' same
  cases same
  exact held

variable (spreads : Spreads P)

include spreads

theorem closeLeaf (all : s.All P) : s.closeLeaf.All P := by
  rw [Stack.closeLeaf]
  split
  · rename_i leaf held open_leaf
    refine ⟨?_, all.before, fun _ _ none_open => by cases none_open⟩
    apply Spreads.append all.done
    rw [List.forall_mem_singleton]
    exact spreads.block _ _ leaf.isInline_kind (all.held leaf held open_leaf)
  · exact all

theorem pop (all : s.All P) : s.pop.All P := by
  have closed := all.closeLeaf spreads
  rw [Stack.pop]
  split
  · exact closed
  · rename_i layer layers shape
    have below := closed.before
    rw [shape, List.forall_mem_cons] at below
    refine ⟨?_, below.2, fun _ _ none_open => by cases none_open⟩
    apply Spreads.append below.1
    rw [List.forall_mem_singleton]
    exact spreads.block _ _ layer.container.isInline_kind closed.done

theorem popMany (all : s.All P) (n : Nat) : (s.popMany n).All P := by
  induction n generalizing s with
  | zero => exact all
  | succ n ih => exact ih (all.pop spreads)

theorem openLeaf (all : s.All P) (start : BlockStart) (raw : ∀ t ∈ tokens, t.Raw) :
    (s.openLeaf start tokens ending).All P := by
  have ended := spreads.map_leaf ending
  have paragraph : All P { s with
      leaf := some (.paragraph, Inline.parse tokens ++ ending.map Tree.leaf) } :=
    all.withLeaf _ (Spreads.append (spreads.line tokens raw) ended)
  cases start with
  | blank => exact all.emit ended
  | heading level =>
    apply all.emit
    rw [List.forall_mem_singleton]
    apply spreads.block _ _ rfl
    refine Spreads.append (Spreads.append (spreads.glue _ _) (spreads.line _ ?_)) ended
    exact fun t member => raw t (List.mem_of_mem_drop member)
  | thematicBreak =>
    apply all.emit
    rw [List.forall_mem_singleton]
    exact spreads.block _ _ rfl (Spreads.append (spreads.map_leaf tokens) ended)
  | fence mark length =>
    exact all.withLeaf _
      (Spreads.append (Spreads.append (spreads.glue _ _) (spreads.map_leaf _)) ended)
  | quote => exact paragraph
  | item style bare => exact paragraph
  | text => exact paragraph

theorem openBlocks {c : Cursor} (all : s.All P) (raw : ∀ t ∈ c.rest, t.Raw) :
    (s.openBlocks c ending).All P := by
  have skipped : ∀ {c : Cursor}, (∀ t ∈ c.rest, t.Raw) → ∀ t ∈ c.skipBlank.rest, t.Raw :=
    fun all t member => all t (Cursor.mem_of_mem_skipBlank member)
  fun_induction Stack.openBlocks s c ending with
  | case1 s c led t ts shape quote next inner ih =>
    have later := skipped raw
    rw [shape, List.forall_mem_cons] at later
    apply ih _ (skipped later.2)
    refine ((all.emit (spreads.map_leaf _)).push _).emit ?_
    exact List.forall_mem_cons.mpr ⟨spreads.token _ _, spreads.map_leaf _⟩
  | case2 s c led style bare t ts shape item marker column rest next listed inner ih =>
    have later := skipped raw
    rw [shape, List.forall_mem_cons] at later
    apply ih _ (skipped fun u member => later.2 u (List.mem_of_mem_drop member))
    have led_all : led.All P := all.emit (spreads.map_leaf _)
    have listed_all : listed.All P := by
      dsimp only [listed]
      split
      · exact led_all
      · exact led_all.push _
    exact (listed_all.push _).emit (Spreads.append (spreads.glue _ _) (spreads.map_leaf _))
  | case3 s c led no_quote no_item =>
    exact (all.emit (spreads.map_leaf _)).openLeaf spreads _ (skipped raw)

theorem fenceLine (all : s.All P) (mark : Kind) (length : Nat) (c : Cursor) (ending : List Token) :
    (s.fenceLine mark length c ending).All P := by
  obtain ⟨leaves, _, single, made⟩ := s.fenceLine_leaves mark length c ending
  have emitted := all.emit (spreads.of_leaves fun t member => (single t member).isNode)
  rcases made with same | same
  · rw [same]
    exact emitted
  · rw [same]
    exact emitted.closeLeaf spreads

theorem addLine (all : s.All P) (raw : ∀ t ∈ tokens, t.Raw) : (s.addLine tokens ending).All P := by
  obtain ⟨c, s', _, made, step, parts, single⟩ := s.exists_lineStep tokens ending
  rw [made]
  rw [← parts, List.forall_mem_append] at raw
  have lead := spreads.of_leaves fun t member => (single t member).isLeaf.isNode
  cases step with
  | fence => exact (all.emit lead).fenceLine spreads _ _ _ _
  | paragraph =>
    exact all.emit (Spreads.append (Spreads.append lead (spreads.line _ raw.2)) (spreads.map_leaf _))
  | reopen =>
    exact (((all.closeLeaf spreads).popMany spreads _).emit lead).openBlocks spreads raw.2

theorem lines (all : s.All P) (raw : ∀ t ∈ tokens, t.Raw) : (s.lines tokens).All P := by
  fun_induction Stack.lines s tokens with
  | case1 s => exact all
  | case2 s t ts ih =>
    apply ih
    · exact all.addLine spreads fun u member => raw u ((List.takeWhile_sublist _).mem member)
    · exact fun u member => raw u (List.mem_of_mem_drop (List.mem_of_mem_drop member))

end All

end Stack

namespace Tree

/-- The tree of a text has every property that blocks pass on. -/
theorem Spreads.ofText {P : Tree → Prop} (spreads : Spreads P) (t : Text) : P (Tree.ofText t) := by
  have lines := (Stack.All.empty P).lines spreads fun token member =>
    Token.raw_of_mem_scan (t := t) member
  exact spreads.block _ _ rfl ((lines.closeLeaf spreads).popMany spreads _).done

inductive Everywhere (Q : Kind → List Tree → Prop) : Tree → Prop
  | token (kind : Kind) (raw : List Token) : Everywhere Q (token kind raw)
  | node {kind : Kind} {children : List Tree} :
    Q kind children → (∀ c ∈ children, Everywhere Q c) → Everywhere Q (node kind children)

variable {Q : Kind → List Tree → Prop} {t root : Tree}

theorem Everywhere.of_node {kind : Kind} {ts : List Tree} (all : Everywhere Q (.node kind ts)) :
    Q kind ts ∧ ∀ c ∈ ts, Everywhere Q c := by
  cases all with
  | node here below => exact ⟨here, below⟩

theorem Everywhere.of_rebuild {above : List Level} (all : Everywhere Q (Place.rebuild t above)) :
    Everywhere Q t := by
  induction above generalizing t with
  | nil => exact all
  | cons level above ih => exact (ih all).of_node.2 t (by simp)

theorem Everywhere.of_in {p : Place} (all : Everywhere Q root) (inside : p.In root) :
    Everywhere Q p.tree := by
  rw [← inside.whole] at all
  exact all.of_rebuild

theorem tree_of_mem_neighbours {kind : Kind} {start pos : Nat} {above : List Level}
    {left ts : List Tree} {c : Place}
    (member : c ∈ Place.neighbours kind start above left pos ts) : c.tree ∈ ts := by
  induction ts generalizing left pos with
  | nil => cases member
  | cons t ts ih =>
    rcases List.mem_cons.mp member with rfl | member
    · exact List.mem_cons_self
    · exact List.mem_cons_of_mem _ (ih member)

theorem Everywhere.of_child {p c : Place} (all : Everywhere Q p.tree) (member : c ∈ p.children) :
    ∃ ts, Q p.kind ts ∧ c.tree ∈ ts := by
  rw [Place.kind]
  unfold Place.children at member
  split at member
  · cases member
  · rename_i kind ts shape
    rw [shape] at all ⊢
    exact ⟨ts, all.of_node.1, tree_of_mem_neighbours member⟩

theorem everywhere_of_leaves {ts : List Tree} (leaves : ∀ c ∈ ts, c.isNode = false) :
    ∀ c ∈ ts, Everywhere Q c := by
  intro c member
  cases c with
  | token kind raw => exact .token kind raw
  | node kind children => cases leaves _ member

/-- The elements of a line are as they should be when code spans and the nodes that other heads begin
are. -/
theorem everywhere_parse {tokens : List Token} (raw : ∀ t ∈ tokens, t.Raw)
    (code : ∀ t ts more close, (∀ u ∈ t :: ts, u.Raw) → Inline.head t ts = .code more close →
      Q .codeSpan (glue .codeMark ((t :: ts).take (more + 1)) ++
        (Inline.content (t :: ts) (more + 1) close).map leaf ++
          glue .codeMark (Inline.closing (t :: ts) (more + 1) close)))
    (wrapped : ∀ t ts kind mark more close, (∀ u ∈ t :: ts, u.Raw) →
      Inline.head t ts = .wrapped kind mark more close →
        Q kind (glue mark ((t :: ts).take (more + 1)) ++
          Inline.parse (Inline.content (t :: ts) (more + 1) close) ++
            glue mark (Inline.closing (t :: ts) (more + 1) close))) :
    ∀ c ∈ Inline.parse tokens, Everywhere Q c := by
  have leaves : ∀ tokens : List Token, ∀ c ∈ tokens.map leaf, Everywhere Q c := fun tokens =>
    everywhere_of_leaves (leaf_leaves tokens)
  have glued : ∀ mark tokens, ∀ c ∈ Tree.glue mark tokens, Everywhere Q c := fun mark tokens =>
    everywhere_of_leaves (leaf_glue mark tokens)
  fun_induction Inline.parse tokens with
  | case1 => exact fun c member => absurd member List.not_mem_nil
  | case2 t ts more shape ih =>
    exact Spreads.append (leaves _) (ih fun u member => raw u (List.mem_of_mem_drop member))
  | case3 t ts more close shape ih =>
    refine List.forall_mem_cons.mpr ⟨.node (code t ts more close raw shape) ?_,
      ih fun u member => raw u (List.mem_of_mem_drop member)⟩
    exact Spreads.append (Spreads.append (glued _ _) (leaves _)) (glued _ _)
  | case4 t ts kind mark more close shape inner outer =>
    refine List.forall_mem_cons.mpr ⟨.node (wrapped t ts kind mark more close raw shape) ?_,
      outer fun u member => raw u (List.mem_of_mem_drop member)⟩
    exact Spreads.append (Spreads.append (glued _ _)
      (inner (Inline.forall_mem_parts raw (more + 1) close).2.1)) (glued _ _)

theorem everywhere_ofText (blocks : ∀ kind ts, kind.isInline = false → Q kind ts)
    (line : ∀ tokens, (∀ t ∈ tokens, t.Raw) → ∀ c ∈ Inline.parse tokens, Everywhere Q c) (t : Text) :
    Everywhere Q (Tree.ofText t) := by
  apply Spreads.ofText ⟨Everywhere.token, ?_, line⟩
  exact fun kind ts block below => .node (blocks kind ts block) below

end Tree

end MarkdownEditing
