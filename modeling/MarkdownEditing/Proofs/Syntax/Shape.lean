import Mathlib.Data.List.Chain
import MarkdownEditing.Proofs.Syntax.Led

namespace MarkdownEditing

def Kind.isInline : Kind → Bool
  | codeSpan | emphasis | strong | strikethrough => true
  | _ => false

namespace Tree

variable {t a b c : Tree} {ts us : List Tree} {kind : Kind} {style style' : ListStyle}
  {tokens : List Token}

def nodes (ts : List Tree) : List Tree := ts.filter isNode

def IsItemOf (style : ListStyle) (t : Tree) : Prop :=
  ∃ raw rest, t = node .listItem (token .listMark raw :: rest) ∧ style.Marks (Token.join raw)

def IsListOf (style : ListStyle) (t : Tree) : Prop :=
  ∃ first rest, t = node style.listKind (first :: rest) ∧ first.IsItemOf style ∧
    ∀ c ∈ rest, c.isNode = true → c.IsItemOf style

def Apart (a b : Tree) : Prop := ∀ style, ¬(a.IsListOf style ∧ b.IsListOf style)

/-- How the children of a node of kind `kind` have to be. -/
structure Shape (kind : Kind) (children : List Tree) : Prop where
  itemInList : ∀ c ∈ children, c.isNode = true → c.kind = .listItem → kind.isList = true
  list : kind.isList = true → ∃ style, (node kind children).IsListOf style
  item : kind = .listItem → ∃ raw rest, children = token .listMark raw :: rest ∧
    ∀ c ∈ rest, c.kind ≠ .listMark
  quote : kind = .blockQuote → ∃ raw rest, children = token .quoteMark raw :: rest
  apart : (nodes children).IsChain Apart
  inline : kind = .paragraph ∨ kind = .heading ∨ kind.isInline = true →
    ∀ c ∈ children, c.isNode = true → c.kind.isInline = true
  flat : kind = .fencedCode ∨ kind = .thematicBreak ∨ kind = .codeSpan →
    ∀ c ∈ children, c.isNode = false
  oneLine : kind.isInline = true → ∀ c ∈ children, c.kind ≠ .newline

inductive WellShaped : Tree → Prop
  | token (kind : Kind) (raw : List Token) : WellShaped (token kind raw)
  | node {kind : Kind} {children : List Tree} :
    Shape kind children → (∀ c ∈ children, WellShaped c) → WellShaped (node kind children)

theorem wellShaped_of_leaf (leaf : t.isNode = false) : t.WellShaped := by
  cases t with
  | token kind raw => exact .token kind raw
  | node kind children => cases leaf

theorem IsItemOf.isNode (item : t.IsItemOf style) : t.isNode = true := by
  obtain ⟨_, _, rfl, _⟩ := item
  rfl

theorem IsItemOf.kind_eq (item : t.IsItemOf style) : t.kind = .listItem := by
  obtain ⟨_, _, rfl, _⟩ := item
  rfl

theorem IsItemOf.unique (first : t.IsItemOf style) (second : t.IsItemOf style') :
    style = style' := by
  obtain ⟨raw, rest, rfl, marks⟩ := first
  obtain ⟨raw', rest', same, marks'⟩ := second
  cases same
  exact marks.unique marks'

theorem IsListOf.isList (list : t.IsListOf style) : t.kind.isList = true := by
  obtain ⟨_, _, rfl, _⟩ := list
  cases style <;> rfl

theorem IsListOf.unique (first : t.IsListOf style) (second : t.IsListOf style') :
    style = style' := by
  obtain ⟨item, rest, rfl, of_style, _⟩ := first
  obtain ⟨item', rest', same, of_style', _⟩ := second
  have children := (Tree.node.injEq .. ▸ same).2
  rw [(List.cons.inj children).1] at of_style
  exact of_style.unique of_style'

theorem not_isListOf (other : t.kind.isList = false) (style : ListStyle) : ¬t.IsListOf style := by
  intro list
  rw [list.isList] at other
  cases other

theorem isChain_apart (no_lists : ∀ c ∈ ts, c.kind.isList = false) : ts.IsChain Apart := by
  apply List.Pairwise.isChain
  apply List.pairwise_of_forall_mem_list
  intro a member b _ style both
  exact not_isListOf (no_lists a member) style both.1

@[simp] theorem nodes_append (ts us : List Tree) : nodes (ts ++ us) = nodes ts ++ nodes us :=
  List.filter_append ..

theorem mem_nodes : c ∈ nodes ts ↔ c ∈ ts ∧ c.isNode = true := List.mem_filter

theorem nodes_of_leaves (leaves : ∀ c ∈ ts, c.isNode = false) : nodes ts = [] := by
  apply List.filter_eq_nil_iff.mpr
  intro c member
  rw [leaves c member]
  exact Bool.false_ne_true

/-- A leaf that is no list marker. -/
def Spare (t : Tree) : Prop := t.isNode = false ∧ t.kind ≠ .listMark

theorem spare_leaf {token : Token} (raw : token.Raw) : (leaf token).Spare := by
  refine ⟨rfl, ?_⟩
  show token.kind ≠ .listMark
  cases raw with
  | blank | lineBreak | word => simp
  | mark c kind glyph =>
    rintro rfl
    unfold markKind? at glyph
    split at glyph <;> cases glyph

theorem spare_leaves (raw : ∀ t ∈ tokens, t.Raw) : ∀ c ∈ tokens.map leaf, c.Spare := by
  intro c member
  obtain ⟨t, inside, rfl⟩ := List.mem_map.mp member
  exact spare_leaf (raw t inside)

theorem leaf_leaves (tokens : List Token) : ∀ c ∈ tokens.map leaf, c.isNode = false :=
  fun c member => (isLeaf_leaves tokens c member).isNode

theorem leaf_glue (mark : Kind) (tokens : List Token) : ∀ c ∈ glue mark tokens, c.isNode = false :=
  fun c member => (isLeaf_glue mark tokens c member).isNode

def Inline (t : Tree) : Prop := t.WellShaped ∧ (t.isNode = true → t.kind.isInline = true)

theorem inline_of_leaf (leaf : t.isNode = false) : t.Inline := by
  refine ⟨wellShaped_of_leaf leaf, ?_⟩
  intro node
  rw [leaf] at node
  cases node

theorem isList_of_isInline {kind : Kind} (inline : kind.isInline = true) : kind.isList = false := by
  cases kind <;> first | rfl | cases inline

theorem wellShaped_of_inline (children : ∀ c ∈ ts, c.Inline)
    (holder : kind = .paragraph ∨ kind = .heading ∨ kind = .fencedCode ∨ kind = .thematicBreak ∨
      kind.isInline = true)
    (flat : kind = .fencedCode ∨ kind = .thematicBreak ∨ kind = .codeSpan →
      ∀ c ∈ ts, c.isNode = false)
    (oneLine : kind.isInline = true → ∀ c ∈ ts, c.kind ≠ .newline) : (node kind ts).WellShaped := by
  have other : kind.isList = false ∧ kind ≠ .listItem ∧ kind ≠ .blockQuote := by
    rcases holder with rfl | rfl | rfl | rfl | inline
    · decide
    · decide
    · decide
    · decide
    · refine ⟨isList_of_isInline inline, ?_, ?_⟩ <;>
      · rintro rfl
        cases inline
  refine .node ?_ fun c member => (children c member).1
  constructor
  case itemInList =>
    intro c member node item
    have inline := (children c member).2 node
    rw [item] at inline
    cases inline
  case list =>
    intro list
    rw [other.1] at list
    cases list
  case item => exact fun item => absurd item other.2.1
  case quote => exact fun quote => absurd quote other.2.2
  case apart =>
    apply isChain_apart
    intro c member
    obtain ⟨inside, node⟩ := mem_nodes.mp member
    exact isList_of_isInline ((children c inside).2 node)
  case inline => exact fun _ c member => (children c member).2
  case flat => exact flat
  case oneLine => exact oneLine

def InLine (t : Tree) : Prop := t.Inline ∧ t.kind ≠ .newline

theorem inLine_node {kind : Kind} (inline : kind.isInline = true) (inside : ∀ c ∈ ts, c.InLine)
    (flat : kind = .codeSpan → ∀ c ∈ ts, c.isNode = false) : (node kind ts).InLine := by
  refine ⟨⟨?_, fun _ => inline⟩, ?_⟩
  · apply wellShaped_of_inline fun c member => (inside c member).1
    · exact Or.inr (Or.inr (Or.inr (Or.inr inline)))
    · rintro (rfl | rfl | code)
      · cases inline
      · cases inline
      · exact flat code
    · exact fun _ c member => (inside c member).2
  · rintro rfl
    cases inline

theorem inLine_leaves (plain : ∀ t ∈ tokens, t.kind ≠ .newline) :
    ∀ c ∈ tokens.map leaf, c.InLine := by
  intro c member
  refine ⟨inline_of_leaf (leaf_leaves tokens c member), ?_⟩
  obtain ⟨t, inside, rfl⟩ := List.mem_map.mp member
  exact plain t inside

theorem inLine_glue {mark : Kind} (other : mark ≠ .newline)
    (plain : ∀ t ∈ tokens, t.kind ≠ .newline) : ∀ c ∈ glue mark tokens, c.InLine := by
  unfold glue
  split
  · exact fun c member => absurd member List.not_mem_nil
  split
  · intro c member
    rw [List.mem_singleton.mp member]
    exact ⟨inline_of_leaf rfl, other⟩
  · exact inLine_leaves plain

theorem inLine_parse (plain : ∀ t ∈ tokens, t.kind ≠ .newline) :
    ∀ c ∈ Inline.parse tokens, c.InLine := by
  fun_induction Inline.parse tokens with
  | case1 => exact fun c member => absurd member List.not_mem_nil
  | case2 t ts more shape ih =>
    intro c member
    rcases List.mem_append.mp member with member | member
    · exact inLine_leaves (fun u member => plain u (List.mem_of_mem_take member)) c member
    · exact ih (fun u member => plain u (List.mem_of_mem_drop member)) c member
  | case3 t ts more close shape ih =>
    obtain ⟨first, second, third⟩ := Inline.forall_mem_parts plain (more + 1) close
    intro c member
    rcases List.mem_cons.mp member with rfl | member
    · apply inLine_node rfl
      · simp only [List.forall_mem_append]
        exact ⟨⟨inLine_glue (by simp) first, inLine_leaves second⟩, inLine_glue (by simp) third⟩
      · intro _
        simp only [List.forall_mem_append]
        exact ⟨⟨leaf_glue _ _, leaf_leaves _⟩, leaf_glue _ _⟩
    · exact ih (fun u member => plain u (List.mem_of_mem_drop member)) c member
  | case4 t ts kind mark more close shape inner outer =>
    have styled := Inline.head_styled t ts
    rw [shape] at styled
    have inline : kind.isInline = true ∧ kind ≠ .codeSpan := by
      rcases styled.1 with rfl | rfl | rfl <;> decide
    have other : mark ≠ .newline := by
      rintro rfl
      cases styled.2
    obtain ⟨first, second, third⟩ := Inline.forall_mem_parts plain (more + 1) close
    intro c member
    rcases List.mem_cons.mp member with rfl | member
    · apply inLine_node inline.1
      · simp only [List.forall_mem_append]
        exact ⟨⟨inLine_glue other first, inner second⟩, inLine_glue other third⟩
      · exact fun code => absurd code inline.2
    · exact outer (fun u member => plain u (List.mem_of_mem_drop member)) c member

/-- What a quote, an item or a document can hold after its mark. -/
structure Body (ts : List Tree) : Prop where
  shaped : ∀ c ∈ ts, c.WellShaped
  noItem : ∀ c ∈ ts, c.isNode = true → c.kind ≠ .listItem
  noMark : ∀ c ∈ ts, c.kind ≠ .listMark
  apart : (nodes ts).IsChain Apart

def EndsIn (style : ListStyle) (ts : List Tree) : Prop :=
  ∃ last ∈ (nodes ts).getLast?, last.IsListOf style

theorem endsIn_append_leaves (leaves : ∀ c ∈ us, c.isNode = false) :
    EndsIn style (ts ++ us) ↔ EndsIn style ts := by
  rw [EndsIn, EndsIn, nodes_append, nodes_of_leaves leaves, List.append_nil]

theorem endsIn_concat (node : t.isNode = true) : EndsIn style (ts ++ [t]) ↔ t.IsListOf style := by
  have last : nodes [t] = [t] := List.filter_cons_of_pos node
  rw [EndsIn, nodes_append, last, List.getLast?_concat]
  exact ⟨fun ⟨_, same, list⟩ => Option.mem_some_iff.mp same ▸ list, fun list => ⟨t, rfl, list⟩⟩

namespace Body

theorem nil : Body [] where
  shaped := fun _ member => absurd member List.not_mem_nil
  noItem := fun _ member => absurd member List.not_mem_nil
  noMark := fun _ member => absurd member List.not_mem_nil
  apart := List.IsChain.nil

theorem append_spare (body : Body ts) (spare : ∀ c ∈ us, c.Spare) : Body (ts ++ us) where
  shaped := List.forall_mem_append.mpr
    ⟨body.shaped, fun c member => wellShaped_of_leaf (spare c member).1⟩
  noItem := List.forall_mem_append.mpr ⟨body.noItem, by
    intro c member node
    rw [(spare c member).1] at node
    cases node⟩
  noMark := List.forall_mem_append.mpr ⟨body.noMark, fun c member => (spare c member).2⟩
  apart := by
    rw [nodes_append, nodes_of_leaves fun c member => (spare c member).1, List.append_nil]
    exact body.apart

/-- A block is added, which is no second list of one style after another. -/
theorem concat (body : Body ts) (shaped : t.WellShaped)
    (other : t.kind ≠ .listItem ∧ t.kind ≠ .listMark)
    (apart : ∀ style, EndsIn style ts → ¬t.IsListOf style) : Body (ts ++ [t]) where
  shaped := List.forall_mem_append.mpr ⟨body.shaped, List.forall_mem_singleton.mpr shaped⟩
  noItem := List.forall_mem_append.mpr ⟨body.noItem, List.forall_mem_singleton.mpr fun _ => other.1⟩
  noMark := List.forall_mem_append.mpr ⟨body.noMark, List.forall_mem_singleton.mpr other.2⟩
  apart := by
    rw [nodes_append]
    refine List.isChain_append.mpr ⟨body.apart, ?_, ?_⟩
    · cases node : t.isNode with
      | false =>
        rw [nodes, List.filter_cons_of_neg (by rw [node]; exact Bool.false_ne_true)]
        exact List.IsChain.nil
      | true =>
        rw [nodes, List.filter_cons_of_pos node]
        exact List.IsChain.singleton t
    · intro a last b first style both
      have same : b = t := List.mem_singleton.mp (mem_nodes.mp (List.mem_of_mem_head? first)).1
      rw [same] at both
      exact apart style ⟨a, last, both.1⟩ both.2

theorem wellShaped (body : Body ts) {opening : List Tree}
    (holder : (kind = .root ∧ opening = []) ∨
      (∃ raw, kind = .blockQuote ∧ opening = [token .quoteMark raw]) ∨
        ∃ raw, kind = .listItem ∧ opening = [token .listMark raw]) :
    (node kind (opening ++ ts)).WellShaped := by
  have other : kind.isList = false ∧ kind.isInline = false ∧
      (kind = .root ∨ kind = .blockQuote ∨ kind = .listItem) := by
    rcases holder with ⟨rfl, _⟩ | ⟨_, rfl, _⟩ | ⟨_, rfl, _⟩ <;> decide
  have leaves : ∀ c ∈ opening, c.isNode = false := by
    rcases holder with ⟨_, rfl⟩ | ⟨_, _, rfl⟩ | ⟨_, _, rfl⟩
    · exact fun c member => absurd member List.not_mem_nil
    · exact List.forall_mem_singleton.mpr rfl
    · exact List.forall_mem_singleton.mpr rfl
  refine .node ?_ (List.forall_mem_append.mpr
    ⟨fun c member => wellShaped_of_leaf (leaves c member), body.shaped⟩)
  constructor
  case itemInList =>
    intro c member node item
    rcases List.mem_append.mp member with member | member
    · rw [leaves c member] at node
      cases node
    · exact absurd item (body.noItem c member node)
  case list =>
    intro list
    rw [other.1] at list
    cases list
  case item =>
    rintro rfl
    rcases holder with ⟨same, _⟩ | ⟨_, same, _⟩ | ⟨raw, _, rfl⟩
    · cases same
    · cases same
    · exact ⟨raw, ts, rfl, body.noMark⟩
  case quote =>
    rintro rfl
    rcases holder with ⟨same, _⟩ | ⟨raw, _, rfl⟩ | ⟨_, same, _⟩
    · cases same
    · exact ⟨raw, ts, rfl⟩
    · cases same
  case apart =>
    rw [nodes_append, nodes_of_leaves leaves, List.nil_append]
    exact body.apart
  case inline =>
    rintro (rfl | rfl | inline)
    · exact absurd other.2.2 (by decide)
    · exact absurd other.2.2 (by decide)
    · rw [other.2.1] at inline
      cases inline
  case flat =>
    rintro (rfl | rfl | rfl) <;> exact absurd other.2.2 (by decide)
  case oneLine =>
    intro inline
    rw [other.2.1] at inline
    cases inline

end Body

structure Items (style : ListStyle) (ts : List Tree) : Prop where
  shaped : ∀ c ∈ ts, c.WellShaped
  items : ∀ c ∈ ts, c.isNode = true → c.IsItemOf style
  first : ∀ c ∈ ts.head?, c.isNode = true

namespace Items

theorem nil : Items style [] where
  shaped := fun _ member => absurd member List.not_mem_nil
  items := fun _ member => absurd member List.not_mem_nil
  first := by simp

theorem append_spare (items : Items style ts) (some_items : ts ≠ []) (spare : ∀ c ∈ us, c.Spare) :
    Items style (ts ++ us) where
  shaped := List.forall_mem_append.mpr
    ⟨items.shaped, fun c member => wellShaped_of_leaf (spare c member).1⟩
  items := List.forall_mem_append.mpr ⟨items.items, by
    intro c member node
    rw [(spare c member).1] at node
    cases node⟩
  first := by
    rw [List.head?_append_of_ne_nil _ some_items]
    exact items.first

theorem concat (items : Items style ts) (shaped : t.WellShaped) (item : t.IsItemOf style) :
    Items style (ts ++ [t]) where
  shaped := List.forall_mem_append.mpr ⟨items.shaped, List.forall_mem_singleton.mpr shaped⟩
  items := List.forall_mem_append.mpr ⟨items.items, List.forall_mem_singleton.mpr fun _ => item⟩
  first := by
    cases ts with
    | nil =>
      intro c same
      cases same
      exact item.isNode
    | cons c ts => exact items.first

theorem isListOf (items : Items style ts) (some_items : ts ≠ []) :
    (node style.listKind ts).IsListOf style := by
  cases ts with
  | nil => exact absurd rfl some_items
  | cons c ts =>
    exact ⟨c, ts, rfl, items.items c List.mem_cons_self (items.first c rfl),
      fun d member => items.items d (List.mem_cons_of_mem _ member)⟩

theorem wellShaped (items : Items style ts) (some_items : ts ≠ []) :
    (node style.listKind ts).WellShaped := by
  have list : style.listKind.isList = true := by cases style <;> rfl
  have other : ∀ {kind : Kind}, kind.isList = false → style.listKind ≠ kind := by
    rintro kind no_list rfl
    rw [list] at no_list
    cases no_list
  have block : style.listKind.isInline ≠ true := by cases style <;> decide
  refine .node ?_ items.shaped
  constructor
  case itemInList => exact fun _ _ _ _ => list
  case list => exact fun _ => ⟨style, items.isListOf some_items⟩
  case item => exact fun same => absurd same (other rfl)
  case quote => exact fun same => absurd same (other rfl)
  case apart =>
    apply isChain_apart
    intro c member
    obtain ⟨inside, node⟩ := mem_nodes.mp member
    rw [(items.items c inside node).kind_eq]
    rfl
  case inline =>
    rintro (same | same | inline)
    · exact absurd same (other rfl)
    · exact absurd same (other rfl)
    · exact absurd inline block
  case flat => rintro (same | same | same) <;> exact absurd same (other rfl)
  case oneLine => exact fun inline => absurd inline block

end Items

end Tree

end MarkdownEditing
