import MarkdownEditing.Proofs.Syntax.Openings
import MarkdownEditing.Proofs.Syntax.Shape

namespace MarkdownEditing

open MarkdownEditing.Tree (Body Items EndsIn Spare)

namespace Continuation

variable {containers : List Container} {style : ListStyle}

def Leads (outer inner : Container) : Prop :=
  ∀ style, outer = .list style → ∃ column, inner = .item column

/-- Where a line stops to go on with containers: never between a list and its item, and a blank line
not before a list. -/
structure Stops (containers : List Container) (c : Continuation) : Prop where
  le : c.count ≤ containers.length
  kept : 0 < c.count → ∀ style, containers[c.count - 1]? ≠ some (.list style)
  ended : ∀ style, containers[c.count]? = some (.list style) → c.cursor.skipBlank.rest ≠ []

theorem stops_here {container : Container} (c : Cursor)
    (nonblank : ∀ style, container = .list style → c.skipBlank.rest ≠ []) :
    Stops (container :: containers) (stop c) where
  le := Nat.zero_le _
  kept := fun none_kept => absurd none_kept (Nat.lt_irrefl 0)
  ended := fun style here => nonblank style (Option.some.inj here)

theorem Stops.cons_of_lead {container : Container} {inner : Continuation}
    (stops : Stops containers inner) (lead : List Tree)
    (goes : ∀ style, container = .list style → 0 < inner.count) :
    Stops (container :: containers) ⟨inner.count + 1, lead, inner.cursor⟩ where
  le := Nat.succ_le_succ stops.le
  kept := by
    intro _ style here
    cases count : inner.count with
    | zero =>
      rw [count] at here
      have some_count := goes style (Option.some.inj here)
      omega
    | succ n =>
      rw [count] at here
      have before := stops.kept (by omega) style
      rw [count] at before
      exact before here
  ended := fun style here => stops.ended style here

theorem stops_ofLine {containers : List Container} (chain : containers.IsChain Leads)
    (last : ∀ style, containers.getLast? ≠ some (.list style)) (c : Cursor) :
    Stops containers (ofLine containers c) := by
  have further : ∀ {container : Container} {containers : List Container},
      (∀ style, (container :: containers).getLast? ≠ some (.list style)) →
        ∀ style, containers.getLast? ≠ some (.list style) := by
    intro container containers last style
    cases containers with
    | nil => simp
    | cons next containers => exact List.getLast?_cons_cons ▸ last style
  fun_induction ofLine containers c with
  | case1 c => exact ⟨Nat.le_refl 0, by simp, by simp⟩
  | case2 containers c t ts shape mark inner ih =>
    exact (ih chain.of_cons (further last)).cons_of_lead _ (by simp)
  | case3 containers c t ts shape other => exact stops_here c (by simp)
  | case4 containers c shape => exact stops_here c (by simp)
  | case5 style containers c inner none_count =>
    apply stops_here
    intro _ _
    cases containers with
    | nil => exact absurd rfl (last style)
    | cons next containers =>
      obtain ⟨column, rfl⟩ := (List.isChain_cons_cons.mp chain).1 style rfl
      -- an item goes on with a blank line
      intro blank
      have goes : ¬(c.skipBlank.rest ≠ [] ∧ c.skipBlank.column < column) := fun ends => ends.1 blank
      simp only [inner, ofLine, if_neg goes] at none_count
      omega
  | case6 style containers c inner some_count ih =>
    exact (ih chain.of_cons (further last)).cons_of_lead _ fun _ _ => Nat.pos_of_ne_zero some_count
  | case7 column containers c outdented => exact stops_here c (by simp)
  | case8 column containers c inside inner ih =>
    exact (ih chain.of_cons (further last)).cons_of_lead _ (by simp)

end Continuation

namespace Stack

variable {layers outer : List Layer} {layer : Layer} {held us : List Tree} {t : Tree}
  {style : ListStyle} {s : Stack}

def topStyle? : List Layer → Option ListStyle
  | ⟨.list style, _⟩ :: _ => some style
  | _ => none

theorem topStyle?_eq_some :
    topStyle? layers = some style ↔ layers.head?.map Layer.container = some (.list style) := by
  cases layers with
  | nil => simp [topStyle?]
  | cons layer outer =>
    obtain ⟨container, before⟩ := layer
    cases container with
    | list style' =>
      show some style' = some style ↔ some (Container.list style') = some (.list style)
      rw [Option.some.injEq, Option.some.injEq, Container.list.injEq]
    | quote | item => simp [topStyle?]

/-- The finished trees of the open containers are as they should be; `held` are those of the innermost
one. -/
def Holds : List Layer → List Tree → Prop
  | [], held => Body held
  | ⟨.quote, before⟩ :: outer, held =>
    topStyle? outer = none ∧ Holds outer before ∧
      ∃ raw rest, held = .token .quoteMark raw :: rest ∧ Body rest
  | ⟨.list style, before⟩ :: outer, held =>
    topStyle? outer = none ∧ Holds outer before ∧ ¬EndsIn style before ∧ Items style held
  | ⟨.item _, before⟩ :: outer, held =>
    ∃ style, topStyle? outer = some style ∧ Holds outer before ∧
      ∃ raw rest, held = .token .listMark raw :: rest ∧ style.Marks (Token.join raw) ∧ Body rest

namespace Holds

theorem items_of_topStyle (holds : Holds layers held) (top : topStyle? layers = some style) :
    Items style held := by
  unfold topStyle? at top
  split at top
  · cases top
    exact holds.2.2.2
  · cases top

/-- Adding to the innermost container, unless it is a list, is adding to a body that has the same
nodes. -/
theorem append_held (holds : Holds layers held) (top : topStyle? layers = none)
    (more : ∀ rest, Tree.nodes rest = Tree.nodes held → Body rest → Body (rest ++ us)) :
    Holds layers (held ++ us) := by
  cases layers with
  | nil => exact more held rfl holds
  | cons layer outer =>
    obtain ⟨container, before⟩ := layer
    cases container with
    | quote =>
      obtain ⟨plain, below, raw, rest, rfl, body⟩ := holds
      exact ⟨plain, below, raw, rest ++ us, rfl, more rest rfl body⟩
    | list style => cases top
    | item column =>
      obtain ⟨style, inside, below, raw, rest, rfl, marks, body⟩ := holds
      exact ⟨style, inside, below, raw, rest ++ us, rfl, marks, more rest rfl body⟩

theorem extend_items (holds : Holds layers held) (top : topStyle? layers = some style)
    (more : Items style (held ++ us)) : Holds layers (held ++ us) := by
  unfold topStyle? at top
  split at top
  · cases top
    obtain ⟨plain, below, apart, _⟩ := holds
    exact ⟨plain, below, apart, more⟩
  · cases top

theorem append_spare (holds : Holds layers held) (ripe : topStyle? layers = none ∨ held ≠ [])
    (spare : ∀ c ∈ us, c.Spare) : Holds layers (held ++ us) := by
  cases top : topStyle? layers with
  | none => exact holds.append_held top fun rest _ body => body.append_spare spare
  | some style =>
    have some_items : held ≠ [] := by
      rcases ripe with none_open | some_items
      · rw [top] at none_open
        cases none_open
      · exact some_items
    exact holds.extend_items top ((holds.items_of_topStyle top).append_spare some_items spare)

theorem concat_held (holds : Holds layers held) (top : topStyle? layers = none)
    (shaped : t.WellShaped) (other : t.kind ≠ .listItem ∧ t.kind ≠ .listMark)
    (apart : ∀ style, EndsIn style held → ¬t.IsListOf style) : Holds layers (held ++ [t]) := by
  apply holds.append_held top
  intro rest same body
  apply body.concat shaped other
  intro style ends
  rw [EndsIn, same] at ends
  exact apart style ends

theorem close_layer (holds : Holds (layer :: outer) held)
    (ripe : topStyle? (layer :: outer) = none ∨ held ≠ []) :
    Holds outer (layer.before ++ [.node layer.container.kind held]) ∧
      ∀ style, EndsIn style (layer.before ++ [.node layer.container.kind held]) →
        layer.container = .list style := by
  obtain ⟨container, before⟩ := layer
  cases container with
  | quote =>
    obtain ⟨top, below, raw, rest, rfl, body⟩ := holds
    have plain : ∀ style, ¬(Tree.node .blockQuote (.token .quoteMark raw :: rest)).IsListOf style :=
      fun style => Tree.not_isListOf rfl style
    refine ⟨below.concat_held top ?_ ⟨by rintro ⟨⟩, by rintro ⟨⟩⟩ fun style _ => plain style, ?_⟩
    · exact body.wellShaped (Or.inr (Or.inl ⟨raw, rfl, rfl⟩))
    · intro style ends
      exact absurd ((Tree.endsIn_concat rfl).mp ends) (plain style)
  | list style =>
    obtain ⟨top, below, apart, items⟩ := holds
    have some_items : held ≠ [] := by
      rcases ripe with none_open | some_items
      · cases none_open
      · exact some_items
    have list := items.isListOf some_items
    have other : style.listKind ≠ .listItem ∧ style.listKind ≠ .listMark := by
      cases style <;> decide
    refine ⟨below.concat_held top (items.wellShaped some_items) other ?_, ?_⟩
    · intro style' ends again
      rw [list.unique again] at apart
      exact apart ends
    · intro style' ends
      rw [list.unique ((Tree.endsIn_concat rfl).mp ends)]
  | item column =>
    obtain ⟨style, top, below, raw, rest, rfl, marks, body⟩ := holds
    have item : (Tree.node .listItem (.token .listMark raw :: rest)).IsItemOf style :=
      ⟨raw, rest, rfl, marks⟩
    refine ⟨below.extend_items top ((below.items_of_topStyle top).concat ?_ item), ?_⟩
    · exact body.wellShaped (Or.inr (Or.inr ⟨raw, rfl, rfl⟩))
    · intro style' ends
      exact absurd ((Tree.endsIn_concat rfl).mp ends) (Tree.not_isListOf rfl style')

theorem isChain (holds : Holds layers held) :
    (layers.map Layer.container).IsChain fun inner outer => Continuation.Leads outer inner := by
  induction layers generalizing held with
  | nil => exact List.IsChain.nil
  | cons layer outer ih =>
    rw [List.map_cons, List.isChain_cons]
    obtain ⟨container, before⟩ := layer
    have top : ∀ inner ∈ (outer.map Layer.container).head?, ∀ style, inner = .list style →
        topStyle? outer = some style := by
      rintro inner first style rfl
      rw [List.head?_map] at first
      exact topStyle?_eq_some.mpr first
    cases container with
    | quote | list =>
      refine ⟨?_, ih holds.2.1⟩
      intro inner first style same
      have found := top inner first style same
      rw [holds.1] at found
      cases found
    | item column =>
      obtain ⟨_, _, below, _⟩ := holds
      exact ⟨fun _ _ _ _ => ⟨column, rfl⟩, ih below⟩

end Holds

theorem closeLeaf_of_none (closed : s.leaf = none) : s.closeLeaf = s := by
  rw [closeLeaf, closed]

theorem closeLeaf_of_some {leaf : OpenLeaf} (opened : s.leaf = some (leaf, held)) :
    s.closeLeaf = ⟨s.layers, s.done ++ [.node leaf.kind held], none⟩ := by
  rw [closeLeaf, opened]

theorem emit_of_none (closed : s.leaf = none) (us : List Tree) :
    s.emit us = { s with done := s.done ++ us } := by
  rw [emit, closed]

theorem emit_of_some {leaf : OpenLeaf} (opened : s.leaf = some (leaf, held)) (us : List Tree) :
    s.emit us = { s with leaf := some (leaf, held ++ us) } := by
  rw [emit, opened]

theorem pop_of_layers (closed : s.leaf = none) (shape : s.layers = layer :: outer) :
    s.pop = ⟨outer, layer.before ++ [.node layer.container.kind s.done], none⟩ := by
  rw [pop, closeLeaf_of_none closed, shape]

theorem popMany_succ (s : Stack) (n : Nat) : s.popMany (n + 1) = (s.popMany n).pop := by
  induction n generalizing s with
  | zero => rfl
  | succ n ih => exact ih s.pop

/-- No leaf is open, and a list that is innermost has an item. -/
structure Closed (s : Stack) : Prop where
  holds : Holds s.layers s.done
  leaf : s.leaf = none
  ripe : topStyle? s.layers = none ∨ s.done ≠ []

theorem Closed.pop (closed : s.Closed) : s.pop.Closed := by
  cases shape : s.layers with
  | nil =>
    have same : s.pop = s := by rw [Stack.pop, closeLeaf_of_none closed.leaf, shape]
    rw [same]
    exact closed
  | cons layer outer =>
    have holds := closed.holds
    have ripe := closed.ripe
    rw [shape] at holds ripe
    rw [pop_of_layers closed.leaf shape]
    exact ⟨(holds.close_layer ripe).1, rfl,
      Or.inr (List.append_ne_nil_of_right_ne_nil _ (List.cons_ne_nil _ _))⟩

theorem Closed.popMany (closed : s.Closed) (n : Nat) : (s.popMany n).Closed := by
  induction n generalizing s with
  | zero => exact closed
  | succ n ih => exact ih closed.pop

theorem Closed.endsIn_popMany (closed : s.Closed) {n : Nat} (inside : n < s.layers.length)
    (ends : EndsIn style (s.popMany (n + 1)).done) :
    (s.layers[n]?).map Layer.container = some (.list style) := by
  have before := closed.popMany n
  have layers := layers_popMany s n
  rw [List.drop_eq_getElem_cons inside] at layers
  have holds := before.holds
  have ripe := before.ripe
  rw [layers] at holds ripe
  rw [popMany_succ, pop_of_layers before.leaf layers] at ends
  rw [List.getElem?_eq_getElem inside, Option.map_some, (holds.close_layer ripe).2 style ends]

theorem containers_getElem? {i : Nat} (inside : i < s.layers.length) :
    s.containers[i]? = (s.layers[s.layers.length - 1 - i]?).map Layer.container := by
  rw [containers, List.getElem?_reverse (by rw [List.length_map]; exact inside), List.getElem?_map,
    List.length_map]

theorem containers_last (s : Stack) :
    s.containers.getLast? = s.layers.head?.map Layer.container := by
  rw [containers, List.getLast?_reverse, List.head?_map]

theorem topStyle?_drop {keep : Nat} (inside : keep ≤ s.layers.length)
    (top : topStyle? (s.layers.drop (s.layers.length - keep)) = some style) :
    0 < keep ∧ s.containers[keep - 1]? = some (.list style) := by
  rw [topStyle?_eq_some, List.head?_drop] at top
  have some_kept : 0 < keep := by
    by_contra none_kept
    rw [List.getElem?_eq_none (by omega)] at top
    cases top
  refine ⟨some_kept, ?_⟩
  rw [containers_getElem? (by omega), ← top]
  congr 2
  omega

theorem Closed.container_of_endsIn (closed : s.Closed) {keep : Nat} (inside : keep < s.layers.length)
    (ends : EndsIn style (s.popMany (s.layers.length - keep)).done) :
    s.containers[keep]? = some (.list style) := by
  have count : s.layers.length - keep = s.layers.length - 1 - keep + 1 := by omega
  rw [count] at ends
  rw [containers_getElem? inside, closed.endsIn_popMany (by omega) ends]

end Stack

namespace OpenLeaf

variable {held us : List Tree}

def Holds : OpenLeaf → List Tree → Prop
  | paragraph, held => ∀ c ∈ held, c.Inline
  | fence .., held => ∀ c ∈ held, c.isNode = false

theorem Holds.append {leaf : OpenLeaf} (holds : leaf.Holds held)
    (leaves : ∀ c ∈ us, c.isNode = false) : leaf.Holds (held ++ us) := by
  cases leaf with
  | paragraph =>
    exact List.forall_mem_append.mpr
      ⟨holds, fun c member => Tree.inline_of_leaf (leaves c member)⟩
  | fence => exact List.forall_mem_append.mpr ⟨holds, leaves⟩

theorem Holds.wellShaped {leaf : OpenLeaf} (holds : leaf.Holds held) :
    (Tree.node leaf.kind held).WellShaped := by
  cases leaf with
  | paragraph =>
    exact Tree.wellShaped_of_inline holds (Or.inl rfl) (absurd · (by decide)) (absurd · (by decide))
  | fence =>
    exact Tree.wellShaped_of_inline (fun c member => Tree.inline_of_leaf (holds c member))
      (Or.inr (Or.inr (Or.inl rfl))) (fun _ => holds) (by rintro ⟨⟩)

end OpenLeaf

namespace Stack

variable {layers : List Layer} {held us : List Tree} {t : Tree} {style : ListStyle} {s : Stack}
  {start : BlockStart} {tokens ending : List Token}

/-- Between two lines no list is innermost, and the last finished block is no list. -/
structure Between (s : Stack) : Prop where
  holds : Holds s.layers s.done
  top : topStyle? s.layers = none
  leaf : ∀ leaf held, s.leaf = some (leaf, held) → leaf.Holds held
  ended : s.leaf = none → ∀ style, ¬EndsIn style s.done

theorem Between.closeLeaf (between : s.Between) : s.closeLeaf.Between := by
  cases open_leaf : s.leaf with
  | none =>
    rw [closeLeaf_of_none open_leaf]
    exact between
  | some leaf =>
    obtain ⟨leaf, held⟩ := leaf
    have plain : ∀ style, ¬(Tree.node leaf.kind held).IsListOf style :=
      Tree.not_isListOf (by cases leaf <;> rfl)
    have other : leaf.kind ≠ .listItem ∧ leaf.kind ≠ .listMark := by
      cases leaf <;> exact ⟨by rintro ⟨⟩, by rintro ⟨⟩⟩
    rw [closeLeaf_of_some open_leaf]
    refine ⟨?_, between.top, by simp, ?_⟩
    · exact between.holds.concat_held between.top (between.leaf leaf held open_leaf).wellShaped other
        fun style _ => plain style
    · exact fun _ style ends => plain style ((Tree.endsIn_concat rfl).mp ends)

/-- What is needed to open the blocks of a line that begins with `start`: an innermost list waits for
its next item, and after a list comes something else. -/
structure Ready (s : Stack) (start : BlockStart) : Prop where
  holds : Holds s.layers s.done
  leaf : s.leaf = none
  top : ∀ style, topStyle? s.layers = some style → s.done ≠ [] ∧ ∃ bare, start = .item style bare
  apart : ∀ style, EndsIn style s.done → start ≠ .blank ∧ ∀ bare, start ≠ .item style bare

theorem Between.closed (between : s.Between) (closed : s.leaf = none) : s.Closed :=
  ⟨between.holds, closed, Or.inl between.top⟩

theorem Between.containers_isChain (between : s.Between) :
    s.containers.IsChain Continuation.Leads := by
  rw [containers, List.isChain_reverse]
  exact between.holds.isChain

theorem Between.stops_ofLine (between : s.Between) (c : Cursor) :
    Continuation.Stops s.containers (Continuation.ofLine s.containers c) := by
  apply Continuation.stops_ofLine between.containers_isChain
  intro style last
  rw [containers_last, ← topStyle?_eq_some, between.top] at last
  cases last

/-- After closing all but the first `keep` containers, only the ends of what is kept matter. -/
theorem Between.popMany (between : s.Between) (closed : s.leaf = none) {keep : Nat}
    (inside : keep ≤ s.layers.length)
    (waits : ∀ style, 0 < keep → s.containers[keep - 1]? = some (.list style) →
      ∃ bare, start = .item style bare)
    (apart : ∀ style, s.containers[keep]? = some (.list style) →
      start ≠ .blank ∧ ∀ bare, start ≠ .item style bare) :
    (s.popMany (s.layers.length - keep)).Ready start := by
  have after := (between.closed closed).popMany (s.layers.length - keep)
  refine ⟨after.holds, after.leaf, ?_, ?_⟩
  · intro style top
    have ripe := after.ripe
    rw [top] at ripe
    rw [layers_popMany] at top
    obtain ⟨some_kept, here⟩ := topStyle?_drop inside top
    refine ⟨?_, waits style some_kept here⟩
    rcases ripe with none_open | some_done
    · cases none_open
    · exact some_done
  · intro style ends
    by_cases all : keep = s.layers.length
    · rw [all, Nat.sub_self] at ends
      exact absurd ends (between.ended closed style)
    · exact apart style ((between.closed closed).container_of_endsIn (by omega) ends)

theorem Between.not_list_list (between : s.Between) {n : Nat} {style : ListStyle}
    (here : s.containers[n]? = some (.list style)) (style' : ListStyle) :
    s.containers[n + 1]? ≠ some (.list style') := by
  intro next
  obtain ⟨further, same⟩ := List.getElem?_eq_some_iff.mp next
  have leads := List.isChain_iff_getElem.mp between.containers_isChain n (by omega)
  rw [(List.getElem?_eq_some_iff.mp here).2, same] at leads
  obtain ⟨column, item⟩ := leads style rfl
  cases item

theorem Between.closeAfter (between : s.Between) (closed : s.leaf = none) {c : Continuation}
    (stops : Continuation.Stops s.containers c)
    (blank : start = .blank → c.cursor.skipBlank.rest = []) :
    (s.closeAfter c.count start).Ready start := by
  have length := s.length_containers
  rcases s.closeAfter_cases c.count start with ⟨style, bare, here, rfl, same⟩ | ⟨none_waits, same⟩
  · have inside := (List.getElem?_eq_some_iff.mp here).1
    rw [same]
    apply between.popMany closed (by omega)
    · intro style' _ again
      rw [Nat.add_sub_cancel, here] at again
      cases again
      exact ⟨bare, rfl⟩
    · exact fun style' next => absurd next (between.not_list_list here style')
  · rw [same]
    apply between.popMany closed (length ▸ stops.le)
    · exact fun style some_count here => absurd here (stops.kept some_count style)
    · exact fun style here =>
        ⟨fun none_left => stops.ended style here (blank none_left),
          fun bare => none_waits style bare here⟩

theorem Ready.emit (ready : s.Ready start) (spare : ∀ c ∈ us, c.Spare) : (s.emit us).Ready start := by
  have leaves : ∀ c ∈ us, c.isNode = false := fun c member => (spare c member).1
  have ripe : topStyle? s.layers = none ∨ s.done ≠ [] := by
    cases top : topStyle? s.layers with
    | none => exact Or.inl rfl
    | some style => exact Or.inr (ready.top style top).1
  rw [emit_of_none ready.leaf]
  refine ⟨ready.holds.append_spare ripe spare, ready.leaf, ?_, ?_⟩
  · intro style top
    obtain ⟨some_done, item⟩ := ready.top style top
    exact ⟨List.append_ne_nil_of_left_ne_nil some_done us, item⟩
  · intro style ends
    exact ready.apart style ((Tree.endsIn_append_leaves leaves).mp ends)

theorem Ready.topStyle_eq_none (ready : s.Ready start)
    (other : ∀ style bare, start ≠ .item style bare) :
    topStyle? s.layers = none := by
  cases top : topStyle? s.layers with
  | none => rfl
  | some style =>
    obtain ⟨_, bare, item⟩ := ready.top style top
    exact absurd item (other style bare)

theorem ready_opened (holds : Holds layers held) (plain : topStyle? layers = none)
    (leaves : ∀ c ∈ held, c.isNode = false) (start : BlockStart) :
    Ready ⟨layers, held, none⟩ start := by
  refine ⟨holds, rfl, ?_, ?_⟩
  · intro style top
    rw [plain] at top
    cases top
  · rintro style ⟨last, found, _⟩
    rw [Tree.nodes_of_leaves leaves] at found
    cases found

theorem Ready.push_quote (ready : s.Ready .quote) {t : Token} (spare : ∀ c ∈ us, c.Spare)
    (start : BlockStart) : ((s.push .quote).emit (.token .quoteMark [t] :: us)).Ready start := by
  apply ready_opened
  · exact ⟨ready.topStyle_eq_none (by simp), ready.holds, [t], us, rfl, Body.nil.append_spare spare⟩
  · rfl
  · exact List.forall_mem_cons.mpr ⟨rfl, fun c member => (spare c member).1⟩

theorem inList_iff : s.inList style = true ↔ topStyle? s.layers = some style := by
  obtain ⟨layers, done, leaf⟩ := s
  cases layers with
  | nil => exact iff_of_false Bool.false_ne_true (by simp [topStyle?])
  | cons layer outer =>
    obtain ⟨container, before⟩ := layer
    cases container with
    | list style' => exact beq_iff_eq.trans Option.some_inj.symm
    | quote | item => exact iff_of_false Bool.false_ne_true (by simp [topStyle?])

theorem Ready.holds_list {bare : Bool} (ready : s.Ready (.item style bare)) :
    Holds (if s.inList style then s else s.push (.list style)).layers
        (if s.inList style then s else s.push (.list style)).done ∧
      topStyle? (if s.inList style then s else s.push (.list style)).layers = some style := by
  by_cases open_list : s.inList style = true
  · rw [if_pos open_list]
    exact ⟨ready.holds, inList_iff.mp open_list⟩
  · rw [if_neg open_list]
    have plain : topStyle? s.layers = none := by
      cases top : topStyle? s.layers with
      | none => rfl
      | some style' =>
        obtain ⟨_, _, item⟩ := ready.top style' top
        cases item
        exact absurd (inList_iff.mpr top) open_list
    have apart : ¬EndsIn style s.done := fun ends => (ready.apart style ends).2 bare rfl
    exact ⟨⟨plain, ready.holds, apart, Items.nil⟩, rfl⟩

theorem Ready.push_item {bare : Bool} (ready : s.Ready (.item style bare)) (column : Nat)
    {marker : List Token} (marks : style.Marks (Token.join marker))
    (short : marker.length ≤ Tree.glueLimit) (spare : ∀ c ∈ us, c.Spare) (start : BlockStart) :
    (((if s.inList style then s else s.push (.list style)).push (.item column)).emit
      (Tree.glue .listMark marker ++ us)).Ready start := by
  obtain ⟨holds, top⟩ := ready.holds_list
  have some_tokens : marker ≠ [] := by
    rintro rfl
    exact marks.isItemMarker.ne_nil rfl
  rw [Tree.glue, if_neg some_tokens, if_pos short]
  apply ready_opened
  · exact ⟨style, top, holds, marker, us, rfl, marks, Body.nil.append_spare spare⟩
  · rfl
  · exact List.forall_mem_cons.mpr ⟨rfl, fun c member => (spare c member).1⟩

theorem Ready.between_emit_block (ready : s.Ready start) (top : topStyle? s.layers = none)
    (shaped : t.WellShaped) (other : t.kind ≠ .listItem ∧ t.kind ≠ .listMark)
    (node : t.isNode = true) (no_list : t.kind.isList = false) : (s.emit [t]).Between := by
  have plain : ∀ style, ¬t.IsListOf style := Tree.not_isListOf no_list
  rw [emit_of_none ready.leaf]
  refine ⟨ready.holds.concat_held top shaped other fun style _ => plain style, top, ?_, ?_⟩
  · intro leaf held open_leaf
    rw [ready.leaf] at open_leaf
    cases open_leaf
  · exact fun _ style ends => plain style ((Tree.endsIn_concat node).mp ends)

theorem Ready.between_of_leaf (ready : s.Ready start) (top : topStyle? s.layers = none)
    {leaf : OpenLeaf} (holds : leaf.Holds held) :
    Between { s with leaf := some (leaf, held) } := by
  refine ⟨ready.holds, top, ?_, by simp⟩
  intro leaf' held' same
  cases same
  exact holds

theorem Ready.openLeaf (ready : s.Ready start) (other : ∀ style bare, start ≠ .item style bare)
    (raw : ∀ t ∈ ending, t.Raw) (plain : ∀ t ∈ tokens, t.kind ≠ .newline) :
    (s.openLeaf start tokens ending).Between := by
  have top := ready.topStyle_eq_none other
  have ended : ∀ c ∈ ending.map Tree.leaf, c.Inline := fun c member =>
    Tree.inline_of_leaf (Tree.leaf_leaves ending c member)
  have paragraph : Between { s with
      leaf := some (.paragraph, Inline.parse tokens ++ ending.map Tree.leaf) } := by
    apply ready.between_of_leaf top
    exact List.forall_mem_append.mpr ⟨fun c member => (Tree.inLine_parse plain c member).1, ended⟩
  cases start with
  | blank =>
    have next := ready.emit (Tree.spare_leaves raw)
    rw [Stack.openLeaf]
    refine ⟨next.holds, next.topStyle_eq_none (by simp), ?_, fun _ style ends =>
      (next.apart style ends).1 rfl⟩
    intro leaf held open_leaf
    rw [next.leaf] at open_leaf
    cases open_leaf
  | heading level =>
    rw [Stack.openLeaf]
    refine ready.between_emit_block top ?_ ⟨by rintro ⟨⟩, by rintro ⟨⟩⟩ rfl rfl
    refine Tree.wellShaped_of_inline ?_ (Or.inr (Or.inl rfl)) (absurd · (by decide))
      (absurd · (by decide))
    rw [List.forall_mem_append, List.forall_mem_append]
    refine ⟨⟨?_, ?_⟩, ended⟩
    · exact fun c member => Tree.inline_of_leaf (Tree.leaf_glue _ _ c member)
    · exact fun c member =>
        (Tree.inLine_parse (fun t inside => plain t (List.mem_of_mem_drop inside)) c member).1
  | thematicBreak =>
    have leaves : ∀ c ∈ tokens.map Tree.leaf ++ ending.map Tree.leaf, c.isNode = false :=
      List.forall_mem_append.mpr ⟨Tree.leaf_leaves tokens, Tree.leaf_leaves ending⟩
    rw [Stack.openLeaf]
    refine ready.between_emit_block top ?_ ⟨by rintro ⟨⟩, by rintro ⟨⟩⟩ rfl rfl
    exact Tree.wellShaped_of_inline (fun c member => Tree.inline_of_leaf (leaves c member))
      (Or.inr (Or.inr (Or.inr (Or.inl rfl)))) (fun _ => leaves) (by rintro ⟨⟩)
  | fence mark length =>
    apply ready.between_of_leaf top
    show ∀ c ∈ _, _
    rw [List.forall_mem_append, List.forall_mem_append]
    exact ⟨⟨Tree.leaf_glue _ _, Tree.leaf_leaves _⟩, Tree.leaf_leaves _⟩
  | quote => exact paragraph
  | item style bare => exact absurd rfl (other style bare)
  | text => exact paragraph

theorem spare_blank {c : Cursor} (raw : ∀ t ∈ c.rest, t.Raw) :
    ∀ tree ∈ c.blank.map Tree.leaf, tree.Spare :=
  Tree.spare_leaves fun t member => raw t (Cursor.mem_of_mem_blank member)

theorem Ready.openBlocks {c : Cursor} (ready : s.Ready (BlockStart.ofCursor c.skipBlank))
    (raw : ∀ t ∈ c.rest, t.Raw) (plain : ∀ t ∈ c.rest, t.kind ≠ .newline)
    (ended : ∀ t ∈ ending, t.Raw) : (s.openBlocks c ending).Between := by
  have skipped : ∀ {p : Token → Prop} {c : Cursor}, (∀ t ∈ c.rest, p t) →
      ∀ t ∈ c.skipBlank.rest, p t := fun all t member => all t (Cursor.mem_of_mem_skipBlank member)
  fun_induction Stack.openBlocks s c ending with
  | case1 s c led t ts shape quote next inner ih =>
    have after := ready.emit (spare_blank raw)
    rw [quote] at after
    have later := skipped raw
    have line := skipped plain
    rw [shape, List.forall_mem_cons] at later line
    apply ih _ (skipped later.2) (skipped line.2)
    exact after.push_quote (spare_blank later.2) _
  | case2 s c led style bare t ts shape item marker column rest next listed inner ih =>
    have after := ready.emit (spare_blank raw)
    rw [item] at after
    have later := skipped raw
    have line := skipped plain
    have opens := BlockStart.ofCursor_reads c.skipBlank
    rw [item, shape] at opens
    rw [shape] at later line
    have beyond : ∀ {p : Token → Prop}, (∀ u ∈ t :: ts, p u) → ∀ u ∈ rest, p u :=
      fun all u member => all u (List.mem_cons_of_mem _ (List.mem_of_mem_drop member))
    apply ih _ (skipped (beyond later)) (skipped (beyond line))
    exact after.push_item next.base (ListStyle.Opens.marks opens later) (markerWidth_le style _)
      (spare_blank (c := next) (beyond later)) _
  | case3 s c led no_quote no_item =>
    apply (ready.emit (spare_blank raw)).openLeaf _ ended (skipped plain)
    intro style bare item
    have opens := BlockStart.ofCursor_reads c.skipBlank
    rw [item] at opens
    cases left : c.skipBlank.rest with
    | nil => exact ListStyle.Opens.ne_nil opens left
    | cons t ts => exact no_item style bare t ts item left

theorem Between.emit (between : s.Between) {leaf : OpenLeaf} (open_leaf : s.leaf = some (leaf, held))
    (more : leaf.Holds (held ++ us)) : (s.emit us).Between := by
  rw [emit_of_some open_leaf]
  refine ⟨between.holds, between.top, ?_, by simp⟩
  intro leaf' held' same
  cases same
  exact more

theorem Between.emit_leaves (between : s.Between) {leaf : OpenLeaf}
    (open_leaf : s.leaf = some (leaf, held)) (leaves : ∀ c ∈ us, c.isNode = false) :
    (s.emit us).Between :=
  between.emit open_leaf ((between.leaf leaf held open_leaf).append leaves)

theorem Between.fenceLine (between : s.Between) {leaf : OpenLeaf}
    (open_leaf : s.leaf = some (leaf, held)) (mark : Kind) (length : Nat) (c : Cursor)
    (ending : List Token) : (s.fenceLine mark length c ending).Between := by
  obtain ⟨leaves, _, single, made⟩ := s.fenceLine_leaves mark length c ending
  have emitted := between.emit_leaves open_leaf fun t member => (single t member).isNode
  rcases made with same | same
  · rw [same]
    exact emitted
  · rw [same]
    exact emitted.closeLeaf

theorem spare_lead {lead : List Tree} (single : ∀ tree ∈ lead, Continuation.IsLead tree) :
    ∀ tree ∈ lead, tree.Spare := by
  intro tree member
  obtain ⟨t, shape⟩ := single tree member
  rcases shape with ⟨rfl, blank⟩ | ⟨rfl, _⟩
  · refine ⟨rfl, ?_⟩
    show t.kind ≠ .listMark
    rw [blank]
    simp
  · exact ⟨rfl, by rintro ⟨⟩⟩

theorem Between.addLine (between : s.Between) (raw : ∀ t ∈ tokens, t.Raw)
    (plain : ∀ t ∈ tokens, t.kind ≠ .newline) (ended : ∀ t ∈ ending, t.Raw) :
    (s.addLine tokens ending).Between := by
  obtain ⟨c, s', read, made, step, parts, single⟩ := s.exists_lineStep tokens ending
  have stops := between.stops_ofLine ⟨tokens, 0, 0⟩
  rw [read] at stops
  rw [made]
  rw [← parts, List.forall_mem_append] at raw plain
  have lead := spare_lead single
  cases step with
  | fence open_leaf =>
    have emitted := emit_of_some open_leaf c.lead
    have still := between.emit_leaves open_leaf fun t member => (lead t member).1
    exact still.fenceLine (congrArg Stack.leaf emitted) _ _ _ _
  | paragraph open_leaf =>
    apply between.emit open_leaf
    refine List.forall_mem_append.mpr ⟨between.leaf _ _ open_leaf, ?_⟩
    rw [List.forall_mem_append, List.forall_mem_append]
    refine ⟨⟨?_, ?_⟩, ?_⟩
    · exact fun t member => Tree.inline_of_leaf (lead t member).1
    · exact fun t member => (Tree.inLine_parse plain.2 t member).1
    · exact fun t member => Tree.inline_of_leaf (Tree.leaf_leaves ending t member)
  | reopen =>
    have blank : BlockStart.ofCursor c.cursor.skipBlank = .blank → c.cursor.skipBlank.rest = [] := by
      intro none_left
      have reads := BlockStart.ofCursor_reads c.cursor.skipBlank
      rw [none_left] at reads
      exact reads
    rw [← containers_closeLeaf] at stops
    have ready := between.closeLeaf.closeAfter (leaf_closeLeaf s) stops blank
    exact (ready.emit lead).openBlocks raw.2 plain.2 ended

theorem Between.lines (between : s.Between) (raw : ∀ t ∈ tokens, t.Raw) :
    (s.lines tokens).Between := by
  fun_induction Stack.lines s tokens with
  | case1 s => exact between
  | case2 s t ts ih =>
    have content : ∀ u ∈ (t :: ts).takeWhile (·.kind != .newline), u.Raw := fun u member =>
      raw u ((List.takeWhile_sublist _).mem member)
    have below : ∀ u ∈ (t :: ts).drop ((t :: ts).takeWhile (·.kind != .newline)).length, u.Raw :=
      fun u member => raw u (List.mem_of_mem_drop member)
    apply ih
    · exact between.addLine content (Token.Lined.first_line (t :: ts)).plain
        fun u member => below u (List.mem_of_mem_take member)
    · exact fun u member => below u (List.mem_of_mem_drop member)

end Stack

/-- The tree of every text has the shape that editing relies on: items stand in lists of their style,
items and quotes begin with their mark, neighbouring lists differ in style, text holds only inline
elements, and these stay on one line. -/
theorem Tree.wellShaped_ofText (t : Text) : (Tree.ofText t).WellShaped := by
  have begun : Stack.empty.Between := by
    refine ⟨Body.nil, rfl, by rintro _ _ ⟨⟩, ?_⟩
    rintro _ style ⟨last, found, _⟩
    cases found
  have lines := begun.lines fun token member => Token.raw_of_mem_scan (t := t) member
  have closed := (lines.closeLeaf.closed (Stack.leaf_closeLeaf _)).popMany
    (Stack.empty.lines (Token.scan t)).layers.length
  have body := closed.holds
  rw [Stack.layers_finish] at body
  exact Body.wellShaped body (Or.inl ⟨rfl, rfl⟩)

end MarkdownEditing
