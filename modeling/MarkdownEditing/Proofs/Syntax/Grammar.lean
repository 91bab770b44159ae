import MarkdownEditing.Proofs.Syntax.Parsing

namespace MarkdownEditing

namespace Event

variable {a b events : List Event} {depth inner : Nat}

def isStart : Event → Bool
  | start _ => true
  | _ => false

def isFinish : Event → Bool
  | finish => true
  | _ => false

/-- An event of a leaf made of at least one token, and of no more than can be glued. -/
def IsLeaf (event : Event) : Prop :=
  ∃ kind width, event = token kind width ∧ 1 ≤ width ∧ width ≤ Tree.glueLimit

theorem depth?_append (depth : Nat) (a b : List Event) :
    depth? depth (a ++ b) = (depth? depth a).bind (depth? · b) := by
  fun_induction depth? depth a with
  | case1 depth => rfl
  | case3 => rfl
  | case2 depth kind a ih => exact ih
  | case4 depth a ih => exact ih
  | case5 depth kind width a ih => cases depth <;> exact ih
  | case6 depth a ih => cases depth <;> exact ih

theorem depth?_succ (opens : depth? depth a = some inner) :
    depth? (depth + 1) a = some (inner + 1) := by
  fun_induction depth? depth a with
  | case1 depth => exact congrArg (fun inner => some (inner + 1)) (Option.some.inj opens)
  | case3 => cases opens
  | case2 depth kind a ih => exact ih opens
  | case4 depth a ih => exact ih opens
  | case5 depth kind width a ih => exact ih opens
  | case6 depth a ih => exact ih opens

theorem depth?_leaves (depth : Nat) (leaves : ∀ event ∈ a, event.IsLeaf) :
    depth? depth a = some depth := by
  induction a with
  | nil => cases depth <;> rfl
  | cons event a ih =>
    obtain ⟨⟨kind, width, rfl, _⟩, later⟩ := List.forall_mem_cons.mp leaves
    cases depth <;> exact ih later

theorem countP_finish_le (nested : depth? depth events = some inner) (n : Nat) :
    (events.take n).countP isFinish ≤ depth + (events.take n).countP isStart := by
  induction n generalizing events depth with
  | zero => simp
  | succ n ih =>
    cases events with
    | nil => simp
    | cons event events =>
      rw [List.take_succ_cons, List.countP_cons, List.countP_cons]
      cases event with
      | start kind =>
        have later := @ih events (depth + 1) (by cases depth <;> exact nested)
        simp only [isFinish, isStart, Bool.false_eq_true, if_false, if_true]
        omega
      | finish =>
        cases depth with
        | zero => cases nested
        | succ depth =>
          have later := @ih events depth nested
          simp only [isFinish, isStart, Bool.false_eq_true, if_false, if_true]
          omega
      | token kind width => exact @ih events depth (by cases depth <;> exact nested)
      | placeholder => exact @ih events depth (by cases depth <;> exact nested)

theorem exists_parts {place : Nat} (held : events[place]? = some .placeholder) :
    ∃ before after, events = before ++ .placeholder :: after ∧ before.length = place := by
  obtain ⟨inside, same⟩ := List.getElem?_eq_some_iff.mp held
  refine ⟨events.take place, events.drop (place + 1), ?_, List.length_take_of_le (Nat.le_of_lt inside)⟩
  rw [← same, ← List.drop_eq_getElem_cons inside, List.take_append_drop]

end Event

namespace Tree

def rawOpen : List (Kind × List Tree) → List Token
  | [] => []
  | (_, outer) :: above => rawOpen above ++ rawAll outer

/-- Nested events inside one more node build that node, with the tokens that they take. -/
theorem exists_follow (kind : Kind) {events : List Event} {tokens : List Token}
    {above : List (Kind × List Tree)} {done : List Tree}
    (nested : Event.depth? above.length events = some 0)
    (fits : Event.widths events ≤ tokens.length) :
    ∃ children, follow tokens (above ++ [(kind, [])]) done (events ++ [.finish]) =
        some (node kind children) ∧
      rawAll children = rawOpen above ++ rawAll done ++ tokens.take (Event.widths events) := by
  -- On the events. The nodes that are open around the next one are `above`, and a finish closes the
  -- last of them.
  induction events generalizing tokens above done with
  | nil =>
    have closed : above = [] := List.length_eq_zero_iff.mp (Option.some.inj nested)
    subst closed
    exact ⟨done, rfl, by simp [rawOpen]⟩
  | cons event events ih =>
    cases event with
    | start inner =>
      obtain ⟨children, built, raw⟩ := @ih tokens ((inner, done) :: above) [] nested
        (by simpa [Event.width] using fits)
      exact ⟨children, built, by simpa [rawOpen, Event.width] using raw⟩
    | token leaf width =>
      rw [Event.widths_cons, Event.width] at fits
      obtain ⟨children, built, raw⟩ := @ih (tokens.drop width) above
        (done ++ [token leaf (tokens.take width)]) (by cases above <;> exact nested)
        (by rw [List.length_drop]; omega)
      refine ⟨children, ?_, ?_⟩
      · rw [List.cons_append, follow, if_pos (by omega)]
        exact built
      · rw [raw, Event.widths_cons, Event.width, List.take_add]
        simp
    | finish =>
      cases above with
      | nil => cases nested
      | cons level above =>
        obtain ⟨inner, outer⟩ := level
        obtain ⟨children, built, raw⟩ := @ih tokens above (outer ++ [node inner done]) nested
          (by simpa [Event.width] using fits)
        exact ⟨children, built, by simpa [rawOpen, Event.width] using raw⟩
    | placeholder =>
      obtain ⟨children, built, raw⟩ := @ih tokens above done (by cases above <;> exact nested)
        (by simpa [Event.width] using fits)
      exact ⟨children, built, by simpa [Event.width] using raw⟩

end Tree

namespace Recorder

variable {r r' r'' : Recorder} {more more' : List Event}

/-- Between two recorders tokens are taken, as leaves. -/
structure Takes (r r' : Recorder) (more : List Event) : Prop where
  tokens : r'.tokens = r.tokens
  events : r'.events = r.events ++ more
  index : r'.index = r.index + Event.widths more
  inside : r.index ≤ r.tokens.length → r'.index ≤ r.tokens.length
  leaves : ∀ event ∈ more, event.IsLeaf

theorem takes_nothing (r : Recorder) : Takes r r [] :=
  ⟨rfl, (List.append_nil _).symm, rfl, id, fun _ member => absurd member List.not_mem_nil⟩

theorem Takes.trans (first : Takes r r' more) (second : Takes r' r'' more') :
    Takes r r'' (more ++ more') where
  tokens := second.tokens.trans first.tokens
  events := by rw [second.events, first.events, List.append_assoc]
  index := by rw [second.index, first.index, Event.widths_append, Nat.add_assoc]
  inside := fun inside => by
    have later := second.inside
    rw [first.tokens] at later
    exact later (first.inside inside)
  leaves := List.forall_mem_append.mpr ⟨first.leaves, second.leaves⟩

theorem takes_one {count : Nat} (kind : Kind) (some_tokens : 1 ≤ count) (few : count ≤ Tree.glueLimit)
    (inside : r.index + count ≤ r.tokens.length) :
    Takes r { r with index := r.index + count, events := r.events ++ [.token kind count] }
      [.token kind count] :=
  ⟨rfl, rfl, rfl, fun _ => inside,
    fun _ member => ⟨kind, count, List.mem_singleton.mp member, some_tokens, few⟩⟩

theorem exists_takes_bump (r : Recorder) : ∃ more, Takes r r.bump more := by
  rw [bump]
  split
  · rename_i t next
    have inside := (List.getElem?_eq_some_iff.mp next).1
    exact ⟨_, takes_one t.kind (Nat.le_refl 1) (by decide) inside⟩
  · exact ⟨[], takes_nothing r⟩

theorem exists_takes_bumpEach (r : Recorder) (count : Nat) : ∃ more, Takes r (r.bumpEach count) more := by
  induction count generalizing r with
  | zero => exact ⟨[], takes_nothing r⟩
  | succ count ih =>
    obtain ⟨_, first⟩ := exists_takes_bump r
    obtain ⟨_, later⟩ := ih r.bump
    exact ⟨_, first.trans later⟩

/-- Nothing happens past the end, few tokens become one leaf, and many stay single leaves. -/
theorem exists_takes_bumpGlued (r : Recorder) (count : Nat) (kind : Kind) :
    ∃ more, Takes r (r.bumpGlued count kind) more := by
  rw [bumpGlued]
  split
  · exact ⟨[], takes_nothing r⟩
  · rename_i inside
    split
    · rename_i few
      exact ⟨_, takes_one kind (by omega) few (by omega)⟩
    · exact exists_takes_bumpEach r count

theorem exists_takes_eat (r : Recorder) (kind : Kind) : ∃ more, Takes r (r.eat kind).1 more := by
  rw [eat]
  split
  · exact exists_takes_bump r
  · exact ⟨[], takes_nothing r⟩

end Recorder

/-- A step of a grammar. A node that is begun goes by the place held for it. -/
inductive GrammarStep
  | start
  | complete (place : Nat) (kind : Kind)
  | abandon (place : Nat)
  | bump
  | bumpGlued (count : Nat) (kind : Kind)
  | eat (kind : Kind)
  | bumpToLineEnd
  deriving DecidableEq, Repr

/-- A recorder, and the places held for nodes that are neither completed nor given up yet. -/
structure GrammarState where
  recorder : Recorder
  held : List Nat
  deriving Repr

namespace GrammarState

def ofTokens (tokens : List Token) : GrammarState := ⟨Recorder.ofTokens tokens, []⟩

def step? (s : GrammarState) : GrammarStep → Option GrammarState
  | .start => some ⟨s.recorder.start.1, s.recorder.start.2 :: s.held⟩
  | .complete place kind =>
    if place ∈ s.held then some ⟨s.recorder.complete place kind, s.held.erase place⟩ else none
  | .abandon place =>
    if place ∈ s.held then some ⟨s.recorder.abandon place, s.held.erase place⟩ else none
  | .bump => some { s with recorder := s.recorder.bump }
  | .bumpGlued count kind => some { s with recorder := s.recorder.bumpGlued count kind }
  | .eat kind => some { s with recorder := (s.recorder.eat kind).1 }
  | .bumpToLineEnd => some { s with recorder := s.recorder.bumpToLineEnd }

def run? (s : GrammarState) : List GrammarStep → Option GrammarState
  | [] => some s
  | step :: steps => (s.step? step).bind (·.run? steps)

theorem run?_append (s : GrammarState) (first later : List GrammarStep) :
    s.run? (first ++ later) = (s.run? first).bind (·.run? later) := by
  induction first generalizing s with
  | nil => rfl
  | cons step first ih =>
    rw [List.cons_append, run?, run?, Option.bind_assoc]
    exact congrArg (Option.bind (s.step? step)) (funext fun next => ih next)

/-- What every grammar keeps: the events take the tokens up to the index, each in a leaf of the size
that leaves may have, they are nested, and each held place still is where it was. -/
structure Sound (tokens : List Token) (s : GrammarState) : Prop where
  reading : s.recorder.tokens = tokens
  taken : Event.widths s.recorder.events = s.recorder.index
  inside : s.recorder.index ≤ tokens.length
  leaves : ∀ kind width, .token kind width ∈ s.recorder.events →
    1 ≤ width ∧ width ≤ Tree.glueLimit
  nested : Event.depth? 0 s.recorder.events = some 0
  apart : s.held.Nodup
  held : ∀ place ∈ s.held, s.recorder.events[place]? = some .placeholder

namespace Sound

variable {tokens : List Token} {s s' : GrammarState} {r : Recorder} {more : List Event}
  {place : Nat} {kind : Kind}

theorem ofTokens (tokens : List Token) : (GrammarState.ofTokens tokens).Sound tokens :=
  ⟨rfl, rfl, Nat.zero_le _, fun _ _ member => absurd member List.not_mem_nil, rfl, List.nodup_nil,
    fun _ member => absurd member List.not_mem_nil⟩

theorem of_takes (sound : s.Sound tokens) (takes : s.recorder.Takes r more) :
    Sound tokens { s with recorder := r } where
  reading := takes.tokens.trans sound.reading
  taken := by rw [takes.events, takes.index, Event.widths_append, sound.taken]
  inside := by
    have inside := takes.inside
    rw [sound.reading] at inside
    exact inside sound.inside
  leaves := by
    intro kind width member
    rw [takes.events] at member
    rcases List.mem_append.mp member with before | new
    · exact sound.leaves kind width before
    · obtain ⟨_, _, same, bounds⟩ := takes.leaves _ new
      cases same
      exact bounds
  nested := by
    rw [takes.events, Event.depth?_append, sound.nested]
    exact Event.depth?_leaves 0 takes.leaves
  apart := sound.apart
  held := by
    intro place member
    have here := sound.held place member
    rw [takes.events, List.getElem?_append_left (List.getElem?_eq_some_iff.mp here).1]
    exact here

theorem start (sound : s.Sound tokens) :
    Sound tokens ⟨s.recorder.start.1, s.recorder.start.2 :: s.held⟩ where
  reading := sound.reading
  taken := by
    rw [Recorder.start, Event.widths_append]
    exact sound.taken
  inside := sound.inside
  leaves := by
    intro kind width member
    rcases List.mem_append.mp member with before | new
    · exact sound.leaves kind width before
    · cases List.mem_singleton.mp new
  nested := by
    rw [Recorder.start, Event.depth?_append, sound.nested]
    rfl
  apart := by
    refine List.nodup_cons.mpr ⟨fun member => ?_, sound.apart⟩
    exact Nat.lt_irrefl _ (List.getElem?_eq_some_iff.mp (sound.held _ member)).1
  held := by
    intro place member
    rcases List.mem_cons.mp member with rfl | before
    · exact List.getElem?_concat_length
    · have here := sound.held place before
      rw [Recorder.start, List.getElem?_append_left (List.getElem?_eq_some_iff.mp here).1]
      exact here

theorem complete (sound : s.Sound tokens) (member : place ∈ s.held) (kind : Kind) :
    Sound tokens ⟨s.recorder.complete place kind, s.held.erase place⟩ := by
  obtain ⟨before, after, parts, rfl⟩ := Event.exists_parts (sound.held _ member)
  have events : (s.recorder.complete before.length kind).events =
      before ++ .start kind :: after ++ [.finish] := by simp [Recorder.complete, parts]
  have taken := sound.taken
  have leaves := sound.leaves
  have nested := sound.nested
  rw [parts] at taken leaves nested
  rw [Event.depth?_append] at nested
  obtain ⟨depth, outer, inner⟩ := Option.bind_eq_some_iff.mp nested
  have inner : Event.depth? depth after = some 0 := by cases depth <;> exact inner
  refine ⟨sound.reading, ?_, sound.inside, ?_, ?_, sound.apart.erase _, ?_⟩
  · show Event.widths (s.recorder.complete before.length kind).events = s.recorder.index
    rw [events]
    simpa [Event.width] using taken
  · intro leaf width leaf_member
    apply leaves leaf width
    rw [events] at leaf_member
    simpa using leaf_member
  · have around := Event.depth?_succ inner
    rw [events, Event.depth?_append, Event.depth?_append, outer, Option.bind_some, Event.depth?,
      around]
    rfl
  · intro other other_member
    obtain ⟨differs, still⟩ := (sound.apart.mem_erase_iff).mp other_member
    have here := sound.held other still
    have inside := (List.getElem?_eq_some_iff.mp here).1
    rw [Recorder.complete, List.getElem?_append_left (by rwa [List.length_set]),
      List.getElem?_set_ne (Ne.symm differs)]
    exact here

theorem abandon (sound : s.Sound tokens) (member : place ∈ s.held) :
    Sound tokens ⟨s.recorder.abandon place, s.held.erase place⟩ := by
  have others : ∀ other ∈ s.held.erase place, other ≠ place ∧ other ∈ s.held :=
    fun other other_member => sound.apart.mem_erase_iff.mp other_member
  rw [Recorder.abandon]
  split
  · rename_i last
    obtain ⟨before, after, parts, rfl⟩ := Event.exists_parts (sound.held _ member)
    rw [parts, List.length_append, List.length_cons] at last
    obtain rfl : after = [] := List.length_eq_zero_iff.mp (by omega)
    have taken := sound.taken
    have leaves := sound.leaves
    have nested := sound.nested
    have held := sound.held
    rw [parts] at taken leaves nested held
    refine ⟨sound.reading, ?_, sound.inside, ?_, ?_, sound.apart.erase _, ?_⟩
    · simpa [parts, Event.width] using taken
    · intro leaf width leaf_member
      apply leaves leaf width
      simpa [parts] using leaf_member
    · rw [Event.depth?_append] at nested
      obtain ⟨depth, outer, inner⟩ := Option.bind_eq_some_iff.mp nested
      have closed : depth = 0 := by cases depth <;> exact Option.some.inj inner
      rw [parts, List.dropLast_concat, outer, closed]
    · intro other other_member
      obtain ⟨differs, still⟩ := others other other_member
      have here := held other still
      have inside := (List.getElem?_eq_some_iff.mp here).1
      rw [List.length_append, List.length_singleton] at inside
      rw [List.getElem?_append_left (by omega)] at here
      rw [parts, List.dropLast_concat]
      exact here
  · exact { sound with
      apart := sound.apart.erase _
      held := fun other other_member => sound.held other (others other other_member).2 }

theorem step (sound : s.Sound tokens) {step : GrammarStep} (next : s.step? step = some s') :
    s'.Sound tokens := by
  cases step with
  | start =>
    cases next
    exact sound.start
  | complete place kind =>
    rw [step?] at next
    split at next
    · rename_i member
      cases next
      exact sound.complete member kind
    · cases next
  | abandon place =>
    rw [step?] at next
    split at next
    · rename_i member
      cases next
      exact sound.abandon member
    · cases next
  | bump =>
    cases next
    exact sound.of_takes (Recorder.exists_takes_bump s.recorder).choose_spec
  | bumpGlued count kind =>
    cases next
    exact sound.of_takes (Recorder.exists_takes_bumpGlued s.recorder count kind).choose_spec
  | eat kind =>
    cases next
    exact sound.of_takes (Recorder.exists_takes_eat s.recorder kind).choose_spec
  | bumpToLineEnd =>
    cases next
    exact sound.of_takes (Recorder.exists_takes_bumpEach s.recorder _).choose_spec

theorem run (sound : s.Sound tokens) {steps : List GrammarStep} (ran : s.run? steps = some s') :
    s'.Sound tokens := by
  induction steps generalizing s with
  | nil =>
    cases ran
    exact sound
  | cons step steps ih =>
    obtain ⟨next, first, later⟩ := Option.bind_eq_some_iff.mp ran
    exact ih (sound.step first) later

theorem exists_tree (sound : s.Sound tokens) (outermost : 0 ∈ s.held)
    (all : s.recorder.atEnd = true) (kind : Kind) :
    ∃ children, Tree.ofEvents? tokens (s.recorder.complete 0 kind).events =
      some (.node kind children) ∧ Tree.rawAll children = tokens := by
  obtain ⟨before, events, parts, start⟩ := Event.exists_parts (sound.held 0 outermost)
  obtain rfl : before = [] := List.length_eq_zero_iff.mp start
  have nested := sound.nested
  have taken := sound.taken
  rw [parts] at nested taken
  have taken : Event.widths events = s.recorder.index := by simpa [Event.width] using taken
  rw [Recorder.atEnd, decide_eq_true_eq, sound.reading] at all
  obtain ⟨children, built, raw⟩ := @Tree.exists_follow kind events tokens [] [] nested
    (by rw [taken]; exact sound.inside)
  refine ⟨children, ?_, ?_⟩
  · rw [Recorder.complete, parts]
    exact built
  · rw [raw, taken, List.take_of_length_le all]
    rfl

end Sound

end GrammarState

/-- Every grammar is lossless: whatever steps it takes, its events hold the tokens up to its index and
end no node that they did not begin, and a node that is begun first and completed last, when all
tokens are taken, becomes the tree of the whole text. -/
theorem grammar_lossless (tokens : List Token) (steps : List GrammarStep) :
    (∀ s, (GrammarState.ofTokens tokens).run? steps = some s →
      s.Sound tokens ∧ ∀ n, (s.recorder.events.take n).countP Event.isFinish ≤
        (s.recorder.events.take n).countP Event.isStart) ∧
    ∀ kind s, (GrammarState.ofTokens tokens).run? (.start :: steps ++ [.complete 0 kind]) = some s →
      s.recorder.atEnd = true →
      ∃ tree, Tree.ofEvents? tokens s.recorder.events = some tree ∧ tree.isNode = true ∧
        tree.kind = kind ∧ tree.raw = tokens ∧ tree.text = Token.join tokens := by
  have begun := GrammarState.Sound.ofTokens tokens
  constructor
  · intro s ran
    have sound := begun.run ran
    refine ⟨sound, fun n => ?_⟩
    have bounded := Event.countP_finish_le sound.nested n
    rwa [Nat.zero_add] at bounded
  · intro kind s ran all
    rw [GrammarState.run?_append] at ran
    obtain ⟨inner, before, last⟩ := Option.bind_eq_some_iff.mp ran
    rw [GrammarState.run?, GrammarState.step?] at last
    split at last
    · rename_i outermost
      cases last
      obtain ⟨children, built, raw⟩ := (begun.run before).exists_tree outermost all kind
      refine ⟨_, built, rfl, rfl, ?_, ?_⟩
      · rw [Tree.raw_node, raw]
      · rw [Tree.text, Tree.raw_node, raw]
    · cases last

def starredWord : List Token := [⟨.star, ['*']⟩, ⟨.star, ['*']⟩, ⟨.text, ['a']⟩]

def crossedNodes : List GrammarStep :=
  [.start, .bumpGlued 2 .emphasisMark, .start, .bump, .complete 1 .strong, .abandon 3]

theorem crossedNodes_lossless :
    ∃ s t, (GrammarState.ofTokens starredWord).run? (.start :: crossedNodes) = some s ∧
      s.held = [0] ∧ s.Sound starredWord ∧
      (GrammarState.ofTokens starredWord).run? (.start :: crossedNodes ++ [.complete 0 .root]) =
        some t ∧ t.recorder.atEnd = true ∧
      ∃ tree, Tree.ofEvents? starredWord t.recorder.events = some tree ∧ tree.kind = .root ∧
        tree.text = ['*', '*', 'a'] := by
  obtain ⟨sound, _⟩ := (grammar_lossless starredWord (.start :: crossedNodes)).1 _ rfl
  obtain ⟨tree, built, _, kind, _, text⟩ :=
    (grammar_lossless starredWord crossedNodes).2 .root _ rfl (by decide)
  exact ⟨_, _, rfl, rfl, sound, rfl, by decide, tree, built, kind, text⟩

end MarkdownEditing
