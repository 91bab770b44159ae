import Mathlib
import MarkdownEditing.Proofs.Edit.Whole

namespace MarkdownEditing

namespace Text

/-- A text that begins at offset `pos` and is made of gaps with pieces between them, where the pieces
stand at the spans. -/
inductive Interleaved : Nat → List Text → List Text → List (Nat × Nat) → Text → Prop
  | last (pos : Nat) (gap : Text) : Interleaved pos [gap] [] [] gap
  | piece {pos : Nat} (gap piece : Text) {gaps pieces : List Text} {spans : List (Nat × Nat)}
      {u : Text} :
    Interleaved (pos + gap.size + piece.size) gaps pieces spans u →
      Interleaved pos (gap :: gaps) (piece :: pieces)
        ((pos + gap.size, pos + gap.size + piece.size) :: spans) (gap ++ piece ++ u)

def misses (spans : List (Nat × Nat)) (offset : Nat) (c : Char) : Bool :=
  !spans.any fun r => touches r.1 r.2 offset c

def outside (t : Text) (spans : List (Nat × Nat)) : Text := t.pickFrom (misses spans) 0

section

variable {accepts accepts' : Nat → Char → Bool} {offset : Nat} {t : Text}

theorem pickFrom_congr (same : ∀ (a : Text) (c : Char) (b : Text), t = a ++ c :: b →
    accepts (offset + a.size) c = accepts' (offset + a.size) c) :
    t.pickFrom accepts offset = t.pickFrom accepts' offset := by
  induction t generalizing offset with
  | nil => rfl
  | cons c t ih =>
    have here : accepts offset c = accepts' offset c := same [] c t rfl
    have later : pickFrom accepts (offset + c.utf8Size) t =
        pickFrom accepts' (offset + c.utf8Size) t := by
      apply ih
      intro a d b parts
      have inside := same (c :: a) d b (by rw [parts]; rfl)
      rw [size_cons, ← Nat.add_assoc] at inside
      exact inside
    rw [pickFrom, pickFrom, here, later]

theorem pickFrom_of_all (all : ∀ (a : Text) (c : Char) (b : Text), t = a ++ c :: b →
    accepts (offset + a.size) c = true) : t.pickFrom accepts offset = t := by
  have every : ∀ (offset : Nat) (t : Text), t.pickFrom (fun _ _ => true) offset = t := by
    intro offset t
    induction t generalizing offset with
    | nil => rfl
    | cons c t ih => rw [pickFrom, if_pos rfl, ih]
  exact (pickFrom_congr all).trans (every offset t)

theorem pickFrom_of_none (none_left : ∀ (a : Text) (c : Char) (b : Text), t = a ++ c :: b →
    accepts (offset + a.size) c = false) : t.pickFrom accepts offset = [] := by
  apply List.eq_nil_iff_forall_not_mem.mpr
  intro c member
  obtain ⟨a, b, parts, accepted⟩ := mem_pickFrom.mp member
  rw [none_left a c b parts] at accepted
  cases accepted

end

theorem misses_iff {spans : List (Nat × Nat)} {offset : Nat} {c : Char} :
    misses spans offset c = true ↔
      ∀ r ∈ spans, ¬(r.1 < r.2 ∧ r.1 < offset + c.utf8Size ∧ offset < r.2) := by
  simp only [misses, touches, Bool.not_eq_true', List.any_eq_false, Bool.and_eq_true,
    decide_eq_true_eq, and_assoc]

namespace Interleaved

variable {pos : Nat} {gaps pieces : List Text} {spans : List (Nat × Nat)} {t a u b : Text}

theorem spans_within (laid : Interleaved pos gaps pieces spans u) :
    ∀ r ∈ spans, pos ≤ r.1 ∧ r.1 ≤ r.2 ∧ r.2 ≤ pos + u.size := by
  induction laid with
  | last => simp
  | piece gap piece _ ih =>
    intro r member
    rw [size_append, size_append]
    rcases List.mem_cons.mp member with rfl | member
    · dsimp only
      omega
    · have later := ih r member
      omega

theorem spans_pairwise (laid : Interleaved pos gaps pieces spans u) :
    spans.Pairwise fun first second => first.2 ≤ second.1 := by
  induction laid with
  | last => exact List.Pairwise.nil
  | piece gap piece rest ih =>
    exact List.Pairwise.cons (fun r member => (rest.spans_within r member).1) ih

theorem cut?_spans (laid : Interleaved pos gaps pieces spans u) (parts : t = a ++ u)
    (here : a.size = pos) : spans.map (fun r => t.cut? r.1 r.2) = pieces.map some := by
  induction laid generalizing a with
  | last => rfl
  | @piece pos gap piece gaps pieces spans u rest ih =>
    have first : t = a ++ gap ++ piece ++ u := by
      rw [parts]
      simp only [List.append_assoc]
    have begins : (a ++ gap).size = pos + gap.size := by rw [size_append, here]
    have ends : (a ++ gap ++ piece).size = pos + gap.size + piece.size := by
      rw [size_append, begins]
    have start : t.isBoundary (pos + gap.size) = true := by
      rw [first, ← begins, List.append_assoc]
      exact isBoundary_left _ _
    have stop : t.isBoundary (pos + gap.size + piece.size) = true := by
      rw [first, ← ends]
      exact isBoundary_left _ _
    have cut : t.cut? (pos + gap.size) (pos + gap.size + piece.size) = some piece := by
      rw [cut?, start, stop, ← begins, first, slice_middle]
      rfl
    rw [List.map_cons, List.map_cons, cut, ih first ends]

theorem pickFrom_misses (laid : Interleaved pos gaps pieces spans u) :
    u.pickFrom (misses spans) pos = gaps.flatten := by
  -- On the gaps. A span misses the gap before it and all that follows, and touches every
  -- character of its own piece.
  induction laid with
  | last pos gap =>
    rw [List.flatten_singleton]
    exact pickFrom_of_all fun a c b _ => rfl
  | @piece pos gap piece gaps pieces spans u rest ih =>
    have begins := rest.spans_within
    generalize here : (pos + gap.size, pos + gap.size + piece.size) = span
    have first : gap.pickFrom (misses (span :: spans)) pos = gap := by
      apply pickFrom_of_all
      intro a c b parts
      rw [misses_iff, ← here]
      intro r member
      have sizes := congrArg size parts
      rw [size_append, size_cons] at sizes
      rcases List.mem_cons.mp member with rfl | member
      · dsimp only
        omega
      · have later := begins r member
        omega
    have second : piece.pickFrom (misses (span :: spans)) (pos + gap.size) = [] := by
      apply pickFrom_of_none
      intro a c b parts
      have sizes := congrArg size parts
      rw [size_append, size_cons] at sizes
      have positive := c.utf8Size_pos
      have touched : touches span.1 span.2 (pos + gap.size + a.size) c = true := by
        rw [← here]
        simp only [touches, Bool.and_eq_true, decide_eq_true_eq]
        omega
      rw [misses, List.any_cons, touched]
      rfl
    have third : u.pickFrom (misses (span :: spans)) (pos + gap.size + piece.size) =
        gaps.flatten := by
      rw [← ih]
      apply pickFrom_congr
      intro a c b _
      have past : touches span.1 span.2 (pos + gap.size + piece.size + a.size) c = false := by
        rw [← here]
        simp only [touches, Bool.and_eq_false_iff, decide_eq_false_iff_not]
        omega
      rw [misses, List.any_cons, past]
      rfl
    rw [pickFrom_append, pickFrom_append, size_append, ← Nat.add_assoc, first, second, third,
      List.append_nil, List.flatten_cons]

end Interleaved

end Text

namespace ChangeSet

open Text (Interleaved)

variable {t u : Text} {changes : List Change} {s : ChangeSet}

theorem gap?_middle (a g b : Text) : gap? (a ++ g ++ b) a.size (a.size + g.size) = some g := by
  unfold gap?
  split
  · have start : (a ++ g ++ b).isBoundary a.size = true := by
      rw [List.append_assoc]
      exact Text.isBoundary_left _ _
    have stop : (a ++ g ++ b).isBoundary (a.size + g.size) = true := by
      rw [← Text.size_append]
      exact Text.isBoundary_left _ _
    rw [Text.cut?, start, stop, Text.slice_middle]
    rfl
  · rw [Text.size_eq_zero_iff.mp (show g.size = 0 by omega)]

theorem size_gap? {start stop : Nat} {kept : Text} (found : gap? t start stop = some kept)
    (order : start ≤ stop) : start + kept.size = stop := by
  by_cases some_bytes : start < stop
  · obtain ⟨first, last, rfl⟩ := gap?_eq found some_bytes
    have sizes := congrArg Text.size (Text.slice_of_isBoundary first order)
    rw [Text.size_append, Text.size_takeBytes_of_isBoundary first,
      Text.size_takeBytes_of_isBoundary last] at sizes
    exact sizes
  · rw [gap?, if_neg some_bytes] at found
    cases found
    rw [Text.size_nil]
    omega

theorem size_applyFrom? {stop pos : Nat} (follows : Follows pos changes)
    (bounds : ∀ c ∈ changes, c.stop ≤ stop) (below : pos ≤ stop)
    (applied : applyFrom? t stop pos changes = some u) :
    (u.size : Int) = (stop - pos : Int) + totalGrowth changes := by
  induction changes generalizing pos u with
  | nil =>
    have size := size_gap? applied below
    rw [totalGrowth]
    omega
  | cons c rest ih =>
    obtain ⟨first, forward, later⟩ := follows
    obtain ⟨kept, changed, gap, after, rfl⟩ := applyFrom?_cons applied
    have size := size_gap? gap first
    have rest_size := ih later (fun d member => bounds d (List.mem_cons_of_mem _ member))
      (bounds c List.mem_cons_self) after
    rw [totalGrowth, Change.growth, Text.size_append, Text.size_append]
    omega

theorem size_applyTo? (made : ofChanges changes t.size = .ok s) (applied : s.applyTo? t = some u) :
    u.size = s.newSize ∧ (s.newSize : Int) = s.size + totalGrowth s.changes := by
  rw [applyTo?, ofChanges_size made] at applied
  have whole := size_applyFrom? (ofChanges_follows made)
    (fun c member => (ofChanges_bounds made c member).2) (Nat.zero_le _) applied
  rw [newSize, ofChanges_size made]
  omega

/-- From offset `pos` on the old text is its gaps with the changed spans between them, and the new
text the same gaps with the inserted texts. -/
theorem interleaved_of_whole {a : Text} {pos : Nat} (q : Nat) (parts : t = a ++ u)
    (here : a.size = pos) (follows : Follows pos changes) (whole : ∀ c ∈ changes, c.Whole t) :
    ∃ gaps changed, applyFrom? t t.size pos changes = some changed ∧
      Interleaved pos gaps (changes.map fun c => t.slice c.start c.stop)
        (changes.map fun c => (c.start, c.stop)) u ∧
      Interleaved q gaps (changes.map Change.insert) (spansFrom (q - pos : Int) changes)
        changed := by
  induction changes generalizing a u pos q with
  | nil =>
    refine ⟨[u], u, ?_, .last pos u, .last q u⟩
    have gap := gap?_middle a u []
    rw [List.append_nil, ← parts, here] at gap
    rw [applyFrom?, parts, Text.size_append, here, ← parts]
    exact gap
  | cons c rest ih =>
    obtain ⟨first, forward, later⟩ := follows
    obtain ⟨starts, stops⟩ := whole c List.mem_cons_self
    -- the change takes `m` between the gap `g` and the rest `v`
    obtain ⟨g, m, v, rfl, start, stop⟩ : ∃ g m v, u = g ++ m ++ v ∧ c.start = pos + g.size ∧
        c.stop = pos + g.size + m.size := by
      obtain ⟨n, start⟩ := Nat.exists_eq_add_of_le first
      rw [parts, start, ← here, Text.isBoundary_append_iff] at starts
      obtain ⟨g, w, rfl, rfl⟩ := Text.isBoundary_iff.mp starts
      obtain ⟨k, stop⟩ := Nat.exists_eq_add_of_le forward
      rw [parts, stop, start, ← here, ← List.append_assoc, ← Text.size_append,
        Text.isBoundary_append_iff] at stops
      obtain ⟨m, v, rfl, rfl⟩ := Text.isBoundary_iff.mp stops
      exact ⟨g, m, v, (List.append_assoc _ _ _).symm, start, by omega⟩
    have further : t = a ++ g ++ m ++ v := by
      rw [parts]
      simp only [List.append_assoc]
    have ends : (a ++ g ++ m).size = c.stop := by
      rw [Text.size_append, Text.size_append, here, stop]
    obtain ⟨gaps, changed, applied, old, new⟩ := ih (q + g.size + c.insert.size) further ends later
      fun d member => whole d (List.mem_cons_of_mem _ member)
    have gap : gap? t pos c.start = some g := by
      rw [further, List.append_assoc, start, ← here]
      exact gap?_middle a g (m ++ v)
    have slice : t.slice c.start c.stop = m := by
      rw [further, stop, start, ← here, ← Text.size_append, Text.slice_middle]
    refine ⟨g :: gaps, g ++ c.insert ++ changed, ?_, ?_, ?_⟩
    · rw [applyFrom?, gap, applied]
      rfl
    · rw [List.map_cons, List.map_cons, slice, start, stop]
      rw [stop] at old
      exact .piece g m old
    · have moved : ((c.start : Int) + (q - pos : Int)).toNat = q + g.size := by omega
      have shift : (q - pos : Int) + c.growth =
          ((q + g.size + c.insert.size : Nat) : Int) - c.stop := by
        rw [Change.growth]
        omega
      rw [List.map_cons, spansFrom, moved, shift]
      exact .piece g c.insert new

end ChangeSet

namespace Document

open ChangeSet Text

/-- Changes at character boundaries can be made, and the new text is the gaps of the old one with the
inserted texts between them. It has the length that is computed for it, and the changed spans lie in
it in order, hold the inserted texts, and leave the same characters outside as the old spans. -/
theorem change?_interleaves {d : Document} {changes : List Change} {s : ChangeSet}
    (made : ofChanges changes d.size = .ok s)
    (whole : ∀ c ∈ s.changes,
      d.text.isBoundary c.start = true ∧ d.text.isBoundary c.stop = true) :
    ∃ d' gaps, d.change? s = some d' ∧
      Interleaved 0 gaps (s.changes.map fun c => d.slice c.start c.stop)
        (s.changes.map fun c => (c.start, c.stop)) d.text ∧
      Interleaved 0 gaps (s.changes.map Change.insert) s.changedSpans d'.text ∧
      d'.size = s.newSize ∧ (s.newSize : Int) = s.size + totalGrowth s.changes ∧
      (∀ r ∈ s.changedSpans, r.1 ≤ r.2 ∧ r.2 ≤ d'.size) ∧
      (s.changedSpans.Pairwise fun first second => first.2 ≤ second.1) ∧
      s.changedSpans.map (fun r => d'.text.cut? r.1 r.2) = s.changes.map (fun c => some c.insert) ∧
      d'.text.outside s.changedSpans = d.text.outside (s.changes.map fun c => (c.start, c.stop)) := by
  obtain ⟨gaps, changed, applied, old, new⟩ :=
    interleaved_of_whole (a := []) 0 rfl rfl (ofChanges_follows made) whole
  have fits : s.applyTo? d.text = some changed := by
    rw [applyTo?, ofChanges_size made]
    exact applied
  have sizes := size_applyTo? made fits
  refine ⟨ofText changed d.lineBreak, gaps, ?_, old, new, sizes.1, sizes.2, ?_, new.spans_pairwise,
    ?_, ?_⟩
  · rw [change?, fits]
    rfl
  · intro r member
    have lies := new.spans_within r member
    rw [Nat.zero_add] at lies
    exact lies.2
  · have cuts := new.cut?_spans (a := []) rfl rfl
    rw [List.map_map] at cuts
    exact cuts
  · exact new.pickFrom_misses.trans old.pickFrom_misses.symm

/-- A replacement, an insertion right behind it and a deletion, in no order. -/
theorem touching_changes_interleave : ∃ s d' gaps,
    ofChanges [.delete 3 4, .insertAt 2 ['x', 'y'], ⟨0, 2, ['e']⟩] 5 = .ok s ∧
      (ofText ['é', '-', 'b', 'c'] .lf).change? s = some d' ∧
      Interleaved 0 gaps [['e'], ['x', 'y'], []] [(0, 1), (1, 3), (4, 4)] d'.text ∧
      d'.size = 5 := by
  have made : ofChanges [.delete 3 4, .insertAt 2 ['x', 'y'], ⟨0, 2, ['e']⟩]
      (ofText ['é', '-', 'b', 'c'] .lf).size =
        .ok ⟨[⟨0, 2, ['e']⟩, ⟨2, 2, ['x', 'y']⟩, ⟨3, 4, []⟩], 5⟩ := by cbv
  obtain ⟨d', gaps, changed, _, new, size, _⟩ := change?_interleaves made (by decide)
  exact ⟨_, d', gaps, made, changed, new, size⟩

end Document

end MarkdownEditing
