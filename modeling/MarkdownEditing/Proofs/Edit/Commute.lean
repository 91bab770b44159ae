import MarkdownEditing.Proofs.Edit.Splice
import MarkdownEditing.Proofs.Edit.Whole

namespace MarkdownEditing

namespace Change

open ChangeSet

variable {own : ChangeSet} {a b c : Change} {t u : Text}

def Inserts (c : Change) : Prop := c.start = c.stop ∧ c.insert ≠ []

theorem inserts_of_isNoop (effective : c.isNoop = false) (empty : c.start = c.stop) : c.Inserts := by
  refine ⟨empty, ?_⟩
  intro nothing
  rw [isNoop, nothing, empty, beq_self_eq_true] at effective
  cases effective

theorem shift_stop (own : ChangeSet) (c : Change) :
    (c.start = c.stop ∧ (c.shift own).stop = own.mapPos c.start .after) ∨
      (c.start ≠ c.stop ∧ (c.shift own).stop =
        max (own.mapPos c.stop .before) (own.mapPos c.start .after)) := by
  rw [shift]
  by_cases empty : c.start = c.stop
  · left
    rw [if_pos empty]
    exact ⟨empty, rfl⟩
  · right
    rw [if_neg empty]
    exact ⟨empty, rfl⟩

/-- A byte that the own changes keep, from the start of `a` on and before the end of `b`, keeps the
start of the one shifted change before the end of the other. -/
theorem shift_start_lt (follows : Follows 0 own.changes) {kept : Nat} (from_start : a.start ≤ kept)
    (to_stop : kept < b.stop) (survives : ∀ c ∈ own.changes, ¬(c.start ≤ kept ∧ kept < c.stop)) :
    (a.shift own).start < (b.shift own).stop := by
  have apart : ∀ side, own.mapPos a.start .after < own.mapPos b.stop side := fun side =>
    mapFrom_lt .after side 0 follows (Nat.zero_le _) from_start to_stop survives (by decide)
  rw [shift_start]
  rcases shift_stop own b with ⟨empty, stop⟩ | ⟨_, stop⟩
  · rw [stop, empty]
    exact apart .after
  · have strict := apart .before
    omega

theorem shift_stop_le (follows : Follows 0 own.changes) (forward : a.start ≤ a.stop)
    (order : a.stop ≤ b.start) : (a.shift own).stop ≤ (b.shift own).start := by
  have starts : own.mapPos a.start .after ≤ own.mapPos b.start .after :=
    mapFrom_mono follows (Nat.zero_le _) (by omega) (by decide) (by decide)
  have stops : own.mapPos a.stop .before ≤ own.mapPos b.start .after :=
    mapFrom_mono follows (Nat.zero_le _) order (by decide) (by decide)
  rw [shift_start]
  rcases shift_stop own a with ⟨_, stop⟩ | ⟨_, stop⟩ <;> omega

theorem Before.shift (before : a.Before b) (follows : Follows 0 own.changes)
    (forward : a.start ≤ a.stop) {kept : Nat} (from_start : a.start ≤ kept) (to_stop : kept < b.stop)
    (survives : ∀ c ∈ own.changes, ¬(c.start ≤ kept ∧ kept < c.stop)) :
    (a.shift own).Before (b.shift own) :=
  ⟨shift_stop_le follows forward before.1, shift_start_lt follows from_start to_stop survives⟩

theorem shift_bounds {changes : List Change} {size : Nat} (made : ofChanges changes size = .ok own)
    (forward : c.start ≤ c.stop) (inside : c.stop ≤ size) :
    (c.shift own).start ≤ (c.shift own).stop ∧ (c.shift own).stop ≤ own.newSize := by
  have start : own.mapPos c.start .after ≤ own.newSize := mapPos_le made (by omega)
  have stop : own.mapPos c.stop .before ≤ own.newSize := mapPos_le made inside
  rw [shift_start]
  rcases shift_stop own c with ⟨_, image⟩ | ⟨_, image⟩ <;> omega

theorem Whole.shift {changes : List Change} (whole : c.Whole t)
    (made : ofChanges changes t.size = .ok own) (applied : own.applyTo? t = some u) :
    (c.shift own).Whole u := by
  rw [applyTo?, ofChanges_size made] at applied
  have images : ∀ side x, t.isBoundary x = true → u.isBoundary (own.mapPos x side) = true := by
    intro side x boundary
    exact isBoundary_mapFrom [] (ofChanges_follows made)
      (fun d member => (ofChanges_bounds made d member).2) applied boundary (Nat.zero_le _)
      (Text.le_size_of_isBoundary boundary)
  refine ⟨?_, ?_⟩
  · rw [shift_start]
    exact images .after c.start whole.1
  · rcases shift_stop own c with ⟨_, image⟩ | ⟨_, image⟩
    · rw [image]
      exact images .after c.start whole.1
    · rw [image]
      exact Text.isBoundary_max (images .before c.stop whole.2) (images .after c.start whole.1)

/-- Of two different changes that only insert, a byte between their positions is in no change. -/
def InsertionsApart (changes : List Change) : Prop :=
  ∀ c ∈ changes, ∀ d ∈ changes, c.Inserts → d.Inserts → c ≠ d → c.start ≤ d.start →
    ∃ kept, c.start ≤ kept ∧ kept < d.start ∧ ∀ x ∈ changes, ¬(x.start ≤ kept ∧ kept < x.stop)

end Change

namespace RangeEdit

open ChangeSet Change

def own (e : RangeEdit) (all : ChangeSet) : ChangeSet :=
  ⟨all.changes.filter fun c => e.changes.contains c, all.size⟩

def shifted (e : RangeEdit) (all : ChangeSet) : ChangeSet :=
  ⟨(all.changes.filter fun c => !e.changes.contains c).map (Change.shift (e.own all)),
    (e.own all).newSize⟩

variable {edits : List RangeEdit} {e : RangeEdit} {all : ChangeSet} {size i : Nat} {a b c : Change}

theorem mem_own : c ∈ (e.own all).changes ↔ c ∈ all.changes ∧ c ∈ e.changes := by
  rw [own, List.mem_filter, List.contains_iff_mem]

theorem mem_foreign : c ∈ (all.changes.filter fun c => !e.changes.contains c) ↔
    c ∈ all.changes ∧ c ∉ e.changes := by
  rw [List.mem_filter, Bool.not_eq_true', ← Bool.not_eq_true, List.contains_iff_mem]

theorem mem_others (found : edits[i]? = some e) :
    c ∈ e.others (edits.eraseIdx i) ↔ c ∈ edits.flatMap RangeEdit.changes ∧ c ∉ e.changes := by
  rw [others, List.mem_filter, Bool.not_eq_true', ← Bool.not_eq_true, List.contains_iff_mem,
    List.mem_flatMap, List.mem_flatMap]
  refine and_congr_left fun foreign => ⟨?_, ?_⟩
  · rintro ⟨d, member, inside⟩
    exact ⟨d, List.mem_of_mem_eraseIdx member, inside⟩
  · rintro ⟨d, member, inside⟩
    obtain ⟨j, place⟩ := List.mem_iff_getElem?.mp member
    refine ⟨d, List.mem_eraseIdx_iff_getElem?.mpr ⟨j, ?_, place⟩, inside⟩
    rintro rfl
    rw [found] at place
    cases place
    exact foreign inside

section

variable (accepted : ofChanges (edits.flatMap RangeEdit.changes) size = .ok all)
  (apart : InsertionsApart (edits.flatMap RangeEdit.changes))

include accepted apart

theorem kept_between (first : a ∈ all.changes) (second : b ∈ all.changes) (empty : a.start = a.stop)
    (empty' : b.start = b.stop) (other : a ≠ b) (order : a.start ≤ b.start) :
    ∃ kept, a.start ≤ kept ∧ kept < b.start ∧
      ∀ c ∈ all.changes, ¬(c.start ≤ kept ∧ kept < c.stop) := by
  obtain ⟨a_given, a_effective⟩ := (mem_ofChanges accepted).mp first
  obtain ⟨b_given, b_effective⟩ := (mem_ofChanges accepted).mp second
  obtain ⟨kept, above, below, survives⟩ := apart a a_given b b_given
    (inserts_of_isNoop a_effective empty) (inserts_of_isNoop b_effective empty') other order
  exact ⟨kept, above, below, fun c member => survives c ((mem_ofChanges accepted).mp member).1⟩

theorem changes_before : all.changes.Pairwise Change.Before := by
  apply ofChanges_before accepted
  intro a first b second empty empty' here
  by_contra other
  obtain ⟨kept, above, below, _⟩ :=
    kept_between accepted apart first second empty empty' other (Nat.le_of_eq here)
  omega

theorem own_made (member : e ∈ edits) : ofChanges e.changes size = .ok (e.own all) := by
  have bounds := ofChanges_bounds accepted
  rw [own, ofChanges_size accepted]
  apply ofChanges_of_mem
  · exact (changes_before accepted apart).filter _
  · exact fun c inside => bounds c (List.mem_filter.mp inside).1
  · intro c
    rw [List.mem_filter, List.contains_iff_mem, mem_ofChanges accepted, List.mem_flatMap]
    constructor
    · exact fun ⟨⟨_, effective⟩, mine⟩ => ⟨mine, effective⟩
    · exact fun ⟨mine, effective⟩ => ⟨⟨⟨e, member, mine⟩, effective⟩, mine⟩

theorem own_misses (foreign : c ∈ all.changes) (not_mine : c ∉ e.changes) {kept : Nat}
    (from_start : c.start ≤ kept) (to_stop : kept < c.stop) :
    ∀ d ∈ (e.own all).changes, ¬(d.start ≤ kept ∧ kept < d.stop) := by
  intro d member covers
  obtain ⟨made, mine⟩ := mem_own.mp member
  have separated : all.changes.Pairwise Change.Separate :=
    (changes_before accepted apart).imp fun before => Or.inr (Or.inl before)
  rcases separate_of_pairwise separated made foreign with rfl | before | behind
  · exact not_mine mine
  · have order := before.1
    omega
  · have order := behind.1
    omega

theorem shift_before (before : a.Before b) (follows : Follows 0 (e.own all).changes)
    (first : a ∈ all.changes) (second : b ∈ all.changes) (not_first : a ∉ e.changes)
    (not_second : b ∉ e.changes) :
    (a.shift (e.own all)).Before (b.shift (e.own all)) := by
  have bounds := ofChanges_bounds accepted
  have forward := (bounds a first).1
  have forward' := (bounds b second).1
  have order := before.1
  -- a change that is no insertion takes a byte that the own changes leave
  by_cases empty : a.start = a.stop
  · by_cases empty' : b.start = b.stop
    · have other : a ≠ b := by
        rintro rfl
        exact Std.Irrefl.irrefl (r := Change.Before) a before
      obtain ⟨kept, above, below, survives⟩ :=
        kept_between accepted apart first second empty empty' other (by omega)
      exact before.shift follows forward above (by omega) fun d member =>
        survives d (mem_own.mp member).1
    · exact before.shift follows forward (by omega) (by omega)
        (own_misses accepted apart second not_second (Nat.le_refl _) (by omega))
  · have start := before.2
    exact before.shift follows forward (Nat.le_refl _) start
      (own_misses accepted apart first not_first (Nat.le_refl _) (by omega))

theorem isNoop_shift (follows : Follows 0 (e.own all).changes)
    (given : c ∈ edits.flatMap RangeEdit.changes) (not_mine : c ∉ e.changes) :
    (c.shift (e.own all)).isNoop = c.isNoop := by
  by_cases empty : c.start = c.stop
  · rw [shift, if_pos empty, isNoop, isNoop, empty, beq_self_eq_true, beq_self_eq_true]
  · have moves : c.isNoop = false := by
      rw [isNoop, beq_false_of_ne empty]
      rfl
    have made := (mem_ofChanges accepted).mpr ⟨given, moves⟩
    have forward := (ofChanges_bounds accepted c made).1
    have strict := shift_start_lt (a := c) (b := c) follows (Nat.le_refl _) (by omega)
      (own_misses accepted apart made not_mine (Nat.le_refl _) (by omega))
    rw [moves, isNoop, beq_false_of_ne (Nat.ne_of_lt strict)]
    rfl

theorem shifted_made (found : edits[i]? = some e) :
    ofChanges ((e.others (edits.eraseIdx i)).map (Change.shift (e.own all))) (e.own all).newSize =
      .ok (e.shifted all) := by
  have mine := own_made accepted apart (List.mem_of_getElem? found)
  have follows := ofChanges_follows mine
  have bounds := ofChanges_bounds accepted
  apply ofChanges_of_mem
  · refine List.pairwise_map.mpr (((changes_before accepted apart).filter _).imp_of_mem ?_)
    intro a b first second before
    obtain ⟨a_made, a_foreign⟩ := mem_foreign.mp first
    obtain ⟨b_made, b_foreign⟩ := mem_foreign.mp second
    exact shift_before accepted apart before follows a_made b_made a_foreign b_foreign
  · intro c member
    obtain ⟨old, old_member, rfl⟩ := List.mem_map.mp member
    have inside := bounds old (mem_foreign.mp old_member).1
    exact shift_bounds mine inside.1 inside.2
  · intro c
    rw [List.mem_map, List.mem_map]
    constructor
    · rintro ⟨old, old_member, rfl⟩
      obtain ⟨made, not_mine⟩ := mem_foreign.mp old_member
      obtain ⟨given, effective⟩ := (mem_ofChanges accepted).mp made
      exact ⟨⟨old, (mem_others found).mpr ⟨given, not_mine⟩, rfl⟩,
        (isNoop_shift accepted apart follows given not_mine).trans effective⟩
    · rintro ⟨⟨old, old_member, rfl⟩, effective⟩
      obtain ⟨given, not_mine⟩ := (mem_others found).mp old_member
      rw [isNoop_shift accepted apart follows given not_mine] at effective
      exact ⟨old, mem_foreign.mpr ⟨(mem_ofChanges accepted).mpr ⟨given, effective⟩, not_mine⟩, rfl⟩

theorem splice_shifted (bytes : List Nat) (length : bytes.length = size) :
    (e.shifted all).splice ((e.own all).splice bytes) = all.splice bytes := by
  have bounds := ofChanges_bounds accepted
  apply Halfway.spliceFrom_shift fun c => e.changes.contains c
  · exact ⟨fun x side _ _ => rfl, rfl⟩
  · exact ofChanges_follows accepted
  · exact fun c member => length ▸ (bounds c member).2
  · exact changes_before accepted apart

end

end RangeEdit

namespace Transaction

open ChangeSet Change

variable {s : EditState} {edits : List RangeEdit} {all : ChangeSet}

/-- Where the changes for all ranges can be made at once, and of two different insertions a byte
between them stays, each range's own changes and then the shifted ones of the others come to the same
text, and the range is carried through the latter. -/
theorem edits_commute
    (accepted : ofChanges (edits.flatMap RangeEdit.changes) s.doc.size = .ok all)
    (apart : InsertionsApart (edits.flatMap RangeEdit.changes)) :
    let result : Transaction :=
      ⟨all, some (Selection.ofRanges (carryAll edits s.doc.size) s.selection.main)⟩
    ofEdits s edits = .ok result ∧
    (∀ edit, s.selection.ranges.mapM edit = .ok edits → byRange s edit = .ok result) ∧
    ∀ (i : Nat) (e : RangeEdit), edits[i]? = some e → ∃ own shifted,
      ofChanges e.changes s.doc.size = .ok own ∧
      ofChanges ((e.others (edits.eraseIdx i)).map (Change.shift own)) own.newSize = .ok shifted ∧
      (carryAll edits s.doc.size)[i]? = some (e.range.map shifted) ∧
      (e.range.Inside own.newSize → (e.range.map shifted).Inside all.newSize) ∧
      shifted.splice (own.splice (Utf8.encode s.text)) = all.splice (Utf8.encode s.text) ∧
      ((∀ c ∈ all.changes, c.Whole s.text) → ∃ d d', s.doc.change? own = some d ∧
        d.change? shifted = some d' ∧ s.doc.change? all = some d' ∧
        d.size = own.newSize ∧ d'.size = all.newSize) := by
  refine ⟨ofEdits_accepted accepted, ?_, ?_⟩
  · intro edit collected
    rw [byRange, collected]
    simp only [bind, Except.bind, ofEdits_accepted accepted]
    rfl
  intro i e found
  have mine := RangeEdit.own_made accepted apart (List.mem_of_getElem? found)
  have foreign := RangeEdit.shifted_made accepted apart found
  have length : (Utf8.encode s.text).length = s.doc.size := Utf8.length_encode s.text
  have bytes := RangeEdit.splice_shifted (e := e) accepted apart (Utf8.encode s.text) length
  have sizes : (e.shifted all).newSize = all.newSize := by
    rw [← length] at accepted mine
    rw [← length_splice mine] at foreign
    rw [← length_splice foreign, ← length_splice accepted, bytes]
  refine ⟨e.own all, e.shifted all, mine, foreign, ?_, ?_, bytes, ?_⟩
  · have carried : e.carry (edits.eraseIdx i) s.doc.size = e.range.map (e.shifted all) := by
      rw [RangeEdit.carry, mine]
      dsimp only
      rw [foreign]
    rw [carryAll, List.getElem?_map, List.getElem?_zipIdx, found, ← carried]
    simp only [Option.map_some, Nat.zero_add]
  · intro inside
    have image := inside.map foreign
    rw [sizes] at image
    exact image
  · intro whole
    obtain ⟨u, first⟩ := applyTo?_isSome (s := e.own all) (t := s.text)
      (fun c member => whole c (RangeEdit.mem_own.mp member).1) (ofChanges_size mine)
    have size := (size_applyTo? mine first).1
    obtain ⟨v, second⟩ := applyTo?_isSome (s := e.shifted all) (t := u) (by
      intro c member
      obtain ⟨old, old_member, rfl⟩ := List.mem_map.mp member
      exact (whole old (RangeEdit.mem_foreign.mp old_member).1).shift mine first) size.symm
    obtain ⟨w, direct⟩ := applyTo?_isSome whole (ofChanges_size accepted)
    have same : v = w := by
      rw [← size] at foreign
      apply Utf8.encode_injective
      rw [encode_applyTo? foreign second, encode_applyTo? mine first,
        encode_applyTo? accepted direct]
      exact bytes
    refine ⟨Document.ofText u s.doc.lineBreak, Document.ofText v s.doc.lineBreak, ?_, ?_, ?_, size, ?_⟩
    · exact congrArg (Option.map _) first
    · exact congrArg (Option.map _) second
    · rw [same]
      exact congrArg (Option.map _) direct
    · rw [same]
      exact (size_applyTo? accepted direct).1

def twoSpans : EditState :=
  .ofText ['é', 'b', 'c', 'd', 'e', 'f'] ⟨[⟨0, 2⟩, ⟨2, 6⟩], 1⟩ {}

def touchingEdits : List RangeEdit :=
  [⟨[⟨0, 2, ['x', 'y', 'z']⟩, .insertAt 4 ['q']], ⟨0, 3⟩⟩,
    ⟨[.delete 2 3, .insertAt 6 ['w']], ⟨2, 6⟩⟩]

theorem touching_edits_commute : ∃ all own shifted d d',
    ofChanges (touchingEdits.flatMap RangeEdit.changes) twoSpans.doc.size = .ok all ∧
      InsertionsApart (touchingEdits.flatMap RangeEdit.changes) ∧
      (carryAll touchingEdits twoSpans.doc.size)[1]? = some (Range.map ⟨2, 6⟩ shifted) ∧
      twoSpans.doc.change? own = some d ∧ d.change? shifted = some d' ∧
      twoSpans.doc.change? all = some d' := by
  have accepted : ofChanges (touchingEdits.flatMap RangeEdit.changes) twoSpans.doc.size =
      .ok ⟨[⟨0, 2, ['x', 'y', 'z']⟩, .delete 2 3, .insertAt 4 ['q'], .insertAt 6 ['w']], 7⟩ := by
    cbv
  have apart : InsertionsApart (touchingEdits.flatMap RangeEdit.changes) := by
    have places : ∀ c ∈ touchingEdits.flatMap RangeEdit.changes,
        ∀ d ∈ touchingEdits.flatMap RangeEdit.changes, c.start = c.stop → d.start = d.stop → c ≠ d →
          c.start ≤ d.start → c.start = 4 ∧ d.start = 6 := by decide
    intro c first d second inserts inserts' other order
    obtain ⟨start, start'⟩ := places c first d second inserts.1 inserts'.1 other order
    rw [start, start']
    exact ⟨4, by decide, by decide, by decide⟩
  obtain ⟨_, _, each⟩ := edits_commute accepted apart
  obtain ⟨own, shifted, _, _, carried, _, _, texts⟩ := each 1 _ rfl
  obtain ⟨d, d', first, second, direct, _⟩ := texts (by decide)
  exact ⟨_, own, shifted, d, d', accepted, apart, carried, first, second, direct⟩

end Transaction

end MarkdownEditing
