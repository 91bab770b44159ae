import MarkdownEditing.Edit.ByRange
import MarkdownEditing.Proofs.Edit.Accepted
import MarkdownEditing.Proofs.Edit.Mapping
import MarkdownEditing.Proofs.Text.Bytes

namespace MarkdownEditing

@[simp] theorem Change.shift_start (own : ChangeSet) (c : Change) :
    (c.shift own).start = own.mapPos c.start .after := by
  rw [shift]
  split <;> rfl

@[simp] theorem Change.shift_insert (own : ChangeSet) (c : Change) :
    (c.shift own).insert = c.insert := by
  rw [shift]
  split <;> rfl

namespace ChangeSet

variable {changes rest : List Change} {c : Change} {s own : ChangeSet} {t u : Text} {bytes : List Nat}
  {pos q m n x : Nat}

def spliceFrom (pos : Nat) (bytes : List Nat) : List Change → List Nat
  | [] => bytes.drop pos
  | c :: rest =>
    (bytes.take c.start).drop pos ++ (Utf8.encode c.insert ++ spliceFrom c.stop bytes rest)

def splice (s : ChangeSet) (bytes : List Nat) : List Nat := spliceFrom 0 bytes s.changes

theorem drop_take_split (bytes : List Nat) (low : pos ≤ m) (high : m ≤ n) :
    (bytes.take n).drop pos = (bytes.take m).drop pos ++ (bytes.take n).drop m := by
  have parts := List.take_append_drop m (bytes.take n)
  rw [List.take_take, Nat.min_eq_left high] at parts
  by_cases inside : m ≤ (bytes.take n).length
  · have before : pos ≤ (bytes.take m).length := by
      rw [List.length_take] at inside ⊢
      omega
    calc (bytes.take n).drop pos = (bytes.take m ++ (bytes.take n).drop m).drop pos := by rw [parts]
      _ = (bytes.take m).drop pos ++ (bytes.take n).drop m := List.drop_append_of_le_length before
  · have nothing : (bytes.take n).drop m = [] := List.drop_eq_nil_of_le (by omega)
    rw [nothing, List.append_nil] at parts ⊢
    rw [parts]

theorem spliceFrom_split (low : pos ≤ m) (behind : ∀ c ∈ changes, m ≤ c.start) :
    spliceFrom pos bytes changes = (bytes.take m).drop pos ++ spliceFrom m bytes changes := by
  cases changes with
  | nil =>
    have parts := drop_take_split bytes low (Nat.le_max_left m bytes.length)
    rw [List.take_of_length_le (Nat.le_max_right _ _)] at parts
    exact parts
  | cons c rest =>
    rw [spliceFrom, spliceFrom, drop_take_split bytes low (behind c List.mem_cons_self),
      List.append_assoc]

theorem encode_gap? {kept : Text} (found : gap? t pos n = some kept) (order : pos ≤ n) :
    Utf8.encode kept = ((Utf8.encode t).take n).drop pos := by
  by_cases some_bytes : pos < n
  · obtain ⟨first, last, rfl⟩ := gap?_eq found some_bytes
    exact Utf8.encode_slice first last order
  · rw [gap?, if_neg some_bytes] at found
    cases found
    have nothing : ((Utf8.encode t).take n).drop pos = [] := by
      apply List.drop_eq_nil_of_le
      rw [List.length_take]
      omega
    rw [nothing]
    rfl

theorem encode_applyFrom? (follows : Follows pos changes) (inside : ∀ c ∈ changes, c.stop ≤ t.size)
    (below : pos ≤ t.size) (applied : applyFrom? t t.size pos changes = some u) :
    Utf8.encode u = spliceFrom pos (Utf8.encode t) changes := by
  induction changes generalizing pos u with
  | nil =>
    rw [spliceFrom, encode_gap? applied below, ← Utf8.length_encode, List.take_length]
  | cons c rest ih =>
    obtain ⟨first, _, later⟩ := follows
    obtain ⟨kept, changed, gap, after, rfl⟩ := applyFrom?_cons applied
    rw [spliceFrom, Utf8.encode_append, Utf8.encode_append, encode_gap? gap first,
      ih later (fun d member => inside d (List.mem_cons_of_mem _ member))
        (inside c List.mem_cons_self) after, List.append_assoc]

theorem encode_applyTo? (made : ofChanges changes t.size = .ok s) (applied : s.applyTo? t = some u) :
    Utf8.encode u = s.splice (Utf8.encode t) := by
  rw [applyTo?, ofChanges_size made] at applied
  exact encode_applyFrom? (ofChanges_follows made)
    (fun c member => (ofChanges_bounds made c member).2) (Nat.zero_le _) applied

theorem length_spliceFrom (follows : Follows pos changes)
    (inside : ∀ c ∈ changes, c.stop ≤ bytes.length) (below : pos ≤ bytes.length) :
    ((spliceFrom pos bytes changes).length : Int) =
      (bytes.length - pos : Int) + totalGrowth changes := by
  induction changes generalizing pos with
  | nil =>
    rw [spliceFrom, totalGrowth, List.length_drop]
    omega
  | cons c rest ih =>
    obtain ⟨first, forward, later⟩ := follows
    have bound := inside c List.mem_cons_self
    have further := ih later (fun d member => inside d (List.mem_cons_of_mem _ member)) bound
    rw [spliceFrom, totalGrowth, Change.growth, List.length_append, List.length_append,
      List.length_drop, List.length_take, Utf8.length_encode]
    omega

theorem length_splice (made : ofChanges changes bytes.length = .ok s) :
    (s.splice bytes).length = s.newSize := by
  have whole := length_spliceFrom (ofChanges_follows made)
    (fun c member => (ofChanges_bounds made c member).2) (Nat.zero_le _)
  rw [splice, newSize, ofChanges_size made]
  omega

/-- What is known on the way through changes of which some are made already: `pos` is where they are
looked at next, and `q` is that place in the changed bytes `u`. -/
structure Halfway (own : ChangeSet) (bytes u : List Nat) (pos q : Nat) (made : List Change) :
    Prop where
  maps : ∀ (x : Nat) (side : Side), pos ≤ x → (side = .before → pos < x) →
    own.mapPos x side = mapFrom x side (q - pos : Int) made
  tail : u.drop q = spliceFrom pos bytes made

namespace Halfway

variable {u : List Nat} {made : List Change}

theorem after_other (half : Halfway own bytes u pos q made) (first : pos ≤ c.start)
    (forward : c.start ≤ c.stop) (inside : c.stop ≤ bytes.length) (later : Follows c.stop made)
    (apart : ∀ d ∈ made, c.Before d) :
    Change.shift own c = ⟨q + (c.start - pos), q + (c.stop - pos), c.insert⟩ ∧
      (u.take (q + (c.start - pos))).drop q = (bytes.take c.start).drop pos ∧
      Halfway own bytes u c.stop (q + (c.stop - pos)) made := by
  have order := later.forall_le
  have start : own.mapPos c.start .after = q + (c.start - pos) := by
    rw [half.maps c.start .after first (by simp), mapFrom_ahead]
    · omega
    · intro d member
      have behind := order d member
      have before := (apart d member).2
      omega
  have front : spliceFrom pos bytes made =
      (bytes.take c.stop).drop pos ++ spliceFrom c.stop bytes made :=
    spliceFrom_split (by omega) fun d member => (order d member).1
  refine ⟨?_, ?_, ?_, ?_⟩
  · rw [Change.shift]
    by_cases empty : c.start = c.stop
    · rw [if_pos empty, start, empty]
    · have stop : own.mapPos c.stop .before = q + (c.stop - pos) := by
        rw [half.maps c.stop .before (by omega) (fun _ => by omega), mapFrom_ahead]
        · omega
        · intro d member
          have behind := order d member
          exact ⟨behind.1, behind.2, Or.inr rfl⟩
      rw [if_neg empty, start, stop, Nat.max_eq_left (by omega)]
  · have size : ((bytes.take c.start).drop pos).length = c.start - pos := by
      rw [List.length_drop, List.length_take]
      omega
    have split := drop_take_split bytes first forward
    rw [List.drop_take, Nat.add_sub_cancel_left, half.tail, front, split, List.append_assoc,
      List.take_left' size]
  · intro x side low strict
    have shift : ((q + (c.stop - pos) : Nat) : Int) - c.stop = q - pos := by omega
    rw [shift]
    exact half.maps x side (by omega) fun before => by
      have past := strict before
      omega
  · have size : ((bytes.take c.stop).drop pos).length = c.stop - pos := by
      rw [List.length_drop, List.length_take]
      omega
    rw [← List.drop_drop, half.tail, front, List.drop_left' size]

theorem after_own (half : Halfway own bytes u pos q (c :: made)) (first : pos ≤ c.start)
    (forward : c.start ≤ c.stop) (inside : c.stop ≤ bytes.length) :
    (u.take (q + (c.start - pos) + c.insert.size)).drop q =
        (bytes.take c.start).drop pos ++ Utf8.encode c.insert ∧
      Halfway own bytes u c.stop (q + (c.start - pos) + c.insert.size) made := by
  have size : ((bytes.take c.start).drop pos ++ Utf8.encode c.insert).length =
      c.start - pos + c.insert.size := by
    rw [List.length_append, List.length_drop, List.length_take, Utf8.length_encode]
    omega
  have front := half.tail
  rw [spliceFrom, ← List.append_assoc] at front
  refine ⟨?_, ?_, ?_⟩
  · rw [List.drop_take, Nat.add_assoc, Nat.add_sub_cancel_left, front, List.take_left' size]
  · intro x side low strict
    rw [half.maps x side (by omega) fun before => by
      have past := strict before
      omega]
    rcases mapFrom_cons x side (q - pos : Int) c made with
      ⟨before, _⟩ | ⟨_, touches, _⟩ | ⟨_, _, _, image⟩
    · omega
    · rcases touches with within | ⟨_, there, side_before⟩
      · omega
      · have past := strict side_before
        omega
    · have shift : (q - pos : Int) + c.growth =
          ((q + (c.start - pos) + c.insert.size : Nat) : Int) - c.stop := by
        rw [Change.growth]
        omega
      rw [image, shift]
  · rw [Nat.add_assoc, ← List.drop_drop, front, List.drop_left' size]

/-- The shifted changes of the others turn the bytes with the own changes into those with all. -/
theorem spliceFrom_shift (p : Change → Bool) (half : Halfway own bytes u pos q (changes.filter p))
    (follows : Follows pos changes) (inside : ∀ c ∈ changes, c.stop ≤ bytes.length)
    (apart : changes.Pairwise Change.Before) :
    spliceFrom q u ((changes.filter fun c => !p c).map (Change.shift own)) =
      spliceFrom pos bytes changes := by
  induction changes generalizing pos q with
  | nil => exact half.tail
  | cons c rest ih =>
    obtain ⟨first, forward, later⟩ := follows
    have bound := inside c List.mem_cons_self
    have bounds : ∀ d ∈ rest, d.stop ≤ bytes.length := fun d member =>
      inside d (List.mem_cons_of_mem _ member)
    have before : ∀ d ∈ rest, c.Before d := fun d member => List.rel_of_pairwise_cons apart member
    -- what is made already is stepped over in `u`, and what is not is made there
    cases mine : p c with
    | false =>
      rw [List.filter_cons_of_neg (by simp only [mine, Bool.false_eq_true, not_false_eq_true])] at half
      obtain ⟨shifted, kept, next⟩ := half.after_other first forward bound (later.filter p)
        fun d member => before d (List.mem_filter.mp member).1
      rw [List.filter_cons_of_pos (by simp only [mine, Bool.not_false]), List.map_cons, shifted,
        spliceFrom, spliceFrom, kept, ih next later bounds apart.of_cons]
    | true =>
      rw [List.filter_cons_of_pos mine] at half
      obtain ⟨kept, next⟩ := half.after_own first forward bound
      have behind : ∀ d ∈ (rest.filter fun d => !p d).map (Change.shift own),
          q + (c.start - pos) + c.insert.size ≤ d.start := by
        intro d member
        obtain ⟨old, old_member, rfl⟩ := List.mem_map.mp member
        have place := (later.forall_le old (List.mem_filter.mp old_member).1).1
        have reaches := le_mapFrom .after
          (((q + (c.start - pos) + c.insert.size : Nat) : Int) - c.stop) (later.filter p) place
          (by omega)
        rw [Change.shift_start, next.maps old.start .after place (by simp)]
        omega
      rw [List.filter_cons_of_neg (by simp only [mine, Bool.not_true, Bool.false_eq_true,
        not_false_eq_true]), spliceFrom_split (by omega) behind, kept, spliceFrom, List.append_assoc,
        ih next later bounds apart.of_cons]

end Halfway

end ChangeSet

end MarkdownEditing
