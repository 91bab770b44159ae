import Mathlib.Data.List.TakeWhile
import MarkdownEditing.Proofs.Edit.Accepted
import MarkdownEditing.Proofs.Edit.Mapping

namespace MarkdownEditing

namespace ChangeSet

variable {changes : List Change} {c d : Change} {s : ChangeSet} {t u a m w : Text}
  {b x y p stop size : Nat} {shift : Int}

/-- No change begins before the position and ends behind it. -/
def Uncrossed (changes : List Change) (x : Nat) : Prop := ∀ c ∈ changes, c.stop ≤ x ∨ x ≤ c.start

theorem gap?_split {kept : Text} (found : gap? t b stop = some kept)
    (boundary : t.isBoundary x = true) (low : b ≤ x) (high : x ≤ stop) :
    ∃ first second, kept = first ++ second ∧ b + first.size = x ∧ gap? t b x = some first ∧
      gap? t x stop = some second := by
  by_cases some_bytes : b < stop
  · obtain ⟨begins, ends, rfl⟩ := gap?_eq found some_bytes
    obtain ⟨a, v, rfl, rfl⟩ := Text.isBoundary_iff.mp begins
    obtain ⟨n, rfl⟩ := Nat.exists_eq_add_of_le low
    obtain ⟨k, rfl⟩ := Nat.exists_eq_add_of_le (Nat.le_of_lt some_bytes)
    rw [Text.isBoundary_append_iff] at boundary ends
    obtain ⟨v, z, rfl, rfl⟩ := Text.isBoundary_iff.mp ends
    rw [Text.isBoundary_append_of_le z (by omega)] at boundary
    obtain ⟨first, second, rfl, rfl⟩ := Text.isBoundary_iff.mp boundary
    refine ⟨first, second, ?_, rfl, ?_, ?_⟩
    · rw [← List.append_assoc a, Text.slice_middle]
    · have front := gap?_middle a first (second ++ z)
      rw [← front]
      simp only [List.append_assoc]
    · have back := gap?_middle (a ++ first) second z
      rw [← back]
      simp only [List.append_assoc, Text.size_append, Nat.add_assoc]
  · have here : x = b := by omega
    subst here
    rw [gap?, if_neg some_bytes] at found
    cases found
    refine ⟨[], [], rfl, rfl, ?_, ?_⟩ <;> rw [gap?, if_neg (by omega)]

theorem mapFrom_passes (shift : Int) (rest : List Change) (forward : c.start ≤ c.stop)
    (behind : c.stop ≤ x) :
    mapFrom x .after shift (c :: rest) = mapFrom x .after (shift + c.growth) rest := by
  rcases mapFrom_cons x .after shift c rest with ⟨_, _⟩ | ⟨_, touches, _⟩ | ⟨_, _, _, image⟩
  · omega
  · rcases touches with _ | ⟨_, _, other⟩
    · omega
    · cases other
  · exact image

/-- A changed text has a part for what is in front of an uncrossed position and one for what is
behind it, with the changes that end there. -/
theorem applyFrom?_split (follows : Follows b changes) (uncrossed : Uncrossed changes x)
    (applied : applyFrom? t stop b changes = some u) (boundary : t.isBoundary x = true)
    (low : b ≤ x) (high : x ≤ stop) (p : Nat) :
    ∃ front back, u = front ++ back ∧
      mapFrom x .after (p - b : Int) changes = p + front.size ∧
      applyFrom? t stop x (changes.dropWhile (·.stop ≤ x)) = some back := by
  induction changes generalizing b u p with
  | nil =>
    obtain ⟨front, back, rfl, size, _, behind⟩ := gap?_split applied boundary low high
    refine ⟨front, back, rfl, ?_, behind⟩
    rw [mapFrom]
    omega
  | cons c rest ih =>
    obtain ⟨first, forward, later⟩ := follows
    obtain ⟨kept, changed, gap, after, rfl⟩ := applyFrom?_cons applied
    -- Changes up to `x` go with the front; the first one behind it has `x` in the gap before it.
    by_cases passed : c.stop ≤ x
    · have size := size_gap? gap first
      obtain ⟨front, back, rfl, place, behind⟩ := ih later
        (fun d member => uncrossed d (List.mem_cons_of_mem _ member)) after passed
        (p + kept.size + c.insert.size)
      have shift : (p - b : Int) + c.growth = (p + kept.size + c.insert.size : Nat) - c.stop := by
        rw [Change.growth_eq forward]
        omega
      refine ⟨kept ++ c.insert ++ front, back, by simp only [List.append_assoc], ?_, ?_⟩
      · rw [mapFrom_passes _ _ forward passed, shift, place, Text.size_append, Text.size_append]
        omega
      · rw [List.dropWhile_cons_of_pos (by simpa using passed)]
        exact behind
    · have ahead := (uncrossed c List.mem_cons_self).resolve_left passed
      obtain ⟨front, back, rfl, size, _, behind⟩ := gap?_split gap boundary low ahead
      refine ⟨front, back ++ c.insert ++ changed, by simp only [List.append_assoc], ?_, ?_⟩
      · have stays : mapFrom x .after (p - b : Int) (c :: rest) = (x + (p - b : Int)).toNat := by
          rcases mapFrom_cons x .after (p - b : Int) c rest with
            ⟨_, image⟩ | ⟨_, _, image⟩ | ⟨_, behind, _, _⟩
          · exact image
          · have here : x = c.start := by omega
            rw [image, if_pos (Or.inl here), here]
            rfl
          · omega
        rw [stays]
        omega
      · rw [List.dropWhile_cons_of_neg (by simpa using passed)]
        simp only [applyFrom?, behind, after, bind, Option.bind, pure]

theorem applyFrom?_keeps (applied : applyFrom? (a ++ m ++ w) stop a.size changes = some u)
    (inside : a.size + m.size ≤ stop) (ahead : ∀ c ∈ changes.head?, a.size + m.size ≤ c.start) :
    ∃ rest, u = m ++ rest := by
  have boundary : (a ++ m ++ w).isBoundary (a.size + m.size) = true := by
    rw [← Text.size_append]
    exact Text.isBoundary_left _ _
  have middle := gap?_middle a m w
  cases changes with
  | nil =>
    obtain ⟨front, back, rfl, _, kept, _⟩ :=
      gap?_split applied boundary (Nat.le_add_right _ _) inside
    rw [middle] at kept
    cases kept
    exact ⟨back, rfl⟩
  | cons c rest =>
    obtain ⟨gap, changed, found, _, rfl⟩ := applyFrom?_cons applied
    obtain ⟨front, back, rfl, _, kept, _⟩ :=
      gap?_split found boundary (Nat.le_add_right _ _) (ahead c rfl)
    rw [middle] at kept
    cases kept
    exact ⟨back ++ c.insert ++ changed, by simp only [List.append_assoc]⟩

section Set

variable (made : ofChanges changes t.size = .ok s) (applied : s.applyTo? t = some u)

include made applied

theorem split_at (uncrossed : Uncrossed s.changes x) (boundary : t.isBoundary x = true) :
    ∃ front back, u = front ++ back ∧ front.size = s.mapPos x .after ∧
      applyFrom? t t.size x (s.changes.dropWhile (·.stop ≤ x)) = some back := by
  rw [applyTo?, ofChanges_size made] at applied
  obtain ⟨front, back, parts, place, behind⟩ := applyFrom?_split (ofChanges_follows made) uncrossed
    applied boundary (Nat.zero_le x) (Text.le_size_of_isBoundary boundary) 0
  refine ⟨front, back, parts, ?_, behind⟩
  rw [mapPos]
  simpa using place.symm

/-- Text that no change touches stands where its start is carried to. -/
theorem kept_at (parts : t = a ++ m ++ w)
    (missed : ∀ c ∈ s.changes, c.stop ≤ a.size ∨ a.size + m.size ≤ c.start) :
    ∃ front rest, u = front ++ (m ++ rest) ∧ front.size = s.mapPos a.size .after := by
  have uncrossed : Uncrossed s.changes a.size := fun c member =>
    (missed c member).imp_right fun ahead => by omega
  have boundary : t.isBoundary a.size = true := by
    rw [parts, List.append_assoc]
    exact Text.isBoundary_left _ _
  obtain ⟨front, back, rfl, place, behind⟩ := split_at made applied uncrossed boundary
  have inside : a.size + m.size ≤ t.size := by
    rw [parts, Text.size_append, Text.size_append]
    omega
  have ahead : ∀ c ∈ (s.changes.dropWhile (·.stop ≤ a.size)).head?, a.size + m.size ≤ c.start := by
    intro c head
    have member := (List.dropWhile_sublist _).mem (List.mem_of_mem_head? head)
    have fails := List.head?_dropWhile_not (·.stop ≤ a.size) s.changes
    rw [Option.mem_def.mp head] at fails
    exact (missed c member).resolve_left (by simpa using fails)
  generalize t.size = n at behind inside
  rw [parts] at behind
  obtain ⟨rest, rfl⟩ := applyFrom?_keeps behind inside ahead
  exact ⟨front, rest, rfl, place⟩

omit applied in
theorem dropWhile_replacement (member : c ∈ s.changes) (some_bytes : c.start < c.stop) :
    ∃ rest, s.changes.dropWhile (·.stop ≤ c.start) = c :: rest ∧
      ∀ d ∈ rest, d ∈ s.changes ∧ c.stop ≤ d.start ∧ d.start ≤ d.stop := by
  have tail := List.dropWhile_sublist (·.stop ≤ c.start) (l := s.changes)
  have ordered := (ofChanges_follows made).pairwise.sublist tail
  have here : c ∈ s.changes.dropWhile (·.stop ≤ c.start) := by
    rw [← List.takeWhile_append_dropWhile (p := (·.stop ≤ c.start)) (l := s.changes)] at member
    refine (List.mem_append.mp member).resolve_left fun passed => ?_
    have ends := List.mem_takeWhile_imp passed
    simp only [decide_eq_true_eq] at ends
    omega
  have fails := List.head?_dropWhile_not (·.stop ≤ c.start) s.changes
  cases shape : s.changes.dropWhile (·.stop ≤ c.start) with
  | nil =>
    rw [shape] at here
    cases here
  | cons first rest =>
    rw [shape] at here fails ordered tail
    have same : c = first := by
      refine (List.mem_cons.mp here).resolve_right fun found => ?_
      have order := List.rel_of_pairwise_cons ordered found
      simp only [List.head?_cons, decide_eq_false_iff_not] at fails
      omega
    subst same
    refine ⟨rest, rfl, fun d found => ?_⟩
    have inside := tail.mem (List.mem_cons_of_mem c found)
    exact ⟨inside, List.rel_of_pairwise_cons ordered found, (ofChanges_bounds made d inside).1⟩

theorem replaced_at (member : c ∈ s.changes) (some_bytes : c.start < c.stop)
    (parts : t = a ++ m ++ w) (behind : a.size = c.stop)
    (missed : ∀ d ∈ s.changes, d.stop ≤ c.start ∨ d = c ∨ a.size + m.size ≤ d.start)
    (boundary : t.isBoundary c.start = true) :
    ∃ front rest, u = front ++ (c.insert ++ m ++ rest) ∧ front.size = s.mapPos c.start .after := by
  have uncrossed : Uncrossed s.changes c.start := by
    intro d inside
    rcases missed d inside with before | rfl | after
    · exact Or.inl before
    · exact Or.inr (Nat.le_refl _)
    · exact Or.inr (by omega)
  obtain ⟨front, back, rfl, place, later⟩ := split_at made applied uncrossed boundary
  obtain ⟨rest, shape, others⟩ := dropWhile_replacement made member some_bytes
  rw [shape] at later
  obtain ⟨kept, changed, gap, after, rfl⟩ := applyFrom?_cons later
  have empty : kept = [] := by
    rw [gap?, if_neg (Nat.lt_irrefl _)] at gap
    cases gap
    rfl
  subst empty
  have ahead : ∀ d ∈ rest.head?, a.size + m.size ≤ d.start := by
    intro d head
    obtain ⟨inside, order, forward⟩ := others d (List.mem_of_mem_head? head)
    rcases missed d inside with before | rfl | after
    · omega
    · omega
    · exact after
  have size : a.size + m.size ≤ t.size := by
    rw [parts, Text.size_append, Text.size_append]
    omega
  generalize t.size = n at after size
  rw [parts, ← behind] at after
  obtain ⟨tail, rfl⟩ := applyFrom?_keeps after size ahead
  exact ⟨front, tail, by simp only [List.nil_append, List.append_assoc], place⟩

end Set

theorem applyFrom?_inserted (follows : Follows b changes) (apart : changes.Pairwise Change.Before)
    (applied : applyFrom? t stop b changes = some u) (member : c ∈ changes)
    (alone : ∀ d ∈ changes, d.start = c.stop → d.stop = c.stop → d = c) (p : Nat) :
    ∃ front rest, u = front ++ c.insert ++ rest ∧
      mapFrom c.stop .after (p - b : Int) changes = p + front.size + c.insert.size := by
  induction changes generalizing b u p with
  | nil => cases member
  | cons d rest ih =>
    obtain ⟨first, forward, later⟩ := follows
    obtain ⟨kept, changed, gap, after, rfl⟩ := applyFrom?_cons applied
    have size := size_gap? gap first
    have others : ∀ e ∈ rest, e.start = c.stop → e.stop = c.stop → e = c := fun e inside =>
      alone e (List.mem_cons_of_mem _ inside)
    have shift : (p - b : Int) + d.growth = (p + kept.size + d.insert.size : Nat) - d.stop := by
      rw [Change.growth_eq forward]
      omega
    -- Behind the change itself nothing more moves its end; before it, each change moves it on.
    rcases List.mem_cons.mp member with rfl | member
    · refine ⟨kept, changed, rfl, ?_⟩
      have ahead : ∀ e ∈ rest, c.stop ≤ e.start ∧ e.start ≤ e.stop ∧
          (c.stop < e.stop ∨ Side.after = .before) := by
        intro e inside
        have order := later.forall_le e inside
        refine ⟨order.1, order.2, Or.inl ?_⟩
        have before := List.rel_of_pairwise_cons apart inside
        by_cases reaches : c.stop < e.stop
        · exact reaches
        · have same := others e inside (by omega) (by omega)
          rw [same] at before
          exact absurd before (Std.Irrefl.irrefl c)
      rw [mapFrom_passes _ _ forward (Nat.le_refl _), shift, mapFrom_ahead ahead]
      omega
    · obtain ⟨front, tail, rfl, place⟩ := ih later apart.of_cons after member others
        (p + kept.size + d.insert.size)
      have order := later.forall_le c member
      refine ⟨kept ++ d.insert ++ front, tail, by simp only [List.append_assoc], ?_⟩
      rw [mapFrom_passes _ _ forward (by omega), shift, place, Text.size_append, Text.size_append]
      omega

theorem inserted_at (made : ofChanges changes t.size = .ok s) (applied : s.applyTo? t = some u)
    (apart : s.changes.Pairwise Change.Before) (member : c ∈ s.changes)
    (alone : ∀ d ∈ s.changes, d.start = c.stop → d.stop = c.stop → d = c) :
    ∃ front rest, u = front ++ c.insert ++ rest ∧
      s.mapPos c.stop .after = front.size + c.insert.size := by
  rw [applyTo?, ofChanges_size made] at applied
  obtain ⟨front, rest, parts, place⟩ :=
    applyFrom?_inserted (ofChanges_follows made) apart applied member alone 0
  refine ⟨front, rest, parts, ?_⟩
  rw [mapPos]
  simpa using place

theorem insert_le_mapFrom (shift : Int) (follows : Follows b changes) (member : c ∈ changes)
    (room : 0 ≤ b + shift) : b + shift + c.insert.size ≤ mapFrom c.stop .after shift changes := by
  induction changes generalizing b shift with
  | nil => cases member
  | cons d rest ih =>
    obtain ⟨first, forward, later⟩ := follows
    have growth := Change.growth_eq forward
    rcases List.mem_cons.mp member with rfl | member
    · have further := le_mapFrom .after (shift + c.growth) later (Nat.le_refl _) (by omega)
      rw [mapFrom_passes _ _ forward (Nat.le_refl _)]
      omega
    · have order := later.forall_le c member
      have further := ih (shift + d.growth) later member (by omega)
      rw [mapFrom_passes _ _ forward (by omega)]
      omega

theorem mapFrom_insert (shift : Int) (follows : Follows b changes) (member : c ∈ changes)
    (low : b ≤ y) (before : y ≤ c.start) (inside : y < c.stop) (room : 0 ≤ b + shift) :
    mapFrom y .after shift changes + c.insert.size ≤ mapFrom c.stop .after shift changes := by
  induction changes generalizing b shift with
  | nil => cases member
  | cons d rest ih =>
    obtain ⟨first, forward, later⟩ := follows
    have growth := Change.growth_eq forward
    by_cases behind : d.stop ≤ y
    · rcases List.mem_cons.mp member with rfl | member
      · omega
      · have order := later.forall_le c member
        rw [mapFrom_passes _ _ forward behind, mapFrom_passes _ _ forward (by omega)]
        exact ih (shift + d.growth) later member behind (by omega)
    · have image : (y ≤ d.start → mapFrom y .after shift (d :: rest) = (y + shift).toNat) ∧
          mapFrom y .after shift (d :: rest) ≤ (d.start + shift).toNat + d.insert.size := by
        rcases mapFrom_cons y .after shift d rest with
          ⟨_, image⟩ | ⟨_, _, image⟩ | ⟨_, passed, _, _⟩
        · exact ⟨fun _ => image, by omega⟩
        · by_cases start : y = d.start
          · rw [if_pos (Or.inl start)] at image
            rw [image, start]
            exact ⟨fun _ => rfl, Nat.le_add_right _ _⟩
          · refine ⟨fun _ => by omega, ?_⟩
            split at image <;> omega
        · exact absurd passed behind
      rcases List.mem_cons.mp member with rfl | member
      · have here : Follows y (c :: rest) := ⟨before, forward, later⟩
        have further := insert_le_mapFrom shift here List.mem_cons_self (by omega)
        rw [image.1 before]
        omega
      · have order := later.forall_le c member
        have further := insert_le_mapFrom (shift + d.growth) later member (by omega)
        have passed : d.stop ≤ c.stop := by omega
        rw [mapFrom_passes shift rest forward passed]
        omega

end ChangeSet

end MarkdownEditing
