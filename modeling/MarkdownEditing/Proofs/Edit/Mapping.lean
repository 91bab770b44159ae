import MarkdownEditing.Proofs.Edit.Coherent
import MarkdownEditing.Proofs.Edit.Interleave

namespace MarkdownEditing

namespace ChangeSet

variable {changes rest : List Change} {c : Change} {s : ChangeSet} {t u : Text}
  {b x y n stop : Nat} {side side' : Side} {shift : Int}

theorem mapFrom_cons (x : Nat) (side : Side) (shift : Int) (c : Change) (rest : List Change) :
    (x < c.start ∧ mapFrom x side shift (c :: rest) = (x + shift).toNat) ∨
      (c.start ≤ x ∧ (x < c.stop ∨ (c.start = x ∧ c.stop = x ∧ side = .before)) ∧
        mapFrom x side shift (c :: rest) = (c.start + shift).toNat +
          (if x = c.start ∨ side = .before then 0 else c.insert.size)) ∨
      (c.start ≤ x ∧ c.stop ≤ x ∧ (side = .before → c.start < x ∨ c.stop < x) ∧
        mapFrom x side shift (c :: rest) = mapFrom x side (shift + c.growth) rest) := by
  rw [mapFrom]
  by_cases before : x < c.start
  · left
    rw [if_pos before]
    exact ⟨before, rfl⟩
  by_cases touches : x < c.stop ∨ (c.start = x ∧ c.stop = x ∧ side = .before)
  · right
    left
    rw [if_neg before, if_pos touches]
    refine ⟨by omega, touches, ?_⟩
    split <;> rfl
  · right
    right
    rw [if_neg before, if_neg touches]
    refine ⟨by omega, by omega, ?_, rfl⟩
    intro keeps
    simp only [keeps, and_true] at touches
    omega

theorem le_mapFrom (side : Side) (shift : Int) (follows : Follows b changes) (low : b ≤ x)
    (room : 0 ≤ b + shift) :
    b + shift ≤ mapFrom x side shift changes := by
  induction changes generalizing b shift with
  | nil =>
    rw [mapFrom]
    omega
  | cons c rest ih =>
    obtain ⟨first, forward, later⟩ := follows
    rcases mapFrom_cons x side shift c rest with ⟨_, same⟩ | ⟨_, _, same⟩ | ⟨_, behind, _, same⟩
    · omega
    · omega
    · have growth := Change.growth_eq forward
      have further := ih (shift + c.growth) later behind (by omega)
      omega

theorem totalGrowth_ge (follows : Follows b changes) (inside : ∀ c ∈ changes, c.stop ≤ n)
    (below : b ≤ n) : (b : Int) - n ≤ totalGrowth changes := by
  induction changes generalizing b with
  | nil =>
    rw [totalGrowth]
    omega
  | cons c rest ih =>
    obtain ⟨first, forward, later⟩ := follows
    have further := ih later (fun d member => inside d (List.mem_cons_of_mem _ member))
      (inside c List.mem_cons_self)
    rw [totalGrowth, Change.growth]
    omega

theorem mapFrom_le (side : Side) (shift : Int) (follows : Follows b changes)
    (inside : ∀ c ∈ changes, c.stop ≤ n) (low : b ≤ x) (high : x ≤ n) (room : 0 ≤ b + shift) :
    mapFrom x side shift changes ≤ n + shift + totalGrowth changes := by
  induction changes generalizing b shift with
  | nil =>
    rw [mapFrom, totalGrowth]
    omega
  | cons c rest ih =>
    obtain ⟨first, forward, later⟩ := follows
    have bounds : ∀ d ∈ rest, d.stop ≤ n := fun d member => inside d (List.mem_cons_of_mem _ member)
    have left := totalGrowth_ge later bounds (inside c List.mem_cons_self)
    have growth := Change.growth_eq forward
    rw [totalGrowth]
    rcases mapFrom_cons x side shift c rest with ⟨_, same⟩ | ⟨_, _, same⟩ | ⟨_, behind, _, same⟩
    · omega
    · split at same <;> omega
    · have further := ih (shift + c.growth) later bounds behind (by omega)
      omega

theorem mapPos_le (made : ofChanges changes n = .ok s) (below : x ≤ n) :
    s.mapPos x side ≤ s.newSize := by
  have bounds := ofChanges_bounds made
  have high := mapFrom_le side 0 (ofChanges_follows made)
    (fun c member => (bounds c member).2) (Nat.zero_le x) (by omega) (by decide)
  rw [newSize, mapPos, ofChanges_size made]
  omega

theorem mapFrom_mono (follows : Follows b changes) (low : b ≤ x) (order : x ≤ y)
    (sides : side' = .before → side = .before) (room : 0 ≤ b + shift) :
    mapFrom x side shift changes ≤ mapFrom y side' shift changes := by
  induction changes generalizing b shift with
  | nil =>
    rw [mapFrom, mapFrom]
    omega
  | cons c rest ih =>
    obtain ⟨first, forward, later⟩ := follows
    have growth := Change.growth_eq forward
    have from_start : c.start ≤ y →
        c.start + shift ≤ mapFrom y side' shift (c :: rest) := fun reaches =>
      le_mapFrom side' shift ⟨Nat.le_refl _, forward, later⟩ reaches (by omega)
    have from_stop : c.stop ≤ y →
        c.stop + (shift + c.growth) ≤ mapFrom y side' (shift + c.growth) rest := fun reaches =>
      le_mapFrom side' (shift + c.growth) later reaches (by omega)
    -- Each of the two is before, at or behind the first change. Only where both are behind it does
    -- the induction go on.
    rcases mapFrom_cons x side shift c rest with
      ⟨_, image⟩ | ⟨_, touch, image⟩ | ⟨_, behind, beyond, image⟩ <;>
    rcases mapFrom_cons y side' shift c rest with
      ⟨_, image'⟩ | ⟨_, touch', image'⟩ | ⟨_, behind', beyond', image'⟩
    · omega
    · omega
    · omega
    · omega
    · rw [image, image']
      by_cases stays : x = c.start ∨ side = .before
      · rw [if_pos stays]
        omega
      · have goes : ¬(y = c.start ∨ side' = .before) := by
          rintro (same | before)
          · omega
          · exact stays (Or.inr (sides before))
        simp only [if_neg stays, if_neg goes, Nat.le_refl]
    · split at image <;> omega
    · omega
    · rcases touch' with inside | ⟨_, _, before⟩
      · omega
      · have past := beyond (sides before)
        omega
    · rw [image, image']
      exact ih later behind (by omega)

/-- A byte that is kept between two positions keeps them apart. -/
theorem mapFrom_lt {kept : Nat} (side side' : Side) (shift : Int) (follows : Follows b changes)
    (low : b ≤ x) (below : x ≤ kept) (above : kept < y)
    (survives : ∀ c ∈ changes, ¬(c.start ≤ kept ∧ kept < c.stop))
    (room : 0 ≤ b + shift) :
    mapFrom x side shift changes < mapFrom y side' shift changes := by
  induction changes generalizing b x side shift with
  | nil =>
    rw [mapFrom, mapFrom]
    omega
  | cons c rest ih =>
    obtain ⟨first, forward, later⟩ := follows
    have outside := survives c List.mem_cons_self
    have further : ∀ d ∈ rest, ¬(d.start ≤ kept ∧ kept < d.stop) := fun d member =>
      survives d (List.mem_cons_of_mem _ member)
    have growth := Change.growth_eq forward
    by_cases before : kept < c.start
    · rcases mapFrom_cons x side shift c rest with ⟨_, image⟩ | ⟨_, _, _⟩ | ⟨_, _, _⟩
      · have here : Follows c.start (c :: rest) := ⟨Nat.le_refl _, forward, later⟩
        by_cases reaches : c.start ≤ y
        · have from_start := le_mapFrom side' shift here reaches (by omega)
          omega
        · rcases mapFrom_cons y side' shift c rest with ⟨_, image'⟩ | ⟨_, _⟩ | ⟨_, _⟩ <;> omega
      · omega
      · omega
    · have past : c.stop ≤ kept := by omega
      have image' : mapFrom y side' shift (c :: rest) =
          mapFrom y side' (shift + c.growth) rest := by
        rcases mapFrom_cons y side' shift c rest with ⟨_, _⟩ | ⟨_, _, _⟩ | ⟨_, _, _, image'⟩
        · omega
        · omega
        · exact image'
      have from_stop := le_mapFrom .before (shift + c.growth) later (Nat.le_refl c.stop) (by omega)
      have apart := ih .before (shift + c.growth) later (Nat.le_refl c.stop) past further (by omega)
      rcases mapFrom_cons x side shift c rest with ⟨_, image⟩ | ⟨_, _, image⟩ | ⟨_, behind, _, image⟩
      · omega
      · split at image <;> omega
      · rw [image, image']
        exact ih side (shift + c.growth) later behind below further (by omega)

theorem mapFrom_ahead (ahead : ∀ c ∈ changes, x ≤ c.start ∧ c.start ≤ c.stop ∧
    (x < c.stop ∨ side = .before)) : mapFrom x side shift changes = (x + shift).toNat := by
  cases changes with
  | nil => rfl
  | cons c rest =>
    obtain ⟨below, forward, reaches⟩ := ahead c List.mem_cons_self
    rcases mapFrom_cons x side shift c rest with
      ⟨_, image⟩ | ⟨above, _, image⟩ | ⟨above, behind, beyond, _⟩
    · exact image
    · have here : x = c.start := by omega
      rw [image, if_pos (Or.inl here), here]
      rfl
    · rcases reaches with inside | before
      · omega
      · have past := beyond before
        omega

theorem mapFrom_append_ahead (front : List Change) (ahead : ∀ c ∈ rest, x ≤ c.start ∧
    c.start ≤ c.stop ∧ (x < c.stop ∨ side = .before)) :
    mapFrom x side shift (front ++ rest) = mapFrom x side shift front := by
  induction front generalizing shift with
  | nil => exact mapFrom_ahead ahead
  | cons c front ih => rw [List.cons_append, mapFrom, mapFrom, ih]

theorem isBoundary_gap? {kept : Text} (found : gap? t b stop = some kept)
    (boundary : t.isBoundary x = true) (low : b ≤ x) (high : x ≤ stop) :
    kept.isBoundary (x - b) = true := by
  by_cases some_bytes : b < stop
  · obtain ⟨first, last, rfl⟩ := gap?_eq found some_bytes
    obtain ⟨a, v, rfl, rfl⟩ := Text.isBoundary_iff.mp first
    obtain ⟨n, rfl⟩ := Nat.exists_eq_add_of_le low
    obtain ⟨m, rfl⟩ := Nat.exists_eq_add_of_le (Nat.le_of_lt some_bytes)
    rw [Text.isBoundary_append_iff] at boundary last
    obtain ⟨w, z, rfl, rfl⟩ := Text.isBoundary_iff.mp last
    rw [Text.isBoundary_append_of_le z (by omega)] at boundary
    rw [← List.append_assoc, Text.slice_middle, Nat.add_sub_cancel_left]
    exact boundary
  · have here : x = b := by omega
    rw [here, Nat.sub_self]
    exact Text.isBoundary_zero kept

/-- The images of character boundaries are character boundaries of the changed text, of which `p` is
the part in front. -/
theorem isBoundary_mapFrom (p : Text) (follows : Follows b changes)
    (inside : ∀ c ∈ changes, c.stop ≤ stop) (applied : applyFrom? t stop b changes = some u)
    (boundary : t.isBoundary x = true) (low : b ≤ x) (high : x ≤ stop) :
    (p ++ u).isBoundary (mapFrom x side (p.size - b : Int) changes) = true := by
  -- On the changes, with `p` growing by what each of them leaves in front of the next.
  induction changes generalizing b p u with
  | nil =>
    have image : mapFrom x side (p.size - b : Int) [] = p.size + (x - b) := by
      rw [mapFrom]
      omega
    rw [image, Text.isBoundary_append_iff]
    exact isBoundary_gap? applied boundary low high
  | cons c rest ih =>
    obtain ⟨first, forward, later⟩ := follows
    obtain ⟨kept, changed, gap, after, rfl⟩ := applyFrom?_cons applied
    have size := size_gap? gap first
    rcases mapFrom_cons x side (p.size - b : Int) c rest with
      ⟨before, image⟩ | ⟨_, _, image⟩ | ⟨_, behind, _, image⟩
    · have place : mapFrom x side (p.size - b : Int) (c :: rest) = p.size + (x - b) := by omega
      have inner := isBoundary_gap? gap boundary low (Nat.le_of_lt before)
      obtain ⟨k, l, rfl, here⟩ := Text.isBoundary_iff.mp inner
      rw [place, ← here, Text.isBoundary_append_iff, List.append_assoc, List.append_assoc]
      exact Text.isBoundary_left _ _
    · have start : (c.start + (p.size - b : Int)).toNat = (p ++ kept).size := by
        rw [Text.size_append]
        omega
      rw [image, start, ← List.append_assoc, ← List.append_assoc]
      split
      · rw [Nat.add_zero, List.append_assoc]
        exact Text.isBoundary_left _ _
      · rw [← Text.size_append]
        exact Text.isBoundary_left _ _
    · have shift : (p.size - b : Int) + c.growth = ((p ++ kept ++ c.insert).size : Int) - c.stop := by
        rw [Change.growth, Text.size_append, Text.size_append]
        omega
      rw [image, shift, ← List.append_assoc, ← List.append_assoc]
      exact ih (p ++ kept ++ c.insert) later
        (fun d member => inside d (List.mem_cons_of_mem _ member)) after behind

end ChangeSet

theorem Range.map_cases (r : Range) (s : ChangeSet) :
    (r.start = r.stop ∧ (r.map s).start = s.mapPos r.stop .before ∧
      (r.map s).stop = s.mapPos r.stop .before) ∨
    (r.start < r.stop ∧ (r.map s).start = s.mapPos r.start .after ∧
      (r.map s).stop = max (s.mapPos r.stop .before) (s.mapPos r.start .after)) := by
  rw [map]
  by_cases caret : r.isCaret = true
  · left
    rw [if_pos caret]
    rw [isCaret, beq_iff_eq] at caret
    have head : r.stop = r.head := by rw [stop, caret, Nat.max_self]
    have tail : r.start = r.head := by rw [start, caret, Nat.min_self]
    rw [head, tail]
    exact ⟨rfl, Nat.min_self _, Nat.max_self _⟩
  · right
    rw [if_neg caret]
    rw [isCaret, beq_iff_eq] at caret
    have order : s.mapPos r.start .after ≤
        max (s.mapPos r.stop .before) (s.mapPos r.start .after) := Nat.le_max_right _ _
    have apart : r.start < r.stop := by
      rw [start, stop]
      omega
    dsimp only
    split
    · exact ⟨apart, Nat.min_eq_left order, Nat.max_eq_right order⟩
    · exact ⟨apart, Nat.min_eq_right order, Nat.max_eq_left order⟩

theorem Range.Inside.map {changes : List Change} {size : Nat} {s : ChangeSet} {r : Range}
    (inside : r.Inside size) (made : ChangeSet.ofChanges changes size = .ok s) :
    (r.map s).Inside s.newSize := by
  obtain ⟨anchor, head⟩ := inside
  have start : s.mapPos r.start .after ≤ s.newSize :=
    ChangeSet.mapPos_le made (Nat.le_trans (Nat.min_le_left _ _) anchor)
  have stop : s.mapPos r.stop .before ≤ s.newSize :=
    ChangeSet.mapPos_le made (Nat.max_le.mpr ⟨anchor, head⟩)
  have both : max (s.mapPos r.stop .before) (s.mapPos r.start .after) ≤ s.newSize :=
    Nat.max_le.mpr ⟨stop, start⟩
  rw [Range.map]
  by_cases caret : r.isCaret = true
  · rw [if_pos caret]
    have image : s.mapPos r.head .before ≤ s.newSize := ChangeSet.mapPos_le made head
    exact ⟨image, image⟩
  · rw [if_neg caret]
    by_cases forward : r.anchor ≤ r.head
    · rw [if_pos forward]
      exact ⟨start, both⟩
    · rw [if_neg forward]
      exact ⟨both, start⟩

end MarkdownEditing
