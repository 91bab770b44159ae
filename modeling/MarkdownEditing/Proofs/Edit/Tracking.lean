import MarkdownEditing.Proofs.Edit.Carried
import MarkdownEditing.Proofs.Edit.Splice

namespace MarkdownEditing

namespace ChangeSet

variable {changes : List Change} {bytes : List Nat} {b p : Nat}

theorem mapFrom_behind (shift : Int) (forward : ∀ c ∈ changes, c.start ≤ c.stop)
    (behind : ∀ c ∈ changes, c.stop ≤ p) :
    mapFrom p .after shift changes = (p + (shift + totalGrowth changes)).toNat := by
  induction changes generalizing shift with
  | nil => rw [mapFrom, totalGrowth, Int.add_zero]
  | cons c rest ih =>
    rw [List.forall_mem_cons] at forward behind
    rw [mapFrom_passes shift rest forward.1 behind.1, ih _ forward.2 behind.2, totalGrowth,
      Int.add_assoc]

/-- A byte that no change takes away is found at the image of its position. Here `q` is where the
bytes from `b` on begin after the changes before them. -/
theorem spliceFrom_kept (q : Nat) (follows : Follows b changes)
    (inside : ∀ c ∈ changes, c.stop ≤ bytes.length) (low : b ≤ p)
    (kept : ∀ c ∈ changes, ¬(c.start ≤ p ∧ p < c.stop)) :
    ∃ i, mapFrom p .after (q - b : Int) changes = q + i ∧
      (spliceFrom b bytes changes)[i]? = bytes[p]? := by
  induction changes generalizing b q with
  | nil =>
    refine ⟨p - b, by rw [mapFrom]; omega, ?_⟩
    rw [spliceFrom, List.getElem?_drop]
    congr 1
    omega
  | cons c rest ih =>
    obtain ⟨first, forward, later⟩ := follows
    rw [List.forall_mem_cons] at inside kept
    have gap : ((bytes.take c.start).drop b).length = c.start - b := by
      rw [List.length_drop, List.length_take]
      omega
    -- In the gap before the first change the byte keeps its place in it; behind, it moves on.
    by_cases before : p < c.start
    · refine ⟨p - b, by rw [mapFrom, if_pos before]; omega, ?_⟩
      rw [spliceFrom, List.getElem?_append_left (by omega), List.getElem?_drop,
        List.getElem?_take_of_lt (by omega)]
      congr 1
      omega
    · have past : c.stop ≤ p := by omega
      have shift : (q - b : Int) + c.growth =
          (q + (c.start - b) + c.insert.size : Nat) - c.stop := by
        rw [Change.growth_eq forward]
        omega
      obtain ⟨i, image, byte⟩ := ih (q + (c.start - b) + c.insert.size) later inside.2 past kept.2
      refine ⟨c.start - b + (c.insert.size + i), ?_, ?_⟩
      · rw [mapFrom_passes _ _ forward past, shift, image]
        omega
      · have front : ((bytes.take c.start).drop b ++ Utf8.encode c.insert).length =
            c.start - b + c.insert.size := by
          rw [List.length_append, gap, Utf8.length_encode]
        rw [spliceFrom, ← List.append_assoc, List.getElem?_append_right (by omega), front, ← byte]
        congr 1
        omega

end ChangeSet

namespace Document

open ChangeSet

variable {d : Document} {changes : List Change} {s : ChangeSet}

/-- Changes at character boundaries can be made, and they carry positions in order into the new text,
insertions at a position between its two images, the end to the end, and a position whose byte is kept
to the same byte. -/
theorem mapPos_tracks_bytes (made : ofChanges changes d.size = .ok s)
    (whole : ∀ c ∈ s.changes,
      d.text.isBoundary c.start = true ∧ d.text.isBoundary c.stop = true) :
    ∃ d', d.change? s = some d' ∧ d'.size = s.newSize ∧
      (∀ p q side, p ≤ q → s.mapPos p side ≤ s.mapPos q side) ∧
      (∀ p ≤ d.size, s.mapPos p .before ≤ s.mapPos p .after ∧ s.mapPos p .after ≤ s.newSize) ∧
      s.mapPos d.size .after = s.newSize ∧
      ∀ p < d.size, (∀ c ∈ s.changes, ¬(c.start ≤ p ∧ p < c.stop)) →
        ∃ byte, (Utf8.encode d.text)[p]? = some byte ∧
          (Utf8.encode d'.text)[s.mapPos p .after]? = some byte := by
  have follows := ofChanges_follows made
  have bounds := ofChanges_bounds made
  obtain ⟨u, applied⟩ := applyTo?_isSome whole (ofChanges_size made)
  refine ⟨ofText u d.lineBreak, ?_, (size_applyTo? made applied).1, ?_, ?_, ?_, ?_⟩
  · rw [change?, applied]
    rfl
  · intro p q side order
    exact mapFrom_mono follows (Nat.zero_le p) order (fun same => same) (by decide)
  · intro p below
    refine ⟨?_, mapPos_le made below⟩
    exact mapFrom_mono follows (Nat.zero_le p) (Nat.le_refl p) (fun _ => rfl) (by decide)
  · rw [mapPos, mapFrom_behind 0 (fun c member => (bounds c member).1)
      (fun c member => (bounds c member).2), newSize, ofChanges_size made, Int.zero_add]
  · intro p below kept
    have inside : ∀ c ∈ s.changes, c.stop ≤ (Utf8.encode d.text).length := by
      intro c member
      rw [Utf8.length_encode]
      exact (bounds c member).2
    obtain ⟨i, image, byte⟩ := spliceFrom_kept 0 follows inside
      (Nat.zero_le p) kept
    have there : p < (Utf8.encode d.text).length := by
      rw [Utf8.length_encode]
      exact below
    refine ⟨_, List.getElem?_eq_getElem there, ?_⟩
    have place : s.mapPos p .after = i := by
      rw [mapPos, ← Nat.zero_add i, ← image]
      rfl
    rw [← List.getElem?_eq_getElem there, ← byte, place]
    exact congrArg (·[i]?) (encode_applyTo? made applied)

/-- The dash behind a replaced letter and an insertion, and the letter behind a deleted one, are found
again. -/
theorem dash_tracked : ∃ s d',
    ofChanges [.delete 3 4, .insertAt 2 ['x', 'y'], ⟨0, 2, ['e']⟩] 5 = .ok s ∧
      (ofText ['é', '-', 'b', 'c'] .lf).change? s = some d' ∧
      s.mapPos 2 .before = 1 ∧ s.mapPos 2 .after = 3 ∧
      (Utf8.encode d'.text)[3]? = some '-'.toNat ∧
      s.mapPos 4 .after = 4 ∧ (Utf8.encode d'.text)[4]? = some 'c'.toNat ∧
      s.mapPos 5 .after = d'.size := by
  have made : ofChanges [.delete 3 4, .insertAt 2 ['x', 'y'], ⟨0, 2, ['e']⟩]
      (ofText ['é', '-', 'b', 'c'] .lf).size =
        .ok ⟨[⟨0, 2, ['e']⟩, .insertAt 2 ['x', 'y'], .delete 3 4], 5⟩ := by cbv
  obtain ⟨d', applied, size, _, _, last, kept⟩ := mapPos_tracks_bytes made (by decide)
  obtain ⟨dash, old_dash, new_dash⟩ := kept 2 (by decide) (by decide)
  obtain ⟨letter, old_letter, new_letter⟩ := kept 4 (by decide) (by decide)
  cases old_dash
  cases old_letter
  exact ⟨_, d', made, applied, by decide, by decide, new_dash, by decide, new_letter,
    last.trans size.symm⟩

end Document

end MarkdownEditing
