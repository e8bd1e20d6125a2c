import PatternSearch.Proofs.Exploration
import PatternSearch.Regex

/-!
# Searches without a limit

Such a search comes to the first exploration that finds something, over the offsets that are tried
(`Query.found?_search`). What a compiled pattern says about a text is read off that
(`Regex.isMatch_iff`, `Regex.found_of_matched`), so that nothing about the machine is needed beyond
here.
-/

namespace PatternSearch

/-- Where a match starts, where it stops and the captures there, if there is one. -/
def Report.found? (r : Report) : Option (Nat × Nat × Captures) :=
  match r.outcome with
  | .matched span => some (span.start, span.stop, r.captures)
  | .unmatched | .aborted => none

theorem Report.captures_of_found? {r : Report} {start stop : Nat} {final : Captures}
    (h : r.found? = some (start, stop, final)) : r.captures = final := by
  unfold found? at h
  split at h <;> cases h
  rfl

namespace Query

variable (q : Query)

/-- The first of some offsets at which an exploration finds something, and what it finds. -/
def firstFound (offsets : List Nat) : Option (Nat × Nat × Captures) :=
  offsets.findSome? fun offset => (q.explore offset).found.map (offset, ·)

theorem firstFound_cons (offset : Nat) (rest : List Nat) :
    q.firstFound (offset :: rest) =
      match (q.explore offset).found with
      | some found => some (offset, found)
      | none => q.firstFound rest := by
  simp only [firstFound, List.findSome?_cons]
  cases (q.explore offset).found <;> rfl

theorem found?_searchFrom (captures : Captures) (steps : Nat) (tried offsets : List Nat) :
    (q.unlimited.searchFrom captures steps tried offsets).outcome ≠ .aborted ∧
      (q.unlimited.searchFrom captures steps tried offsets).found? = q.firstFound offsets := by
  induction offsets generalizing captures steps tried with
  | nil => exact ⟨nofun, rfl⟩
  | cons offset rest ih =>
    rw [firstFound_cons]
    unfold searchFrom
    cases hfound : (q.explore offset).found with
    | none =>
      rw [attempt_of_none hfound]
      exact ih _ _ (offset :: tried)
    | some found =>
      obtain ⟨m, hattempt, hcaptures, -⟩ := attempt_of_found hfound steps
      rw [hattempt]
      refine ⟨nofun, ?_⟩
      exact congrArg (fun captures => some (offset, found.1, captures)) hcaptures

theorem found?_search : q.unlimited.search.found? = q.firstFound q.offsets :=
  (q.found?_searchFrom _ _ _ _).2

theorem outcome_search_ne_aborted : q.unlimited.search.outcome ≠ .aborted :=
  (q.found?_searchFrom _ _ _ _).1

theorem mem_offsets {offset : Nat} :
    offset ∈ q.offsets ↔ offset ≤ q.text.size ∧ (q.anchor.atStart = true → offset = 0) := by
  unfold offsets
  split
  · next hstart =>
    rw [List.mem_singleton]
    exact ⟨fun h => ⟨h ▸ Nat.zero_le _, fun _ => h⟩, fun h => h.2 hstart⟩
  · next hstart =>
    rw [List.mem_range, Nat.lt_succ_iff]
    exact ⟨fun h => ⟨h, fun hs => absurd hs hstart⟩, fun h => h.1⟩

theorem sorted_offsets : q.offsets.Pairwise (· < ·) := by
  unfold offsets
  split
  · exact List.pairwise_singleton _ _
  · exact List.pairwise_lt_range

variable {q} {offset : Nat} {found : Nat × Captures}

/-- What a search finds is found at the least offset at which there is something to be found. -/
theorem firstFound_eq_some (h : q.firstFound q.offsets = some (offset, found)) :
    offset ∈ q.offsets ∧ (q.explore offset).found = some found ∧
      ∀ earlier ∈ q.offsets, (q.explore earlier).found.isSome → offset ≤ earlier := by
  obtain ⟨before, o, after, hsplit, hfound, hbefore⟩ := List.findSome?_eq_some_iff.1 h
  obtain ⟨f, hf, hpair⟩ := Option.map_eq_some_iff.1 hfound
  obtain ⟨rfl, rfl⟩ := Prod.mk.inj hpair
  have hsorted := q.sorted_offsets
  rw [hsplit] at hsorted
  refine ⟨by simp [hsplit], hf, fun earlier he hsome => ?_⟩
  rw [hsplit, List.mem_append] at he
  rcases he with he | he
  · have hnone := hbefore earlier he
    rw [Option.map_eq_none_iff] at hnone
    rw [hnone] at hsome
    cases hsome
  · rcases List.mem_cons.1 he with rfl | he
    · exact Nat.le_refl _
    · have hafter := (List.pairwise_append.1 hsorted).2.1
      exact Nat.le_of_lt ((List.pairwise_cons.1 hafter).1 earlier he)

end Query

/-! ## Compiled patterns -/

namespace Regex

variable (r : Regex) (text : String)

/-- The search for a pattern in a text. -/
def queryIn : Query :=
  r.query text.toList.toArray none

theorem found?_find : (r.find text).found? = (r.queryIn text).firstFound (r.queryIn text).offsets :=
  (r.queryIn text).found?_search

theorem outcome_find : (r.find text).outcome =
    match (r.find text).found? with
    | some (start, stop, _) => .matched ⟨start, stop⟩
    | none => .unmatched := by
  have haborted : (r.find text).outcome ≠ .aborted := (r.queryIn text).outcome_search_ne_aborted
  unfold Report.found?
  cases h : (r.find text).outcome with
  | matched span => rfl
  | unmatched => rfl
  | aborted => exact absurd h haborted

theorem isMatch_eq : r.isMatch text = (r.find text).found?.isSome := by
  unfold isMatch Report.found?
  cases (r.find text).outcome <;> rfl

theorem captures?_eq : r.captures? text =
    (r.find text).found?.map fun found => found.2.2.texts text.toList.toArray := by
  unfold captures? Report.found?
  simp only
  cases (r.find text).outcome <;> rfl

/-- There is a match if and only if some exploration finds something. -/
theorem isMatch_iff : r.isMatch text = true ↔
    ∃ offset ∈ (r.queryIn text).offsets, ((r.queryIn text).explore offset).found.isSome := by
  rw [isMatch_eq, found?_find, Query.firstFound, List.findSome?_isSome_iff]
  simp

variable {r text}

/-- A match is what the exploration at its start finds, and there is nothing to be found before. -/
theorem found_of_matched {span : Span} (h : (r.find text).outcome = .matched span) :
    span.start ∈ (r.queryIn text).offsets ∧
      (∃ final, ((r.queryIn text).explore span.start).found = some (span.stop, final) ∧
        r.captures? text = some (final.texts text.toList.toArray)) ∧
      ∀ earlier ∈ (r.queryIn text).offsets,
        ((r.queryIn text).explore earlier).found.isSome → span.start ≤ earlier := by
  have hcaptures := r.captures?_eq text
  rw [outcome_find] at h
  cases hfound : (r.find text).found? with
  | none =>
    rw [hfound] at h
    cases h
  | some found =>
    obtain ⟨start, stop, final⟩ := found
    rw [hfound] at h hcaptures
    cases h
    rw [found?_find] at hfound
    obtain ⟨hmem, hexplore, hleast⟩ := Query.firstFound_eq_some hfound
    exact ⟨hmem, ⟨final, hexplore, hcaptures⟩, hleast⟩

/-- Where there is something to be found, there is a match, and it starts there or before. -/
theorem exists_matched {offset : Nat} (hmem : offset ∈ (r.queryIn text).offsets)
    (h : ((r.queryIn text).explore offset).found.isSome) :
    ∃ span, (r.find text).outcome = .matched span ∧ span.start ≤ offset := by
  have hmatch : r.isMatch text = true := (r.isMatch_iff text).2 ⟨offset, hmem, h⟩
  unfold isMatch at hmatch
  split at hmatch
  · next span houtcome =>
    obtain ⟨-, -, hleast⟩ := found_of_matched houtcome
    exact ⟨span, houtcome, hleast offset hmem h⟩
  · cases hmatch

end Regex

end PatternSearch
