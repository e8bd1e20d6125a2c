import Mathlib.Algebra.Ring.Nat
import PatternSearch.Proofs.Search

/-!
# Searches under a limit

A search counts its explorations over all its attempts (`Query.cost`). With a limit that is not less
than this number it is the search without a limit, and with any smaller limit it gives up at the
first exploration over the limit (`Query.search_within`), whatever it would have found.

The two searches are compared attempt by attempt: each settles the same exploration, and the one
with the limit is aborted exactly if the other has counted over the limit by then.
-/

namespace PatternSearch

namespace Query

/-- The same search with a limit. -/
def within (q : Query) (limit : Nat) : Query :=
  { q with limit := some limit }

/-- The number of explorations that a search without a limit makes: those of all its attempts, each
counted by itself. -/
def cost (q : Query) : Nat :=
  (q.unlimited.search.attempts.map fun offset => (q.unlimited.attempt offset 0).2.steps).sum

variable (q : Query)

theorem steps_attempt (offset steps : Nat) :
    (q.unlimited.attempt offset steps).2.steps = steps + (q.explore offset).steps := by
  cases hfound : (q.explore offset).found with
  | none => rw [attempt_of_none hfound]
  | some found =>
    obtain ⟨m, hattempt, -, hsteps⟩ := attempt_of_found hfound steps
    rw [hattempt]
    exact hsteps

/-- A search counts on through its attempts. -/
theorem steps_searchFrom (captures : Captures) (steps : Nat) (tried offsets : List Nat) :
    ∃ made, (q.unlimited.searchFrom captures steps tried offsets).attempts = tried.reverse ++ made ∧
      (q.unlimited.searchFrom captures steps tried offsets).steps =
        steps + (made.map fun offset => (q.explore offset).steps).sum := by
  induction offsets generalizing captures steps tried with
  | nil => exact ⟨[], (List.append_nil _).symm, rfl⟩
  | cons offset rest ih =>
    unfold searchFrom
    cases hfound : (q.explore offset).found with
    | none =>
      rw [attempt_of_none hfound]
      obtain ⟨made, hattempts, hsteps⟩ := ih (.fresh q.groups)
        (steps + (q.explore offset).steps) (offset :: tried)
      refine ⟨offset :: made, ?_, ?_⟩
      · rw [hattempts, List.reverse_cons, List.append_assoc, List.singleton_append]
      · rw [hsteps, List.map_cons, List.sum_cons, Nat.add_assoc]
    | some found =>
      obtain ⟨m, hattempt, -, hsteps⟩ := attempt_of_found hfound steps
      rw [hattempt]
      exact ⟨[offset], List.reverse_cons, by simpa using hsteps⟩

theorem steps_search : q.unlimited.search.steps = q.cost := by
  obtain ⟨made, hattempts, hsteps⟩ := q.steps_searchFrom (.fresh q.groups) 0 [] q.offsets
  have hmade : q.unlimited.search.attempts = made := hattempts
  have hcost : q.cost = (made.map fun offset => (q.explore offset).steps).sum := by
    unfold cost
    rw [hmade]
    exact congrArg List.sum (List.map_congr_left fun offset _ => by
      rw [steps_attempt, Nat.zero_add])
  rw [hcost]
  exact hsteps.trans (Nat.zero_add _)

theorem le_steps_searchFrom (captures : Captures) (steps : Nat) (tried offsets : List Nat) :
    steps ≤ (q.unlimited.searchFrom captures steps tried offsets).steps := by
  obtain ⟨made, -, hsteps⟩ := q.steps_searchFrom captures steps tried offsets
  omega

variable {q} {limit offset steps : Nat}

theorem isOver_within : (q.within limit).setting.isOver steps = decide (limit < steps) := rfl

/-- An attempt under a limit settles the exploration that the attempt without one makes. -/
theorem settles_within (h : steps ≤ limit) (offset : Nat) :
    Machine.Settles (q.within limit).setting ((q.within limit).attempt offset steps) steps
      (q.explore offset)
      fun n => ⟨.fresh q.groups, Array.replicate q.automaton.size none, [], n⟩ :=
  settles_attempt (q := q.within limit) (decide_eq_false (Nat.not_lt.2 h)) offset

/-- An attempt that would count over the limit is aborted one exploration past it. -/
theorem attempt_within_over (h : steps ≤ limit) (hover : limit < steps + (q.explore offset).steps) :
    ∃ m, (q.within limit).attempt offset steps = (.aborted, m) ∧ m.steps = limit + 1 := by
  have hnot : (q.within limit).setting.isOver (steps + (q.explore offset).steps) ≠ false := by
    simpa [isOver_within] using hover
  cases settles_within h offset with
  | aborted m _ hrun hlimit =>
    obtain ⟨limit', hlimit', hm⟩ := hlimit
    cases hlimit'
    exact ⟨m, hrun, hm⟩
  | accepted stop m hwithin => exact absurd hwithin hnot
  | passed hwithin => exact absurd hwithin hnot

/-- An attempt that stays within the limit comes to what it comes to without one. -/
theorem attempt_within (hwithin : steps + (q.explore offset).steps ≤ limit) :
    ∃ verdict m m', (q.within limit).attempt offset steps = (verdict, m) ∧
      q.unlimited.attempt offset steps = (verdict, m') ∧ m.captures = m'.captures ∧
      m.steps = m'.steps := by
  have hnot : (q.within limit).setting.isOver (steps + (q.explore offset).steps) ≠ true := by
    simpa [isOver_within] using hwithin
  cases settles_within (q := q) (Nat.le_trans (Nat.le_add_right _ _) hwithin) offset with
  | aborted m hover => exact absurd hover hnot
  | accepted stop m _ hrun hfound hsteps =>
    obtain ⟨m', hattempt, hcaptures, hsteps'⟩ := attempt_of_found hfound steps
    exact ⟨_, m, m', hrun, hattempt, hcaptures.symm, hsteps.trans hsteps'.symm⟩
  | passed _ hfound hrun =>
    exact ⟨_, _, _, hrun.trans (Machine.run_of_halt rfl), attempt_of_none hfound steps, rfl, rfl⟩

/-- The limit as an exact threshold, for a search that has made some of its attempts. -/
theorem searchFrom_within (captures : Captures) (tried offsets : List Nat) (h : steps ≤ limit) :
    if (q.unlimited.searchFrom captures steps tried offsets).steps ≤ limit then
      (q.within limit).searchFrom captures steps tried offsets =
        q.unlimited.searchFrom captures steps tried offsets
    else
      ((q.within limit).searchFrom captures steps tried offsets).outcome = .aborted ∧
        ((q.within limit).searchFrom captures steps tried offsets).steps = limit + 1 := by
  induction offsets generalizing captures steps tried with
  | nil =>
    rw [if_pos]
    · rfl
    · exact h
  | cons offset rest ih =>
    unfold searchFrom
    by_cases hover : limit < steps + (q.explore offset).steps
    · -- the attempt without a limit counts over it, and so does the search that goes on from there
      obtain ⟨m, hattempt, hm⟩ := attempt_within_over h hover
      have hsteps := q.steps_attempt offset steps
      rw [hattempt, if_neg]
      · exact ⟨rfl, hm⟩
      · cases hunlimited : q.unlimited.attempt offset steps with
        | mk verdict m' =>
          rw [hunlimited] at hsteps
          simp only at hsteps
          cases verdict with
          | accepted stop => simp only; omega
          | aborted => simp only; omega
          | rejected =>
            have := q.le_steps_searchFrom m'.captures m'.steps (offset :: tried) rest
            simp only
            omega
    · obtain ⟨verdict, m, m', hwithin, hunlimited, hcaptures, hsteps⟩ :=
        attempt_within (Nat.le_of_not_lt hover)
      have hm' := q.steps_attempt offset steps
      rw [hunlimited] at hm'
      rw [hwithin, hunlimited]
      cases verdict with
      | accepted stop =>
        simp only at hm' ⊢
        rw [hcaptures, hsteps, if_pos (by omega)]
      | aborted =>
        simp only at hm' ⊢
        rw [hcaptures, hsteps, if_pos (by omega)]
      | rejected =>
        simp only at hm' ⊢
        rw [hcaptures, hsteps]
        exact ih _ (offset :: tried) (by omega)

variable (q limit)

theorem search_of_cost : if q.cost ≤ limit then (q.within limit).search = q.unlimited.search
    else (q.within limit).search.outcome = .aborted ∧
      (q.within limit).search.steps = limit + 1 := by
  rw [← steps_search]
  exact searchFrom_within (.fresh q.groups) [] q.offsets (Nat.zero_le limit)

end Query

/-- A search for a pattern answers whether there is a match if it has ended. -/
theorem Regex.isMatchWithin_eq (r : Regex) (text : String) (limit : Nat) :
    r.isMatchWithin text limit =
      if (r.queryIn text).cost ≤ limit then .ok (r.isMatch text) else .error ⟨limit + 1⟩ := by
  have hsearch := (r.queryIn text).search_of_cost limit
  have hquery : r.query text.toList.toArray (some limit) = (r.queryIn text).within limit := rfl
  have hfind : r.find text = (r.queryIn text).unlimited.search := rfl
  simp only [isMatchWithin, isMatch, hquery, hfind]
  by_cases hcost : (r.queryIn text).cost ≤ limit
  · rw [if_pos hcost] at hsearch ⊢
    have hended := (r.queryIn text).outcome_search_ne_aborted
    rw [hsearch]
    cases houtcome : (r.queryIn text).unlimited.search.outcome with
    | matched span => rfl
    | unmatched => rfl
    | aborted => exact absurd houtcome hended
  · rw [if_neg hcost] at hsearch ⊢
    simp only [hsearch.1, hsearch.2]

/-- **The limit is an exact threshold and changes nothing else.** A search whose explorations are not
more than the limit is the search without a limit; any other gives up, one exploration past the
limit. The answer whether there is a match is subject to the limit in the same way. -/
theorem Query.search_within (q : Query) (limit : Nat) :
    (if q.cost ≤ limit then (q.within limit).search = q.unlimited.search
      else (q.within limit).search.outcome = .aborted ∧
        (q.within limit).search.steps = limit + 1) ∧
    ∀ (r : Regex) (text : String), r.isMatchWithin text limit =
      if (r.queryIn text).cost ≤ limit then .ok (r.isMatch text) else .error ⟨limit + 1⟩ :=
  ⟨q.search_of_cost limit, fun r text => r.isMatchWithin_eq text limit⟩

end PatternSearch
