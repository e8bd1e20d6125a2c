import PatternSearch.Search

/-!
# Two searches side by side

Two machines that are not the same, on two automata, can be watched side by side. Where a relation
between them is kept by every turn of both, it is kept to the end of their runs, and they halt with
the same verdict (`Machine.run_abreast`). The second may wait while the first makes a turn of its
own (`Machine.Abreast.alone`); since the first halts, it cannot wait for ever.

What holds of the attempts of two searches holds of the searches, which then differ in nothing but
captures (`Query.search_alike`).
-/

namespace PatternSearch

namespace Machine

/-- How the turns of two machines compare if `R` is to relate what comes of them. The second machine
is `waiting`, if the first makes a turn alone. -/
inductive Abreast (R : Machine → Machine → Prop) (waiting : Machine) : Turn → Turn → Prop
  | halt {verdict : Verdict} {m m' : Machine} (h : R m m') :
      Abreast R waiting (.halt verdict m) (.halt verdict m')
  | next {m m' : Machine} (h : R m m') : Abreast R waiting (.next m) (.next m')
  | alone {m : Machine} {turn : Turn} (h : R m waiting) : Abreast R waiting (.next m) turn

/-- **What every turn of two machines keeps is kept by their runs**, and these end alike. -/
theorem run_abreast {σ τ : Setting} {R : Machine → Machine → Prop}
    (hturn : ∀ {m m' : Machine}, R m m' → Abreast R m' (m.step σ) (m'.step τ)) {m m' : Machine}
    (h : R m m') : (m.run σ).1 = (m'.run τ).1 ∧ R (m.run σ).2 (m'.run τ).2 := by
  induction m using Machine.run.induct σ generalizing m' with
  | case1 m verdict halted hstep =>
    have habreast := hturn h
    rw [hstep] at habreast
    cases hstep' : m'.step τ with
    | halt verdict' halted' =>
      rw [hstep'] at habreast
      rw [run_of_halt hstep, run_of_halt hstep']
      cases habreast with
      | halt h => exact ⟨rfl, h⟩
    | next next' =>
      rw [hstep'] at habreast
      cases habreast
  | case2 m next hstep ih =>
    have habreast := hturn h
    rw [hstep] at habreast
    rw [run_of_next hstep]
    cases hstep' : m'.step τ with
    | halt verdict' halted' =>
      rw [hstep'] at habreast
      cases habreast with
      | alone h => exact ih h
    | next next' =>
      rw [hstep'] at habreast
      cases habreast with
      | next h =>
        rw [run_of_next hstep']
        exact ih h
      | alone h => exact ih h

end Machine

/-- Two reports that differ in nothing but captures, which `P` relates. -/
structure Report.Alike (P : Captures → Captures → Prop) (r r' : Report) : Prop where
  outcome : r.outcome = r'.outcome
  captures : P r.captures r'.captures
  steps : r.steps = r'.steps
  attempts : r.attempts = r'.attempts

theorem Report.Alike.eq {r r' : Report} (h : r.Alike Eq r') : r = r' := by
  obtain ⟨outcome, captures, steps, attempts⟩ := r
  obtain ⟨rfl, rfl, rfl, rfl⟩ := h
  rfl

namespace Query

variable {q q' : Query} {P : Captures → Captures → Prop}

/-- The attempts of two searches end alike. -/
def AttemptsAlike (P : Captures → Captures → Prop) (q q' : Query) : Prop :=
  ∀ offset steps, (q.attempt offset steps).1 = (q'.attempt offset steps).1 ∧
    P (q.attempt offset steps).2.captures (q'.attempt offset steps).2.captures ∧
    (q.attempt offset steps).2.steps = (q'.attempt offset steps).2.steps

theorem searchFrom_alike (h : AttemptsAlike P q q') {captures captures' : Captures}
    (hcaptures : P captures captures') (steps : Nat) (tried offsets : List Nat) :
    (q.searchFrom captures steps tried offsets).Alike P
      (q'.searchFrom captures' steps tried offsets) := by
  induction offsets generalizing captures captures' steps tried with
  | nil => exact ⟨rfl, hcaptures, rfl, rfl⟩
  | cons offset rest ih =>
    obtain ⟨hverdict, hm, hsteps⟩ := h offset steps
    unfold searchFrom
    cases hattempt : q.attempt offset steps with
    | mk verdict m =>
      cases hattempt' : q'.attempt offset steps with
      | mk verdict' m' =>
        rw [hattempt, hattempt'] at hverdict hm hsteps
        simp only at hverdict hm hsteps
        subst hverdict
        cases verdict with
        | accepted stop => exact ⟨rfl, hm, hsteps, rfl⟩
        | aborted => exact ⟨rfl, hm, hsteps, rfl⟩
        | rejected =>
          simp only [hsteps]
          exact ih hm m'.steps (offset :: tried)

/-- **Searches whose attempts end alike report the same**, captures apart. -/
theorem search_alike (h : AttemptsAlike P q q') (hfresh : P (.fresh q.groups) (.fresh q'.groups))
    (hoffsets : q.offsets = q'.offsets) : q.search.Alike P q'.search := by
  unfold search
  rw [← hoffsets]
  exact searchFrom_alike h hfresh 0 [] q.offsets

end Query

end PatternSearch
