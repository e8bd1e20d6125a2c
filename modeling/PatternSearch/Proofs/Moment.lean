import Mathlib.Logic.Relation
import PatternSearch.Proofs.Capturing

/-!
# The moments of a search

A search makes attempts at one offset after the other, and in each of them a machine makes turn
after turn. Its moments are the machines that come up on the way (`Query.Moment`), and the last of
them is where the attempt ends.

What holds at every moment is shown turn by turn, over the kinds of turns that there are
(`Machine.Turns`). For what depends on the captures that is not enough: a frame deep in the stack is
worked off with other captures than those of the moment. What they will be can be read off the
frames above it, though, since each of these puts back one slot or none. A stack is justified when
every exploration on it fits the captures that it will find (`Machine.Justified`), and then it is
justified at every moment (`Query.Moment.justified`), as long as the edges lead from what fits to
what fits.
-/

namespace PatternSearch

namespace Machine

/-! ## Turns -/

section Turns

variable (σ : Setting)

/-- One turn of a machine that does not halt. -/
inductive Turns : Machine → Machine → Prop
  /-- A state that is not there, or that has been visited at this offset, is a dead end. -/
  | dropped {captures : Captures} {visits : Array (Option Nat)} {number offset steps : Nat}
      {stack : List Frame}
      (hdead : σ.automaton.states[number]? = none ∨ visits[number]? = none ∨
        visits[number]? = some (some offset)) :
      Turns ⟨captures, visits, .explore number offset :: stack, steps⟩
        ⟨captures, visits, stack, steps + 1⟩
  /-- A match may not stop at a final state before the end of the text, if it has to stop there. -/
  | refused {captures : Captures} {visits : Array (Option Nat)} {number offset steps : Nat}
      {stack : List Frame} {state : State} {previous : Option Nat}
      (hs : σ.automaton.states[number]? = some state) (hv : visits[number]? = some previous)
      (hne : previous ≠ some offset) (hfinal : state.marker = .final) :
      Turns ⟨captures, visits, .explore number offset :: stack, steps⟩
        ⟨captures, visits.setIfInBounds number (some offset),
          .leave number offset previous :: stack, steps + 1⟩
  | visited {captures : Captures} {visits : Array (Option Nat)} {number offset steps : Nat}
      {stack : List Frame} {state : State} {previous : Option Nat}
      (hs : σ.automaton.states[number]? = some state) (hv : visits[number]? = some previous)
      (hne : previous ≠ some offset) (hfinal : state.marker ≠ .final) :
      Turns ⟨captures, visits, .explore number offset :: stack, steps⟩
        ⟨state.marker.enact captures offset, visits.setIfInBounds number (some offset),
          σ.follow (state.marker.enact captures offset) offset state.edges ++
            ((state.marker.apply captures offset).2.toList ++
              .leave number offset previous :: stack), steps + 1⟩
  | restored {captures : Captures} {visits : Array (Option Nat)} {group steps : Nat} {slot : Slot}
      {stack : List Frame} :
      Turns ⟨captures, visits, .restoreSlot group slot :: stack, steps⟩
        ⟨captures.restore group slot, visits, stack, steps⟩
  | left {captures : Captures} {visits : Array (Option Nat)} {number offset steps : Nat}
      {previous : Option Nat} {stack : List Frame} :
      Turns ⟨captures, visits, .leave number offset previous :: stack, steps⟩
        ⟨captures, visits.setIfInBounds number previous, stack, steps⟩

/-- How a machine halts. None of this changes the captures. -/
inductive Halts : Machine → Verdict → Machine → Prop
  | rejected {captures : Captures} {visits : Array (Option Nat)} {steps : Nat} :
      Halts ⟨captures, visits, [], steps⟩ .rejected ⟨captures, visits, [], steps⟩
  | aborted {captures : Captures} {visits : Array (Option Nat)} {number offset steps : Nat}
      {stack : List Frame} (hover : σ.isOver (steps + 1) = true) :
      Halts ⟨captures, visits, .explore number offset :: stack, steps⟩ .aborted
        ⟨captures, visits, stack, steps + 1⟩
  | accepted {captures : Captures} {visits : Array (Option Nat)} {number offset steps : Nat}
      {stack : List Frame} {state : State} {previous : Option Nat}
      (hs : σ.automaton.states[number]? = some state) (hv : visits[number]? = some previous)
      (hne : previous ≠ some offset) (hfinal : state.marker = .final)
      (hend : (!σ.toEnd || offset == σ.text.size) = true) :
      Halts ⟨captures, visits, .explore number offset :: stack, steps⟩ (.accepted offset)
        ⟨captures, visits.setIfInBounds number (some offset),
          .leave number offset previous :: stack, steps + 1⟩

variable {σ} {m m' : Machine}

/-- **A machine takes one of these turns or halts in one of these ways.** -/
theorem step_cases (σ : Setting) (m : Machine) :
    (∃ m', m.step σ = .next m' ∧ Turns σ m m') ∨
      ∃ verdict m', m.step σ = .halt verdict m' ∧ Halts σ m verdict m' := by
  obtain ⟨captures, visits, stack, steps⟩ := m
  match stack with
  | [] => exact .inr ⟨_, _, rfl, .rejected⟩
  | .restoreSlot group slot :: stack => exact .inl ⟨_, rfl, .restored⟩
  | .leave number offset previous :: stack => exact .inl ⟨_, rfl, .left⟩
  | .explore number offset :: stack =>
    cases hover : σ.isOver (steps + 1) with
    | true => exact .inr ⟨_, _, by simp [step, explore, hover], .aborted hover⟩
    | false =>
      have hdrop (hdead : σ.automaton.states[number]? = none ∨ visits[number]? = none ∨
          visits[number]? = some (some offset)) :
          (⟨captures, visits, .explore number offset :: stack, steps⟩ : Machine).step σ =
            .next ⟨captures, visits, stack, steps + 1⟩ := by
        rcases hdead with hs | hv | hv
        · simp [step, explore, hover, hs]
        · simp [step, explore, hover, hv]
        · cases hs : σ.automaton.states[number]? <;> simp [step, explore, hover, hs, hv]
      cases hs : σ.automaton.states[number]? with
      | none => exact .inl ⟨_, hdrop (.inl hs), .dropped (.inl hs)⟩
      | some state =>
        cases hv : visits[number]? with
        | none => exact .inl ⟨_, hdrop (.inr (.inl hv)), .dropped (.inr (.inl hv))⟩
        | some previous =>
          by_cases hne : previous = some offset
          · subst hne
            exact .inl ⟨_, hdrop (.inr (.inr hv)), .dropped (.inr (.inr hv))⟩
          by_cases hfinal : state.marker = .final
          · by_cases hend : (!σ.toEnd || offset == σ.text.size) = true
            · refine .inr ⟨_, _, ?_, .accepted hs hv hne hfinal hend⟩
              simp [step, explore, hover, hs, hv, hne, visit, hfinal, hend]
            · refine .inl ⟨_, ?_, .refused hs hv hne hfinal⟩
              simp [step, explore, hover, hs, hv, hne, visit, hfinal, hend]
          · refine .inl ⟨_, ?_, .visited hs hv hne hfinal⟩
            simp [step, explore, hover, hs, hv, hne, visit, hfinal, Marker.apply_fst]

theorem turns_of_step (h : m.step σ = .next m') : Turns σ m m' := by
  rcases step_cases σ m with ⟨next, hnext, hturns⟩ | ⟨verdict, next, hhalt, -⟩
  · rw [hnext] at h
    cases h
    exact hturns
  · rw [hhalt] at h
    cases h

theorem halts_of_step {verdict : Verdict} (h : m.step σ = .halt verdict m') :
    Halts σ m verdict m' := by
  rcases step_cases σ m with ⟨next, hnext, -⟩ | ⟨verdict', next, hhalt, hhalts⟩
  · rw [hnext] at h
    cases h
  · rw [hhalt] at h
    cases h
    exact hhalts

/-- One machine comes to another in any number of turns. -/
def ComesTo (σ : Setting) : Machine → Machine → Prop :=
  Relation.ReflTransGen fun m m' => m.step σ = .next m'

/-- What every turn preserves holds wherever a machine comes to. -/
theorem ComesTo.preserves {P : Machine → Prop} (h : ComesTo σ m m') (hm : P m)
    (hturn : ∀ {m m' : Machine}, Turns σ m m' → P m → P m') : P m' := by
  induction h with
  | refl => exact hm
  | tail _ hstep ih => exact hturn (turns_of_step hstep) ih

/-- A run comes to a machine that halts. -/
theorem comesTo_of_run {verdict : Verdict} (h : m.run σ = (verdict, m')) :
    ∃ last, ComesTo σ m last ∧ Halts σ last verdict m' := by
  induction m using Machine.run.induct σ with
  | case1 m verdict' halted hstep =>
    rw [run_of_halt hstep] at h
    cases h
    exact ⟨m, .refl, halts_of_step hstep⟩
  | case2 m next hstep ih =>
    rw [run_of_next hstep] at h
    obtain ⟨last, hcomes, hhalts⟩ := ih h
    exact ⟨last, .head hstep hcomes, hhalts⟩

end Turns

/-! ## The captures that an exploration will find -/

section Justified

variable {P : Nat → Nat → Captures → Prop} {Q : Captures → Prop}

/-- Every exploration on a stack has `P` of the captures that it will find, if those at the moment
are `captures`, and all captures until the stack is worked off have `Q`. -/
def Justified (P : Nat → Nat → Captures → Prop) (Q : Captures → Prop) (captures : Captures) :
    List Frame → Prop
  | [] => Q captures
  | .explore number offset :: rest => P number offset captures ∧ Justified P Q captures rest
  | .restoreSlot group slot :: rest =>
    Q captures ∧ Justified P Q (captures.restore group slot) rest
  | .leave _ _ _ :: rest => Justified P Q captures rest

theorem Justified.now {captures : Captures} {stack : List Frame}
    (h : Justified P Q captures stack) :
    Q captures := by
  induction stack with
  | nil => exact h
  | cons frame stack ih =>
    cases frame with
    | explore number offset => exact ih h.2
    | restoreSlot group slot => exact h.1
    | leave number offset previous => exact ih h

variable {σ : Setting}

theorem Justified.follow {captures : Captures} {offset : Nat} {stack : List Frame}
    (h : Justified P Q captures stack) (edges : List Edge)
    (hedges : ∀ e ∈ edges, ∀ later, e.arrival? σ.text offset captures = some later →
      P e.target later captures) :
    Justified P Q captures (σ.follow captures offset edges ++ stack) :=
  Setting.follow_induction edges h fun e he later _ ha hframes => ⟨hedges e he later ha, hframes⟩

/-- What a marker has changed is put back before the rest of the stack is worked off. -/
theorem Justified.undo {captures : Captures} {offset : Nat} {stack : List Frame} {marker : Marker}
    (h : Justified P Q captures stack) (hnow : Q (marker.enact captures offset)) :
    Justified P Q (marker.enact captures offset)
      ((marker.apply captures offset).2.toList ++ stack) := by
  rcases marker.apply_snd captures offset with ⟨hnone, hsame⟩ | ⟨group, slot, hsome, hback⟩
  · rw [hnone, hsame]
    exact h
  · rw [hsome]
    refine ⟨hnow, ?_⟩
    rw [hback]
    exact h

/-- Wherever `P` holds of a state that is not final, `Q` holds once its marker has been applied, and
`P` of where its edges lead. -/
def Hereditary (σ : Setting) (P : Nat → Nat → Captures → Prop) (Q : Captures → Prop) : Prop :=
  ∀ {number offset : Nat} {captures : Captures} {state : State}, P number offset captures →
    σ.automaton.states[number]? = some state → state.marker ≠ .final →
    Q (state.marker.enact captures offset) ∧
      ∀ e ∈ state.edges, ∀ later,
        e.arrival? σ.text offset (state.marker.enact captures offset) = some later →
        P e.target later (state.marker.enact captures offset)

/-- **A justified stack stays justified.** -/
theorem Justified.turns {m m' : Machine} (hereditary : Hereditary σ P Q) (hturns : Turns σ m m')
    (h : Justified P Q m.captures m.stack) : Justified P Q m'.captures m'.stack := by
  cases hturns with
  | dropped hdead => exact h.2
  | refused hs hv hne hfinal => exact h.2
  | @visited captures visits number offset steps stack state previous hs hv hne hfinal =>
    obtain ⟨hexplore, hstack⟩ := h
    obtain ⟨hnow, hedges⟩ := hereditary hexplore hs hfinal
    have hleave : Justified P Q captures (.leave number offset previous :: stack) := hstack
    exact (hleave.undo hnow).follow state.edges hedges
  | restored => exact h.2
  | left => exact h

end Justified

end Machine

/-! ## Moments -/

namespace Query

/-- A search that goes on at the given offsets, with some explorations behind, comes to an attempt
at `offset` with `steps` explorations behind. -/
inductive TriesFrom (q : Query) (offset steps : Nat) : Nat → List Nat → Prop
  | now {rest : List Nat} : TriesFrom q offset steps steps (offset :: rest)
  | later {behind earlier : Nat} {rest : List Nat} {m : Machine}
      (h : q.attempt earlier behind = (.rejected, m))
      (hrest : TriesFrom q offset steps m.steps rest) :
      TriesFrom q offset steps behind (earlier :: rest)

/-- A search makes an attempt at `offset`, with `steps` explorations behind. -/
def Tries (q : Query) (offset steps : Nat) : Prop :=
  q.TriesFrom offset steps 0 q.offsets

/-- A machine that comes up in the attempt at `offset` of a search. -/
def Moment (q : Query) (offset : Nat) (m : Machine) : Prop :=
  ∃ steps, q.Tries offset steps ∧
    Machine.ComesTo q.setting (.initial q.setting q.groups q.start offset steps) m

variable {q : Query} {offset steps : Nat}

theorem TriesFrom.mem {behind : Nat} {offsets : List Nat}
    (h : q.TriesFrom offset steps behind offsets) : offset ∈ offsets := by
  induction h with
  | now => exact List.mem_cons_self
  | later _ _ ih => exact List.mem_cons_of_mem _ ih

theorem Tries.le_size (h : q.Tries offset steps) : offset ≤ q.text.size := by
  have hmem : offset ∈ q.offsets := TriesFrom.mem h
  unfold offsets at hmem
  split at hmem
  · rw [List.mem_singleton.1 hmem]
    exact Nat.zero_le _
  · exact Nat.le_of_lt_succ (List.mem_range.1 hmem)

theorem triesFrom_cons {behind first : Nat} {rest : List Nat} :
    q.TriesFrom offset steps behind (first :: rest) ↔
      (offset = first ∧ steps = behind) ∨
        ∃ m, q.attempt first behind = (.rejected, m) ∧ q.TriesFrom offset steps m.steps rest := by
  constructor
  · intro h
    cases h with
    | now => exact .inl ⟨rfl, rfl⟩
    | later h hrest => exact .inr ⟨_, h, hrest⟩
  · rintro (⟨rfl, rfl⟩ | ⟨m, h, hrest⟩)
    · exact .now
    · exact .later h hrest

/-- The attempts that a search reports are those that it makes. -/
theorem mem_attempts_searchFrom (captures : Captures) (behind : Nat) (tried offsets : List Nat) :
    offset ∈ (q.searchFrom captures behind tried offsets).attempts ↔
      offset ∈ tried ∨ ∃ steps, q.TriesFrom offset steps behind offsets := by
  induction offsets generalizing captures behind tried with
  | nil =>
    rw [searchFrom, List.mem_reverse]
    exact ⟨.inl, fun h => h.resolve_right fun ⟨_, h⟩ => nomatch h⟩
  | cons first rest ih =>
    unfold searchFrom
    cases hattempt : q.attempt first behind with
    | mk verdict m =>
      cases verdict with
      | accepted | aborted => simp [triesFrom_cons, hattempt, or_comm]
      | rejected => simp [triesFrom_cons, hattempt, ih, exists_or, or_assoc, or_left_comm]

theorem mem_attempts : offset ∈ q.search.attempts ↔ ∃ steps, q.Tries offset steps := by
  rw [search, mem_attempts_searchFrom]
  simp [Tries]

/-- A search ends with one of its attempts. -/
theorem exists_last_searchFrom (q : Query) (captures : Captures) (behind : Nat)
    (tried offsets : List Nat) (hne : offsets ≠ []) :
    ∃ offset steps verdict m, q.TriesFrom offset steps behind offsets ∧
      q.attempt offset steps = (verdict, m) ∧
      (q.searchFrom captures behind tried offsets).captures = m.captures ∧
      ∀ span, (q.searchFrom captures behind tried offsets).outcome = .matched span →
        span.start = offset ∧ verdict = .accepted span.stop := by
  induction offsets generalizing captures behind tried with
  | nil => exact absurd rfl hne
  | cons first rest ih =>
    unfold searchFrom
    cases hattempt : q.attempt first behind with
    | mk verdict m =>
      cases verdict with
      | accepted stop =>
        refine ⟨first, behind, _, m, .now, hattempt, rfl, fun span hspan => ?_⟩
        cases hspan
        exact ⟨rfl, rfl⟩
      | aborted => exact ⟨first, behind, _, m, .now, hattempt, rfl, nofun⟩
      | rejected =>
        cases rest with
        | nil => exact ⟨first, behind, _, m, .now, hattempt, rfl, nofun⟩
        | cons second rest =>
          obtain ⟨offset, steps, verdict, m', htries, hrest⟩ :=
            ih m.captures m.steps (first :: tried) (List.cons_ne_nil _ _)
          exact ⟨offset, steps, verdict, m', .later hattempt htries, hrest⟩

theorem offsets_ne_nil (q : Query) : q.offsets ≠ [] := by
  unfold offsets
  split
  · exact List.cons_ne_nil _ _
  · simp

/-- **The captures of a search are those of its last moment**, and if it has found a match, that
moment is about to explore a final state where the match stops. -/
theorem exists_last_moment (q : Query) :
    ∃ offset last, q.Moment offset last ∧ q.search.captures = last.captures ∧
      ∀ span, q.search.outcome = .matched span → span.start = offset ∧
        ∃ number state stack, last.stack = .explore number span.stop :: stack ∧
          q.automaton.states[number]? = some state ∧ state.marker = .final := by
  obtain ⟨offset, steps, verdict, m, htries, hattempt, hcaptures, hmatched⟩ :=
    q.exists_last_searchFrom (.fresh q.groups) 0 [] q.offsets q.offsets_ne_nil
  obtain ⟨last, hcomes, hhalts⟩ := Machine.comesTo_of_run hattempt
  refine ⟨offset, last, ⟨steps, htries, hcomes⟩, ?_, fun span hspan => ?_⟩
  · cases hhalts <;> exact hcaptures
  · obtain ⟨hstart, rfl⟩ := hmatched span hspan
    cases hhalts with
    | accepted hs hv hne hfinal hend => exact ⟨hstart, _, _, _, rfl, hs, hfinal⟩

/-- What every turn preserves, and what holds when an attempt begins, holds at every moment. -/
theorem Moment.preserves {P : Machine → Prop} {m : Machine} (h : q.Moment offset m)
    (hbegin : ∀ steps, P (.initial q.setting q.groups q.start offset steps))
    (hturn : ∀ {m m' : Machine}, Machine.Turns q.setting m m' → P m → P m') : P m := by
  obtain ⟨steps, -, hcomes⟩ := h
  exact hcomes.preserves (hbegin steps) hturn

/-- **At every moment the stack is justified**, if what it takes holds of the state where a search
starts. -/
theorem Moment.justified {P : Nat → Nat → Captures → Prop} {Q : Captures → Prop} {m : Machine}
    (h : q.Moment offset m) (hbegin : P q.start offset (.fresh q.groups))
    (hfresh : Q (.fresh q.groups))
    (hereditary : Machine.Hereditary q.setting P Q) : Machine.Justified P Q m.captures m.stack :=
  h.preserves (fun _ => ⟨hbegin, hfresh⟩) fun hturns => Machine.Justified.turns hereditary hturns

end Query

end PatternSearch
