import PatternSearch.Search

/-!
# Recursive exploration

`Setting.explore` is the search of the machine without a stack: a function that is handed captures
and visits and gives back what it found, so that nothing has ever to be undone. The machine refines
it (`Machine.settles`): with an exploration on top of its stack, it either halts as the exploration
says or gets to the rest of the stack with the captures and visits that it started with, after as
many steps. Nothing is asked of the stack, so the meaning of its frames is that of what is beneath
them, and the two statements are proved by the recursion of the exploration alone.
-/

namespace PatternSearch

/-- What an exploration comes to: where a match stops and the captures there, if one was found, and
the number of states explored for it. -/
structure Exploration where
  found : Option (Nat × Captures)
  steps : Nat

namespace Exploration

/-- Goes on with `next` unless something has been found. -/
def orElse (first next : Exploration) : Exploration :=
  match first.found with
  | some found => ⟨some found, first.steps⟩
  | none => ⟨next.found, first.steps + next.steps⟩

/-- Counts one more state. -/
def count (r : Exploration) : Exploration :=
  { r with steps := r.steps + 1 }

@[simp] theorem steps_count (r : Exploration) : r.count.steps = r.steps + 1 := rfl

@[simp] theorem found_orElse (first next : Exploration) :
    (first.orElse next).found = first.found.or next.found := by
  unfold orElse
  cases first.found <;> rfl

theorem orElse_of_none {first : Exploration} (h : first.found = none) (next : Exploration) :
    first.orElse next = ⟨next.found, first.steps + next.steps⟩ := by
  simp [orElse, h]

theorem orElse_of_some {first : Exploration} {found : Nat × Captures} (h : first.found = some found)
    (next : Exploration) : first.orElse next = first := by
  cases first
  simp_all [orElse]

end Exploration

/-- The captures once a state with this marker has been reached at `offset`. -/
def Marker.enact (marker : Marker) (captures : Captures) (offset : Nat) : Captures :=
  match marker with
  | .groupStart group => ((captures.enter group offset).map Prod.snd).getD captures
  | .groupEnd group => ((captures.leave group offset).map Prod.snd).getD captures
  | .plain | .final => captures

/-- The offset that an edge leads to, if it can be taken at `offset`. -/
def Edge.arrival? (e : Edge) (text : Array Char) (offset : Nat) (captures : Captures) :
    Option Nat :=
  match e.matcher? with
  | none => some offset
  | some m => (m.consume text offset captures).map (offset + ·)

theorem Edge.le_of_arrival? {e : Edge} {text : Array Char} {offset later : Nat}
    {captures : Captures} (h : e.arrival? text offset captures = some later) : offset ≤ later := by
  unfold arrival? at h
  split at h
  · cases h
    exact Nat.le_refl _
  · obtain ⟨n, -, rfl⟩ := Option.map_eq_some_iff.1 h
    exact Nat.le_add_right offset n

namespace Setting

/-- What is left to explore from where an edge leads to is no more than before it. -/
theorem rank_arrival? {σ : Setting} {visits : Array (Option Nat)} {captures : Captures}
    {offset later : Nat} {e : Edge} (h : e.arrival? σ.text offset captures = some later) :
    σ.rank visits later ≤ σ.rank visits offset := by
  unfold Edge.arrival? at h
  split at h
  · cases h
    exact Nat.le_refl _
  · obtain ⟨n, hn, rfl⟩ := Option.map_eq_some_iff.1 h
    rcases Nat.eq_zero_or_pos n with rfl | hpos
    · exact Nat.le_refl _
    · exact Nat.le_of_lt (rank_later rfl (Matcher.consume_le hn).1 (by omega))

mutual

/-- Explores a state at `offset`, where `visits` tells at which offset each state was last visited
on the way there. -/
def explore (σ : Setting) (number offset : Nat) (captures : Captures)
    (visits : Array (Option Nat)) : Exploration :=
  match σ.automaton.states[number]?, _hv : visits[number]? with
  | some state, some previous =>
    if _hne : previous = some offset then ⟨none, 1⟩
    else if state.marker = .final then
      ⟨if !σ.toEnd || offset == σ.text.size then some (offset, captures) else none, 1⟩
    else
      (σ.tryEdges state.edges offset (state.marker.enact captures offset)
        (visits.setIfInBounds number (some offset))).count
  | _, _ => ⟨none, 1⟩
termination_by (σ.rank visits offset, 0)
decreasing_by exact Prod.Lex.left _ _ (rank_visit _hv _hne)

/-- Tries edges in their order. -/
def tryEdges (σ : Setting) (edges : List Edge) (offset : Nat) (captures : Captures)
    (visits : Array (Option Nat)) : Exploration :=
  match edges with
  | [] => ⟨none, 0⟩
  | e :: rest =>
    match _ha : e.arrival? σ.text offset captures with
    | none => σ.tryEdges rest offset captures visits
    | some later =>
      (σ.explore e.target later captures visits).orElse (σ.tryEdges rest offset captures visits)
termination_by (σ.rank visits offset, edges.length + 1)
decreasing_by
  · exact Prod.Lex.right _ (by simp)
  · have hle : σ.rank visits _ ≤ σ.rank visits offset := rank_arrival? _ha
    rcases Nat.lt_or_eq_of_le hle with hlt | heq
    · exact Prod.Lex.left _ _ hlt
    · rw [heq]
      exact Prod.Lex.right _ (by simp)
  · exact Prod.Lex.right _ (by simp)

end

section Equations

variable {σ : Setting} {number offset later : Nat} {captures : Captures}
  {visits : Array (Option Nat)} {state : State} {previous : Option Nat} {e : Edge}
  {rest : List Edge}

/-- A state that is not there, or that has been visited at this offset, is a dead end. -/
theorem explore_dead (h : σ.automaton.states[number]? = none ∨ visits[number]? = none ∨
      visits[number]? = some (some offset)) :
    σ.explore number offset captures visits = ⟨none, 1⟩ := by
  rw [explore]
  split <;> simp_all

theorem explore_final (hs : σ.automaton.states[number]? = some state)
    (hv : visits[number]? = some previous) (hne : previous ≠ some offset)
    (hfinal : state.marker = .final) :
    σ.explore number offset captures visits =
      ⟨if !σ.toEnd || offset == σ.text.size then some (offset, captures) else none, 1⟩ := by
  rw [explore]
  split <;> simp_all

theorem explore_visit (hs : σ.automaton.states[number]? = some state)
    (hv : visits[number]? = some previous) (hne : previous ≠ some offset)
    (hfinal : state.marker ≠ .final) :
    σ.explore number offset captures visits =
      (σ.tryEdges state.edges offset (state.marker.enact captures offset)
        (visits.setIfInBounds number (some offset))).count := by
  rw [explore]
  split <;> simp_all

/-- Induction along an exploration: a dead end, a final state, a visit of any other state by way of
its edges, and the edges one by one. -/
theorem explore_induction (σ : Setting)
    {P : Nat → Nat → Captures → Array (Option Nat) → Prop}
    {Q : List Edge → Nat → Captures → Array (Option Nat) → Prop}
    (dead : ∀ number offset captures visits,
      (σ.automaton.states[number]? = none ∨ visits[number]? = none ∨
        visits[number]? = some (some offset)) → P number offset captures visits)
    (final : ∀ number offset captures visits state previous,
      σ.automaton.states[number]? = some state → visits[number]? = some previous →
      previous ≠ some offset → state.marker = .final → P number offset captures visits)
    (visit : ∀ number offset captures visits state previous,
      σ.automaton.states[number]? = some state → visits[number]? = some previous →
      previous ≠ some offset → state.marker ≠ .final →
      Q state.edges offset (state.marker.enact captures offset)
        (visits.setIfInBounds number (some offset)) → P number offset captures visits)
    (nil : ∀ offset captures visits, Q [] offset captures visits)
    (blocked : ∀ e rest offset captures visits, e.arrival? σ.text offset captures = none →
      Q rest offset captures visits → Q (e :: rest) offset captures visits)
    (taken : ∀ e rest offset captures visits later,
      e.arrival? σ.text offset captures = some later → P e.target later captures visits →
      Q rest offset captures visits → Q (e :: rest) offset captures visits) :
    (∀ number offset captures visits, P number offset captures visits) ∧
      ∀ edges offset captures visits, Q edges offset captures visits := by
  apply explore.mutual_induct
  case case1 =>
    intro number offset captures visits state _ hv
    exact dead _ _ _ _ (.inr (.inr hv))
  case case2 =>
    intro number offset captures visits state previous hv hs hne hfinal
    exact final _ _ _ _ _ _ hs hv hne hfinal
  case case3 =>
    intro number offset captures visits state previous hv hs hne hfinal hedges
    exact visit _ _ _ _ _ _ hs hv hne hfinal hedges
  case case4 =>
    intro number offset captures visits h
    refine dead _ _ _ _ ?_
    cases hs : σ.automaton.states[number]? with
    | none => exact .inl rfl
    | some state =>
      cases hv : visits[number]? with
      | none => exact .inr (.inl rfl)
      | some previous => exact (h state previous hs hv).elim
  case case5 => exact nil
  case case6 =>
    intro offset captures visits e rest ha hrest
    exact blocked _ _ _ _ _ ha hrest
  case case7 =>
    intro offset captures visits e rest later ha hfirst hrest
    exact taken _ _ _ _ _ _ ha hfirst hrest

@[simp] theorem tryEdges_nil : σ.tryEdges [] offset captures visits = ⟨none, 0⟩ := by
  rw [tryEdges]

theorem tryEdges_cons_none (h : e.arrival? σ.text offset captures = none) :
    σ.tryEdges (e :: rest) offset captures visits = σ.tryEdges rest offset captures visits := by
  rw [tryEdges]
  split <;> simp_all

theorem tryEdges_cons_some (h : e.arrival? σ.text offset captures = some later) :
    σ.tryEdges (e :: rest) offset captures visits =
      (σ.explore e.target later captures visits).orElse
        (σ.tryEdges rest offset captures visits) := by
  rw [tryEdges]
  split <;> simp_all

end Equations

/-- An exploration depends on the automaton, the text and where a match may stop, but not on the
limit. -/
theorem explore_congr {σ τ : Setting} (hautomaton : σ.automaton = τ.automaton)
    (htext : σ.text = τ.text) (htoEnd : σ.toEnd = τ.toEnd) (number offset : Nat)
    (captures : Captures) (visits : Array (Option Nat)) :
    σ.explore number offset captures visits = τ.explore number offset captures visits := by
  refine (σ.explore_induction
    (P := fun number offset captures visits =>
      σ.explore number offset captures visits = τ.explore number offset captures visits)
    (Q := fun edges offset captures visits =>
      σ.tryEdges edges offset captures visits = τ.tryEdges edges offset captures visits)
    ?dead ?final ?visit ?nil ?blocked ?taken).1 number offset captures visits
  case dead =>
    intro number offset captures visits hdead
    rw [explore_dead hdead, explore_dead (hautomaton ▸ hdead)]
  case final =>
    intro number offset captures visits state previous hs hv hne hfinal
    rw [explore_final hs hv hne hfinal, explore_final (hautomaton ▸ hs) hv hne hfinal, htoEnd, htext]
  case visit =>
    intro number offset captures visits state previous hs hv hne hfinal hedges
    rw [explore_visit hs hv hne hfinal, explore_visit (hautomaton ▸ hs) hv hne hfinal, hedges]
  case nil =>
    intro offset captures visits
    rw [tryEdges_nil, tryEdges_nil]
  case blocked =>
    intro e rest offset captures visits ha hrest
    rw [tryEdges_cons_none ha, tryEdges_cons_none (htext ▸ ha), hrest]
  case taken =>
    intro e rest offset captures visits later ha hfirst hrest
    rw [tryEdges_cons_some ha, tryEdges_cons_some (htext ▸ ha), hfirst, hrest]

theorem follow?_eq (σ : Setting) (captures : Captures) (offset : Nat) (e : Edge) :
    σ.follow? captures offset e =
      (e.arrival? σ.text offset captures).map (Frame.explore e.target) := by
  unfold follow? Edge.arrival?
  cases e.matcher? with
  | none => rfl
  | some m => simp [Function.comp_def]

theorem follow_cons_none {σ : Setting} {captures : Captures} {offset : Nat} {e : Edge}
    {rest : List Edge} (h : e.arrival? σ.text offset captures = none) :
    σ.follow captures offset (e :: rest) = σ.follow captures offset rest := by
  simp [follow, follow?_eq, h]

theorem follow_cons_some {σ : Setting} {captures : Captures} {offset later : Nat} {e : Edge}
    {rest : List Edge} (h : e.arrival? σ.text offset captures = some later) :
    σ.follow captures offset (e :: rest) =
      .explore e.target later :: σ.follow captures offset rest := by
  simp [follow, follow?_eq, h]

/-- Induction over what the edges of a state put on a stack. -/
theorem follow_induction {σ : Setting} {captures : Captures} {offset : Nat} {stack : List Frame}
    {P : List Frame → Prop} (edges : List Edge) (base : P stack)
    (push : ∀ e ∈ edges, ∀ later frames, e.arrival? σ.text offset captures = some later →
      P frames → P (.explore e.target later :: frames)) :
    P (σ.follow captures offset edges ++ stack) := by
  induction edges with
  | nil => exact base
  | cons e edges ih =>
    obtain ⟨hfirst, hrest⟩ := List.forall_mem_cons.1 push
    cases ha : e.arrival? σ.text offset captures with
    | none =>
      rw [follow_cons_none ha]
      exact ih hrest
    | some later =>
      rw [follow_cons_some ha]
      exact hfirst later _ ha (ih hrest)

end Setting

/-! ## Undoing -/

theorem Captures.restore_restore (captures : Captures) (group : Nat) (slot slot' : Slot) :
    (captures.restore group slot).restore group slot' = captures.restore group slot' := by
  simp [restore]

theorem Captures.restore_self {captures : Captures} {group : Nat} {slot : Slot}
    (h : captures.slots[group]? = some slot) : captures.restore group slot = captures := by
  obtain ⟨hlt, rfl⟩ := Array.getElem?_eq_some_iff.1 h
  simp [restore, Array.setIfInBounds, hlt]

/-- Putting back the slot that an update has replaced undoes the update. -/
theorem Captures.restore_of_update {captures changed : Captures} {group : Nat} {slot : Slot}
    {change : Slot → Option Slot} (h : captures.update group change = some (slot, changed)) :
    changed.restore group slot = captures := by
  obtain ⟨old, hold, h⟩ := Option.bind_eq_some_iff.1 h
  obtain ⟨new, -, h⟩ := Option.map_eq_some_iff.1 h
  obtain ⟨rfl, rfl⟩ := Prod.mk.inj h
  rw [restore_restore, restore_self hold]

theorem Marker.apply_fst (marker : Marker) (captures : Captures) (offset : Nat) :
    (marker.apply captures offset).1 = marker.enact captures offset := by
  cases marker with
  | plain => rfl
  | final => rfl
  | groupStart group =>
    simp only [apply, enact]
    cases captures.enter group offset <;> rfl
  | groupEnd group =>
    simp only [apply, enact]
    cases captures.leave group offset <;> rfl

/-- What a marker puts on the stack takes back what it did to the captures. -/
theorem Marker.apply_snd (marker : Marker) (captures : Captures) (offset : Nat) :
    (marker.apply captures offset).2 = none ∧ marker.enact captures offset = captures ∨
      ∃ group slot, (marker.apply captures offset).2 = some (.restoreSlot group slot) ∧
        (marker.enact captures offset).restore group slot = captures := by
  cases marker with
  | plain => exact .inl ⟨rfl, rfl⟩
  | final => exact .inl ⟨rfl, rfl⟩
  | groupStart group =>
    simp only [apply, enact]
    cases h : captures.enter group offset with
    | none => exact .inl ⟨rfl, rfl⟩
    | some p => exact .inr ⟨group, p.1, rfl, Captures.restore_of_update h⟩
  | groupEnd group =>
    simp only [apply, enact]
    cases h : captures.leave group offset with
    | none => exact .inl ⟨rfl, rfl⟩
    | some p => exact .inr ⟨group, p.1, rfl, Captures.restore_of_update h⟩

/-! ## The machine and the exploration -/

theorem Setting.isOver_mono {σ : Setting} {steps steps' : Nat} (hle : steps ≤ steps')
    (h : σ.isOver steps = true) : σ.isOver steps' = true := by
  unfold isOver at *
  split at h
  · cases h
  · rw [decide_eq_true_eq] at h ⊢
    omega

/-- The first count that is over the limit is one more than the limit. -/
theorem Setting.limit_of_isOver {σ : Setting} {steps : Nat} (h : σ.isOver steps = false)
    (hover : σ.isOver (steps + 1) = true) : σ.limit = some steps := by
  unfold isOver at *
  cases hl : σ.limit with
  | none => simp [hl] at hover
  | some limit =>
    simp only [hl, decide_eq_true_eq, decide_eq_false_iff_not] at h hover
    rw [show limit = steps by omega]

namespace Machine

/-- What a run comes to that starts with `steps` explorations behind it and `r` to do: it goes over
the limit, or halts with what `r` finds, or goes on as the machine `after` does, with the
explorations of `r` counted. -/
inductive Settles (σ : Setting) (run : Verdict × Machine) (steps : Nat) (r : Exploration)
    (after : Nat → Machine) : Prop
  | aborted (m : Machine) (hover : σ.isOver (steps + r.steps) = true) (hrun : run = (.aborted, m))
      (hlimit : ∃ limit, σ.limit = some limit ∧ m.steps = limit + 1)
  | accepted (stop : Nat) (m : Machine) (hover : σ.isOver (steps + r.steps) = false)
      (hrun : run = (.accepted stop, m)) (hfound : r.found = some (stop, m.captures))
      (hsteps : m.steps = steps + r.steps)
  | passed (hover : σ.isOver (steps + r.steps) = false) (hfound : r.found = none)
      (hrun : run = (after (steps + r.steps)).run σ)

namespace Settles

variable {σ : Setting} {run : Verdict × Machine} {steps : Nat} {r first next : Exploration}
  {after between : Nat → Machine}

theorem count (h : Settles σ run (steps + 1) r after) : Settles σ run steps r.count after := by
  have hsteps : steps + 1 + r.steps = steps + r.count.steps := by
    rw [Exploration.steps_count]
    omega
  cases h with
  | aborted m hover hrun hlimit => exact .aborted m (hsteps ▸ hover) hrun hlimit
  | accepted stop m hover hrun hfound hm =>
    exact .accepted stop m (hsteps ▸ hover) hrun hfound (hsteps ▸ hm)
  | passed hover hfound hrun => exact .passed (hsteps ▸ hover) hfound (hsteps ▸ hrun)

theorem orElse (h : Settles σ run steps first between)
    (hnext : ∀ steps', σ.isOver steps' = false →
      Settles σ ((between steps').run σ) steps' next after) :
    Settles σ run steps (first.orElse next) after := by
  cases h with
  | aborted m hover hrun hlimit =>
    refine .aborted m (Setting.isOver_mono ?_ hover) hrun hlimit
    unfold Exploration.orElse
    split <;> simp only <;> omega
  | accepted stop m hover hrun hfound hm =>
    rw [Exploration.orElse_of_some hfound]
    exact .accepted stop m hover hrun hfound hm
  | passed hover hfound hrun =>
    rw [Exploration.orElse_of_none hfound]
    have hsteps : steps + (first.steps + next.steps) = steps + first.steps + next.steps := by
      omega
    have h := hnext _ hover
    rw [← hrun] at h
    cases h with
    | aborted m hover hrun hlimit => exact .aborted m (hsteps ▸ hover) hrun hlimit
    | accepted stop m hover hrun hfound hm =>
      exact .accepted stop m (hsteps ▸ hover) hrun hfound (hsteps ▸ hm)
    | passed hover hfound hrun => exact .passed (hsteps ▸ hover) hfound (hsteps ▸ hrun)

theorem congr_after {after' : Nat → Machine} (h : Settles σ run steps r after)
    (hafter : ∀ n, (after n).run σ = (after' n).run σ) : Settles σ run steps r after' := by
  cases h with
  | aborted m hover hrun hlimit => exact .aborted m hover hrun hlimit
  | accepted stop m hover hrun hfound hm => exact .accepted stop m hover hrun hfound hm
  | passed hover hfound hrun => exact .passed hover hfound (by rw [hrun, hafter])

end Settles

section Turns

variable {σ : Setting} {number offset steps : Nat} {captures : Captures}
  {visits : Array (Option Nat)} {stack : List Frame} {state : State} {previous : Option Nat}

theorem run_over (h : σ.isOver (steps + 1) = true) :
    (⟨captures, visits, .explore number offset :: stack, steps⟩ : Machine).run σ =
      (.aborted, ⟨captures, visits, stack, steps + 1⟩) := by
  apply run_of_halt
  simp [step, explore, h]

theorem run_dead (h : σ.isOver (steps + 1) = false)
    (hdead : σ.automaton.states[number]? = none ∨ visits[number]? = none ∨
      visits[number]? = some (some offset)) :
    (⟨captures, visits, .explore number offset :: stack, steps⟩ : Machine).run σ =
      (⟨captures, visits, stack, steps + 1⟩ : Machine).run σ := by
  apply run_of_next
  rcases hdead with hs | hv | hv
  · simp [step, explore, h, hs]
  · simp [step, explore, h, hv]
  · cases hs : σ.automaton.states[number]? with
    | none => simp [step, explore, h, hs]
    | some state => simp [step, explore, h, hs, hv]

theorem run_leave :
    (⟨captures, visits, .leave number offset previous :: stack, steps⟩ : Machine).run σ =
      (⟨captures, visits.setIfInBounds number previous, stack, steps⟩ : Machine).run σ :=
  run_of_next rfl

/-- The frame that a marker has put on the stack takes back what it did. -/
theorem run_undo (marker : Marker) :
    (⟨marker.enact captures offset, visits,
        (marker.apply captures offset).2.toList ++ stack, steps⟩ : Machine).run σ =
      (⟨captures, visits, stack, steps⟩ : Machine).run σ := by
  rcases marker.apply_snd captures offset with ⟨hnone, hsame⟩ | ⟨group, slot, hsome, hback⟩
  · simp [hnone, hsame]
  · rw [hsome]
    refine run_of_next ?_
    simp [step, hback]

theorem run_final (h : σ.isOver (steps + 1) = false)
    (hs : σ.automaton.states[number]? = some state) (hv : visits[number]? = some previous)
    (hne : previous ≠ some offset) (hfinal : state.marker = .final) :
    (⟨captures, visits, .explore number offset :: stack, steps⟩ : Machine).run σ =
      if !σ.toEnd || offset == σ.text.size then
        (.accepted offset, ⟨captures, visits.setIfInBounds number (some offset),
          .leave number offset previous :: stack, steps + 1⟩)
      else (⟨captures, visits, stack, steps + 1⟩ : Machine).run σ := by
  split
  · next hend =>
    apply run_of_halt
    simp [step, explore, h, hs, hv, hne, visit, hfinal, hend]
  · next hend =>
    have hnext : (⟨captures, visits, .explore number offset :: stack, steps⟩ : Machine).step σ =
        .next ⟨captures, visits.setIfInBounds number (some offset),
          .leave number offset previous :: stack, steps + 1⟩ := by
      simp [step, explore, h, hs, hv, hne, visit, hfinal, hend]
    rw [run_of_next hnext, run_leave, Setting.restore_visit hv]

theorem run_visit (h : σ.isOver (steps + 1) = false)
    (hs : σ.automaton.states[number]? = some state) (hv : visits[number]? = some previous)
    (hne : previous ≠ some offset) (hfinal : state.marker ≠ .final) :
    (⟨captures, visits, .explore number offset :: stack, steps⟩ : Machine).run σ =
      (⟨state.marker.enact captures offset, visits.setIfInBounds number (some offset),
        σ.follow (state.marker.enact captures offset) offset state.edges ++
          ((state.marker.apply captures offset).2.toList ++
            .leave number offset previous :: stack), steps + 1⟩ : Machine).run σ := by
  apply run_of_next
  simp [step, explore, h, hs, hv, hne, visit, hfinal, Marker.apply_fst]

end Turns

/-- A machine with an exploration on top of its stack settles it. -/
def SettlesExplore (σ : Setting) (number offset : Nat) (captures : Captures)
    (visits : Array (Option Nat)) : Prop :=
  ∀ stack steps, σ.isOver steps = false →
    Settles σ ((⟨captures, visits, .explore number offset :: stack, steps⟩ : Machine).run σ) steps
      (σ.explore number offset captures visits) fun n => ⟨captures, visits, stack, n⟩

/-- A machine with what edges lead to on top of its stack settles them. -/
def SettlesEdges (σ : Setting) (edges : List Edge) (offset : Nat) (captures : Captures)
    (visits : Array (Option Nat)) : Prop :=
  ∀ stack steps, σ.isOver steps = false →
    Settles σ ((⟨captures, visits, σ.follow captures offset edges ++ stack, steps⟩ :
      Machine).run σ) steps (σ.tryEdges edges offset captures visits)
      fun n => ⟨captures, visits, stack, n⟩

section Step

variable {σ : Setting} {number offset later : Nat} {captures : Captures}
  {visits : Array (Option Nat)} {state : State} {previous : Option Nat} {e : Edge}
  {rest : List Edge}

/-- An exploration that does nothing but count settles if the machine drops it. -/
theorem settlesExplore_of_drop (hdead : σ.explore number offset captures visits = ⟨none, 1⟩)
    (hdrop : ∀ stack steps, σ.isOver (steps + 1) = false →
      (⟨captures, visits, .explore number offset :: stack, steps⟩ : Machine).run σ =
        (⟨captures, visits, stack, steps + 1⟩ : Machine).run σ) :
    SettlesExplore σ number offset captures visits := by
  intro stack steps hsteps
  rw [hdead]
  cases hover : σ.isOver (steps + 1) with
  | true =>
    exact .aborted _ hover (run_over hover) ⟨steps, Setting.limit_of_isOver hsteps hover, rfl⟩
  | false => exact .passed hover rfl (hdrop stack steps hover)

theorem settlesExplore_final (hs : σ.automaton.states[number]? = some state)
    (hv : visits[number]? = some previous) (hne : previous ≠ some offset)
    (hfinal : state.marker = .final) : SettlesExplore σ number offset captures visits := by
  by_cases hend : (!σ.toEnd || offset == σ.text.size) = true
  · intro stack steps hsteps
    rw [Setting.explore_final hs hv hne hfinal, if_pos hend]
    cases hover : σ.isOver (steps + 1) with
    | true =>
      exact .aborted _ hover (run_over hover) ⟨steps, Setting.limit_of_isOver hsteps hover, rfl⟩
    | false =>
      have hrun := @run_final σ _ _ _ captures _ stack _ _ hover hs hv hne hfinal
      rw [if_pos hend] at hrun
      exact .accepted offset _ hover hrun rfl rfl
  · refine settlesExplore_of_drop ?_ fun stack steps hover => ?_
    · rw [Setting.explore_final hs hv hne hfinal, if_neg hend]
    · rw [run_final hover hs hv hne hfinal, if_neg hend]

theorem settlesExplore_visit (hs : σ.automaton.states[number]? = some state)
    (hv : visits[number]? = some previous) (hne : previous ≠ some offset)
    (hfinal : state.marker ≠ .final)
    (hedges : SettlesEdges σ state.edges offset (state.marker.enact captures offset)
      (visits.setIfInBounds number (some offset))) :
    SettlesExplore σ number offset captures visits := by
  intro stack steps hsteps
  rw [Setting.explore_visit hs hv hne hfinal]
  cases hover : σ.isOver (steps + 1) with
  | true =>
    refine .aborted _ ?_ (run_over hover) ⟨steps, Setting.limit_of_isOver hsteps hover, rfl⟩
    exact Setting.isOver_mono (by rw [Exploration.steps_count]; omega) hover
  | false =>
    rw [run_visit hover hs hv hne hfinal]
    refine (hedges _ _ hover).congr_after (fun n => ?_) |>.count
    rw [run_undo, run_leave, Setting.restore_visit hv]

theorem settlesEdges_nil : SettlesEdges σ [] offset captures visits := by
  intro stack steps hsteps
  rw [Setting.tryEdges_nil]
  exact .passed hsteps rfl rfl

theorem settlesEdges_blocked (ha : e.arrival? σ.text offset captures = none)
    (hrest : SettlesEdges σ rest offset captures visits) :
    SettlesEdges σ (e :: rest) offset captures visits := by
  intro stack steps hsteps
  rw [Setting.tryEdges_cons_none ha, Setting.follow_cons_none ha]
  exact hrest stack steps hsteps

theorem settlesEdges_taken (ha : e.arrival? σ.text offset captures = some later)
    (hfirst : SettlesExplore σ e.target later captures visits)
    (hrest : SettlesEdges σ rest offset captures visits) :
    SettlesEdges σ (e :: rest) offset captures visits := by
  intro stack steps hsteps
  rw [Setting.tryEdges_cons_some ha, Setting.follow_cons_some ha]
  exact (hfirst _ steps hsteps).orElse fun steps' hsteps' => hrest stack steps' hsteps'

end Step

/-- **The machine refines the exploration**, whatever else is on its stack. -/
theorem settles (σ : Setting) :
    (∀ number offset captures visits, SettlesExplore σ number offset captures visits) ∧
      ∀ edges offset captures visits, SettlesEdges σ edges offset captures visits := by
  refine Setting.explore_induction σ ?dead ?final ?visit ?nil ?blocked ?taken
  case dead =>
    intro number offset captures visits hdead
    exact settlesExplore_of_drop (Setting.explore_dead hdead) fun stack steps h =>
      run_dead h hdead
  case final =>
    intro number offset captures visits state previous hs hv hne hfinal
    exact settlesExplore_final hs hv hne hfinal
  case visit =>
    intro number offset captures visits state previous hs hv hne hfinal hedges
    exact settlesExplore_visit hs hv hne hfinal hedges
  case nil => exact fun offset captures visits => settlesEdges_nil
  case blocked =>
    intro e rest offset captures visits ha hrest
    exact settlesEdges_blocked ha hrest
  case taken =>
    intro e rest offset captures visits later ha hfirst hrest
    exact settlesEdges_taken ha hfirst hrest

end Machine

/-! ## Attempts -/

/-- Where a match stops and the captures there, if there is one. -/
def Verdict.found? : Verdict → Captures → Option (Nat × Captures)
  | accepted stop, captures => some (stop, captures)
  | rejected, _ | aborted, _ => none

namespace Query

/-- The same search without a limit. -/
def unlimited (q : Query) : Query :=
  { q with limit := none }

/-- The exploration that an attempt at `offset` makes. -/
def explore (q : Query) (offset : Nat) : Exploration :=
  q.unlimited.setting.explore q.start offset (.fresh q.groups)
    (Array.replicate q.automaton.size none)

/-- An attempt settles the exploration from its offset, whatever the limit. -/
theorem settles_attempt {q : Query} {steps : Nat} (h : q.setting.isOver steps = false)
    (offset : Nat) :
    Machine.Settles q.setting (q.attempt offset steps) steps (q.explore offset)
      fun n => ⟨.fresh q.groups, Array.replicate q.automaton.size none, [], n⟩ := by
  have hexplore : q.explore offset = q.setting.explore q.start offset (.fresh q.groups)
      (Array.replicate q.automaton.size none) :=
    Setting.explore_congr (σ := q.unlimited.setting) (τ := q.setting) rfl rfl rfl _ _ _ _
  rw [hexplore]
  exact (Machine.settles q.setting).1 q.start offset _ _ [] steps h

theorem settles_unlimited (q : Query) (offset steps : Nat) :
    Machine.Settles q.unlimited.setting (q.unlimited.attempt offset steps) steps (q.explore offset)
      fun n => ⟨.fresh q.groups, Array.replicate q.automaton.size none, [], n⟩ :=
  settles_attempt (q := q.unlimited) rfl offset

/-- If the exploration finds something, the attempt accepts it. -/
theorem attempt_of_found {q : Query} {offset stop : Nat} {final : Captures}
    (h : (q.explore offset).found = some (stop, final)) (steps : Nat) :
    ∃ m, q.unlimited.attempt offset steps = (.accepted stop, m) ∧ m.captures = final ∧
      m.steps = steps + (q.explore offset).steps := by
  cases q.settles_unlimited offset steps with
  | aborted m hover hrun hlimit => cases hover
  | accepted stop' m hover hrun hfound hsteps =>
    rw [hfound] at h
    cases h
    exact ⟨m, hrun, rfl, hsteps⟩
  | passed hover hfound hrun =>
    rw [hfound] at h
    cases h

/-- If the exploration finds nothing, the attempt rejects and leaves no trace but the count. -/
theorem attempt_of_none {q : Query} {offset : Nat} (h : (q.explore offset).found = none)
    (steps : Nat) :
    q.unlimited.attempt offset steps = (.rejected, ⟨.fresh q.groups,
      Array.replicate q.automaton.size none, [], steps + (q.explore offset).steps⟩) := by
  cases q.settles_unlimited offset steps with
  | aborted m hover hrun hlimit => cases hover
  | accepted stop m hover hrun hfound hsteps =>
    rw [hfound] at h
    cases h
  | passed hover hfound hrun => rw [hrun, Machine.run_of_halt rfl]

/-- **An attempt without a limit is a recursive exploration**: it succeeds or fails as the
exploration does, stops at the same offset with the same captures, and takes as many steps. -/
theorem attempt_unlimited (q : Query) (offset steps : Nat) :
    let (verdict, m) := q.unlimited.attempt offset steps
    verdict ≠ .aborted ∧ verdict.found? m.captures = (q.explore offset).found ∧
      m.steps = steps + (q.explore offset).steps := by
  cases hfound : (q.explore offset).found with
  | none =>
    rw [attempt_of_none hfound]
    exact ⟨nofun, rfl, rfl⟩
  | some found =>
    obtain ⟨m, hattempt, hcaptures, hsteps⟩ := attempt_of_found hfound steps
    rw [hattempt]
    refine ⟨nofun, ?_, hsteps⟩
    rw [Verdict.found?, hcaptures]

end Query

end PatternSearch
