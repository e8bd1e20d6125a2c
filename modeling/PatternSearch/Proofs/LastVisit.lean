import PatternSearch.Proofs.Termination

/-!
# The last visit is enough

A branch is a dead end if it comes back to a state at an offset at which it has visited the state
before. To tell, one would have to look through the whole path, but a machine only looks up the last
visit to the state. This is enough (`Query.remembers_path`): since offsets never decrease along the
path, a visit before the last one that was made at this offset would have the last one between it
and the exploration, and so be at this offset, too.

What is remembered is that of the path at every moment, also when branches have been left. Then the
visits that the path still has are remembered again, which may be at earlier offsets.
-/

namespace PatternSearch

/-- What a machine makes of its path, which is listed from the first visit to the latest. -/
structure Machine.Remembers (m : Machine) (σ : Setting) (path : List (Nat × Nat)) : Prop where
  sorted : path.Pairwise fun earlier later => earlier.2 ≤ later.2
  le_size : ∀ visit ∈ path, visit.2 ≤ σ.text.size
  nodup : path.Nodup
  /-- What is remembered of a state is its last visit on the path. -/
  visited : ∀ number < σ.automaton.size, ∀ offset, m.visits[number]? = some (some offset) ↔
    ∃ before after, path = before ++ (number, offset) :: after ∧ ∀ visit ∈ after, visit.1 ≠ number
  /-- Nothing is remembered of a state that is not on the path. -/
  unvisited : ∀ number < σ.automaton.size,
    m.visits[number]? = some none ↔ ∀ visit ∈ path, visit.1 ≠ number
  /-- An exploration that is not one too many is dropped, with nothing changed, just if the path has
  been at this state and offset before. -/
  drops : ∀ number offset stack, m.stack = .explore number offset :: stack →
    (m.step σ = .next { m with stack, steps := m.steps + 1 } ↔
      (number, offset) ∈ path ∧ σ.isOver (m.steps + 1) = false)

/-- Looking a state up in a path that is listed from the latest visit finds the last visit to it. -/
theorem lookup_eq_some_iff_reverse {path : List (Nat × Nat)} {number offset : Nat} :
    path.lookup number = some offset ↔ ∃ before after,
      path.reverse = before ++ (number, offset) :: after ∧ ∀ visit ∈ after, visit.1 ≠ number := by
  rw [List.lookup_eq_some_iff]
  constructor
  · rintro ⟨later, earlier, rfl, hne⟩
    refine ⟨earlier.reverse, later.reverse, by simp, fun visit hvisit => ?_⟩
    exact (bne_iff_ne.1 (hne visit (List.mem_reverse.1 hvisit))).symm
  · rintro ⟨before, after, hpath, hne⟩
    refine ⟨after.reverse, before.reverse, ?_, fun visit hvisit => ?_⟩
    · rw [← List.reverse_reverse path, hpath]
      simp
    · exact bne_iff_ne.2 (hne visit (List.mem_reverse.1 hvisit)).symm

namespace Machine

variable {σ : Setting} {origin number offset : Nat} {m : Machine} {stack : List Frame}

/-- **The last visit to a state tells whether the state has been visited at this offset.** -/
theorem OnPath.visited_iff (h : OnPath σ origin m) (hstack : m.stack = .explore number offset :: stack)
    (hnumber : number < σ.automaton.size) :
    m.visits[number]? = some (some offset) ↔ (number, offset) ∈ pathOf m.stack := by
  have hlast := h.last number hnumber
  have hascends := h.ascends
  rw [hstack] at hlast hascends ⊢
  obtain ⟨hgoesOn, hascends⟩ := hascends
  rw [hlast, Option.some_inj, pathOf_explore]
  constructor
  · intro hlookup
    obtain ⟨later, earlier, hpath, -⟩ := List.lookup_eq_some_iff.1 hlookup
    exact hpath ▸ List.mem_append_right _ List.mem_cons_self
  · intro hmem
    by_contra hne
    exact notMem_of_lookup hascends.sorted hgoesOn.last hne hmem

/-- An exploration is dropped just if the state was last visited at this offset: any other one notes
its visit on the stack, where it stays until it has been left. -/
theorem step_eq_dropped_iff (hstack : m.stack = .explore number offset :: stack)
    (hnumber : number < σ.automaton.size) (hvisits : m.visits.size = σ.automaton.size) :
    m.step σ = .next { m with stack, steps := m.steps + 1 } ↔
      m.visits[number]? = some (some offset) ∧ σ.isOver (m.steps + 1) = false := by
  obtain ⟨captures, visits, frames, steps⟩ := m
  cases hstack
  have hs : σ.automaton.states[number]? = some σ.automaton.states[number] :=
    Array.getElem?_eq_getElem hnumber
  have hv : visits[number]? = some visits[number] :=
    Array.getElem?_eq_getElem (hvisits.symm ▸ hnumber)
  constructor
  · intro hstep
    cases hover : σ.isOver (steps + 1) with
    | true => simp [step, explore, hover] at hstep
    | false =>
      have hturns := turns_of_step hstep
      generalize hnext : (⟨captures, visits, stack, steps + 1⟩ : Machine) = next at hturns
      have hlength : stack.length = next.stack.length := congrArg (·.stack.length) hnext
      cases hturns with
      | dropped hdead =>
        rw [hs, hv] at hdead
        simpa [hv] using hdead
      | refused => simp at hlength
      | visited =>
        simp only [List.length_append, List.length_cons] at hlength
        omega
  · rintro ⟨hvisited, hover⟩
    simp [step, explore, hover, hs, hvisited]

end Machine

namespace Query

variable {q : Query} {origin number offset : Nat} {m : Machine} {stack : List Frame}

/-- A search never comes to a state that is not there, if no edge leads to one. -/
theorem Moment.explores_lt (h : q.Moment origin m) (hstart : q.start < q.automaton.size)
    (hedges : ∀ (number : Nat) (s : State), q.automaton.states[number]? = some s →
      ∀ e ∈ s.edges, e.target < q.automaton.size)
    (hstack : m.stack = .explore number offset :: stack) : number < q.automaton.size := by
  have hjustified := h.justified (P := fun number _ _ => number < q.automaton.size)
    (Q := fun _ => True) hstart trivial fun _ hs _ => ⟨trivial, fun e he _ _ => hedges _ _ hs e he⟩
  rw [hstack] at hjustified
  exact hjustified.1

/-- **Remembering one offset for each state is enough.** At every moment of a search in an automaton
whose edges lead to states that are there, offsets never decrease along the path, which visits no
state twice at the same offset; what is remembered of a state is its last visit on the path; and
that is enough to drop just the explorations that come back to where the path has been. -/
theorem remembers_path (q : Query) (hstart : q.start < q.automaton.size)
    (hedges : ∀ (number : Nat) (s : State), q.automaton.states[number]? = some s →
      ∀ e ∈ s.edges, e.target < q.automaton.size)
    (origin : Nat) (m : Machine) (h : q.Moment origin m) :
    m.Remembers q.setting (pathOf m.stack).reverse := by
  obtain ⟨steps, htries, hcomes⟩ := h
  have honPath := onPath_of_comesTo hcomes
  refine ⟨?sorted, ?le_size, ?nodup, ?visited, ?unvisited, ?drops⟩
  case sorted => exact List.pairwise_reverse.2 honPath.ascends.sorted
  case le_size =>
    intro visit hvisit
    have hle := (honPath.ascends.mem visit (List.mem_reverse.1 hvisit)).2
    exact Nat.le_trans hle (Nat.max_le.2 ⟨htries.le_size, Nat.le_refl _⟩)
  case nodup => exact List.nodup_reverse.2 honPath.ascends.nodup
  case visited =>
    intro number hnumber offset
    rw [honPath.last number hnumber, Option.some_inj, lookup_eq_some_iff_reverse]
  case unvisited =>
    intro number hnumber
    rw [honPath.last number hnumber, Option.some_inj, List.lookup_eq_none_iff]
    simp only [bne_iff_ne, List.mem_reverse, ne_comm]
  case drops =>
    intro number offset stack hstack
    have hnumber := Moment.explores_lt ⟨steps, htries, hcomes⟩ hstart hedges hstack
    rw [Machine.step_eq_dropped_iff hstack hnumber honPath.size,
      honPath.visited_iff hstack hnumber, List.mem_reverse]

/-- A state that leads to itself, both by a character and by nothing. The path has been there at
offset 1 and has left it again, so that the visit at offset 0 is remembered, and the loop at offset 0
is found. -/
theorem remembers_path_again :
    ∃ (q : Query) (m : Machine) (stack : List Frame), q.start < q.automaton.size ∧
      (∀ (number : Nat) (s : State), q.automaton.states[number]? = some s →
        ∀ e ∈ s.edges, e.target < q.automaton.size) ∧
      q.Moment 0 m ∧ m.visits = #[some 0] ∧ m.stack = .explore 0 0 :: stack ∧
      m.Remembers q.setting [(0, 0)] ∧
      m.step q.setting = .next { m with stack, steps := m.steps + 1 } := by
  let q : Query :=
    { automaton := ⟨#[⟨.plain, [⟨some .any, 0⟩, ⟨none, 0⟩]⟩]⟩
      groups := 0
      start := 0
      anchor := ⟨false, false⟩
      text := #['a']
      limit := some 4 }
  have hstart : q.start < q.automaton.size := Nat.one_pos
  have hedges (number : Nat) (s : State) (hs : q.automaton.states[number]? = some s) :
      ∀ e ∈ s.edges, e.target < q.automaton.size := by
    match number, hs with
    | 0, hs =>
      cases hs
      decide
  have hmoment : q.Moment 0 ⟨.fresh 0, #[some 0], [.explore 0 0, .leave 0 0 none], 3⟩ :=
    ⟨0, .now, .head rfl (.head rfl (.head rfl (.head rfl .refl)))⟩
  have hremembers := remembers_path q hstart hedges 0 _ hmoment
  exact ⟨q, _, _, hstart, hedges, hmoment, rfl, rfl, hremembers,
    (hremembers.drops 0 0 _ rfl).2 ⟨List.mem_cons_self, rfl⟩⟩

end Query

end PatternSearch
