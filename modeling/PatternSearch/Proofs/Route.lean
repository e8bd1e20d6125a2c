import PatternSearch.Proofs.Capturing
import PatternSearch.Proofs.Layout

/-!
# Routes through an automaton

A route is what an exploration is after: a way along the edges of an automaton from a state to a
final one, with the captures that come about on it. Whatever an exploration finds, a route leads
there that never comes back to a state at the same offset (`Setting.nodup_route_of_explore`). The
other way round a visited state can be in the way, but not on such a route
(`Setting.explore_isSome`), and where no edge reads captures, any route can be made such a one by
leaving its loops out (`Route.exists_nodup`).
-/

namespace PatternSearch

/-- A route from a state at some offset, with given captures, to a final state where a match may
stop. `trace` lists the states on it and the offsets at which it comes to them. -/
inductive Route (σ : Setting) (stop : Nat) (final : Captures) :
    Nat → Nat → Captures → List (Nat × Nat) → Prop
  | halt {number : Nat} {state : State} (hs : σ.automaton.states[number]? = some state)
      (hfinal : state.marker = .final) (hend : (!σ.toEnd || stop == σ.text.size) = true) :
      Route σ stop final number stop final [(number, stop)]
  | move {number offset later : Nat} {captures : Captures} {state : State} {e : Edge}
      {trace : List (Nat × Nat)} (hs : σ.automaton.states[number]? = some state)
      (hfinal : state.marker ≠ .final) (he : e ∈ state.edges)
      (ha : e.arrival? σ.text offset (state.marker.enact captures offset) = some later)
      (rest : Route σ stop final e.target later (state.marker.enact captures offset) trace) :
      Route σ stop final number offset captures ((number, offset) :: trace)

/-- A route that begins with one of the given edges. -/
def RouteVia (σ : Setting) (stop : Nat) (final : Captures) (edges : List Edge) (offset : Nat)
    (captures : Captures) (trace : List (Nat × Nat)) : Prop :=
  ∃ e ∈ edges, ∃ later, e.arrival? σ.text offset captures = some later ∧
    Route σ stop final e.target later captures trace

section Via

variable {σ : Setting} {stop number offset : Nat} {final captures : Captures} {edges : List Edge}
  {trace : List (Nat × Nat)} {state : State}

theorem Route.length_pos (h : Route σ stop final number offset captures trace) :
    0 < trace.length := by
  cases h with
  | halt => exact Nat.one_pos
  | move => exact Nat.succ_pos _

/-- Offsets never decrease along a route. -/
theorem Route.le_of_mem (h : Route σ stop final number offset captures trace) :
    ∀ visit ∈ trace, offset ≤ visit.2 := by
  induction h with
  | halt =>
    intro visit hvisit
    cases List.mem_singleton.1 hvisit
    exact Nat.le_refl _
  | move hs hfinal he ha rest ih =>
    refine List.forall_mem_cons.2 ⟨Nat.le_refl _, fun visit hvisit => ?_⟩
    exact Nat.le_trans (Edge.le_of_arrival? ha) (ih visit hvisit)

theorem Route.le_stop (h : Route σ stop final number offset captures trace) : offset ≤ stop := by
  induction h with
  | halt => exact Nat.le_refl _
  | move hs hfinal he ha rest ih => exact Nat.le_trans (Edge.le_of_arrival? ha) ih

/-- From a state that is not final, a route goes on by one of its edges. -/
theorem Route.via (h : Route σ stop final number offset captures trace)
    (hs : σ.automaton.states[number]? = some state) (hfinal : state.marker ≠ .final) :
    ∃ rest, RouteVia σ stop final state.edges offset (state.marker.enact captures offset) rest ∧
      trace = (number, offset) :: rest := by
  cases h with
  | halt hs' hfinal' hend =>
    rw [hs] at hs'
    cases hs'
    exact absurd hfinal' hfinal
  | move hs' hfinal' he ha rest =>
    rw [hs] at hs'
    cases hs'
    exact ⟨_, ⟨_, he, _, ha, rest⟩, rfl⟩

theorem Route.of_via (hs : σ.automaton.states[number]? = some state)
    (hfinal : state.marker ≠ .final)
    (h : RouteVia σ stop final state.edges offset (state.marker.enact captures offset) trace) :
    Route σ stop final number offset captures ((number, offset) :: trace) := by
  obtain ⟨e, he, later, ha, hroute⟩ := h
  exact .move hs hfinal he ha hroute

/-- At a final state a route ends. -/
theorem Route.at_final (h : Route σ stop final number offset captures trace)
    (hs : σ.automaton.states[number]? = some state) (hfinal : state.marker = .final) :
    offset = stop ∧ captures = final ∧ (σ.toEnd = true → stop = σ.text.size) := by
  cases h with
  | halt hs' hfinal' hend => exact ⟨rfl, rfl, fun htoEnd => by simpa [htoEnd] using hend⟩
  | move hs' hfinal' he ha rest =>
    rw [hs] at hs'
    cases hs'
    exact absurd hfinal hfinal'

theorem routeVia_cons {e : Edge} : RouteVia σ stop final (e :: edges) offset captures trace ↔
    RouteVia σ stop final [e] offset captures trace ∨
      RouteVia σ stop final edges offset captures trace := by
  constructor
  · rintro ⟨e', he', hroute⟩
    rcases List.mem_cons.1 he' with rfl | he'
    · exact .inl ⟨e', List.mem_cons_self, hroute⟩
    · exact .inr ⟨e', he', hroute⟩
  · rintro (⟨e', he', hroute⟩ | ⟨e', he', hroute⟩)
    · exact ⟨e', List.mem_cons.2 (.inl (List.mem_singleton.1 he')), hroute⟩
    · exact ⟨e', List.mem_cons_of_mem e he', hroute⟩

theorem routeVia_free {target : Nat} : RouteVia σ stop final [.free target] offset captures trace ↔
    Route σ stop final target offset captures trace := by
  constructor
  · rintro ⟨e, he, later, ha, hroute⟩
    cases List.mem_singleton.1 he
    cases ha
    exact hroute
  · intro hroute
    exact ⟨_, List.mem_cons_self, offset, rfl, hroute⟩

end Via

namespace Setting

variable {σ : Setting}

/-! ## From an exploration to a route -/

/-- No visit was made at a later offset. -/
def Behind (visits : Array (Option Nat)) (offset : Nat) : Prop :=
  ∀ number earlier : Nat, visits[number]? = some (some earlier) → earlier ≤ offset

/-- No visit on a route has been made before. -/
def Clear (visits : Array (Option Nat)) (trace : List (Nat × Nat)) : Prop :=
  ∀ visit ∈ trace, visits[visit.1]? ≠ some (some visit.2)

section Visits

variable {visits : Array (Option Nat)} {number offset later n : Nat} {trace : List (Nat × Nat)}

theorem Behind.mono (h : Behind visits offset) (hle : offset ≤ later) : Behind visits later :=
  fun number earlier hv => Nat.le_trans (h number earlier hv) hle

theorem Behind.visit (h : Behind visits offset) (number : Nat) :
    Behind (visits.setIfInBounds number (some offset)) offset := by
  intro visited earlier hv
  by_cases hnumber : number = visited
  · subst hnumber
    rw [Array.getElem?_setIfInBounds_self] at hv
    split at hv
    · cases hv
      exact Nat.le_refl _
    · cases hv
  · rw [Array.getElem?_setIfInBounds_ne hnumber] at hv
    exact h visited earlier hv

theorem getElem?_replicate_ne (n number offset : Nat) :
    (Array.replicate n (none : Option Nat))[number]? ≠ some (some offset) := by
  rw [Array.getElem?_replicate]
  split <;> exact nofun

theorem behind_replicate (n offset : Nat) : Behind (Array.replicate n none) offset :=
  fun number earlier hv => absurd hv (getElem?_replicate_ne n number earlier)

theorem clear_replicate (n : Nat) (trace : List (Nat × Nat)) :
    Clear (Array.replicate n none) trace :=
  fun visit _ => getElem?_replicate_ne n visit.1 visit.2

end Visits

/-- **Whatever an exploration finds, a route leads there** that keeps clear of the visits behind and
never comes back to a state at the same offset. What is remembered is the last visit to a state
only, but an earlier one was at an earlier offset, to which no route goes back. -/
theorem nodup_route_of_explore {number offset : Nat} {captures : Captures}
    {visits : Array (Option Nat)} {stop : Nat} {final : Captures}
    (h : (σ.explore number offset captures visits).found = some (stop, final)) :
    ∃ trace, Route σ stop final number offset captures trace ∧
      (Behind visits offset → trace.Nodup ∧ Clear visits trace) := by
  revert h
  refine (σ.explore_induction
    (P := fun number offset captures visits =>
      (σ.explore number offset captures visits).found = some (stop, final) →
        ∃ trace, Route σ stop final number offset captures trace ∧
          (Behind visits offset → trace.Nodup ∧ Clear visits trace))
    (Q := fun edges offset captures visits =>
      (σ.tryEdges edges offset captures visits).found = some (stop, final) →
        ∃ trace, RouteVia σ stop final edges offset captures trace ∧
          (Behind visits offset → trace.Nodup ∧ Clear visits trace))
    ?dead ?final ?visit ?nil ?blocked ?taken).1 number offset captures visits
  case dead =>
    intro number offset captures visits hdead h
    rw [explore_dead hdead] at h
    cases h
  case final =>
    intro number offset captures visits state previous hs hv hne hfinal h
    rw [explore_final hs hv hne hfinal] at h
    split at h
    · next hend =>
      cases h
      refine ⟨_, .halt hs hfinal hend, fun _ => ⟨by simp, fun visit hvisit => ?_⟩⟩
      rw [List.mem_singleton.1 hvisit, hv]
      exact fun heq => hne (Option.some.inj heq)
    · cases h
  case visit =>
    intro number offset captures visits state previous hs hv hne hfinal hedges h
    rw [explore_visit hs hv hne hfinal] at h
    obtain ⟨trace, hvia, hclear⟩ := hedges h
    refine ⟨_, .of_via hs hfinal hvia, fun hbehind => ?_⟩
    obtain ⟨hnodup, hclear⟩ := hclear (hbehind.visit number)
    have hlt : number < visits.size := (Array.getElem?_eq_some_iff.1 hv).1
    refine ⟨List.nodup_cons.2 ⟨fun hback => ?_, hnodup⟩, List.forall_mem_cons.2 ⟨?_, ?_⟩⟩
    · exact hclear _ hback (Array.getElem?_setIfInBounds_self_of_lt hlt)
    · exact fun heq => hne (Option.some.inj (hv.symm.trans heq))
    · intro visit hvisit
      by_cases hnumber : number = visit.1
      · -- the visit before this one was not later, and those on the route are not earlier
        subst hnumber
        intro heq
        obtain ⟨e, -, later, ha, hroute⟩ := hvia
        have hle := Nat.le_trans (Edge.le_of_arrival? ha) (hroute.le_of_mem visit hvisit)
        have hsame := Nat.le_antisymm (hbehind _ _ heq) hle
        exact hne (Option.some.inj (hv.symm.trans (hsame ▸ heq)))
      · rw [← Array.getElem?_setIfInBounds_ne hnumber]
        exact hclear visit hvisit
  case nil =>
    intro offset captures visits h
    simp at h
  case blocked =>
    intro e rest offset captures visits ha hrest h
    rw [tryEdges_cons_none ha] at h
    obtain ⟨trace, hvia, hclear⟩ := hrest h
    exact ⟨trace, routeVia_cons.2 (.inr hvia), hclear⟩
  case taken =>
    intro e rest offset captures visits later ha hfirst hrest h
    rw [tryEdges_cons_some ha, Exploration.found_orElse] at h
    rcases Option.or_eq_some_iff.1 h with h | ⟨-, h⟩
    · obtain ⟨trace, hroute, hclear⟩ := hfirst h
      exact ⟨trace, ⟨e, List.mem_cons_self, later, ha, hroute⟩,
        fun hbehind => hclear (hbehind.mono (Edge.le_of_arrival? ha))⟩
    · obtain ⟨trace, hvia, hclear⟩ := hrest h
      exact ⟨trace, routeVia_cons.2 (.inr hvia), hclear⟩

theorem route_of_explore {number offset : Nat} {captures : Captures}
    {visits : Array (Option Nat)} {stop : Nat} {final : Captures}
    (h : (σ.explore number offset captures visits).found = some (stop, final)) :
    ∃ trace, Route σ stop final number offset captures trace :=
  let ⟨trace, hroute, _⟩ := nodup_route_of_explore h
  ⟨trace, hroute⟩

/-! ## From a route to an exploration -/

/-- If one of the edges leads to something, something is found. -/
theorem tryEdges_isSome {edges : List Edge} {e : Edge} {offset later : Nat} {captures : Captures}
    {visits : Array (Option Nat)} (he : e ∈ edges)
    (ha : e.arrival? σ.text offset captures = some later)
    (h : (σ.explore e.target later captures visits).found.isSome) :
    (σ.tryEdges edges offset captures visits).found.isSome := by
  induction edges with
  | nil => simp at he
  | cons e' rest ih =>
    cases ha' : e'.arrival? σ.text offset captures with
    | none =>
      rw [tryEdges_cons_none ha']
      rcases List.mem_cons.1 he with rfl | he
      · rw [ha] at ha'
        cases ha'
      · exact ih he
    | some later' =>
      rw [tryEdges_cons_some ha', Exploration.found_orElse, Option.isSome_or, Bool.or_eq_true]
      rcases List.mem_cons.1 he with rfl | he
      · rw [ha] at ha'
        cases ha'
        exact .inl h
      · exact .inr (ih he)

/-- **A route that never comes back to a state at the same offset is not missed**, as long as it
stays clear of the visits made before. -/
theorem explore_isSome {stop number offset : Nat} {final captures : Captures}
    {trace : List (Nat × Nat)} (h : Route σ stop final number offset captures trace)
    {visits : Array (Option Nat)} (hsize : visits.size = σ.automaton.size) (hnodup : trace.Nodup)
    (hclear : Clear visits trace) :
    (σ.explore number offset captures visits).found.isSome := by
  induction h generalizing visits with
  | @halt number state hs hfinal hend =>
    have hlt : number < visits.size := hsize ▸ (Array.getElem?_eq_some_iff.1 hs).1
    have hv : visits[number]? = some visits[number] := Array.getElem?_eq_getElem hlt
    have hne : visits[number] ≠ some stop := by
      intro heq
      exact hclear (number, stop) List.mem_cons_self (by rw [hv, heq])
    rw [explore_final hs hv hne hfinal, if_pos hend]
    rfl
  | @move number offset later captures state e trace hs hfinal he ha rest ih =>
    have hlt : number < visits.size := hsize ▸ (Array.getElem?_eq_some_iff.1 hs).1
    have hv : visits[number]? = some visits[number] := Array.getElem?_eq_getElem hlt
    have hne : visits[number] ≠ some offset := by
      intro heq
      exact hclear (number, offset) List.mem_cons_self (by rw [hv, heq])
    obtain ⟨hnot, hnodup⟩ := List.nodup_cons.1 hnodup
    rw [explore_visit hs hv hne hfinal]
    refine tryEdges_isSome he ha (ih (by simpa using hsize) hnodup fun p hp => ?_)
    by_cases hnumber : number = p.1
    · -- the visit just made is at `offset`, and the rest of the route does not come back to it
      subst hnumber
      rw [Array.getElem?_setIfInBounds_self_of_lt hlt]
      intro heq
      cases heq
      exact hnot hp
    · rw [Array.getElem?_setIfInBounds_ne hnumber]
      exact hclear p (List.mem_cons_of_mem _ hp)

/-- Without visits behind, nothing but coming back to a state at the same offset is in the way. -/
theorem explore_isSome_of_nodup {stop number offset : Nat} {final captures : Captures}
    {trace : List (Nat × Nat)} (h : Route σ stop final number offset captures trace)
    (hnodup : trace.Nodup) :
    (σ.explore number offset captures
      (Array.replicate σ.automaton.size none)).found.isSome :=
  explore_isSome h Array.size_replicate hnodup (clear_replicate _ _)

end Setting

/-! ## Leaving loops out -/

/-- The only captures that have an influence on the edges of an automaton are those of `groups`. -/
def Automaton.ReadsOnly (a : Automaton) (groups : Nat → Prop) : Prop :=
  ∀ (number : Nat) (state : State), a.states[number]? = some state → ∀ e ∈ state.edges,
    ∀ group, e.matcher? = some (.backref group) → groups group

/-- A state is the start or the end of one of the `groups`. -/
def Automaton.Bounds (a : Automaton) (groups : Nat → Prop) (number : Nat) : Prop :=
  ∃ state, a.states[number]? = some state ∧ ∃ group, groups group ∧ state.marker.IsOf group

/-- From where a trace comes to a state until it comes back there at the same offset, it does not
enter or leave any of the `groups`. -/
def Automaton.Undisturbed (a : Automaton) (groups : Nat → Prop) (trace : List (Nat × Nat)) : Prop :=
  ∀ p between, p :: between ++ [p] <:+: trace → ∀ q ∈ p :: between, ¬ a.Bounds groups q.1

/-- An edge on which captures have no influence. -/
def Edge.CaptureFree (e : Edge) : Prop :=
  ∀ group, e.matcher? ≠ some (.backref group)

def State.CaptureFree (s : State) : Prop :=
  ∀ e ∈ s.edges, e.CaptureFree

/-- An automaton in which no edge reads captures. -/
def Automaton.CaptureFree (a : Automaton) : Prop :=
  ∀ (number : Nat) (state : State), a.states[number]? = some state → state.CaptureFree

theorem Edge.arrival?_agree {groups : Nat → Prop} {e : Edge} {captures captures' : Captures}
    (hreads : ∀ group, e.matcher? = some (.backref group) → groups group)
    (h : captures.Agree groups captures') (text : Array Char) (offset : Nat) :
    e.arrival? text offset captures = e.arrival? text offset captures' := by
  unfold Edge.arrival?
  cases hm : e.matcher? with
  | none => rfl
  | some m =>
    cases m with
    | backref group => simp only [Matcher.consume, h.span? (hreads group hm)]
    | literal | shorthand | any | set => rfl

namespace Route

variable {σ : Setting} {stop number offset : Nat} {final captures captures' : Captures}
  {trace : List (Nat × Nat)} {groups : Nat → Prop}

/-- A route is one from other captures, too, if they are the same where they have an influence. -/
theorem replay (hreads : σ.automaton.ReadsOnly groups)
    (h : Route σ stop final number offset captures trace) (hagree : captures.Agree groups captures') :
    ∃ final', Route σ stop final' number offset captures' trace := by
  induction h generalizing captures' with
  | halt hs hfinal hend => exact ⟨captures', .halt hs hfinal hend⟩
  | @move number offset later captures state e trace hs hfinal he ha rest ih =>
    have hagree' := hagree.enact state.marker offset
    obtain ⟨final', hroute⟩ := ih hagree'
    rw [Edge.arrival?_agree (hreads number state hs e he) hagree'] at ha
    exact ⟨final', .move hs hfinal he ha hroute⟩

/-- From any state on a route there is a route along the rest of it. The captures of groups that
have not been entered or left before that are still the same there. -/
theorem from_visit (h : Route σ stop final number offset captures trace)
    {before after : List (Nat × Nat)} {p : Nat × Nat} (htrace : trace = before ++ p :: after) :
    ∃ captures', Route σ stop final p.1 p.2 captures' (p :: after) ∧
      ((∀ q ∈ before, ¬ σ.automaton.Bounds groups q.1) → captures.Agree groups captures') := by
  induction h generalizing before with
  | @halt number state hs hfinal hend =>
    cases before with
    | nil =>
      cases htrace
      exact ⟨_, .halt hs hfinal hend, fun _ => .refl groups _⟩
    | cons q before => simp at htrace
  | @move number offset later captures state e trace hs hfinal he ha rest ih =>
    cases before with
    | nil =>
      cases htrace
      exact ⟨captures, .move hs hfinal he ha rest, fun _ => .refl groups _⟩
    | cons q before =>
      obtain ⟨rfl, hrest⟩ := List.cons.inj htrace
      obtain ⟨captures', hroute, hagree⟩ := ih hrest
      refine ⟨captures', hroute, fun hbefore => ?_⟩
      obtain ⟨hnot, hbefore⟩ := List.forall_mem_cons.1 hbefore
      have hkept : captures.Agree groups (state.marker.enact captures offset) :=
        .of_enact (fun g hg hof => hnot ⟨state, hs, g, hg, hof⟩) captures offset
      exact hkept.trans (hagree hbefore)

/-- Between a visit and another visit to the same state at the same offset, none of the `groups` is
entered or left, and this is so for any part of the trace. -/
theorem not_bounds_of_sublist {a : Automaton} {p : Nat × Nat} {before after : List (Nat × Nat)}
    (hundisturbed : a.Undisturbed groups (p :: trace))
    (hsublist : (before ++ p :: after).Sublist trace) :
    ∀ q ∈ p :: before, ¬ a.Bounds groups q.1 := by
  obtain ⟨l, r, rfl, hbefore, hafter⟩ := List.append_sublist_iff.1 hsublist
  obtain ⟨l', r', rfl, hp, -⟩ := List.cons_sublist_iff.1 hafter
  obtain ⟨m, m', rfl⟩ := List.append_of_mem hp
  have hstretch : p :: (l ++ m) ++ [p] <:+: p :: (l ++ (m ++ p :: m' ++ r')) :=
    ⟨[], m' ++ r', by simp⟩
  intro q hq
  refine hundisturbed p (l ++ m) hstretch q ?_
  rcases List.mem_cons.1 hq with rfl | hq
  · exact List.mem_cons_self
  · exact List.mem_cons_of_mem _ (List.mem_append_left _ (hbefore.subset hq))

/-- **Loops can be left out** where none of the captures that have an influence change in them. -/
theorem exists_nodup_sublist (hreads : σ.automaton.ReadsOnly groups)
    (h : Route σ stop final number offset captures trace)
    (hundisturbed : σ.automaton.Undisturbed groups trace) :
    ∃ final' trace', Route σ stop final' number offset captures trace' ∧ trace'.Nodup ∧
      trace'.Sublist trace := by
  induction h with
  | halt hs hfinal hend => exact ⟨_, _, .halt hs hfinal hend, by simp, List.Sublist.refl _⟩
  | @move number offset later captures state e trace hs hfinal he ha rest ih =>
    obtain ⟨final', trace', hroute, hnodup, hsublist⟩ := ih fun p between hstretch =>
      hundisturbed p between (hstretch.trans (List.suffix_cons _ _).isInfix)
    by_cases hback : (number, offset) ∈ trace'
    · -- the rest comes back here: what lies between is left out
      obtain ⟨before, after, rfl⟩ := List.append_of_mem hback
      have hnot := not_bounds_of_sublist hundisturbed hsublist
      obtain ⟨hnumber, hbefore⟩ := List.forall_mem_cons.1 hnot
      obtain ⟨captures', hroute', hagree⟩ := hroute.from_visit rfl
      have hkept : captures.Agree groups (state.marker.enact captures offset) :=
        .of_enact (fun g hg hof => hnumber ⟨state, hs, g, hg, hof⟩) captures offset
      have hsame : captures'.Agree groups captures := (hkept.trans (hagree hbefore)).symm
      obtain ⟨final'', hroute''⟩ := hroute'.replay hreads hsame
      refine ⟨final'', _, hroute'', hnodup.sublist (List.sublist_append_right _ _), ?_⟩
      exact ((List.sublist_append_right _ _).trans hsublist).trans (List.sublist_cons_self _ _)
    · exact ⟨final', _, .move hs hfinal he ha hroute, List.nodup_cons.2 ⟨hback, hnodup⟩,
        hsublist.cons_cons _⟩

/-- Where captures have no influence, all loops can be left out. -/
theorem exists_nodup (hfree : σ.automaton.CaptureFree)
    (h : Route σ stop final number offset captures trace) :
    ∃ final' trace', Route σ stop final' number offset captures trace' ∧ trace'.Nodup := by
  have hundisturbed : σ.automaton.Undisturbed (fun _ => False) trace :=
    fun _ _ _ _ _ ⟨_, _, _, hgroup, _⟩ => hgroup
  obtain ⟨final', trace', hroute, hnodup, -⟩ := h.exists_nodup_sublist hfree hundisturbed
  exact ⟨final', trace', hroute, hnodup⟩

end Route

end PatternSearch
