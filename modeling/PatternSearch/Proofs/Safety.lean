import PatternSearch.Proofs.Moment
import PatternSearch.Proofs.Trim
import PatternSearch.Regex

/-!
# Whatever a search looks up is there

An automaton refers to its states and groups by number, and captures refer to the text by offset. A
number without a state or a slot would have no meaning, and neither would a span that does not lie
within the text. None of them comes up in a search (`Query.safe`) as long as the automaton is well
formed, its markers name groups that have slots, and the search starts at one of its states
(`Query.Fits`). A backreference may name any group.

That the numbers are in range goes turn by turn. That spans have their ends in order does not,
because a slot may be entered in one turn, put back in another and left in a third. It rests on the
way to a state: offsets never decrease on it, so all that is known of the groups lies between the
offset where the attempt began and the one that has been reached (`Captures.Between`).
-/

namespace PatternSearch

/-! ## Captures between two offsets -/

/-- Where a group was entered and its span lie between two offsets, the span with its ends in
order. -/
structure Slot.Between (slot : Slot) (lo hi : Nat) : Prop where
  entered : ∀ start, slot.entered = some start → lo ≤ start ∧ start ≤ hi
  span : ∀ span, slot.span = some span →
    lo ≤ span.start ∧ span.start ≤ span.stop ∧ span.stop ≤ hi

/-- All that is known of the groups lies between two offsets. -/
def Captures.Between (captures : Captures) (lo hi : Nat) : Prop :=
  ∀ slot ∈ captures.slots, slot.Between lo hi

namespace Slot.Between

variable {slot changed : Slot} {lo hi hi' : Nat}

theorem mono (h : slot.Between lo hi) (hle : hi ≤ hi') : slot.Between lo hi' := by
  refine ⟨fun start hstart => ?_, fun span hspan => ?_⟩
  · obtain ⟨hlo, hhi⟩ := h.entered start hstart
    exact ⟨hlo, Nat.le_trans hhi hle⟩
  · obtain ⟨hlo, horder, hhi⟩ := h.span span hspan
    exact ⟨hlo, horder, Nat.le_trans hhi hle⟩

theorem enter (h : slot.Between lo hi) (hle : lo ≤ hi) (henter : slot.enter hi = some changed) :
    changed.Between lo hi := by
  unfold Slot.enter at henter
  split at henter
  · cases henter
    refine ⟨fun start hstart => ?_, h.span⟩
    cases hstart
    exact ⟨hle, Nat.le_refl hi⟩
  · cases henter

theorem leave (h : slot.Between lo hi) (hleave : slot.leave hi = some changed) :
    changed.Between lo hi := by
  unfold Slot.leave at hleave
  obtain ⟨start, hstart, rfl⟩ := Option.map_eq_some_iff.1 hleave
  obtain ⟨hlo, hhi⟩ := h.entered start hstart
  refine ⟨nofun, fun span hspan => ?_⟩
  cases hspan
  exact ⟨hlo, hhi, Nat.le_refl hi⟩

end Slot.Between

namespace Captures

variable {captures : Captures} {lo hi hi' : Nat}

theorem between_fresh (groups lo hi : Nat) : (fresh groups).Between lo hi := by
  intro slot hslot
  simp only [fresh, Array.mem_replicate] at hslot
  obtain ⟨-, rfl⟩ := hslot
  refine ⟨fun start hstart => ?_, fun span hspan => ?_⟩
  · cases hstart
  · cases hspan

theorem Between.mono (h : captures.Between lo hi) (hle : hi ≤ hi') : captures.Between lo hi' :=
  fun slot hslot => (h slot hslot).mono hle

theorem Between.span? (h : captures.Between lo hi) {group : Nat} {span : Span}
    (hspan : captures.span? group = some span) :
    lo ≤ span.start ∧ span.start ≤ span.stop ∧ span.stop ≤ hi := by
  obtain ⟨slot, hslot, hspan⟩ := Option.bind_eq_some_iff.1 hspan
  exact (h slot (Array.mem_of_getElem? hslot)).span span hspan

theorem Between.update (h : captures.Between lo hi) {group : Nat} {change : Slot → Option Slot}
    (hchange : ∀ {slot changed : Slot}, slot.Between lo hi → change slot = some changed →
      changed.Between lo hi) :
    Between (((captures.update group change).map Prod.snd).getD captures) lo hi := by
  intro slot hslot
  obtain ⟨g, hg⟩ := Array.mem_iff_getElem?.1 hslot
  rw [slots_update] at hg
  obtain ⟨old, hold, rfl⟩ := Option.map_eq_some_iff.1 hg
  have hold := h old (Array.mem_of_getElem? hold)
  split
  · cases hnew : change old with
    | none => exact hold
    | some changed => exact hchange hold hnew
  · exact hold

/-- A marker notes no offset but the one at which it is reached. -/
theorem Between.enact (h : captures.Between lo hi) (hle : lo ≤ hi) (marker : Marker) :
    (marker.enact captures hi).Between lo hi := by
  cases marker with
  | plain => exact h
  | final => exact h
  | groupStart group => exact h.update fun hslot => hslot.enter hle
  | groupEnd group => exact h.update fun hslot => hslot.leave

theorem size_update (captures : Captures) (group : Nat) (change : Slot → Option Slot) :
    (((captures.update group change).map Prod.snd).getD captures).size = captures.size := by
  unfold update
  cases captures.slots[group]? with
  | none => rfl
  | some slot =>
    simp only [Option.bind_some]
    cases change slot with
    | none => rfl
    | some changed => exact size_restore captures group changed

end Captures

@[simp] theorem Marker.size_enact (marker : Marker) (captures : Captures) (offset : Nat) :
    (marker.enact captures offset).size = captures.size := by
  cases marker with
  | plain => rfl
  | final => rfl
  | groupStart group => exact captures.size_update group _
  | groupEnd group => exact captures.size_update group _

/-- What a marker puts on the stack is about its own group. -/
theorem Marker.isOf_of_apply {marker : Marker} {captures : Captures} {offset : Nat} {frame : Frame}
    (h : (marker.apply captures offset).2 = some frame) :
    ∃ group slot, frame = .restoreSlot group slot ∧ marker.IsOf group := by
  cases marker with
  | plain => cases h
  | final => cases h
  | groupStart group =>
    simp only [apply] at h
    split at h
    · cases h
      exact ⟨group, _, rfl, .inl rfl⟩
    · cases h
  | groupEnd group =>
    simp only [apply] at h
    split at h
    · cases h
      exact ⟨group, _, rfl, .inr rfl⟩
    · cases h

theorem Edge.arrival?_le {e : Edge} {text : Array Char} {offset later : Nat} {captures : Captures}
    (h : e.arrival? text offset captures = some later) (hle : offset ≤ text.size) :
    later ≤ text.size := by
  unfold arrival? at h
  split at h
  · cases h
    exact hle
  · obtain ⟨n, hn, rfl⟩ := Option.map_eq_some_iff.1 h
    exact (Matcher.consume_le hn).2

/-! ## Safety -/

/-- What a search may rely on: the automaton is well formed, there is a slot for each group that a
marker names, and the search starts at one of the states. -/
structure Query.Fits (q : Query) : Prop where
  wellFormed : q.automaton.WellFormed
  slot : ∀ (number : Nat) (state : State), q.automaton.states[number]? = some state →
    ∀ group, state.marker.IsOf group → group < q.groups
  start_lt : q.start < q.automaton.size

/-- What a frame refers to is there: the state, which is also that of a visit, or the slot. An
offset lies in the text or at its end. -/
def Frame.InRange (frame : Frame) (q : Query) : Prop :=
  match frame with
  | .explore number offset => number < q.automaton.size ∧ offset ≤ q.text.size
  | .restoreSlot group _ => group < q.groups
  | .leave number offset _ => number < q.automaton.size ∧ offset ≤ q.text.size

/-- Whatever a machine refers to is there. -/
structure Machine.InRange (m : Machine) (q : Query) : Prop where
  slots : m.captures.slots.size = q.groups
  visits : m.visits.size = q.automaton.size
  frames : ∀ frame ∈ m.stack, frame.InRange q

/-- Every span that captures hold lies within a text of `size` characters, with its ends in order,
so that it can be sliced. -/
def Captures.Sliceable (captures : Captures) (size : Nat) : Prop :=
  ∀ slot ∈ captures.slots, ∀ span, slot.span = some span → span.Within size

/-- Nothing that a machine has or that it looks up in its next turn is out of place. -/
structure Machine.Safe (m : Machine) (q : Query) : Prop where
  inRange : m.InRange q
  sliceable : m.captures.Sliceable q.text.size
  /-- A state that is about to be explored is there. If it is not final, it has edges, there is a
  slot for what its marker does, and the captures that the backreferences on its edges read can be
  sliced. -/
  explores : ∀ number offset stack, m.stack = .explore number offset :: stack →
    ∃ state, q.automaton.states[number]? = some state ∧ (state.marker ≠ .final →
      state.edges ≠ [] ∧ (∀ group, state.marker.IsOf group → group < m.captures.slots.size) ∧
      (state.marker.enact m.captures offset).Sliceable q.text.size)

/-- Every moment of a search is safe, and the captures that it ends with can be sliced. -/
structure Query.Safe (q : Query) : Prop where
  moments : ∀ origin m, q.Moment origin m → m.Safe q
  captures : q.search.captures.Sliceable q.text.size

theorem Captures.Between.sliceable {captures : Captures} {lo hi size : Nat}
    (h : captures.Between lo hi) (hle : hi ≤ size) : captures.Sliceable size := by
  intro slot hslot span hspan
  obtain ⟨-, horder, hstop⟩ := (h slot hslot).span span hspan
  exact ⟨horder, Nat.le_trans hstop hle⟩

namespace Query

variable {q : Query} {origin : Nat} {m : Machine}

theorem Fits.sound (h : q.Fits) {number : Nat} {state : State}
    (hs : q.automaton.states[number]? = some state) : state.Sound q.automaton.size :=
  h.wellFormed.2 state (Array.mem_toList_iff.2 (Array.mem_of_getElem? hs))

/-- **Every turn keeps a machine in range.** -/
theorem Fits.inRange_turns (h : q.Fits) {m m' : Machine}
    (hturns : Machine.Turns q.setting m m') (hm : m.InRange q) : m'.InRange q := by
  obtain ⟨hslots, hvisits, hframes⟩ := hm
  cases hturns with
  | dropped => exact ⟨hslots, hvisits, (List.forall_mem_cons.1 hframes).2⟩
  | refused =>
    obtain ⟨hexplore, hstack⟩ := List.forall_mem_cons.1 hframes
    exact ⟨hslots, by simpa using hvisits, List.forall_mem_cons.2 ⟨hexplore, hstack⟩⟩
  | @visited captures visits number offset steps stack state previous hs hv hne hfinal =>
    obtain ⟨hexplore, hstack⟩ := List.forall_mem_cons.1 hframes
    refine ⟨?slots, by simpa using hvisits, ?frames⟩
    case slots => exact (state.marker.size_enact captures offset).trans hslots
    case frames =>
      intro frame hframe
      simp only [List.mem_append, List.mem_cons, Option.mem_toList] at hframe
      rcases hframe with hframe | hframe | rfl | hframe
      · obtain ⟨e, he, hfollow⟩ := List.mem_filterMap.1 hframe
        rw [Setting.follow?_eq] at hfollow
        obtain ⟨later, ha, rfl⟩ := Option.map_eq_some_iff.1 hfollow
        exact ⟨(h.sound hs).2 e he, Edge.arrival?_le ha hexplore.2⟩
      · obtain ⟨group, slot, rfl, hgroup⟩ := Marker.isOf_of_apply hframe
        exact h.slot number state hs group hgroup
      · exact hexplore
      · exact hstack frame hframe
  | restored =>
    exact ⟨(Captures.size_restore _ _ _).trans hslots, hvisits,
      (List.forall_mem_cons.1 hframes).2⟩
  | left => exact ⟨hslots, by simpa using hvisits, (List.forall_mem_cons.1 hframes).2⟩

theorem Fits.inRange (h : q.Fits) (hm : q.Moment origin m) : m.InRange q := by
  obtain ⟨steps, htries, hcomes⟩ := hm
  refine hcomes.preserves ⟨?slots, ?visits, ?frames⟩ h.inRange_turns
  case slots => exact Captures.size_fresh q.groups
  case visits => exact Array.size_replicate
  case frames => exact List.forall_mem_singleton.2 ⟨h.start_lt, htries.le_size⟩

/-- What a way to a state at `offset` has made of the captures of an attempt at `origin`. -/
def Reached (q : Query) (origin : Nat) (_ offset : Nat) (captures : Captures) : Prop :=
  origin ≤ offset ∧ offset ≤ q.text.size ∧ captures.Between origin offset

theorem hereditary_reached (q : Query) (origin : Nat) :
    Machine.Hereditary q.setting (q.Reached origin) (·.Between origin q.text.size) := by
  intro number offset captures state hreached hs hfinal
  obtain ⟨horigin, hsize, hbetween⟩ := hreached
  have henact := hbetween.enact horigin state.marker
  refine ⟨henact.mono hsize, fun e he later ha => ?_⟩
  have hlater := Edge.le_of_arrival? ha
  exact ⟨Nat.le_trans horigin hlater, Edge.arrival?_le ha hsize, henact.mono hlater⟩

/-- **Offsets never decrease on the way to a state**, so that the captures lie between where the
attempt began and where it has got. -/
theorem Moment.justified_reached (h : q.Moment origin m) :
    Machine.Justified (q.Reached origin) (·.Between origin q.text.size) m.captures m.stack := by
  obtain ⟨steps, htries, hcomes⟩ := h
  have hfresh : (Captures.fresh q.groups).Between origin origin :=
    Captures.between_fresh q.groups origin origin
  have hsize := htries.le_size
  exact Moment.justified ⟨steps, htries, hcomes⟩ ⟨Nat.le_refl origin, hsize, hfresh⟩
    (hfresh.mono hsize) (q.hereditary_reached origin)

theorem Fits.safe_moment (h : q.Fits) (hm : q.Moment origin m) : m.Safe q := by
  have hinRange := h.inRange hm
  have hjustified := hm.justified_reached
  refine ⟨hinRange, hjustified.now.sliceable (Nat.le_refl _), fun number offset stack hstack => ?_⟩
  rw [hstack] at hjustified
  obtain ⟨⟨horigin, hsize, hbetween⟩, -⟩ := hjustified
  have hnumber : number < q.automaton.states.size := by
    have hframe := hinRange.frames (.explore number offset) (hstack ▸ List.mem_cons_self)
    exact hframe.1
  have hs : q.automaton.states[number]? = some q.automaton.states[number] :=
    Array.getElem?_eq_getElem hnumber
  refine ⟨_, hs, fun hfinal => ⟨?edges, ?slot, ?slices⟩⟩
  case edges => exact (h.sound hs).1.resolve_left hfinal
  case slot => exact hinRange.slots ▸ h.slot number _ hs
  case slices => exact (hbetween.enact horigin _).sliceable hsize

theorem Fits.safe (h : q.Fits) : q.Safe := by
  refine ⟨fun origin m => h.safe_moment, ?_⟩
  obtain ⟨origin, last, hlast, hcaptures, -⟩ := q.exists_last_moment
  rw [hcaptures]
  exact (h.safe_moment hlast).sliceable

end Query

/-! ## Compiled patterns -/

/-- The markers of a compiled automaton are those of the groups of the pattern. -/
theorem Automaton.mem_groups_of_isOf {body : Choice} {number group : Nat} {state : State}
    (hs : (ofChoice body).states[number]? = some state) (h : state.marker.IsOf group) :
    group ∈ body.groups := by
  have hcount {mark : Nat → Marker} (hmark : Marker.IsEnd mark)
      (hmarker : state.marker = mark group) : group ∈ body.groups := by
    rw [← List.count_pos_iff, ← countP_ofChoice body hmark group]
    exact Array.countP_pos_iff.2 ⟨state, Array.mem_of_getElem? hs, by simpa using hmarker⟩
  rcases h with h | h
  · exact hcount (.inl rfl) h
  · exact hcount (.inr rfl) h

/-- A search for a compiled pattern may rely on its automaton. -/
theorem Regex.fits_query {source : String} {p : Pattern} (h : Pattern.parse source = .ok p)
    (text : Array Char) (limit : Option Nat) : ((ofPattern source p).query text limit).Fits := by
  refine ⟨Automaton.wellFormed_ofChoice p.body, fun number state hs group hgroup => ?_, ?_⟩
  · have hmem := Automaton.mem_groups_of_isOf hs hgroup
    rw [Pattern.groups_of_parse h] at hmem
    exact List.mem_range.1 hmem
  · have hsize := Automaton.size_ofChoice p.body
    show 0 < (Automaton.ofChoice p.body).size
    omega

theorem Regex.exists_pattern {source : String} {r : Regex} (h : compile source = .ok r) :
    ∃ p, Pattern.parse source = .ok p ∧ r = ofPattern source p := by
  unfold compile at h
  cases hparse : Pattern.parse source with
  | error rejection =>
    rw [hparse] at h
    cases h
  | ok p =>
    rw [hparse] at h
    cases h
    exact ⟨p, rfl, rfl⟩

/-- **No search goes out of bounds** in an automaton that it may rely on, and so no search for a
compiled pattern does, whatever the text and the limit. -/
theorem Query.never_out_of_bounds :
    (∀ q : Query, q.Fits → q.Safe) ∧
      ∀ (source : String) (r : Regex), Regex.compile source = .ok r →
        ∀ (text : Array Char) (limit : Option Nat), (r.query text limit).Safe := by
  refine ⟨fun q h => h.safe, fun source r h text limit => ?_⟩
  obtain ⟨p, hparse, rfl⟩ := Regex.exists_pattern h
  exact (Regex.fits_query hparse text limit).safe

/-- A loop by a backreference to an empty capture, a backreference to no group at all, and a
compiled pattern. -/
theorem Query.never_out_of_bounds_loop :
    ∃ q : Query, q.Fits ∧ q.Safe ∧ q.search.outcome = .matched ⟨1, 2⟩ ∧
      ∃ r, Regex.compile "(a*)\\1+" = .ok r ∧ (r.query #['a', 'a'] (some 9)).Safe := by
  let q : Query :=
    { automaton := ⟨#[⟨.groupStart 0, [⟨none, 1⟩]⟩, ⟨.groupEnd 0, [⟨none, 2⟩]⟩,
        ⟨.plain, [⟨some (.backref 7), 3⟩, ⟨some (.backref 0), 2⟩, ⟨some (.literal 'b'), 3⟩]⟩,
        ⟨.final, []⟩]⟩
      groups := 1
      start := 0
      anchor := ⟨false, false⟩
      text := #['a', 'b']
      limit := some 100 }
  have hfits : q.Fits := by
    refine ⟨by decide, fun number state hs group hgroup => ?_, by decide⟩
    match number, hs with
    | 0, hs | 1, hs | 2, hs | 3, hs =>
      cases hs
      rcases hgroup with hgroup | hgroup <;> cases hgroup <;> exact Nat.one_pos
  have hcompile : ∃ r, Regex.compile "(a*)\\1+" = .ok r := ⟨_, rfl⟩
  obtain ⟨r, hr⟩ := hcompile
  exact ⟨q, hfits, never_out_of_bounds.1 q hfits, by decide +kernel, r, hr,
    never_out_of_bounds.2 _ r hr _ _⟩

end PatternSearch
