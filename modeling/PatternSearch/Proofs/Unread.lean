import Mathlib.Data.List.Basic
import PatternSearch.Proofs.Lockstep
import PatternSearch.Proofs.Route

/-!
# Captures that nobody reads

What a group captures has an influence on a search only through the backreferences to it. Where
there are none, the markers of the group can be taken out of the automaton (`Automaton.without`):
the search finds the same, after as many explorations and under whatever limit, and all other groups
capture the same (`Query.search_without`).

With its markers a machine has frames on its stack that put back slots of such groups. Without them
it does not, and waits while they are worked off. All else that the two machines have is the same at
any time, but for these slots (`Machine.SameBut`).
-/

namespace PatternSearch

section Without

variable (unread : Nat → Prop) [DecidablePred unread]

/-- The marker itself, unless it is one of an `unread` group. -/
def Marker.without : Marker → Marker
  | .groupStart group => if unread group then .plain else .groupStart group
  | .groupEnd group => if unread group then .plain else .groupEnd group
  | marker => marker

def State.without (s : State) : State :=
  { s with marker := s.marker.without unread }

/-- The automaton in which the `unread` groups have no markers. -/
def Automaton.without (a : Automaton) : Automaton :=
  ⟨a.states.map (State.without unread)⟩

/-- The same search, where nothing is noted of the `unread` groups. -/
def Query.without (q : Query) : Query :=
  { q with automaton := q.automaton.without unread }

/-- Whether a frame is there without the markers of the `unread` groups, too. -/
def Frame.isKept : Frame → Bool
  | .restoreSlot group _ => ¬ unread group
  | .explore _ _ | .leave _ _ _ => true

end Without

/-! ## Markers -/

section Markers

variable {unread : Nat → Prop} [DecidablePred unread] {a b : Captures}

theorem Captures.slots_restore_eq_map (captures : Captures) (group : Nat) (slot : Slot) (g : Nat) :
    (captures.restore group slot).slots[g]? =
      captures.slots[g]?.map fun old => if g = group then slot else old := by
  rcases Nat.lt_or_ge group captures.size with hlt | hge
  · rw [slots_restore hlt]
    by_cases hg : g = group
    · subst hg
      simp [Array.getElem?_eq_getElem hlt]
    · simp [hg]
  · rw [restore, Array.setIfInBounds_eq_of_size_le hge]
    by_cases hg : g = group
    · subst hg
      simp [Array.getElem?_eq_none hge]
    · simp [hg]

namespace Captures.Agree

variable {groups : Nat → Prop}

/-- Putting back the same slot keeps captures alike. -/
theorem restore (h : a.Agree groups b) (group : Nat) (slot : Slot) :
    (a.restore group slot).Agree groups (b.restore group slot) := by
  intro g hg
  rw [slots_restore_eq_map, slots_restore_eq_map, h g hg]

/-- Putting back a slot of another group leaves captures as they are. -/
theorem of_restore {group : Nat} (h : ¬ groups group) (a : Captures) (slot : Slot) :
    (a.restore group slot).Agree groups a := by
  intro g hg
  have hne : g ≠ group := fun heq => h (heq ▸ hg)
  simp [slots_restore_eq_map, hne]

/-- What an update replaces depends on the slot of its group alone. -/
theorem update_fst (h : a.Agree groups b) {group : Nat} (hgroup : groups group)
    (change : Slot → Option Slot) :
    (a.update group change).map Prod.fst = (b.update group change).map Prod.fst := by
  unfold update
  rw [h group hgroup]
  cases b.slots[group]? with
  | none => rfl
  | some slot => simp [Function.comp_def]

end Captures.Agree

namespace Marker

theorem IsOf.unique {marker : Marker} {group group' : Nat} (h : marker.IsOf group)
    (h' : marker.IsOf group') : group = group' := by
  rcases h with rfl | rfl <;> rcases h' with h' | h' <;> cases h' <;> rfl

theorem without_eq_final {marker : Marker} : marker.without unread = .final ↔ marker = .final := by
  cases marker with
  | plain | final => simp [without]
  | groupStart group | groupEnd group =>
    simp only [without]
    split <;> simp

/-- A marker is taken out if its group is not read, and left in otherwise. -/
theorem without_cases (unread : Nat → Prop) [DecidablePred unread] (marker : Marker) :
    (∃ group, unread group ∧ marker.IsOf group ∧ marker.without unread = .plain) ∨
      marker.without unread = marker ∧ ∀ group, marker.IsOf group → ¬ unread group := by
  cases marker with
  | plain => exact .inr ⟨rfl, by simp [IsOf]⟩
  | final => exact .inr ⟨rfl, by simp [IsOf]⟩
  | groupStart group =>
    by_cases h : unread group
    · exact .inl ⟨group, h, .inl rfl, if_pos h⟩
    · refine .inr ⟨if_neg h, fun g hg => ?_⟩
      rcases hg with hg | hg <;> cases hg
      exact h
  | groupEnd group =>
    by_cases h : unread group
    · exact .inl ⟨group, h, .inr rfl, if_pos h⟩
    · refine .inr ⟨if_neg h, fun g hg => ?_⟩
      rcases hg with hg | hg <;> cases hg
      exact h

/-- What a marker puts on the stack is the slot of its group, as that was before. -/
theorem apply_snd_of_isOf {marker : Marker} {group : Nat} (h : marker.IsOf group) :
    ∃ change : Nat → Slot → Option Slot, ∀ captures offset,
      (marker.apply captures offset).2 =
        ((captures.update group (change offset)).map Prod.fst).map (.restoreSlot group) := by
  rcases h with rfl | rfl
  · refine ⟨fun offset slot => slot.enter offset, fun captures offset => ?_⟩
    simp only [apply, Captures.enter]
    cases captures.update group (·.enter offset) <;> rfl
  · refine ⟨fun offset slot => slot.leave offset, fun captures offset => ?_⟩
    simp only [apply, Captures.leave]
    cases captures.update group (·.leave offset) <;> rfl

theorem apply_snd_of_not_isOf {marker : Marker} (h : ∀ group, ¬ marker.IsOf group)
    (captures : Captures) (offset : Nat) : (marker.apply captures offset).2 = none := by
  cases marker with
  | plain | final => rfl
  | groupStart group => exact absurd (.inl rfl) (h group)
  | groupEnd group => exact absurd (.inr rfl) (h group)

end Marker

/-- **Taking a marker out** changes captures of groups that are not read, and leaves out the frame
that puts them back. -/
theorem Captures.Agree.apply (h : a.Agree (fun g => ¬ unread g) b) (marker : Marker)
    (offset : Nat) :
    (marker.apply a offset).1.Agree (fun g => ¬ unread g)
        ((marker.without unread).apply b offset).1 ∧
      (marker.apply a offset).2.toList.filter (Frame.isKept unread) =
        ((marker.without unread).apply b offset).2.toList := by
  rw [Marker.apply_fst, Marker.apply_fst]
  rcases marker.without_cases unread with ⟨group, hunread, hof, hplain⟩ | ⟨hsame, hread⟩
  · obtain ⟨change, hchange⟩ := Marker.apply_snd_of_isOf hof
    rw [hplain, hchange]
    have hother : ∀ g, ¬ unread g → ¬ marker.IsOf g := fun g hg hof' =>
      hg (hof.unique hof' ▸ hunread)
    refine ⟨(of_enact hother a offset).symm.trans h, ?_⟩
    cases a.update group (change offset) <;> simp [Frame.isKept, hunread, Marker.apply]
  · rw [hsame]
    refine ⟨h.enact marker offset, ?_⟩
    by_cases hof : ∃ group, marker.IsOf group
    · obtain ⟨group, hof⟩ := hof
      obtain ⟨change, hchange⟩ := Marker.apply_snd_of_isOf hof
      rw [hchange, hchange, h.update_fst (hread group hof)]
      cases b.update group (change offset) <;> simp [Frame.isKept, hread group hof]
    · have hnone := not_exists.1 hof
      rw [Marker.apply_snd_of_not_isOf hnone, Marker.apply_snd_of_not_isOf hnone]
      rfl

end Markers

/-! ## Turns -/

section Turns

variable {unread : Nat → Prop} [DecidablePred unread] {σ : Setting} {captures captures' : Captures}
  {number offset : Nat} {state : State} {previous : Option Nat}

/-- The same setting, where nothing is noted of the `unread` groups. -/
def Setting.without (unread : Nat → Prop) [DecidablePred unread] (σ : Setting) : Setting :=
  { σ with automaton := σ.automaton.without unread }

theorem Automaton.getElem?_without (unread : Nat → Prop) [DecidablePred unread] (a : Automaton)
    (number : Nat) :
    (a.without unread).states[number]? = a.states[number]?.map (State.without unread) :=
  Array.getElem?_map

/-- Edges that read none of the captures in question lead to the same explorations. -/
theorem Captures.Agree.follow (h : captures.Agree (fun g => ¬ unread g) captures')
    (hreads : σ.automaton.ReadsOnly fun g => ¬ unread g)
    (hs : σ.automaton.states[number]? = some state) (offset : Nat) :
    σ.follow captures offset state.edges =
      (σ.without unread).follow captures' offset state.edges := by
  have hedge : ∀ e ∈ state.edges,
      σ.follow? captures offset e = (σ.without unread).follow? captures' offset e := by
    intro e he
    rw [Setting.follow?_eq, Setting.follow?_eq,
      Edge.arrival?_agree (hreads number state hs e he) h σ.text offset]
    rfl
  exact List.filterMap_congr hedge

theorem Setting.filter_follow (σ : Setting) (captures : Captures) (offset : Nat)
    (edges : List Edge) :
    (σ.follow captures offset edges).filter (Frame.isKept unread) =
      σ.follow captures offset edges := by
  rw [List.filter_eq_self]
  intro frame hframe
  obtain ⟨e, -, he⟩ := List.mem_filterMap.1 hframe
  rw [follow?_eq] at he
  obtain ⟨later, -, rfl⟩ := Option.map_eq_some_iff.1 he
  rfl

namespace Machine

/-- A machine beside one without the markers of the `unread` groups: nothing but the captures of
these groups is different, and the frames that put them back are missing. -/
structure SameBut (unread : Nat → Prop) [DecidablePred unread] (m m' : Machine) : Prop where
  captures : m.captures.Agree (fun g => ¬ unread g) m'.captures
  visits : m.visits = m'.visits
  stack : m.stack.filter (Frame.isKept unread) = m'.stack
  steps : m.steps = m'.steps

variable {m m' waiting : Machine}

theorem visit_of_ne_final (h : state.marker ≠ .final) :
    m.visit σ number offset state previous =
      .next ⟨(state.marker.apply m.captures offset).1, m.visits.setIfInBounds number (some offset),
        σ.follow (state.marker.apply m.captures offset).1 offset state.edges ++
          ((state.marker.apply m.captures offset).2.toList ++
            .leave number offset previous :: m.stack), m.steps⟩ := by
  rw [visit, if_neg h]

theorem SameBut.visit (h : SameBut unread m m')
    (hreads : σ.automaton.ReadsOnly fun g => ¬ unread g)
    (hs : σ.automaton.states[number]? = some state) :
    Abreast (SameBut unread) waiting (m.visit σ number offset state previous)
      (m'.visit (σ.without unread) number offset (state.without unread) previous) := by
  obtain ⟨captures, visits, stack, steps⟩ := m
  obtain ⟨captures', visits', stack', steps'⟩ := m'
  obtain ⟨hcaptures, rfl, rfl, rfl⟩ := h
  by_cases hfinal : state.marker = .final
  · have hfinal' : (state.without unread).marker = .final := Marker.without_eq_final.2 hfinal
    have hwithout : (!(σ.without unread).toEnd || offset == (σ.without unread).text.size) =
        (!σ.toEnd || offset == σ.text.size) := rfl
    simp only [Machine.visit, if_pos hfinal, if_pos hfinal', hwithout]
    split
    · exact .halt ⟨hcaptures, rfl, rfl, rfl⟩
    · exact .next ⟨hcaptures, rfl, rfl, rfl⟩
  · have hfinal' : (state.without unread).marker ≠ .final := mt Marker.without_eq_final.1 hfinal
    obtain ⟨happly, hundo⟩ := hcaptures.apply state.marker offset
    rw [visit_of_ne_final hfinal, visit_of_ne_final hfinal']
    refine .next ⟨happly, rfl, ?_, rfl⟩
    simp only [List.filter_append, Setting.filter_follow]
    rw [happly.follow hreads hs, hundo, List.filter_cons_of_pos rfl]
    rfl

/-- **With and without the markers of groups that are not read, machines take their turns
together**, but for the turns that put back slots of these groups. -/
theorem SameBut.step (h : SameBut unread m m')
    (hreads : σ.automaton.ReadsOnly fun g => ¬ unread g) :
    Abreast (SameBut unread) m' (m.step σ) (m'.step (σ.without unread)) := by
  obtain ⟨captures, visits, stack, steps⟩ := m
  obtain ⟨captures', visits', stack', steps'⟩ := m'
  obtain ⟨hcaptures, rfl, rfl, rfl⟩ := h
  match stack with
  | [] => exact .halt ⟨hcaptures, rfl, rfl, rfl⟩
  | .leave number offset previous :: stack => exact .next ⟨hcaptures, rfl, rfl, rfl⟩
  | .restoreSlot group slot :: stack =>
    by_cases hunread : unread group
    · -- the slot of a group that is not read: the machine without the marker waits
      have hdropped : Frame.isKept unread (.restoreSlot group slot) = false := by
        simp [Frame.isKept, hunread]
      have hagree :=
        (Captures.Agree.of_restore (not_not_intro hunread) captures slot).trans hcaptures
      exact .alone ⟨hagree, rfl, (List.filter_cons_of_neg (by simp [hdropped])).symm, rfl⟩
    · have hkept : Frame.isKept unread (.restoreSlot group slot) = true := by
        simp [Frame.isKept, hunread]
      rw [List.filter_cons_of_pos hkept]
      exact .next ⟨hcaptures.restore group slot, rfl, rfl, rfl⟩
  | .explore number offset :: stack =>
    have hcounted : SameBut unread ⟨captures, visits, stack, steps + 1⟩
        ⟨captures', visits, stack.filter (Frame.isKept unread), steps + 1⟩ :=
      ⟨hcaptures, rfl, rfl, rfl⟩
    rw [List.filter_cons_of_pos rfl]
    have hover : (σ.without unread).isOver (steps + 1) = σ.isOver (steps + 1) := rfl
    simp only [Machine.step, explore, hover]
    split
    · exact .halt hcounted
    · have hstate := σ.automaton.getElem?_without unread number
      simp only [Setting.without, hstate]
      cases hs : σ.automaton.states[number]? with
      | none => exact .next hcounted
      | some state =>
        cases hv : visits[number]? with
        | none => exact .next hcounted
        | some previous =>
          simp only [Option.map_some]
          split
          · exact .next hcounted
          · exact hcounted.visit hreads hs

end Machine

end Turns

/-! ## Searches -/

namespace Captures

theorem getElem?_texts (captures : Captures) (text : Array Char) (group : Nat) :
    (captures.texts text)[group]? = captures.slots[group]?.map fun slot =>
      slot.span.map fun span => String.ofList (span.slice text).toList := by
  rw [texts, List.getElem?_map, Array.getElem?_toList]

end Captures

namespace Query

theorem attemptsAlike_without {unread : Nat → Prop} [DecidablePred unread] {q : Query}
    (h : q.automaton.ReadsOnly fun g => ¬ unread g) :
    AttemptsAlike (Captures.Agree fun g => ¬ unread g) q (q.without unread) := by
  intro offset steps
  have hsize : (q.without unread).setting.automaton.size = q.setting.automaton.size :=
    Array.size_map
  have hinitial : Machine.SameBut unread
      (.initial q.setting q.groups q.start offset steps)
      (.initial (q.without unread).setting q.groups q.start offset steps) :=
    ⟨.refl _ _, congrArg (Array.replicate · none) hsize.symm, rfl, rfl⟩
  have hreads : q.setting.automaton.ReadsOnly fun g => ¬ unread g := h
  obtain ⟨hverdict, hm⟩ := Machine.run_abreast (fun hm => hm.step hreads) hinitial
  exact ⟨hverdict, hm.captures, hm.steps⟩

/-- **Captures that nobody reads have no influence.** Taking the markers of groups that no
backreference names out of an automaton changes neither what is found, nor the number of
explorations, nor whether they go over the limit, nor what any other group captures. Where there are
no backreferences at all, all markers can be taken out. -/
theorem search_without (q : Query) :
    (∀ (unread : Nat → Prop) [DecidablePred unread],
      (q.automaton.ReadsOnly fun group => ¬ unread group) →
        (q.without unread).search.outcome = q.search.outcome ∧
        (q.without unread).search.steps = q.search.steps ∧
        (q.without unread).search.attempts = q.search.attempts ∧
        ∀ group, ¬ unread group →
          ((q.without unread).search.captures.texts q.text)[group]? =
            (q.search.captures.texts q.text)[group]?) ∧
    (q.automaton.CaptureFree →
      (q.without fun _ => True).search.outcome = q.search.outcome ∧
        (q.without fun _ => True).search.steps = q.search.steps) := by
  have halike (unread : Nat → Prop) [DecidablePred unread]
      (h : q.automaton.ReadsOnly fun group => ¬ unread group) :
      q.search.Alike (Captures.Agree fun group => ¬ unread group) (q.without unread).search :=
    search_alike (attemptsAlike_without h) (.refl _ _) rfl
  refine ⟨fun unread _ h => ?_, fun hfree => ?_⟩
  · obtain ⟨houtcome, hcaptures, hsteps, hattempts⟩ := halike unread h
    refine ⟨houtcome.symm, hsteps.symm, hattempts.symm, fun group hgroup => ?_⟩
    rw [Captures.getElem?_texts, Captures.getElem?_texts, hcaptures group hgroup]
  · have hnone : q.automaton.ReadsOnly fun _ => ¬ True := fun number state hs e he group hgroup =>
      absurd hgroup (hfree number state hs e he group)
    obtain ⟨houtcome, -, hsteps, -⟩ := halike (fun _ => True) hnone
    exact ⟨houtcome.symm, hsteps.symm⟩

/-- A group within the one that is read, in a loop: what it captured is not noted any more, and the
search finds the same after as many explorations. -/
theorem search_without_inner :
    ∃ q : Query, (q.automaton.ReadsOnly fun group => ¬ group = 1) ∧
      q.search.captures.texts q.text = [some "b", some "a"] ∧
      (q.without (· = 1)).search.captures.texts q.text = [some "b", none] ∧
      (q.without (· = 1)).search.outcome = .matched ⟨1, 4⟩ ∧
      (q.without (· = 1)).search.steps = q.search.steps := by
  let q : Query :=
    { automaton := ⟨#[⟨.plain, [⟨none, 1⟩]⟩, ⟨.groupStart 0, [⟨none, 2⟩, ⟨none, 5⟩]⟩,
        ⟨.groupStart 1, [⟨none, 3⟩]⟩, ⟨.plain, [⟨some (.literal 'a'), 4⟩]⟩,
        ⟨.groupEnd 1, [⟨none, 6⟩]⟩, ⟨.plain, [⟨some (.literal 'b'), 6⟩]⟩,
        ⟨.groupEnd 0, [⟨none, 1⟩, ⟨none, 7⟩]⟩, ⟨.plain, [⟨some (.backref 0), 8⟩]⟩,
        ⟨.final, []⟩]⟩
      groups := 2
      start := 0
      anchor := ⟨false, true⟩
      text := #['c', 'a', 'b', 'b']
      limit := some 100 }
  have hreads : q.automaton.ReadsOnly fun group => ¬ group = 1 := by
    intro number state hs e he group hgroup
    have hedges : ∀ s ∈ q.automaton.states.toList, ∀ e ∈ s.edges,
        e.matcher? ≠ some (.backref 1) := by
      simp [q]
    rintro rfl
    exact hedges state (Array.mem_toList_iff.2 (Array.mem_of_getElem? hs)) e he hgroup
  obtain ⟨houtcome, hsteps, -, -⟩ := (search_without q).1 (· = 1) hreads
  exact ⟨q, hreads, by decide +kernel, by decide +kernel,
    houtcome.trans (by decide +kernel), hsteps⟩

end Query

end PatternSearch
