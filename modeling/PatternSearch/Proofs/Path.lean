import Mathlib.Data.Finset.Prod
import Mathlib.Order.Interval.Finset.Nat
import PatternSearch.Proofs.Moment

/-!
# The path of a machine

The visits that have begun and not ended are those of the `leave` frames on the stack. From the
bottom of the stack to its top they are the path on which the machine has come to where it is, and
what it remembers of each state is the last visit to that state on this path (`Machine.OnPath`).

Offsets never decrease along a path. A state that was last visited at another offset has therefore
not been visited at this one before, and remembering one offset for each state is enough to visit no
state twice at the same offset. So a path is no longer than there are states and offsets together
(`Machine.OnPath.length_le`).
-/

namespace PatternSearch

/-- The visit that a frame ends, if it ends one: the state, and the offset of the visit. -/
def Frame.visit? : Frame → Option (Nat × Nat)
  | .leave number offset _ => some (number, offset)
  | .explore _ _ | .restoreSlot _ _ => none

/-- The visits that the frames of a stack end, the latest first. -/
def pathOf (stack : List Frame) : List (Nat × Nat) :=
  stack.filterMap Frame.visit?

section PathOf

variable {number offset group : Nat} {previous : Option Nat} {slot : Slot} {stack : List Frame}

@[simp] theorem pathOf_nil : pathOf [] = [] := rfl

@[simp] theorem pathOf_explore : pathOf (.explore number offset :: stack) = pathOf stack := rfl

@[simp] theorem pathOf_restoreSlot : pathOf (.restoreSlot group slot :: stack) = pathOf stack := rfl

@[simp] theorem pathOf_leave :
    pathOf (.leave number offset previous :: stack) = (number, offset) :: pathOf stack := rfl

@[simp] theorem pathOf_follow (σ : Setting) (captures : Captures) (offset : Nat)
    (edges : List Edge) (stack : List Frame) :
    pathOf (σ.follow captures offset edges ++ stack) = pathOf stack :=
  Setting.follow_induction (P := fun frames => pathOf frames = pathOf stack) edges rfl
    fun _ _ _ _ _ hframes => hframes

@[simp] theorem pathOf_undo (marker : Marker) (captures : Captures) (offset : Nat)
    (stack : List Frame) :
    pathOf ((marker.apply captures offset).2.toList ++ stack) = pathOf stack := by
  rcases marker.apply_snd captures offset with ⟨hnone, -⟩ | ⟨group, slot, hsome, -⟩
  · rw [hnone]
    rfl
  · rw [hsome]
    rfl

end PathOf

/-! ## Paths that ascend -/

/-- A path can go on to `offset`, which lies between `lo` and `hi` and not before any offset on
it. -/
structure GoesOn (lo hi : Nat) (path : List (Nat × Nat)) (offset : Nat) : Prop where
  ge : lo ≤ offset
  le : offset ≤ hi
  last : ∀ visit ∈ path, visit.2 ≤ offset

/-- Whatever a stack explores or has visited, the path beneath it can go on there. A visit is the
first to its state at its offset, and it knows the last visit to its state before. -/
def Ascends (lo hi : Nat) : List Frame → Prop
  | [] => True
  | .explore _ offset :: rest => GoesOn lo hi (pathOf rest) offset ∧ Ascends lo hi rest
  | .restoreSlot _ _ :: rest => Ascends lo hi rest
  | .leave number offset previous :: rest =>
    GoesOn lo hi (pathOf rest) offset ∧ (number, offset) ∉ pathOf rest ∧
      previous = (pathOf rest).lookup number ∧ Ascends lo hi rest

section Ascends

variable {lo hi number offset : Nat} {stack : List Frame}

/-- A path goes on to where it goes on to from a place that it goes on to. -/
theorem GoesOn.next {path : List (Nat × Nat)} {later : Nat} (h : GoesOn lo hi path offset)
    (hle : offset ≤ later) (hhi : later ≤ hi) : GoesOn lo hi ((number, offset) :: path) later := by
  refine ⟨Nat.le_trans h.ge hle, hhi, List.forall_mem_cons.2 ⟨hle, fun visit hvisit => ?_⟩⟩
  exact Nat.le_trans (h.last visit hvisit) hle

theorem Ascends.mem (h : Ascends lo hi stack) :
    ∀ visit ∈ pathOf stack, lo ≤ visit.2 ∧ visit.2 ≤ hi := by
  induction stack with
  | nil => exact fun visit hvisit => absurd hvisit List.not_mem_nil
  | cons frame stack ih =>
    cases frame with
    | explore => exact ih h.2
    | restoreSlot => exact ih h
    | leave =>
      obtain ⟨hgoesOn, -, -, hrest⟩ := h
      exact List.forall_mem_cons.2 ⟨⟨hgoesOn.ge, hgoesOn.le⟩, ih hrest⟩

/-- **Offsets never decrease along a path.** -/
theorem Ascends.sorted (h : Ascends lo hi stack) :
    (pathOf stack).Pairwise fun later earlier => earlier.2 ≤ later.2 := by
  induction stack with
  | nil => exact .nil
  | cons frame stack ih =>
    cases frame with
    | explore => exact ih h.2
    | restoreSlot => exact ih h
    | leave =>
      obtain ⟨hgoesOn, -, -, hrest⟩ := h
      exact .cons hgoesOn.last (ih hrest)

/-- **No state is visited twice at the same offset.** -/
theorem Ascends.nodup (h : Ascends lo hi stack) : (pathOf stack).Nodup := by
  induction stack with
  | nil => exact .nil
  | cons frame stack ih =>
    cases frame with
    | explore => exact ih h.2
    | restoreSlot => exact ih h
    | leave =>
      obtain ⟨-, hnew, -, hrest⟩ := h
      exact List.nodup_cons.2 ⟨hnew, ih hrest⟩

/-- Where offsets never decrease, it is enough to know the last visit to a state to tell whether
the state has been visited at an offset that the path can go on to. -/
theorem notMem_of_lookup {path : List (Nat × Nat)}
    (hsorted : path.Pairwise fun later earlier => earlier.2 ≤ later.2)
    (hlast : ∀ visit ∈ path, visit.2 ≤ offset) (hne : path.lookup number ≠ some offset) :
    (number, offset) ∉ path := by
  induction path with
  | nil => exact List.not_mem_nil
  | cons visit path ih =>
    obtain ⟨state, o⟩ := visit
    obtain ⟨hbefore, hsorted⟩ := List.pairwise_cons.1 hsorted
    obtain ⟨ho, hlast⟩ := List.forall_mem_cons.1 hlast
    by_cases hstate : number = state
    · -- this is the last visit to the state, and all that comes before it lies before `offset`
      subst hstate
      rw [List.lookup_cons_self] at hne
      have hlt : o < offset := Nat.lt_of_le_of_ne ho fun heq => hne (congrArg some heq)
      rw [List.mem_cons]
      rintro (heq | hmem)
      · cases heq
        exact Nat.lt_irrefl _ hlt
      · exact Nat.not_le_of_lt hlt (hbefore _ hmem)
    · have hlookup : ((state, o) :: path).lookup number = path.lookup number := by
        rw [List.lookup_cons, beq_false_of_ne hstate]
      rw [hlookup] at hne
      rw [List.mem_cons]
      rintro (heq | hmem)
      · cases heq
        exact hstate rfl
      · exact ih hsorted hlast hne hmem

theorem Ascends.follow {σ : Setting} {captures : Captures} (h : Ascends lo hi stack)
    (edges : List Edge) (hedges : ∀ e ∈ edges, ∀ later,
      e.arrival? σ.text offset captures = some later → GoesOn lo hi (pathOf stack) later) :
    Ascends lo hi (σ.follow captures offset edges ++ stack) := by
  -- the path beneath stays the same, since explorations are not on it
  suffices hboth : pathOf (σ.follow captures offset edges ++ stack) = pathOf stack ∧
      Ascends lo hi (σ.follow captures offset edges ++ stack) from hboth.2
  refine Setting.follow_induction
    (P := fun frames => pathOf frames = pathOf stack ∧ Ascends lo hi frames) edges ⟨rfl, h⟩
    fun e he later frames ha ⟨hpath, hascends⟩ => ?_
  have hgoesOn : GoesOn lo hi (pathOf frames) later := hpath ▸ hedges e he later ha
  exact ⟨hpath, hgoesOn, hascends⟩

theorem Ascends.undo (h : Ascends lo hi stack) (marker : Marker) (captures : Captures)
    (offset : Nat) : Ascends lo hi ((marker.apply captures offset).2.toList ++ stack) := by
  rcases marker.apply_snd captures offset with ⟨hnone, -⟩ | ⟨group, slot, hsome, -⟩
  · rw [hnone]
    exact h
  · rw [hsome]
    exact h

end Ascends

/-- An edge leads no further than to the end of the text, unless it starts beyond it. -/
theorem Edge.arrival?_le_max {e : Edge} {text : Array Char} {offset later : Nat}
    {captures : Captures} (h : e.arrival? text offset captures = some later) :
    later ≤ max offset text.size := by
  unfold arrival? at h
  split at h
  · cases h
    exact Nat.le_max_left _ _
  · obtain ⟨n, hn, rfl⟩ := Option.map_eq_some_iff.1 h
    exact Nat.le_trans (Matcher.consume_le hn).2 (Nat.le_max_right _ _)

/-! ## What a machine remembers -/

namespace Machine

/-- In an attempt at `origin`, a machine remembers of each state the last visit to it on the path,
which ascends from there. -/
structure OnPath (σ : Setting) (origin : Nat) (m : Machine) : Prop where
  size : m.visits.size = σ.automaton.size
  last : ∀ number < σ.automaton.size, m.visits[number]? = some ((pathOf m.stack).lookup number)
  inRange : ∀ visit ∈ pathOf m.stack, visit.1 < σ.automaton.size
  ascends : Ascends origin (max origin σ.text.size) m.stack

section OnPath

variable {σ : Setting} {origin : Nat} {m m' : Machine}

theorem onPath_initial (σ : Setting) (groups state origin steps : Nat) :
    OnPath σ origin (.initial σ groups state origin steps) where
  size := Array.size_replicate
  last number hlt := by
    simp only [initial, Array.getElem?_replicate, if_pos hlt]
    rfl
  inRange := fun visit hvisit => absurd hvisit List.not_mem_nil
  ascends :=
    ⟨⟨Nat.le_refl _, Nat.le_max_left _ _, fun visit hvisit => absurd hvisit List.not_mem_nil⟩,
      trivial⟩

/-- Making a visit puts it on the path. -/
theorem OnPath.visit {captures : Captures} {visits : Array (Option Nat)}
    {number offset steps : Nat} {stack : List Frame} {previous : Option Nat}
    (h : OnPath σ origin ⟨captures, visits, .explore number offset :: stack, steps⟩)
    (hv : visits[number]? = some previous) (hne : previous ≠ some offset)
    (captures' : Captures) (steps' : Nat) :
    OnPath σ origin ⟨captures', visits.setIfInBounds number (some offset),
      .leave number offset previous :: stack, steps'⟩ := by
  obtain ⟨hsize, hlast, hinRange, hgoesOn, hascends⟩ := h
  have hnumber : number < visits.size := (Array.getElem?_eq_some_iff.1 hv).1
  have hprevious : previous = (pathOf stack).lookup number := by
    have hlookup := hlast number (hsize ▸ hnumber)
    rw [pathOf_explore, hv] at hlookup
    exact Option.some.inj hlookup
  refine ⟨by simpa using hsize, fun other hother => ?last, ?inRange, hgoesOn, ?new, hprevious,
    hascends⟩
  case last =>
    simp only [pathOf_leave, List.lookup_cons]
    by_cases heq : other = number
    · subst heq
      rw [Array.getElem?_setIfInBounds_self_of_lt hnumber, beq_self_eq_true]
    · rw [Array.getElem?_setIfInBounds_ne (Ne.symm heq), beq_false_of_ne heq]
      exact hlast other hother
  case inRange => exact List.forall_mem_cons.2 ⟨hsize ▸ hnumber, hinRange⟩
  case new => exact notMem_of_lookup hascends.sorted hgoesOn.last (hprevious ▸ hne)

/-- **A machine keeps to its path**, turn by turn. -/
theorem OnPath.turns (h : OnPath σ origin m) (hturns : Turns σ m m') : OnPath σ origin m' := by
  cases hturns with
  | dropped => exact ⟨h.size, h.last, h.inRange, h.ascends.2⟩
  | refused hs hv hne hfinal => exact h.visit hv hne _ _
  | @visited captures visits number offset steps stack state previous hs hv hne hfinal =>
    obtain ⟨hgoesOn, -⟩ := h.ascends
    have hvisit := h.visit hv hne captures steps
    obtain ⟨hsize, hlast, hinRange, hascends⟩ := hvisit
    refine ⟨hsize, ?last, ?inRange, ?ascends⟩
    case last => simpa only [pathOf_follow, pathOf_undo] using hlast
    case inRange => simpa only [pathOf_follow, pathOf_undo] using hinRange
    case ascends =>
      refine (hascends.undo state.marker captures offset).follow state.edges fun e _ later ha => ?_
      rw [pathOf_undo]
      refine hgoesOn.next (Edge.le_of_arrival? ha) (Nat.le_trans (Edge.arrival?_le_max ha) ?_)
      exact Nat.max_le.2 ⟨hgoesOn.le, Nat.le_max_right _ _⟩
  | restored => exact ⟨h.size, h.last, h.inRange, h.ascends⟩
  | @left captures visits number offset steps previous stack =>
    obtain ⟨hsize, hlast, hinRange, -, -, hprevious, hascends⟩ := h
    obtain ⟨hnumber, hinRange⟩ := List.forall_mem_cons.1 hinRange
    refine ⟨by simpa using hsize, fun other hother => ?_, hinRange, hascends⟩
    by_cases heq : other = number
    · subst heq
      rw [Array.getElem?_setIfInBounds_self_of_lt (hsize ▸ hnumber), hprevious]
    · have hlookup := hlast other hother
      rw [pathOf_leave, List.lookup_cons, beq_false_of_ne heq] at hlookup
      rw [Array.getElem?_setIfInBounds_ne (Ne.symm heq)]
      exact hlookup

/-- A machine is on its path when it halts, too. -/
theorem OnPath.halts {verdict : Verdict} (h : OnPath σ origin m) (hhalts : Halts σ m verdict m') :
    OnPath σ origin m' := by
  cases hhalts with
  | rejected => exact h
  | aborted => exact ⟨h.size, h.last, h.inRange, h.ascends.2⟩
  | accepted hs hv hne hfinal hend => exact h.visit hv hne _ _

/-- A path has no more visits than there are states and offsets. -/
theorem OnPath.length_le (h : OnPath σ origin m) :
    (pathOf m.stack).length ≤ σ.automaton.size * (σ.text.size + 1) := by
  let visits := Finset.range σ.automaton.size ×ˢ Finset.Icc origin (max origin σ.text.size)
  have hsub : (pathOf m.stack).toFinset ⊆ visits := by
    intro visit hvisit
    have hmem := List.mem_toFinset.1 hvisit
    exact Finset.mem_product.2
      ⟨Finset.mem_range.2 (h.inRange visit hmem), Finset.mem_Icc.2 (h.ascends.mem visit hmem)⟩
  have hoffsets : max origin σ.text.size + 1 - origin ≤ σ.text.size + 1 := by omega
  calc (pathOf m.stack).length
      = (pathOf m.stack).toFinset.card := (List.toFinset_card_of_nodup h.ascends.nodup).symm
    _ ≤ visits.card := Finset.card_le_card hsub
    _ = σ.automaton.size * (max origin σ.text.size + 1 - origin) := by
      rw [Finset.card_product, Finset.card_range, Nat.card_Icc]
    _ ≤ σ.automaton.size * (σ.text.size + 1) := Nat.mul_le_mul_left _ hoffsets

end OnPath

end Machine

end PatternSearch
