import PatternSearch.Proofs.Moment

/-!
# What a branch leaves behind

Whatever an exploration changes is put back by the frames that it puts on the stack. So while a
machine works off what was on its stack, each turn changes captures and visits in such a way that
undoing the frames that are still to be worked off leads to the same captures and visits as before
the turn (`Machine.Turns.undone`). When none of these frames is left, captures and visits are those
of the beginning, and a branch that has come to nothing leaves no trace
(`Query.rejected_leaves_no_trace`).

Nothing is asked of the automaton. A marker that changes no slot puts no frame on the stack, and an
exploration that is a dead end has noted no visit; the visit that a frame puts back may well be one
at an earlier offset.
-/

namespace PatternSearch

/-! ## Undoing frames -/

/-- The captures and the visits after a frame has been worked off, if all that it explores comes to
nothing. -/
def Frame.undo (now : Captures × Array (Option Nat)) : Frame → Captures × Array (Option Nat)
  | .explore _ _ => now
  | .restoreSlot group slot => (now.1.restore group slot, now.2)
  | .leave number _ previous => (now.1, now.2.setIfInBounds number previous)

/-- The captures and the visits after some frames have been worked off, if all that they explore
comes to nothing. -/
def undone (frames : List Frame) (captures : Captures) (visits : Array (Option Nat)) :
    Captures × Array (Option Nat) :=
  frames.foldl Frame.undo (captures, visits)

section Undone

variable {captures : Captures} {visits : Array (Option Nat)} {frames : List Frame}

@[simp] theorem undone_nil : undone [] captures visits = (captures, visits) := rfl

@[simp] theorem undone_explore (number offset : Nat) :
    undone (.explore number offset :: frames) captures visits = undone frames captures visits := rfl

@[simp] theorem undone_restoreSlot (group : Nat) (slot : Slot) :
    undone (.restoreSlot group slot :: frames) captures visits =
      undone frames (captures.restore group slot) visits := rfl

@[simp] theorem undone_leave (number offset : Nat) (previous : Option Nat) :
    undone (.leave number offset previous :: frames) captures visits =
      undone frames captures (visits.setIfInBounds number previous) := rfl

/-- Edges that are followed change nothing. -/
@[simp] theorem undone_follow (σ : Setting) (now : Captures) (offset : Nat) (edges : List Edge) :
    undone (σ.follow now offset edges ++ frames) captures visits =
      undone frames captures visits :=
  Setting.follow_induction
    (P := fun pushed => undone pushed captures visits = undone frames captures visits) edges rfl
    fun _ _ _ _ _ hpushed => hpushed

/-- What a marker has changed is put back. -/
@[simp] theorem undone_enact (marker : Marker) (offset : Nat) :
    undone ((marker.apply captures offset).2.toList ++ frames) (marker.enact captures offset)
      visits = undone frames captures visits := by
  rcases marker.apply_snd captures offset with ⟨hnone, hsame⟩ | ⟨group, slot, hsome, hback⟩
  · rw [hnone, hsame]
    rfl
  · rw [hsome, Option.toList_some, List.singleton_append, undone_restoreSlot, hback]

end Undone

/-! ## Working off frames -/

namespace Machine

variable {σ : Setting} {m m' : Machine} {frame : Frame} {above stack : List Frame}

/-- **A turn keeps what undoing leads to.** It works on the top of the stack only, and what it puts
there in its place is undone to the same captures and visits. -/
theorem Turns.undone (h : Turns σ m m') (hstack : m.stack = frame :: above ++ stack) :
    ∃ pushed, m'.stack = pushed ++ stack ∧
      undone pushed m'.captures m'.visits = undone (frame :: above) m.captures m.visits := by
  cases h with
  | dropped hdead =>
    cases hstack
    exact ⟨above, rfl, rfl⟩
  | @refused captures visits number offset steps _ state previous hs hv hne hfinal =>
    cases hstack
    refine ⟨.leave number offset previous :: above, rfl, ?_⟩
    simp only [undone_leave, undone_explore, Setting.restore_visit hv]
  | @visited captures visits number offset steps _ state previous hs hv hne hfinal =>
    cases hstack
    refine ⟨σ.follow (state.marker.enact captures offset) offset state.edges ++
      ((state.marker.apply captures offset).2.toList ++ .leave number offset previous :: above),
      by simp, ?_⟩
    simp only [undone_follow, undone_enact, undone_leave, undone_explore, Setting.restore_visit hv]
  | restored =>
    cases hstack
    exact ⟨above, rfl, rfl⟩
  | left =>
    cases hstack
    exact ⟨above, rfl, rfl⟩

/-- A machine makes turns until all frames above `stack` have been worked off. -/
inductive WorksOff (σ : Setting) (stack : List Frame) : Machine → Machine → Prop
  | done {m : Machine} (h : m.stack = stack) : WorksOff σ stack m m
  | turn {m next m' : Machine} {frame : Frame} {above : List Frame}
      (hstack : m.stack = frame :: above ++ stack) (h : m.step σ = .next next)
      (rest : WorksOff σ stack next m') : WorksOff σ stack m m'

theorem WorksOff.stack_eq (h : WorksOff σ stack m m') : m'.stack = stack := by
  induction h with
  | done h => exact h
  | turn _ _ _ ih => exact ih

/-- **What has been worked off has been undone.** -/
theorem WorksOff.eq_undone (h : WorksOff σ stack m m') (above : List Frame)
    (hstack : m.stack = above ++ stack) :
    (m'.captures, m'.visits) = undone above m.captures m.visits := by
  induction h generalizing above with
  | done h =>
    cases List.append_cancel_right (hstack.symm.trans (h.trans (List.nil_append stack).symm))
    rfl
  | turn hcons hstep _ ih =>
    obtain ⟨pushed, hpushed, hundone⟩ := (turns_of_step hstep).undone hcons
    cases List.append_cancel_right (hstack.symm.trans hcons)
    rw [← hundone]
    exact ih pushed hpushed

/-- When all that an exploration has put on the stack has been worked off, captures and visits are
those before it. -/
theorem WorksOff.eq_of_explore {captures : Captures} {visits : Array (Option Nat)}
    {number offset steps : Nat}
    (h : WorksOff σ stack ⟨captures, visits, .explore number offset :: stack, steps⟩ m) :
    m.captures = captures ∧ m.visits = visits :=
  Prod.mk.inj (h.eq_undone [.explore number offset] rfl)

/-- **A machine that comes to nothing works off whatever is on top of its stack.** -/
theorem exists_worksOff (above stack : List Frame) (hstack : m.stack = above ++ stack)
    (hrun : m.run σ = (.rejected, m')) :
    ∃ next, WorksOff σ stack m next ∧ next.run σ = (.rejected, m') := by
  induction m using Machine.run.induct σ generalizing above with
  | case1 m verdict halted hstep =>
    rw [run_of_halt hstep] at hrun
    cases hrun
    cases halts_of_step hstep with
    | rejected =>
      obtain ⟨rfl, rfl⟩ := List.append_eq_nil_iff.1 hstack.symm
      exact ⟨_, .done rfl, run_of_halt hstep⟩
  | case2 m next hstep ih =>
    cases above with
    | nil => exact ⟨m, .done hstack, hrun⟩
    | cons frame above =>
      obtain ⟨pushed, hpushed, -⟩ := (turns_of_step hstep).undone hstack
      rw [run_of_next hstep] at hrun
      obtain ⟨last, hworksOff, hlast⟩ := ih pushed hpushed hrun
      exact ⟨last, .turn hstack hstep hworksOff, hlast⟩

/-- Wherever a machine comes to, it halts as it would have before. -/
theorem ComesTo.run_eq (h : ComesTo σ m m') : m'.run σ = m.run σ := by
  induction h with
  | refl => rfl
  | tail _ hstep ih => exact (run_of_next hstep).symm.trans ih

end Machine

/-! ## Attempts that come to nothing -/

namespace Query

/-- **A branch that has come to nothing leaves no trace.** When an attempt is rejected, captures and
visits are those with which it began, and nothing is left on the stack. And so it is with every
exploration: when all that it has put on the stack has been worked off, captures and visits are
those before it. In an attempt that is rejected, this comes about for every exploration. -/
theorem rejected_leaves_no_trace (q : Query) :
    (∀ offset steps m, q.attempt offset steps = (.rejected, m) →
      m.captures = .fresh q.groups ∧ m.visits = Array.replicate q.automaton.size none ∧
        m.stack = []) ∧
    (∀ captures visits number offset stack steps m,
      Machine.WorksOff q.setting stack ⟨captures, visits, .explore number offset :: stack, steps⟩
        m → m.captures = captures ∧ m.visits = visits) ∧
    ∀ start behind rejected captures visits number offset stack steps,
      q.attempt start behind = (.rejected, rejected) →
      Machine.ComesTo q.setting (.initial q.setting q.groups q.start start behind)
        ⟨captures, visits, .explore number offset :: stack, steps⟩ →
      ∃ m, Machine.WorksOff q.setting stack
        ⟨captures, visits, .explore number offset :: stack, steps⟩ m := by
  refine ⟨fun offset steps m h => ?attempts, fun _ _ _ _ _ _ _ h => h.eq_of_explore,
    fun _ _ _ _ _ number offset _ _ hattempt hcomes => ?explorations⟩
  case attempts =>
    obtain ⟨last, hworksOff, hlast⟩ :=
      Machine.exists_worksOff [.explore q.start offset] [] rfl h
    have hnil := hworksOff.stack_eq
    have hstep : last.step q.setting = .halt .rejected last := by simp [Machine.step, hnil]
    rw [Machine.run_of_halt hstep] at hlast
    cases hlast
    obtain ⟨hcaptures, hvisits⟩ := hworksOff.eq_of_explore
    exact ⟨hcaptures, hvisits, hnil⟩
  case explorations =>
    obtain ⟨m, hworksOff, -⟩ := Machine.exists_worksOff [.explore number offset] _ rfl
      (hcomes.run_eq.trans hattempt)
    exact ⟨m, hworksOff⟩

/-- A group in a loop, and a final state that is reached before the end of the text only. When the
loop is entered for the second time, the group has a capture, and both of its states have been
visited at the offset before; so they have when that has come to nothing. -/
theorem rejected_leaves_no_trace_loop :
    ∃ (q : Query) (rejected before after : Machine) (stack : List Frame),
      q.attempt 0 0 = (.rejected, rejected) ∧ rejected.captures = .fresh 1 ∧
      rejected.visits = #[none, none, none] ∧ rejected.stack = [] ∧
      Machine.ComesTo q.setting (.initial q.setting 1 0 0 0) before ∧
      before = ⟨⟨#[⟨none, some ⟨0, 1⟩⟩]⟩, #[some 0, some 1, none], .explore 0 1 :: stack, 2⟩ ∧
      Machine.WorksOff q.setting stack before after ∧
      after.captures = before.captures ∧ after.visits = before.visits := by
  let q : Query :=
    { automaton := ⟨#[⟨.groupStart 0, [⟨some (.literal 'a'), 1⟩, ⟨none, 1⟩]⟩,
        ⟨.groupEnd 0, [⟨none, 0⟩, ⟨none, 2⟩]⟩, ⟨.final, []⟩]⟩
      groups := 1
      start := 0
      anchor := ⟨false, true⟩
      text := #['a', 'b']
      limit := none }
  have hattempt : q.attempt 0 0 = (.rejected, (q.attempt 0 0).2) := by decide +kernel
  obtain ⟨hcaptures, hvisits, hstack⟩ := (rejected_leaves_no_trace q).1 0 0 _ hattempt
  let stack : List Frame := [.explore 2 1, .restoreSlot 0 ⟨some 0, none⟩, .leave 1 1 none,
    .explore 1 0, .restoreSlot 0 ⟨none, none⟩, .leave 0 0 none]
  have hcomes : Machine.ComesTo q.setting (.initial q.setting 1 0 0 0)
      ⟨⟨#[⟨none, some ⟨0, 1⟩⟩]⟩, #[some 0, some 1, none], .explore 0 1 :: stack, 2⟩ :=
    .head rfl (.head rfl .refl)
  obtain ⟨after, hworksOff⟩ :=
    (rejected_leaves_no_trace q).2.2 _ _ _ _ _ _ _ _ _ hattempt hcomes
  obtain ⟨hsame, hvisited⟩ := (rejected_leaves_no_trace q).2.1 _ _ _ _ _ _ _ hworksOff
  exact ⟨q, _, _, after, stack, hattempt, hcaptures, hvisits, hstack, hcomes, rfl, hworksOff, hsame,
    hvisited⟩

end Query

end PatternSearch
