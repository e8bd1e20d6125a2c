import PatternSearch.Proofs.Path
import PatternSearch.Proofs.Search

/-!
# Searches come to an end

Loops that take nothing, backreferences to empty captures among them, could keep a search going
forever. That they do not shows in the turns of its machines: an attempt halts after some number of
them (`Machine.HaltsIn`), and a search after those of its attempts (`Query.EndsFrom`), with a bound
on both that depends on the sizes of the automaton and the text only (`Query.search_terminates`).
The bound is the potential of the machine that begins, since each turn takes some of it away.

What is on the stack to be undone is bounded much more closely, by the length of a path.
-/

namespace PatternSearch

namespace Machine

/-- After `turns` turns, the last of which is the one in which it halts, a machine has halted with
this verdict. -/
inductive HaltsIn (σ : Setting) (verdict : Verdict) (halted : Machine) : Nat → Machine → Prop
  | now {m : Machine} (h : m.step σ = .halt verdict halted) : HaltsIn σ verdict halted 1 m
  | later {turns : Nat} {m next : Machine} (h : m.step σ = .next next)
      (rest : HaltsIn σ verdict halted turns next) : HaltsIn σ verdict halted (turns + 1) m

/-- **A machine halts before it has used up its potential.** -/
theorem haltsIn_run (σ : Setting) (m : Machine) :
    ∃ turns ≤ m.potential σ + 1, HaltsIn σ (m.run σ).1 (m.run σ).2 turns m := by
  induction m using Machine.run.induct σ with
  | case1 m verdict halted hstep =>
    rw [run_of_halt hstep]
    exact ⟨1, Nat.le_add_left _ _, .now hstep⟩
  | case2 m next hstep ih =>
    rw [run_of_next hstep]
    obtain ⟨turns, hle, hhalts⟩ := ih
    have hless := potential_step hstep
    exact ⟨turns + 1, by omega, .later hstep hhalts⟩

end Machine

/-! ## How many turns -/

namespace Setting

variable (σ : Setting)

theorem worth_eq (rank : Nat) : σ.worth rank = σ.base ^ rank := by
  induction rank with
  | zero => rfl
  | succ rank ih => rw [worth, ih, Nat.pow_succ, Nat.mul_comm]

/-- As many turns as an attempt may take. -/
def turnBound : Nat :=
  σ.base ^ ((σ.text.size + 1) * (σ.automaton.size + 1))

theorem rank_lt {visits : Array (Option Nat)} (hsize : visits.size = σ.automaton.size)
    (offset : Nat) : σ.rank visits offset < (σ.text.size + 1) * (σ.automaton.size + 1) := by
  have hcount : visits.countP (· != some offset) ≤ σ.automaton.size :=
    hsize ▸ Array.countP_le_size
  have hmul : (σ.text.size - offset) * (σ.automaton.size + 1) ≤
      σ.text.size * (σ.automaton.size + 1) := Nat.mul_le_mul_right _ (Nat.sub_le _ _)
  unfold rank
  rw [hsize, Nat.succ_mul]
  omega

theorem potential_initial (groups state offset steps : Nat) :
    (Machine.initial σ groups state offset steps).potential σ + 1 ≤ σ.turnBound := by
  have hrank : σ.rank (Array.replicate σ.automaton.size none) offset < _ :=
    σ.rank_lt Array.size_replicate offset
  have hpotential : (Machine.initial σ groups state offset steps).potential σ =
      σ.base ^ σ.rank (Array.replicate σ.automaton.size none) offset := by
    rw [← worth_eq]
    rfl
  have hbase : 2 ≤ σ.base := by
    unfold base
    omega
  rw [hpotential]
  calc σ.base ^ σ.rank (Array.replicate σ.automaton.size none) offset + 1
      ≤ σ.base ^ (σ.rank (Array.replicate σ.automaton.size none) offset + 1) :=
        Nat.pow_lt_pow_succ hbase
    _ ≤ σ.turnBound := Nat.pow_le_pow_right (Nat.le_of_succ_le hbase) hrank

end Setting

/-! ## Searches -/

namespace Query

/-- A search that goes on at the given offsets, with some explorations behind, ends after `turns`
turns: there is no offset left, or an attempt has come to a match or over the limit, or it has come
to nothing and the search ends at the offsets that are left. -/
inductive EndsFrom (q : Query) : Nat → Nat → List Nat → Prop
  | exhausted {behind : Nat} : EndsFrom q 0 behind []
  | settled {turns behind offset : Nat} {rest : List Nat} {verdict : Verdict} {m : Machine}
      (h : Machine.HaltsIn q.setting verdict m turns
        (.initial q.setting q.groups q.start offset behind))
      (hverdict : verdict ≠ .rejected) : EndsFrom q turns behind (offset :: rest)
  | failed {turns more behind offset : Nat} {rest : List Nat} {m : Machine}
      (h : Machine.HaltsIn q.setting .rejected m turns
        (.initial q.setting q.groups q.start offset behind))
      (hrest : EndsFrom q more m.steps rest) : EndsFrom q (turns + more) behind (offset :: rest)

variable (q : Query)

theorem exists_haltsIn (offset steps : Nat) :
    ∃ turns ≤ q.setting.turnBound, Machine.HaltsIn q.setting (q.attempt offset steps).1
      (q.attempt offset steps).2 turns (.initial q.setting q.groups q.start offset steps) := by
  obtain ⟨turns, hle, hhalts⟩ :=
    Machine.haltsIn_run q.setting (.initial q.setting q.groups q.start offset steps)
  exact ⟨turns, hle.trans (q.setting.potential_initial _ _ _ _), hhalts⟩

/-- **A search ends after a bounded number of turns for each of its offsets.** -/
theorem exists_endsFrom (behind : Nat) (offsets : List Nat) :
    ∃ turns ≤ offsets.length * q.setting.turnBound, q.EndsFrom turns behind offsets := by
  induction offsets generalizing behind with
  | nil => exact ⟨0, Nat.zero_le _, .exhausted⟩
  | cons offset rest ih =>
    obtain ⟨turns, hle, hhalts⟩ := q.exists_haltsIn offset behind
    rw [List.length_cons, Nat.succ_mul]
    by_cases hverdict : (q.attempt offset behind).1 = .rejected
    · rw [hverdict] at hhalts
      obtain ⟨more, hmore, hends⟩ := ih (q.attempt offset behind).2.steps
      exact ⟨turns + more, by omega, .failed hhalts hends⟩
    · exact ⟨turns, by omega, .settled hhalts hverdict⟩

theorem length_offsets_le : q.offsets.length ≤ q.text.size + 1 := by
  unfold offsets
  split
  · exact Nat.le_add_left _ _
  · exact Nat.le_of_eq List.length_range

variable {q}

/-- An attempt at any offset keeps to its path. -/
theorem onPath_of_comesTo {offset steps : Nat} {m : Machine}
    (h : Machine.ComesTo q.setting (.initial q.setting q.groups q.start offset steps) m) :
    m.OnPath q.setting offset :=
  h.preserves (Machine.onPath_initial _ _ _ _ _) fun hturns honPath => honPath.turns hturns

/-- **Searches come to an end**, whatever loops the automaton has. Without a limit, an attempt
anywhere halts after a bounded number of turns with a match or without one, and so does a search. On
the way, and at the end of an attempt too, the stack ends no more visits than there are states and
offsets. -/
theorem search_terminates (q : Query) :
    (∀ offset steps, ∃ turns ≤ q.setting.turnBound, ∃ verdict m,
      Machine.HaltsIn q.unlimited.setting verdict m turns
        (.initial q.unlimited.setting q.groups q.start offset steps) ∧
      verdict ≠ .aborted ∧ q.unlimited.attempt offset steps = (verdict, m) ∧
      (pathOf m.stack).length ≤ q.automaton.size * (q.text.size + 1)) ∧
    (∃ turns ≤ (q.text.size + 1) * q.setting.turnBound, q.unlimited.EndsFrom turns 0 q.offsets ∧
      q.unlimited.search.outcome ≠ .aborted) ∧
    ∀ offset steps m, Machine.ComesTo q.unlimited.setting
        (.initial q.unlimited.setting q.groups q.start offset steps) m →
      (pathOf m.stack).length ≤ q.automaton.size * (q.text.size + 1) := by
  refine ⟨fun offset steps => ?attempts, ?searches, fun offset steps m hcomes => ?moments⟩
  case attempts =>
    obtain ⟨turns, hle, hhalts⟩ := q.unlimited.exists_haltsIn offset steps
    obtain ⟨last, hcomes, hlast⟩ :=
      Machine.comesTo_of_run (show q.unlimited.attempt offset steps = (_, _) from rfl)
    have honPath := (onPath_of_comesTo hcomes).halts hlast
    exact ⟨turns, hle, _, _, hhalts, (q.attempt_unlimited offset steps).1, rfl, honPath.length_le⟩
  case searches =>
    obtain ⟨turns, hle, hends⟩ := q.unlimited.exists_endsFrom 0 q.offsets
    exact ⟨turns, hle.trans (Nat.mul_le_mul_right _ q.length_offsets_le), hends,
      q.outcome_search_ne_aborted⟩
  case moments => exact (onPath_of_comesTo (q := q.unlimited) hcomes).length_le

/-- Two states that lead to each other without taking anything: the path comes to both of them at
both offsets of the text before the search turns back. -/
theorem search_terminates_cycle :
    ∃ (q : Query) (m : Machine),
      Machine.ComesTo q.unlimited.setting (.initial q.unlimited.setting q.groups q.start 0 0) m ∧
      pathOf m.stack = [(1, 1), (0, 1), (1, 0), (0, 0)] ∧
      (pathOf m.stack).length ≤ q.automaton.size * (q.text.size + 1) := by
  let q : Query :=
    { automaton := ⟨#[⟨.plain, [⟨none, 1⟩]⟩, ⟨.plain, [⟨some .any, 0⟩, ⟨none, 0⟩]⟩]⟩
      groups := 0
      start := 0
      anchor := ⟨false, false⟩
      text := #['a']
      limit := none }
  have hcomes : Machine.ComesTo q.unlimited.setting
      (.initial q.unlimited.setting q.groups q.start 0 0) _ :=
    .head rfl (.head rfl (.head rfl (.head rfl .refl)))
  exact ⟨q, _, hcomes, by decide, (search_terminates q).2.2 0 0 _ hcomes⟩

end Query

end PatternSearch
