import PatternSearch.Machine.Basic

/-!
# Running the machine

However many loops an automaton has, the machine halts. An exploration at some offset either goes on
to a later offset, or visits one more state at the same offset; `Setting.rank` measures what is left
of both, and every frame that an exploration puts on the stack has a smaller rank. So the weight of
the stack, in which an exploration counts for more than all that one of a smaller rank can put on
the stack, goes down with each turn (`Machine.potential_step`). Each frame is weighed with the
visits as they will be when it is on top.
-/

namespace PatternSearch

namespace Setting

/-- A bound on how long a path can become from an exploration at `offset`: one block for each
character that is left, and in it as many visits as there are states not yet visited at `offset`. -/
def rank (σ : Setting) (visits : Array (Option Nat)) (offset : Nat) : Nat :=
  (σ.text.size - offset) * (visits.size + 1) + visits.countP (· != some offset)

/-- The number of edges of all states. -/
def edgeCount : List State → Nat
  | [] => 0
  | s :: rest => s.edges.length + edgeCount rest

/-- More than an exploration can put on the stack. -/
def base (σ : Setting) : Nat :=
  edgeCount σ.automaton.states.toList + 3

/-- The weight of an exploration of a given rank. -/
def worth (σ : Setting) : Nat → Nat
  | 0 => 1
  | rank + 1 => σ.base * σ.worth rank

/-- The weight of a stack, where `visits` is remembered. -/
def weight (σ : Setting) (visits : Array (Option Nat)) : List Frame → Nat
  | [] => 0
  | .explore _ offset :: rest => σ.worth (σ.rank visits offset) + σ.weight visits rest
  | .restoreSlot _ _ :: rest => 1 + σ.weight visits rest
  | .leave number _ previous :: rest =>
    1 + σ.weight (visits.setIfInBounds number previous) rest

theorem length_le_edgeCount {s : State} {states : List State} (h : s ∈ states) :
    s.edges.length ≤ edgeCount states := by
  induction states with
  | nil => simp at h
  | cons a states ih =>
    rw [edgeCount]
    rcases List.mem_cons.1 h with rfl | h
    · omega
    · have := ih h
      omega

theorem edges_lt_base {σ : Setting} {number : Nat} {state : State}
    (h : σ.automaton.states[number]? = some state) : state.edges.length + 3 ≤ σ.base := by
  have := length_le_edgeCount (Array.mem_toList_iff.2 (Array.mem_of_getElem? h))
  unfold base
  omega

theorem base_pos (σ : Setting) : 0 < σ.base := by
  unfold base
  omega

theorem worth_pos (σ : Setting) (rank : Nat) : 0 < σ.worth rank := by
  induction rank with
  | zero => exact Nat.one_pos
  | succ rank ih => exact Nat.mul_pos σ.base_pos ih

theorem worth_mono (σ : Setting) {rank rank' : Nat} (h : rank ≤ rank') :
    σ.worth rank ≤ σ.worth rank' := by
  induction h with
  | refl => exact Nat.le_refl _
  | step _ ih => exact Nat.le_trans ih (Nat.le_mul_of_pos_left _ σ.base_pos)

/-- Making a visit and taking it back leaves the visits as they were. -/
theorem restore_visit {visits : Array (Option Nat)} {number : Nat} {previous : Option Nat}
    (h : visits[number]? = some previous) (offset : Option Nat) :
    (visits.setIfInBounds number offset).setIfInBounds number previous = visits := by
  obtain ⟨hlt, rfl⟩ := Array.getElem?_eq_some_iff.1 h
  rw [Array.setIfInBounds_setIfInBounds, Array.setIfInBounds_def, dif_pos hlt,
    Array.set_getElem_self]

/-- Visiting a state at `offset` lowers the rank of `offset`. -/
theorem rank_visit {σ : Setting} {visits : Array (Option Nat)} {number offset : Nat}
    {previous : Option Nat} (h : visits[number]? = some previous) (hne : previous ≠ some offset) :
    σ.rank (visits.setIfInBounds number (some offset)) offset < σ.rank visits offset := by
  obtain ⟨hlt, rfl⟩ := Array.getElem?_eq_some_iff.1 h
  have hpos : 0 < visits.countP (· != some offset) :=
    Array.countP_pos_iff.2 ⟨_, Array.getElem_mem hlt, by simpa using hne⟩
  have hcount := Array.countP_set (p := (· != some offset)) (a := some offset) hlt
  simp only [rank, Array.setIfInBounds, hlt, dite_true, Array.size_set]
  simp [hne] at hcount
  omega

/-- Whatever is visited, a later offset has a lower rank. -/
theorem rank_later {σ : Setting} {visits visits' : Array (Option Nat)} {offset later : Nat}
    (hsize : visits'.size = visits.size) (hlt : offset < σ.text.size) (hlater : offset < later) :
    σ.rank visits' later < σ.rank visits offset := by
  have hcount : visits'.countP (· != some later) ≤ visits.size := hsize ▸ Array.countP_le_size
  have hmul : (σ.text.size - later + 1) * (visits.size + 1) ≤
      (σ.text.size - offset) * (visits.size + 1) := Nat.mul_le_mul_right _ (by omega)
  rw [Nat.succ_mul] at hmul
  unfold rank
  rw [hsize]
  omega

/-- What an exploration leads to has a lower rank than the exploration. -/
theorem rank_follow? {σ : Setting} {visits : Array (Option Nat)} {captures : Captures}
    {number offset : Nat} {previous : Option Nat} {e : Edge} {frame : Frame}
    (h : visits[number]? = some previous) (hne : previous ≠ some offset)
    (hf : σ.follow? captures offset e = some frame) :
    ∃ later, frame = .explore e.target later ∧
      σ.rank (visits.setIfInBounds number (some offset)) later < σ.rank visits offset := by
  unfold follow? at hf
  split at hf
  · cases hf
    exact ⟨offset, rfl, rank_visit h hne⟩
  · obtain ⟨n, hn, rfl⟩ := Option.map_eq_some_iff.1 hf
    refine ⟨offset + n, rfl, ?_⟩
    rcases Nat.eq_zero_or_pos n with rfl | hpos
    · exact rank_visit h hne
    · exact rank_later (by simp) (Matcher.consume_le hn).1 (by omega)

/-- The weight of what an exploration leads to. -/
theorem weight_follow {σ : Setting} {visits : Array (Option Nat)} {captures : Captures}
    {number offset : Nat} {previous : Option Nat} (h : visits[number]? = some previous)
    (hne : previous ≠ some offset) (edges : List Edge) (rest : List Frame) :
    σ.weight (visits.setIfInBounds number (some offset))
        (σ.follow captures offset edges ++ rest) ≤
      edges.length * σ.worth (σ.rank visits offset - 1) +
        σ.weight (visits.setIfInBounds number (some offset)) rest := by
  induction edges with
  | nil => simp [follow]
  | cons e edges ih =>
    rw [List.length_cons, Nat.succ_mul]
    cases hf : σ.follow? captures offset e with
    | none =>
      simp only [follow, List.filterMap_cons, hf] at ih ⊢
      omega
    | some frame =>
      obtain ⟨later, rfl, hrank⟩ := rank_follow? h hne hf
      have hworth := σ.worth_mono (Nat.le_sub_one_of_lt hrank)
      simp only [follow, List.filterMap_cons, hf, List.cons_append, weight] at ih ⊢
      omega

end Setting

namespace Machine

/-- The weight of what a machine has still to do. -/
def potential (σ : Setting) (m : Machine) : Nat :=
  σ.weight m.visits m.stack

theorem potential_visit {σ : Setting} {m m' : Machine} {number offset : Nat} {state : State}
    {previous : Option Nat} (hstate : σ.automaton.states[number]? = some state)
    (h : m.visits[number]? = some previous) (hne : previous ≠ some offset)
    (hm : m.visit σ number offset state previous = .next m') :
    m'.potential σ < σ.worth (σ.rank m.visits offset) + m.potential σ := by
  have hedges := Setting.edges_lt_base hstate
  have hback := Setting.restore_visit h (some offset)
  have hrank := Setting.rank_visit (σ := σ) h hne
  have hone := σ.worth_pos (σ.rank m.visits offset - 1)
  have hbig : (state.edges.length + 3) * σ.worth (σ.rank m.visits offset - 1) ≤
      σ.worth (σ.rank m.visits offset) := by
    have hpos : 0 < σ.rank m.visits offset := Nat.lt_of_le_of_lt (Nat.zero_le _) hrank
    obtain ⟨r, hr⟩ := Nat.exists_eq_succ_of_ne_zero (Nat.ne_of_gt hpos)
    rw [hr]
    exact Nat.mul_le_mul_right _ hedges
  rw [Nat.add_mul] at hbig
  unfold visit at hm
  simp only at hm
  split at hm
  · split at hm
    · cases hm
    · cases hm
      simp only [potential, Setting.weight, hback]
      omega
  · cases hm
    simp only [potential]
    refine Nat.lt_of_le_of_lt (Setting.weight_follow h hne _ _) ?_
    have hundo : σ.weight (m.visits.setIfInBounds number (some offset))
        ((state.marker.apply m.captures offset).2.toList ++
          .leave number offset previous :: m.stack) ≤ 2 + σ.weight m.visits m.stack := by
      unfold Marker.apply
      split <;> (try split) <;> simp [Setting.weight, hback] <;> omega
    omega

/-- Each turn lowers the potential. -/
theorem potential_step {σ : Setting} {m m' : Machine} (h : m.step σ = .next m') :
    m'.potential σ < m.potential σ := by
  obtain ⟨captures, visits, stack, steps⟩ := m
  unfold step at h
  split at h
  · cases h
  · next number offset stack hstack =>
    simp only at hstack
    subst hstack
    have hpos := σ.worth_pos (σ.rank visits offset)
    unfold explore at h
    simp only at h
    split at h
    · cases h
    · split at h
      · next state previous hstate hprevious =>
        split at h
        · cases h
          simp only [potential, Setting.weight]
          omega
        · next hne => exact potential_visit hstate hprevious hne h
      · cases h
        simp only [potential, Setting.weight]
        omega
  · next hstack =>
    simp only at hstack
    subst hstack
    cases h
    simp only [potential, Setting.weight]
    omega
  · next hstack =>
    simp only at hstack
    subst hstack
    cases h
    simp only [potential, Setting.weight]
    omega

/-- Lets a machine go on until it halts. -/
def run (σ : Setting) (m : Machine) : Verdict × Machine :=
  match _hstep : m.step σ with
  | .halt verdict m => (verdict, m)
  | .next m => m.run σ
termination_by m.potential σ
decreasing_by exact potential_step _hstep

theorem run_of_halt {σ : Setting} {m m' : Machine} {verdict : Verdict}
    (h : m.step σ = .halt verdict m') : m.run σ = (verdict, m') := by
  unfold run
  split <;> simp_all

theorem run_of_next {σ : Setting} {m m' : Machine} (h : m.step σ = .next m') :
    m.run σ = m'.run σ := by
  rw [run]
  split <;> simp_all

end Machine

end PatternSearch
