import Mathlib.Computability.EpsilonNFA
import PatternSearch.Proofs.Language

/-!
# What an attempt decides

In an automaton that reads no captures, where an edge leads depends on nothing but the offset, and
an attempt decides whether a final state can be reached at all: it succeeds if and only if some way
along the edges leads from its state and offset to a final state (`Query.attempt_reaches`), although
it takes only those ways that visit no state twice at the same offset.

The same question is answered by following all ways at once, with a set of states for each offset.
That is how a nondeterministic automaton reads a word (`Automaton.toεNFA`), and an attempt succeeds
if and only if a word that it accepts stands in the text at the offset of the attempt.
-/

namespace PatternSearch

open Relation

/-! ## Moves -/

/-- An edge can be followed over a character, or without taking one. -/
def Edge.Takes (e : Edge) : Option Char → Prop
  | none => e.matcher? = none
  | some c => ∃ m, e.matcher? = some m ∧ m.allows c = true

namespace Automaton

variable (a : Automaton)

/-- A search that reaches this state may stop. -/
def IsFinal (number : Nat) : Prop :=
  ∃ state, a.states[number]? = some state ∧ state.marker = .final

/-- An edge leads from `source` to `target` over a character, or without taking one. The edges of a
final state lead nowhere. -/
def Goes (source : Nat) (taken : Option Char) (target : Nat) : Prop :=
  ∃ state, a.states[source]? = some state ∧ state.marker ≠ .final ∧
    ∃ e ∈ state.edges, e.Takes taken ∧ e.target = target

/-- The automaton as one that reads words, from the state `start`. -/
def toεNFA (start : Nat) : εNFA Char Nat where
  step source taken := {target | a.Goes source taken target}
  start := {start}
  accept := {number | a.IsFinal number}

/-- One move in a text from a state and an offset to another: along an edge that takes nothing, or
along one that takes the next character. -/
inductive Moves (text : Array Char) : Nat × Nat → Nat × Nat → Prop
  | free {source target offset : Nat} (h : a.Goes source none target) :
      Moves text (source, offset) (target, offset)
  | take {source target offset : Nat} {c : Char} (hc : text[offset]? = some c)
      (h : a.Goes source (some c) target) : Moves text (source, offset) (target, offset + 1)

/-- Moves lead from a state and an offset to a final state, at the end of the text if `toEnd`. -/
def ReachesFinal (text : Array Char) (toEnd : Bool) (start offset : Nat) : Prop :=
  ∃ f j, a.IsFinal f ∧ ReflTransGen (a.Moves text) (start, offset) (f, j) ∧
    (toEnd = true → j = text.size)

end Automaton

section Takes

variable {e : Edge} {text : Array Char} {offset later : Nat} {captures : Captures}

theorem Edge.arrival?_of_takes_none (h : e.Takes none) :
    e.arrival? text offset captures = some offset := by
  rw [arrival?, show e.matcher? = none from h]

theorem Edge.arrival?_of_takes_some {c : Char} (hc : text[offset]? = some c)
    (h : e.Takes (some c)) : e.arrival? text offset captures = some (offset + 1) := by
  obtain ⟨m, hm, hallows⟩ := h
  have hconsume : m.consume text offset captures = some 1 := by
    cases m with
    | backref => cases hallows
    | literal | shorthand | any | set => simp only [Matcher.consume, hc, hallows, if_true]
  rw [arrival?, hm]
  simp only [hconsume, Option.map_some]

/-- An edge on which captures have no influence takes one character or none. -/
theorem Edge.CaptureFree.takes_of_arrival? (hfree : e.CaptureFree)
    (h : e.arrival? text offset captures = some later) :
    (e.Takes none ∧ later = offset) ∨
      ∃ c, text[offset]? = some c ∧ e.Takes (some c) ∧ later = offset + 1 := by
  unfold arrival? at h
  cases hm : e.matcher? with
  | none =>
    rw [hm] at h
    cases h
    exact .inl ⟨hm, rfl⟩
  | some m =>
    rw [hm] at h
    obtain ⟨n, hn, rfl⟩ := Option.map_eq_some_iff.1 h
    obtain ⟨hlt, -⟩ := Matcher.consume_le hn
    have hc : text[offset]? = some text[offset] := Array.getElem?_eq_getElem hlt
    refine .inr ⟨text[offset], hc, ?_⟩
    cases m with
    | backref group => exact absurd hm (hfree group)
    | literal | shorthand | any | set =>
      simp only [Matcher.consume, hc] at hn
      split at hn
      · next hallows =>
        cases hn
        exact ⟨⟨_, hm, hallows⟩, rfl⟩
      · cases hn

end Takes

/-! ## Moves and routes -/

namespace Setting

variable {σ : Setting} {number offset stop : Nat} {final captures : Captures}
  {trace : List (Nat × Nat)}

/-- Where captures have no influence, the way of a route is one of moves. -/
theorem reachesFinal_of_route (hfree : σ.automaton.CaptureFree)
    (h : Route σ stop final number offset captures trace) :
    σ.automaton.ReachesFinal σ.text σ.toEnd number offset := by
  induction h with
  | @halt number state hs hfinal hend =>
    refine ⟨number, _, ⟨state, hs, hfinal⟩, .refl, fun htoEnd => ?_⟩
    simpa [htoEnd] using hend
  | @move number offset later captures state e trace hs hfinal he ha rest ih =>
    obtain ⟨f, j, hf, hmoves, hend⟩ := ih
    refine ⟨f, j, hf, .head ?_ hmoves, hend⟩
    rcases (hfree number state hs e he).takes_of_arrival? ha with
      ⟨htakes, rfl⟩ | ⟨c, hc, htakes, rfl⟩
    · exact .free ⟨state, hs, hfinal, e, he, htakes, rfl⟩
    · exact .take hc ⟨state, hs, hfinal, e, he, htakes, rfl⟩

/-- Moves to a final state make a route, whatever the captures. -/
theorem route_of_moves {f : Nat} (hf : σ.automaton.IsFinal f)
    (hend : σ.toEnd = true → stop = σ.text.size)
    (h : ReflTransGen (σ.automaton.Moves σ.text) (number, offset) (f, stop))
    (captures : Captures) : ∃ final trace, Route σ stop final number offset captures trace := by
  generalize hfrom : (number, offset) = here at h
  induction h using ReflTransGen.head_induction_on generalizing number offset captures with
  | refl =>
    cases hfrom
    obtain ⟨state, hs, hfinal⟩ := hf
    refine ⟨captures, _, .halt hs hfinal ?_⟩
    cases htoEnd : σ.toEnd with
    | false => rfl
    | true => simpa using hend htoEnd
  | head hmove _ ih =>
    cases hmove with
    | free hgoes =>
      cases hfrom
      obtain ⟨state, hs, hfinal, e, he, htakes, rfl⟩ := hgoes
      obtain ⟨final, trace, hroute⟩ := ih (state.marker.enact captures offset) rfl
      exact ⟨final, _, .move hs hfinal he (Edge.arrival?_of_takes_none htakes) hroute⟩
    | take hc hgoes =>
      cases hfrom
      obtain ⟨state, hs, hfinal, e, he, htakes, rfl⟩ := hgoes
      obtain ⟨final, trace, hroute⟩ := ih (state.marker.enact captures offset) rfl
      exact ⟨final, _, .move hs hfinal he (Edge.arrival?_of_takes_some hc htakes) hroute⟩

/-- **An exploration without visits behind it finds something if and only if moves lead to a final
state.** -/
theorem explore_isSome_iff (hfree : σ.automaton.CaptureFree) (number offset : Nat)
    (captures : Captures) :
    (σ.explore number offset captures (Array.replicate σ.automaton.size none)).found.isSome ↔
      σ.automaton.ReachesFinal σ.text σ.toEnd number offset := by
  constructor
  · intro hsome
    obtain ⟨⟨stop, final⟩, hfound⟩ := Option.isSome_iff_exists.1 hsome
    obtain ⟨trace, hroute⟩ := route_of_explore hfound
    exact reachesFinal_of_route hfree hroute
  · rintro ⟨f, j, hf, hmoves, hend⟩
    obtain ⟨final, trace, hroute⟩ := route_of_moves hf hend hmoves captures
    obtain ⟨final', trace', hroute', hnodup⟩ := hroute.exists_nodup hfree
    exact explore_isSome_of_nodup hroute' hnodup

end Setting

/-! ## Moves and words -/

theorem cons_prefix_drop {text w : List Char} {c : Char} {i : Nat} :
    c :: w <+: text.drop i ↔ text[i]? = some c ∧ w <+: text.drop (i + 1) := by
  rw [List.cons_prefix_iff, ← List.head?_drop, ← List.tail_drop]
  cases text.drop i <;> simp [eq_comm]

namespace Automaton

/-- **Moves in a text are paths that read it.** -/
theorem moves_iff_isPath (a : Automaton) (text : Array Char) (start : Nat) {s f i j : Nat} :
    ReflTransGen (a.Moves text) (s, i) (f, j) ↔
      ∃ labels, (a.toεNFA start).IsPath s f labels ∧
        labels.reduceOption <+: text.toList.drop i ∧ j = i + labels.reduceOption.length := by
  constructor
  · intro h
    generalize hfrom : (s, i) = here at h
    induction h using ReflTransGen.head_induction_on generalizing s i with
    | refl =>
      cases hfrom
      exact ⟨[], .nil _, List.nil_prefix, rfl⟩
    | head hmove _ ih =>
      cases hmove with
      | @free _ target _ hgoes =>
        cases hfrom
        obtain ⟨labels, hpath, hword, hj⟩ := ih rfl
        refine ⟨none :: labels, .cons target _ _ _ _ hgoes hpath, ?_⟩
        rw [List.reduceOption_cons_of_none]
        exact ⟨hword, hj⟩
      | @take _ target _ c hc hgoes =>
        cases hfrom
        obtain ⟨labels, hpath, hword, hj⟩ := ih rfl
        refine ⟨some c :: labels, .cons target _ _ _ _ hgoes hpath, ?_⟩
        rw [List.reduceOption_cons_of_some]
        refine ⟨cons_prefix_drop.2 ⟨by simpa using hc, hword⟩, ?_⟩
        rw [hj, List.length_cons, Nat.add_assoc, Nat.add_comm 1]
  · rintro ⟨labels, hpath, hword, rfl⟩
    induction hpath generalizing i with
    | nil => exact .refl
    | cons target s f label labels hgoes _ ih =>
      cases label with
      | none =>
        rw [List.reduceOption_cons_of_none] at hword ⊢
        exact .head (.free hgoes) (ih hword)
      | some c =>
        rw [List.reduceOption_cons_of_some] at hword ⊢
        obtain ⟨hc, hword⟩ := cons_prefix_drop.1 hword
        have hmoves := ih hword
        rw [List.length_cons, Nat.add_comm _ 1, ← Nat.add_assoc]
        exact .head (.take (by simpa using hc) hgoes) hmoves

/-- Moves lead to a final state if and only if a word that the automaton accepts stands there. -/
theorem reachesFinal_iff_occurs (a : Automaton) (text : Array Char) (toEnd : Bool)
    (start offset : Nat) :
    a.ReachesFinal text toEnd start offset ↔
      ∃ j, Occurs text.toList (a.toεNFA start).accepts offset j ∧
        (toEnd = true → j = text.size) := by
  constructor
  · rintro ⟨f, j, hf, hmoves, hend⟩
    obtain ⟨labels, hpath, hword, hj⟩ := (a.moves_iff_isPath text start).1 hmoves
    have haccepts : labels.reduceOption ∈ (a.toεNFA start).accepts :=
      (εNFA.mem_accepts_iff_exists_path _).2 ⟨start, f, labels, rfl, hf, rfl, hpath⟩
    exact ⟨j, ⟨_, haccepts, hword, hj⟩, hend⟩
  · rintro ⟨j, ⟨w, haccepts, hword, hj⟩, hend⟩
    obtain ⟨s, f, labels, hs, hf, rfl, hpath⟩ := (εNFA.mem_accepts_iff_exists_path _).1 haccepts
    have hstart : s = start := hs
    rw [hstart] at hpath
    exact ⟨f, j, hf, (a.moves_iff_isPath text start).2 ⟨labels, hpath, hword, hj⟩, hend⟩

end Automaton

/-! ## Attempts -/

namespace Query

theorem accepted_iff_isSome (q : Query) (offset steps : Nat) :
    (∃ stop m, q.unlimited.attempt offset steps = (.accepted stop, m)) ↔
      (q.explore offset).found.isSome := by
  cases hfound : (q.explore offset).found with
  | none =>
    rw [attempt_of_none hfound]
    simp
  | some found =>
    obtain ⟨m, hattempt, -⟩ := attempt_of_found hfound steps
    exact ⟨fun _ => rfl, fun _ => ⟨_, m, hattempt⟩⟩

/-- **In an automaton that reads no captures, an attempt succeeds if and only if a final state can
be reached**, at the end of the text if a match has to stop there. So it does if and only if the
automaton, read as one that goes through a word with a set of states, accepts a word that stands at
the offset of the attempt. -/
theorem attempt_reaches (q : Query) (hfree : q.automaton.CaptureFree) (offset steps : Nat) :
    ((∃ stop m, q.unlimited.attempt offset steps = (.accepted stop, m)) ↔
      ∃ f j, q.automaton.IsFinal f ∧
        ReflTransGen (q.automaton.Moves q.text) (q.start, offset) (f, j) ∧
        (q.anchor.atEnd = true → j = q.text.size)) ∧
    ((∃ stop m, q.unlimited.attempt offset steps = (.accepted stop, m)) ↔
      ∃ j, Occurs q.text.toList (q.automaton.toεNFA q.start).accepts offset j ∧
        (q.anchor.atEnd = true → j = q.text.size)) := by
  have hreaches : (∃ stop m, q.unlimited.attempt offset steps = (.accepted stop, m)) ↔
      q.automaton.ReachesFinal q.text q.anchor.atEnd q.start offset :=
    (q.accepted_iff_isSome offset steps).trans
      (Setting.explore_isSome_iff (σ := q.unlimited.setting) hfree q.start offset _)
  exact ⟨hreaches, hreaches.trans (q.automaton.reachesFinal_iff_occurs _ _ _ _)⟩

/-- Two states that lead to each other without taking anything, and three final states, one of which
cannot be reached and one of which is reached before the end of the text. -/
theorem attempt_reaches_cycle :
    ∃ q : Query, q.automaton.CaptureFree ∧ q.anchor.atEnd = true ∧
      (∃ f j, q.automaton.IsFinal f ∧
        ReflTransGen (q.automaton.Moves q.text) (0, 0) (f, j) ∧ j = q.text.size) ∧
      ∃ j, Occurs q.text.toList (q.automaton.toεNFA 0).accepts 0 j ∧ j = q.text.size := by
  let q : Query :=
    { automaton := ⟨#[⟨.groupStart 0, [⟨none, 1⟩]⟩,
        ⟨.plain, [⟨none, 0⟩, ⟨some .any, 2⟩]⟩,
        ⟨.groupEnd 0, [⟨none, 1⟩, ⟨none, 3⟩, ⟨some (.literal 'b'), 5⟩]⟩,
        ⟨.final, []⟩, ⟨.final, [⟨none, 0⟩]⟩, ⟨.final, []⟩]⟩
      groups := 1
      start := 0
      anchor := ⟨false, true⟩
      text := #['a', 'a', 'b']
      limit := none }
  have hfree : q.automaton.CaptureFree := by
    intro number state hs
    have hedges : ∀ s ∈ q.automaton.states.toList, s.CaptureFree := by
      simp [q, State.CaptureFree, Edge.CaptureFree]
    exact hedges state (Array.mem_toList_iff.2 (Array.mem_of_getElem? hs))
  have haccepted : ∃ stop m, q.unlimited.attempt 0 0 = (.accepted stop, m) :=
    ⟨3, (q.unlimited.attempt 0 0).2, by decide +kernel⟩
  obtain ⟨f, j, hf, hmoves, hend⟩ := (attempt_reaches q hfree 0 0).1.1 haccepted
  obtain ⟨stop, hword, hstop⟩ := (attempt_reaches q hfree 0 0).2.1 haccepted
  exact ⟨q, hfree, rfl, ⟨f, j, hf, hmoves, hend rfl⟩, stop, hword, hstop rfl⟩

end Query

end PatternSearch
