import Mathlib.Logic.Relation
import Mathlib.Order.WellFounded
import PatternSearch.Proofs.Exploration
import PatternSearch.Proofs.Layout

/-!
# Idling

An exploration idles while it follows edges without taking a character. The check that keeps it from
coming back to a state at the same offset is there to end idling; but where the body of every loop
takes characters (`Choice.LoopsConsume`), idling ends anyway (`Automaton.wellFounded_idles`), and
the check never applies (`Setting.Fresh.exists_previous`).

The first of the two is about the compiled automaton alone. Its loops go through the way into a term
that consumes, and idling cannot get from there to the way out, so that it stays in a part of the
term where, by recursion, it ends. The second rests on what the visits on the way to a state can be:
they lie at earlier offsets, or idling leads from them to the state (`Setting.Fresh`).
-/

namespace PatternSearch

open Relation

/-- An edge that may take nothing: a free one, or one for a backreference, whose group may have
captured the empty text. -/
def Edge.Idle (e : Edge) : Prop :=
  ∀ m, e.matcher? = some m → ∃ group, m = .backref group

/-- An edge that may take nothing leads to the first state from the second. -/
def Automaton.Idles (a : Automaton) (later earlier : Nat) : Prop :=
  ∃ state, a.states[earlier]? = some state ∧ ∃ e ∈ state.edges, e.Idle ∧ e.target = later

theorem Edge.idle_of_arrival? {e : Edge} {text : Array Char} {offset : Nat} {captures : Captures}
    (h : e.arrival? text offset captures = some offset) : e.Idle := by
  intro m hm
  unfold arrival? at h
  rw [hm] at h
  obtain ⟨n, hn, hzero⟩ := Option.map_eq_some_iff.1 h
  have hn0 : n = 0 := by omega
  subst hn0
  unfold Matcher.consume at hn
  split at hn
  · cases hn
  · cases m with
    | backref group => exact ⟨group, rfl⟩
    | literal | shorthand | any | set =>
      simp only at hn
      split at hn <;> cases hn

/-! ## Terms that consume -/

mutual

/-- A term takes at least one character, by its form. -/
@[simp]
def Term.Consumes : Term → Prop
  | .atom m => ∀ group, m ≠ .backref group
  | .group _ body => body.Consumes
  | .quantified .plus t => t.Consumes
  | .quantified _ _ => False
termination_by structural t => t

/-- One of the terms of a branch consumes. -/
@[simp]
def Branch.Consumes : Branch → Prop
  | .nil => False
  | .cons t rest => t.Consumes ∨ rest.Consumes
termination_by structural b => b

/-- All branches of a choice consume. -/
@[simp]
def Choice.Consumes : Choice → Prop
  | .only b => b.Consumes
  | .or b rest => b.Consumes ∧ rest.Consumes
termination_by structural c => c

end

mutual

/-- Whatever is repeated in a term consumes. -/
@[simp]
def Term.LoopsConsume : Term → Prop
  | .atom _ => True
  | .group _ body => body.LoopsConsume
  | .quantified .optional t => t.LoopsConsume
  | .quantified _ t => t.Consumes ∧ t.LoopsConsume
termination_by structural t => t

@[simp]
def Branch.LoopsConsume : Branch → Prop
  | .nil => True
  | .cons t rest => t.LoopsConsume ∧ rest.LoopsConsume
termination_by structural b => b

@[simp]
def Choice.LoopsConsume : Choice → Prop
  | .only b => b.LoopsConsume
  | .or b rest => b.LoopsConsume ∧ rest.LoopsConsume
termination_by structural c => c

end

/-! ## Compiled automata -/

section Block

variable {a : Automaton} {lo tail : Nat} {post : List Edge}

/-- Idling from a state ends if it ends wherever the edges of the state lead. -/
theorem Automaton.acc_idles {number : Nat} {state : State}
    (hs : a.states[number]? = some state)
    (h : ∀ e ∈ state.edges, e.Idle → Acc a.Idles e.target) : Acc a.Idles number := by
  refine ⟨number, ?_⟩
  rintro later ⟨state', hs', e, he, hidle, rfl⟩
  rw [hs] at hs'
  cases hs'
  exact h e he hidle

theorem Automaton.acc_free {target : Nat} (h : Acc a.Idles target) :
    ∀ e ∈ [Edge.free target], Acc a.Idles e.target := by
  intro e he
  cases List.mem_singleton.1 he
  exact h

theorem Automaton.acc_cons {target : Nat} (h : Acc a.Idles target)
    (hpost : ∀ e ∈ post, Acc a.Idles e.target) :
    ∀ e ∈ Edge.free target :: post, Acc a.Idles e.target := by
  intro e he
  rcases List.mem_cons.1 he with rfl | he
  · exact h
  · exact hpost e he

/-- A block with a bypass. -/
theorem Term.acc_bypass {t : Term}
    (hentry : a.states[lo + t.width]? =
      some ⟨.plain, [.free (t.fragment lo).entry, .free (lo + t.width + 1)]⟩)
    (hexit : Acc a.Idles (lo + t.width + 1))
    (hinner : ∀ number, lo ≤ number → number < lo + t.width → Acc a.Idles number) (number : Nat)
    (hle : lo ≤ number) (hlt : number < lo + (t.width + 2)) : Acc a.Idles number := by
  by_cases hin : number < lo + t.width
  · exact hinner number hle hin
  · have hout : number = lo + t.width ∨ number = lo + t.width + 1 := by omega
    rcases hout with rfl | rfl
    · have hfirst := hinner _ (t.entry_mem lo).1 (t.entry_mem lo).2
      exact Automaton.acc_idles hentry fun e he _ =>
        Automaton.acc_cons hfirst (Automaton.acc_free hexit) e he
    · exact hexit

mutual

/-- Idling from the way into a term that consumes does not get out of the term. -/
theorem Term.acc_entry {lo : Nat} {post : List Edge} : ∀ (t : Term),
    a.HasBlock lo (t.layout lo post) → t.LoopsConsume → t.Consumes →
      Acc a.Idles (t.fragment lo).entry
  | .atom m => by
    intro hblock hloops hconsumes
    refine Automaton.acc_idles hblock.head fun e he hidle => ?_
    cases List.mem_singleton.1 he
    obtain ⟨group, hm⟩ := hidle m rfl
    exact absurd hm (hconsumes group)
  | .group index body => by
    intro hblock hloops hconsumes
    exact Automaton.acc_idles hblock.head fun e he _ =>
      body.acc_entries hblock.tail.tail hloops hconsumes e he
  | .quantified .plus t => by
    intro hblock hloops hconsumes
    exact t.acc_entry hblock hloops.2 hconsumes
  | .quantified .optional t => fun _ _ hconsumes => hconsumes.elim
  | .quantified .star t => fun _ _ hconsumes => hconsumes.elim

theorem Branch.acc_entry {lo tail : Nat} : ∀ (b : Branch),
    a.HasBlock lo (b.layout lo tail) → b.LoopsConsume → b.Consumes →
      Acc a.Idles (b.entry lo tail)
  | .nil => fun _ _ hconsumes => hconsumes.elim
  | .cons t rest => by
    intro hblock hloops hconsumes
    obtain ⟨hleft, hright⟩ := hblock.cons
    rcases hconsumes with hterm | hrest
    · exact t.acc_entry hleft hloops.1 hterm
    · have hright := hblock.right
      rw [t.length_layout] at hright
      have hnext := rest.acc_entry hright hloops.2 hrest
      exact t.acc_block hleft hloops.1 (Automaton.acc_free hnext) _ (t.entry_mem lo).1
        (t.entry_mem lo).2

theorem Choice.acc_entries {lo tail : Nat} : ∀ (c : Choice),
    a.HasBlock lo (c.layout lo tail) → c.LoopsConsume → c.Consumes →
      ∀ e ∈ c.entries lo tail, Acc a.Idles e.target
  | .only b => by
    intro hblock hloops hconsumes
    exact Automaton.acc_free (b.acc_entry hblock hloops hconsumes)
  | .or b rest => by
    intro hblock hloops hconsumes
    obtain ⟨hleft, hright⟩ := hblock.or
    exact Automaton.acc_cons (b.acc_entry hleft hloops.1 hconsumes.1)
      (rest.acc_entries hright hloops.2 hconsumes.2)

/-- Idling in the block of a term ends if it ends after the block. -/
theorem Term.acc_block {lo : Nat} {post : List Edge} : ∀ (t : Term),
    a.HasBlock lo (t.layout lo post) → t.LoopsConsume → (∀ e ∈ post, Acc a.Idles e.target) →
      ∀ number, lo ≤ number → number < lo + t.width → Acc a.Idles number
  | .atom m => by
    intro hblock hloops hpost number hle hlt
    have hexit : Acc a.Idles (lo + 1) :=
      Automaton.acc_idles hblock.tail.head fun e he _ => hpost e he
    rcases Nat.eq_or_lt_of_le hle with rfl | hgt
    · refine Automaton.acc_idles hblock.head fun e he _ => ?_
      cases List.mem_singleton.1 he
      exact hexit
    · rw [Term.width] at hlt
      have hnumber : number = lo + 1 := by omega
      rw [hnumber]
      exact hexit
  | .group index body => by
    intro hblock hloops hpost number hle hlt
    have hexit : Acc a.Idles (lo + 1) :=
      Automaton.acc_idles hblock.tail.head fun e he _ => hpost e he
    obtain ⟨hentries, hbody⟩ := body.acc_block hblock.tail.tail hloops hexit
    rcases Nat.eq_or_lt_of_le hle with rfl | hgt
    · exact Automaton.acc_idles hblock.head fun e he _ => hentries e he
    · rcases Nat.eq_or_lt_of_le hgt with rfl | hgt
      · exact hexit
      · rw [Term.width] at hlt
        exact hbody number hgt (by omega)
  | .quantified .optional t => by
    intro hblock hloops hpost number hle hlt
    obtain ⟨hinner, hentry, hexit⟩ := hblock.bypass
    have hout : Acc a.Idles (lo + t.width + 1) :=
      Automaton.acc_idles hexit fun e he _ => hpost e he
    have hin := t.acc_block hinner hloops (Automaton.acc_free hout)
    exact Term.acc_bypass hentry hout hin number hle hlt
  | .quantified .plus t => by
    intro hblock hloops hpost number hle hlt
    have hentry := t.acc_entry hblock hloops.2 hloops.1
    exact t.acc_block hblock hloops.2 (Automaton.acc_cons hentry hpost) number hle hlt
  | .quantified .star t => by
    intro hblock hloops hpost number hle hlt
    obtain ⟨hinner, hentry, hexit⟩ := hblock.bypass
    have hout : Acc a.Idles (lo + t.width + 1) :=
      Automaton.acc_idles hexit fun e he _ => hpost e he
    have hback := t.acc_entry hinner hloops.2 hloops.1
    have hin := t.acc_block hinner hloops.2 (Automaton.acc_cons hback (Automaton.acc_free hout))
    exact Term.acc_bypass hentry hout hin number hle hlt

theorem Branch.acc_block {lo tail : Nat} : ∀ (b : Branch),
    a.HasBlock lo (b.layout lo tail) → b.LoopsConsume → Acc a.Idles tail →
      Acc a.Idles (b.entry lo tail) ∧
        ∀ number, lo ≤ number → number < lo + b.width → Acc a.Idles number
  | .nil => by
    intro hblock hloops htail
    refine ⟨htail, fun number hle hlt => ?_⟩
    rw [Branch.width] at hlt
    omega
  | .cons t rest => by
    intro hblock hloops htail
    obtain ⟨hleft, hright⟩ := hblock.cons
    obtain ⟨hnext, hrest⟩ := rest.acc_block hright hloops.2 htail
    have hterm := t.acc_block hleft hloops.1 (Automaton.acc_free hnext)
    refine ⟨hterm _ (t.entry_mem lo).1 (t.entry_mem lo).2, fun number hle hlt => ?_⟩
    by_cases hin : number < lo + t.width
    · exact hterm number hle hin
    · rw [Branch.width] at hlt
      exact hrest number (by omega) (by omega)

theorem Choice.acc_block {lo tail : Nat} : ∀ (c : Choice),
    a.HasBlock lo (c.layout lo tail) → c.LoopsConsume → Acc a.Idles tail →
      (∀ e ∈ c.entries lo tail, Acc a.Idles e.target) ∧
        ∀ number, lo ≤ number → number < lo + c.width → Acc a.Idles number
  | .only b => by
    intro hblock hloops htail
    obtain ⟨hentry, hbranch⟩ := b.acc_block hblock hloops htail
    exact ⟨Automaton.acc_free hentry, hbranch⟩
  | .or b rest => by
    intro hblock hloops htail
    obtain ⟨hleft, hright⟩ := hblock.or
    obtain ⟨hentry, hbranch⟩ := b.acc_block hleft hloops.1 htail
    obtain ⟨hentries, hrest⟩ := rest.acc_block hright hloops.2 htail
    refine ⟨Automaton.acc_cons hentry hentries, fun number hle hlt => ?_⟩
    by_cases hin : number < lo + b.width
    · exact hbranch number hle hin
    · rw [Choice.width] at hlt
      exact hrest number (by omega) (by omega)

end

end Block

/-- **Idling ends** in the automaton of a pattern whose loops consume. -/
theorem Automaton.wellFounded_idles {body : Choice} (hloops : body.LoopsConsume) :
    WellFounded (ofChoice body).Idles := by
  have hblock := hasBlock_ofChoice body
  have hfinal : Acc (ofChoice body).Idles 1 := acc_idles hblock.tail.head nofun
  obtain ⟨hentries, hbody⟩ := body.acc_block hblock.tail.tail hloops hfinal
  refine ⟨fun number => ?_⟩
  by_cases hstart : number = 0
  · rw [hstart]
    exact acc_idles hblock.head fun e he _ => hentries e he
  by_cases hone : number = 1
  · rw [hone]
    exact hfinal
  by_cases hin : number < 2 + body.width
  · exact hbody number (by omega) hin
  · -- there is no such state
    refine ⟨number, ?_⟩
    rintro later ⟨state, hs, -⟩
    have hlt := (Array.getElem?_eq_some_iff.1 hs).1
    rw [ofChoice_eq, List.size_toArray, List.length_cons, List.length_cons,
      body.length_layout] at hlt
    omega

/-! ## Explorations -/

namespace Setting

variable {σ : Setting} {visits : Array (Option Nat)} {number offset : Nat} {captures : Captures}
  {state : State}

/-- The visits on the way to a state at `offset` lie at earlier offsets, unless they are to states
from which idling leads there. -/
structure Fresh (σ : Setting) (visits : Array (Option Nat)) (number offset : Nat) : Prop where
  size : visits.size = σ.automaton.size
  earlier : ∀ visited o, visits[visited]? = some (some o) →
    o < offset ∨ o = offset ∧ TransGen σ.automaton.Idles number visited

theorem fresh_replicate (σ : Setting) (number offset : Nat) :
    σ.Fresh (Array.replicate σ.automaton.size none) number offset := by
  refine ⟨Array.size_replicate, fun visited o hv => ?_⟩
  rw [Array.getElem?_replicate] at hv
  split at hv <;> cases hv

/-- Along an edge, visits stay as they have to be. -/
theorem Fresh.move {e : Edge} {later : Nat} (h : σ.Fresh visits number offset)
    (hs : σ.automaton.states[number]? = some state) (he : e ∈ state.edges)
    (ha : e.arrival? σ.text offset captures = some later) :
    σ.Fresh (visits.setIfInBounds number (some offset)) e.target later := by
  refine ⟨by rw [Array.size_setIfInBounds, h.size], fun visited o hv => ?_⟩
  have hle := Edge.le_of_arrival? ha
  have hvisited : o < offset ∨ o = offset ∧ ReflTransGen σ.automaton.Idles number visited := by
    by_cases hnumber : number = visited
    · subst hnumber
      have hlt : number < visits.size := h.size ▸ (Array.getElem?_eq_some_iff.1 hs).1
      rw [Array.getElem?_setIfInBounds_self_of_lt hlt] at hv
      cases hv
      exact .inr ⟨rfl, .refl⟩
    · rw [Array.getElem?_setIfInBounds_ne hnumber] at hv
      exact (h.earlier visited o hv).imp_right fun ⟨heq, hidles⟩ => ⟨heq, hidles.to_reflTransGen⟩
  rcases Nat.eq_or_lt_of_le hle with heq | hlt
  · subst heq
    have hidle : σ.automaton.Idles e.target number :=
      ⟨state, hs, e, he, Edge.idle_of_arrival? ha, rfl⟩
    exact hvisited.imp_right fun ⟨heq, hidles⟩ => ⟨heq, .head' hidle hidles⟩
  · refine .inl ?_
    rcases hvisited with hearlier | ⟨heq, -⟩ <;> omega

/-- **Where idling ends, no visit is in the way.** -/
theorem Fresh.exists_previous (hidles : WellFounded σ.automaton.Idles)
    (h : σ.Fresh visits number offset) (hs : σ.automaton.states[number]? = some state) :
    ∃ previous, visits[number]? = some previous ∧ previous ≠ some offset := by
  have hlt : number < visits.size := h.size ▸ (Array.getElem?_eq_some_iff.1 hs).1
  refine ⟨visits[number], Array.getElem?_eq_getElem hlt, fun heq => ?_⟩
  have hv : visits[number]? = some (some offset) := by
    rw [Array.getElem?_eq_getElem hlt, heq]
  rcases h.earlier number offset hv with hearlier | ⟨-, hcycle⟩
  · omega
  · exact hidles.transGen.irrefl.irrefl number hcycle

end Setting

end PatternSearch
