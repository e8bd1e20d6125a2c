import Mathlib.Logic.Basic
import PatternSearch.Proofs.Lockstep
import PatternSearch.Proofs.Membership
import PatternSearch.Regex

/-!
# Other spellings of a pattern

A shorthand, a literal character and the matcher of any character could each be written as a set. A
pattern in which some of them are (`Choice.Respelled`) is compiled to an automaton with as many
states, and a search for it makes the same explorations and reports the same
(`Regex.search_respelled`).

Compiling a pattern does nothing with its matchers but to put them on edges, so changing them before
or after makes no difference (`Automaton.map_ofChoice`). And a machine does nothing with the matcher
of an edge but to ask what it takes (`Machine.step_map`).
-/

namespace PatternSearch

/-! ## Changing matchers -/

section Map

variable (f : Matcher → Matcher)

mutual

/-- The same term with other matchers. -/
def Term.map : Term → Term
  | .atom m => .atom (f m)
  | .group index body => .group index body.map
  | .quantified q t => .quantified q t.map
termination_by structural t => t

def Branch.map : Branch → Branch
  | .nil => .nil
  | .cons t rest => .cons t.map rest.map
termination_by structural b => b

def Choice.map : Choice → Choice
  | .only b => .only b.map
  | .or b rest => .or b.map rest.map
termination_by structural c => c

end

def Edge.map (e : Edge) : Edge :=
  { e with matcher? := e.matcher?.map f }

def State.map (s : State) : State :=
  { s with edges := s.edges.map (Edge.map f) }

/-- The same automaton with other matchers on its edges. -/
def Automaton.map (a : Automaton) : Automaton :=
  ⟨a.states.map (State.map f)⟩

namespace Automaton

variable (a : Automaton)

@[simp] theorem size_map : (a.map f).size = a.size :=
  Array.size_map

@[simp] theorem map_addState (marker : Marker) :
    (a.addState marker).map f = (a.map f).addState marker := by
  simp [map, addState, State.map]

theorem map_addEdge (source : Nat) (e : Edge) :
    (a.addEdge source e).map f = (a.map f).addEdge source (e.map f) := by
  have hstate : State.map f ∘ (fun s => { s with edges := s.edges ++ [e] }) =
      (fun s => { s with edges := s.edges ++ [e.map f] }) ∘ State.map f := by
    funext s
    simp [State.map]
  apply congrArg Automaton.mk
  apply Array.ext_getElem?
  intro i
  simp only [map, addEdge, Array.getElem?_map, Array.getElem?_modify]
  split
  · simp only [Option.map_map, hstate]
  · rfl

@[simp] theorem map_addFree (source target : Nat) :
    (a.addFree source target).map f = (a.map f).addFree source target :=
  a.map_addEdge f source ⟨none, target⟩

@[simp] theorem map_addConsuming (source : Nat) (m : Matcher) (target : Nat) :
    (a.addConsuming source m target).map f = (a.map f).addConsuming source (f m) target :=
  a.map_addEdge f source ⟨some m, target⟩

theorem addBypass_map (inner : Fragment) :
    (a.map f).addBypass inner = ((a.addBypass inner).1, (a.addBypass inner).2.map f) := by
  simp [addBypass]

theorem addQuantifier_map (q : Quantifier) (inner : Fragment) :
    (a.map f).addQuantifier q inner =
      ((a.addQuantifier q inner).1, (a.addQuantifier q inner).2.map f) := by
  have hreturn : (a.map f).addReturn inner = (a.addReturn inner).map f :=
    (a.map_addFree f inner.exit inner.entry).symm
  cases q with
  | optional => exact a.addBypass_map f inner
  | plus => exact congrArg (Prod.mk inner) hreturn
  | star =>
    simp only [addQuantifier, hreturn]
    exact (a.addReturn inner).addBypass_map f inner

mutual

/-- Changing the matchers of a term before it is added changes those on its edges. -/
theorem addTerm_map (a : Automaton) :
    ∀ t : Term, (a.map f).addTerm (t.map f) = ((a.addTerm t).1, (a.addTerm t).2.map f)
  | .atom m => by simp [Term.map, addTerm, addAtom]
  | .group index body => by
    simp only [Term.map, addTerm, size_map, ← map_addState, addChoice_map _ _ _ body]
  | .quantified q t => by
    simp only [Term.map, addTerm, addTerm_map a t, addQuantifier_map]

theorem addBranch_map (a : Automaton) (tail : Nat) :
    ∀ b : Branch, (a.map f).addBranch tail (b.map f) =
      ((a.addBranch tail b).1, (a.addBranch tail b).2.map f)
  | .nil => rfl
  | .cons t rest => by
    simp only [Branch.map, addBranch, addTerm_map a t, addBranch_map _ tail rest, map_addFree]

theorem addChoice_map (a : Automaton) (source tail : Nat) :
    ∀ c : Choice, (a.map f).addChoice source (c.map f) tail = (a.addChoice source c tail).map f
  | .only b => by
    simp only [Choice.map, addChoice, addBranch_map a tail b, map_addFree]
  | .or b rest => by
    simp only [Choice.map, addChoice, addBranch_map a tail b, ← map_addFree,
      addChoice_map _ source tail rest]

end

/-- **Changing the matchers of a pattern changes those on the edges of its automaton**, and nothing
else. -/
theorem map_ofChoice (body : Choice) : ofChoice (body.map f) = (ofChoice body).map f := by
  have hempty : ({} : Automaton).map f = {} := by simp [map]
  simp only [ofChoice, ← addChoice_map, map_addState, hempty]

end Automaton

/-- The same setting with other matchers on the edges of the automaton. -/
def Setting.map (σ : Setting) : Setting :=
  { σ with automaton := σ.automaton.map f }

/-- The same search with other matchers on the edges of the automaton. -/
def Query.map (q : Query) : Query :=
  { q with automaton := q.automaton.map f }

end Map

/-! ## Matchers that take the same -/

section TakesTheSame

variable {f : Matcher → Matcher}
  (hf : ∀ m text offset captures,
    (f m).consume text offset captures = m.consume text offset captures)

include hf

theorem Setting.follow_map (σ : Setting) (captures : Captures) (offset : Nat)
    (edges : List Edge) :
    (σ.map f).follow captures offset (edges.map (Edge.map f)) = σ.follow captures offset edges := by
  have hedge : (σ.map f).follow? captures offset ∘ Edge.map f = σ.follow? captures offset := by
    funext e
    simp only [Function.comp_apply, follow?, Edge.map]
    cases e.matcher? with
    | none => rfl
    | some m =>
      simp only [Option.map_some, hf]
      rfl
  rw [follow, List.filterMap_map, hedge]
  rfl

namespace Machine

theorem visit_map (σ : Setting) (m : Machine) (number offset : Nat) (state : State)
    (previous : Option Nat) :
    m.visit (σ.map f) number offset (state.map f) previous =
      m.visit σ number offset state previous := by
  have hfollow := fun captures => σ.follow_map hf captures offset state.edges
  simp only [visit, State.map, hfollow]
  rfl

/-- **A machine makes the same turn** on an automaton whose matchers take the same. -/
theorem step_map (σ : Setting) (m : Machine) : m.step (σ.map f) = m.step σ := by
  obtain ⟨captures, visits, stack, steps⟩ := m
  match stack with
  | [] => rfl
  | .restoreSlot group slot :: stack => rfl
  | .leave number offset previous :: stack => rfl
  | .explore number offset :: stack =>
    have hover : (σ.map f).isOver = σ.isOver := rfl
    have hstate : (σ.map f).automaton.states[number]? =
        σ.automaton.states[number]?.map (State.map f) := Array.getElem?_map
    simp only [step, explore, hover, hstate]
    cases σ.automaton.states[number]? with
    | none => rfl
    | some state =>
      cases visits[number]? with
      | none => rfl
      | some previous => simp only [Option.map_some, visit_map hf]

theorem run_map (σ : Setting) (m : Machine) : m.run (σ.map f) = m.run σ := by
  have habreast {m m' : Machine} (h : m = m') :
      Abreast Eq m' (m.step (σ.map f)) (m'.step σ) := by
    subst h
    rw [step_map hf]
    cases m.step σ with
    | halt verdict halted => exact .halt rfl
    | next next => exact .next rfl
  obtain ⟨hverdict, hm⟩ := run_abreast habreast (Eq.refl m)
  exact Prod.ext hverdict hm

end Machine

/-- Searches report the same on an automaton whose matchers take the same. -/
theorem Query.search_map (q : Query) : (q.map f).search = q.search := by
  have hattempt (offset steps : Nat) : (q.map f).attempt offset steps = q.attempt offset steps := by
    have hinitial : Machine.initial (q.map f).setting q.groups q.start offset steps =
        .initial q.setting q.groups q.start offset steps := by
      simp only [Machine.initial, setting, map, Automaton.size_map]
    exact (Machine.run_map hf q.setting _).trans (congrArg (Machine.run q.setting) hinitial)
  have halike : AttemptsAlike Eq (q.map f) q := fun offset steps => by
    simp only [hattempt, and_self]
  exact (search_alike halike rfl rfl).eq

end TakesTheSame

/-! ## Choosing what to spell out -/

mutual

/-- A term in which some of the matchers are written as sets. -/
inductive Term.Respelled : Term → Term → Prop
  | kept (m : Matcher) : Term.Respelled (.atom m) (.atom m)
  | asSet (m : Matcher) : Term.Respelled (.atom m) (.atom m.asSet)
  | group (index : Nat) {body body' : Choice} (h : Choice.Respelled body body') :
      Term.Respelled (.group index body) (.group index body')
  | quantified (q : Quantifier) {t t' : Term} (h : Term.Respelled t t') :
      Term.Respelled (.quantified q t) (.quantified q t')

inductive Branch.Respelled : Branch → Branch → Prop
  | nil : Branch.Respelled .nil .nil
  | cons {t t' : Term} {rest rest' : Branch} (ht : Term.Respelled t t')
      (hrest : Branch.Respelled rest rest') : Branch.Respelled (.cons t rest) (.cons t' rest')

inductive Choice.Respelled : Choice → Choice → Prop
  | only {b b' : Branch} (h : Branch.Respelled b b') : Choice.Respelled (.only b) (.only b')
  | or {b b' : Branch} {rest rest' : Choice} (hb : Branch.Respelled b b')
      (hrest : Choice.Respelled rest rest') : Choice.Respelled (.or b rest) (.or b' rest')

end

mutual

/-- Whichever matchers are written as sets, writing all of them so comes to the same. -/
theorem Term.Respelled.map_eq : {t t' : Term} → t.Respelled t' →
    t'.map Matcher.asSet = t.map Matcher.asSet
  | _, _, .kept _ => rfl
  | _, _, .asSet m => congrArg Term.atom m.asSet_asSet
  | _, _, .group index h => congrArg (Term.group index) h.map_eq
  | _, _, .quantified q h => congrArg (Term.quantified q) h.map_eq

theorem Branch.Respelled.map_eq : {b b' : Branch} → b.Respelled b' →
    b'.map Matcher.asSet = b.map Matcher.asSet
  | _, _, .nil => rfl
  | _, _, .cons ht hrest => congrArg₂ Branch.cons ht.map_eq hrest.map_eq

theorem Choice.Respelled.map_eq : {c c' : Choice} → c.Respelled c' →
    c'.map Matcher.asSet = c.map Matcher.asSet
  | _, _, .only h => congrArg Choice.only h.map_eq
  | _, _, .or hb hrest => congrArg₂ Choice.or hb.map_eq hrest.map_eq

end

namespace Regex

/-- Nothing changes if all matchers of a pattern are written as sets. -/
theorem search_asSet (source : String) (p : Pattern) (text : Array Char) (limit : Option Nat) :
    (ofPattern source { p with body := p.body.map Matcher.asSet }).stateCount =
        (ofPattern source p).stateCount ∧
      ((ofPattern source { p with body := p.body.map Matcher.asSet }).query text limit).search =
        ((ofPattern source p).query text limit).search := by
  have hautomaton : (ofPattern source { p with body := p.body.map Matcher.asSet }).automaton =
      (ofPattern source p).automaton.map Matcher.asSet :=
    Automaton.map_ofChoice Matcher.asSet p.body
  have hquery : (ofPattern source { p with body := p.body.map Matcher.asSet }).query text limit =
      ((ofPattern source p).query text limit).map Matcher.asSet := by
    simp only [query, Query.map, hautomaton]
    rfl
  rw [hquery, stateCount, hautomaton]
  exact ⟨Automaton.size_map _ _, Query.search_map Matcher.consume_asSet _⟩

/-- **It makes no difference how a matcher is spelled.** Writing any shorthands, literal characters
and matchers of any character of a pattern as sets changes neither the number of states nor what a
search reports: the match, the captures, the explorations, or that they went over the limit. -/
theorem search_respelled {p : Pattern} {body : Choice} (h : p.body.Respelled body)
    (source : String) (text : Array Char) (limit : Option Nat) :
    (ofPattern source { p with body }).stateCount = (ofPattern source p).stateCount ∧
      ((ofPattern source { p with body }).query text limit).search =
        ((ofPattern source p).query text limit).search := by
  obtain ⟨hsize, hsearch⟩ := search_asSet source p text limit
  obtain ⟨hsize', hsearch'⟩ := search_asSet source { p with body } text limit
  simp only [h.map_eq] at hsize' hsearch'
  exact ⟨hsize'.symm.trans hsize, hsearch'.symm.trans hsearch⟩

/-- A loop in which the shorthand is written as a set and the literal is not, and a matcher of any
character after it. -/
theorem search_respelled_loop :
    ∃ (p : Pattern) (body : Choice), p.body.Respelled body ∧ p.body ≠ body ∧
      ((ofPattern "(\\d|a)+." { p with body }).query #['b', '1', 'a', '2'] none).search.outcome =
        .matched ⟨1, 4⟩ ∧
      ((ofPattern "(\\d|a)+." { p with body }).query #['b', '1', 'a', '2'] none).search.captures.texts
        #['b', '1', 'a', '2'] = [some "a"] := by
  let p : Pattern :=
    { anchor := ⟨false, false⟩
      body := .only
        (.cons (.quantified .plus (.group 0 (.or
          (.cons (.atom (.shorthand .digit)) .nil) (.only (.cons (.atom (.literal 'a')) .nil)))))
        (.cons (.atom .any) .nil))
      groupCount := 1 }
  let body : Choice := .only
    (.cons (.quantified .plus (.group 0 (.or
      (.cons (.atom (Matcher.shorthand .digit).asSet) .nil)
      (.only (.cons (.atom (.literal 'a')) .nil)))))
    (.cons (.atom Matcher.any.asSet) .nil))
  have hrespelled : p.body.Respelled body :=
    .only (.cons (.quantified .plus (.group 0 (.or (.cons (.asSet _) .nil)
      (.only (.cons (.kept _) .nil))))) (.cons (.asSet _) .nil))
  obtain ⟨-, hsearch⟩ := search_respelled hrespelled "(\\d|a)+." #['b', '1', 'a', '2'] none
  refine ⟨p, body, hrespelled, ?_, ?_, ?_⟩
  · simp [p, body, Matcher.asSet]
  · rw [hsearch]
    decide +kernel
  · rw [hsearch]
    decide +kernel

end Regex

end PatternSearch
