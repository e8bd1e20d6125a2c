import PatternSearch.Proofs.Layout

/-!
# Blocks are closed

Adding a part of a pattern to an automaton leaves the states that are there as they are, and the
states that are added keep to themselves. The block of a term is closed altogether: its edges lead
to states of the block, and what comes after the term is joined to the way out, which is the only
state that may have no edge yet. If it has any, they lead back to the way in. A branch and a choice
have no dead end, and the only way out of them is their tail (`Automaton.blocks_are_closed`).

Atoms, groups and quantifiers cost two states each, but for `+`, which only adds an edge
(`Term.pairCount`). It is because of `+` that a block is not done when its states are there: each
`+` around a term gives the way out of the innermost block one more edge. So the edges of a block
are looked at in its layout, where they all are, whatever comes after it (`Term.continue_layout`).
-/

namespace PatternSearch

/-! ## How many states there are -/

mutual

/-- The number of atoms, groups and quantifiers in a term, those with `+` left out. -/
def Term.pairCount : Term → Nat
  | .atom _ => 1
  | .group _ body => body.pairCount + 1
  | .quantified .plus t => t.pairCount
  | .quantified .optional t | .quantified .star t => t.pairCount + 1
termination_by structural t => t

def Branch.pairCount : Branch → Nat
  | .nil => 0
  | .cons t rest => t.pairCount + rest.pairCount
termination_by structural b => b

def Choice.pairCount : Choice → Nat
  | .only b => b.pairCount
  | .or b rest => b.pairCount + rest.pairCount
termination_by structural c => c

end

mutual

theorem Term.width_eq : ∀ t : Term, t.width = 2 * t.pairCount
  | .atom _ => rfl
  | .group _ body => by rw [Term.width, Term.pairCount, body.width_eq, Nat.mul_succ]
  | .quantified .plus t => t.width_eq
  | .quantified .optional t => by
    rw [Term.width, Term.pairCount, t.width_eq, Nat.mul_succ]
    nofun
  | .quantified .star t => by
    rw [Term.width, Term.pairCount, t.width_eq, Nat.mul_succ]
    nofun

theorem Branch.width_eq : ∀ b : Branch, b.width = 2 * b.pairCount
  | .nil => rfl
  | .cons t rest => by
    rw [Branch.width, Branch.pairCount, t.width_eq, rest.width_eq, Nat.mul_add]

theorem Choice.width_eq : ∀ c : Choice, c.width = 2 * c.pairCount
  | .only b => b.width_eq
  | .or b rest => by
    rw [Choice.width, Choice.pairCount, b.width_eq, rest.width_eq, Nat.mul_add]

end

/-! ## Where the edges of a block lead -/

/-- A state is one of those from `lo` up to `hi`, or one of `tails`. -/
def Within (lo hi : Nat) (tails : List Nat) (number : Nat) : Prop :=
  (lo ≤ number ∧ number < hi) ∨ number ∈ tails

/-- There are edges, and they lead to states from `lo` up to `hi` or to one of `tails`. -/
def Continue (lo hi : Nat) (tails : List Nat) (edges : List Edge) : Prop :=
  edges ≠ [] ∧ ∀ e ∈ edges, Within lo hi tails e.target

section Continue

variable {lo hi place tail target : Nat} {tails : List Nat} {edges post : List Edge}

theorem continue_free (h : Within lo hi tails target) : Continue lo hi tails [.free target] :=
  ⟨List.cons_ne_nil _ _, List.forall_mem_singleton.2 h⟩

theorem Continue.cons (h : Continue lo hi tails edges) (htarget : Within lo hi tails target) :
    Continue lo hi tails (.free target :: edges) :=
  ⟨List.cons_ne_nil _ _, List.forall_mem_cons.2 ⟨htarget, h.2⟩⟩

theorem Term.within_entry (t : Term) (hlo : lo ≤ place) (hhi : place + t.width ≤ hi) :
    Within lo hi tails (t.fragment place).entry := by
  obtain ⟨hge, hlt⟩ := t.entry_mem place
  exact .inl ⟨Nat.le_trans hlo hge, Nat.lt_of_lt_of_le hlt hhi⟩

theorem Branch.within_entry (b : Branch) (hlo : lo ≤ place) (hhi : place + b.width ≤ hi)
    (htail : Within lo hi tails tail) : Within lo hi tails (b.entry place tail) := by
  cases b with
  | nil => exact htail
  | cons t rest =>
    rw [Branch.width] at hhi
    exact t.within_entry hlo (by omega)

theorem Choice.continue_entries : ∀ (c : Choice) {place : Nat}, lo ≤ place →
    place + c.width ≤ hi → Within lo hi tails tail → Continue lo hi tails (c.entries place tail)
  | .only b, _, hlo, hhi, htail => continue_free (b.within_entry hlo hhi htail)
  | .or b rest, place, hlo, hhi, htail => by
    rw [Choice.width] at hhi
    have hrest : Continue lo hi tails (rest.entries (place + b.width) tail) :=
      rest.continue_entries (by omega) (by omega) htail
    exact hrest.cons (b.within_entry hlo (by omega) htail)

theorem continue_bypass {states : List State} {inner exit : Nat}
    (h : ∀ s ∈ states, Continue lo hi tails s.edges) (hinner : Within lo hi tails inner)
    (hexit : Within lo hi tails exit) (hpost : Continue lo hi tails post) :
    ∀ s ∈ states ++ [⟨.plain, [.free inner, .free exit]⟩, ⟨.plain, post⟩],
      Continue lo hi tails s.edges :=
  List.forall_mem_append.2 ⟨h, List.forall_mem_cons.2
    ⟨(continue_free hexit).cons hinner, List.forall_mem_singleton.2 hpost⟩⟩

mutual

/-- **The edges of a block lead to its states**, or to where the edges after it lead. -/
theorem Term.continue_layout {place : Nat} {post : List Edge} : ∀ (t : Term), lo ≤ place →
    place + t.width ≤ hi → Continue lo hi tails post →
    ∀ s ∈ t.layout place post, Continue lo hi tails s.edges
  | .atom m => by
    intro hlo hhi hpost
    rw [Term.width] at hhi
    have hexit : Within lo hi tails (place + 1) := .inl ⟨Nat.le_succ_of_le hlo, by omega⟩
    have hentry : Continue lo hi tails [⟨some m, place + 1⟩] :=
      ⟨List.cons_ne_nil _ _, List.forall_mem_singleton.2 hexit⟩
    exact List.forall_mem_cons.2 ⟨hentry, List.forall_mem_singleton.2 hpost⟩
  | .group index body => by
    intro hlo hhi hpost
    rw [Term.width] at hhi
    have hplace : lo ≤ place + 2 := Nat.le_add_right_of_le hlo
    have hbody : place + 2 + body.width ≤ hi := by omega
    have hexit : Within lo hi tails (place + 1) := .inl ⟨Nat.le_succ_of_le hlo, by omega⟩
    exact List.forall_mem_cons.2 ⟨body.continue_entries hplace hbody hexit,
      List.forall_mem_cons.2 ⟨hpost, body.continue_layout hplace hbody hexit⟩⟩
  | .quantified .optional t => by
    intro hlo hhi hpost
    have hhi : place + (t.width + 2) ≤ hi := hhi
    have hinner : place + t.width ≤ hi := by omega
    have hexit : Within lo hi tails (place + t.width + 1) := .inl ⟨by omega, by omega⟩
    exact continue_bypass (t.continue_layout hlo hinner (continue_free hexit))
      (t.within_entry hlo hinner) hexit hpost
  | .quantified .plus t => by
    intro hlo hhi hpost
    exact t.continue_layout hlo hhi (hpost.cons (t.within_entry hlo hhi))
  | .quantified .star t => by
    intro hlo hhi hpost
    have hhi : place + (t.width + 2) ≤ hi := hhi
    have hinner : place + t.width ≤ hi := by omega
    have hexit : Within lo hi tails (place + t.width + 1) := .inl ⟨by omega, by omega⟩
    have hentry : Within lo hi tails (t.fragment place).entry := t.within_entry hlo hinner
    exact continue_bypass (t.continue_layout hlo hinner ((continue_free hexit).cons hentry))
      hentry hexit hpost

theorem Branch.continue_layout {place tail : Nat} : ∀ (b : Branch), lo ≤ place →
    place + b.width ≤ hi → Within lo hi tails tail →
    ∀ s ∈ b.layout place tail, Continue lo hi tails s.edges
  | .nil => nofun
  | .cons t rest => by
    intro hlo hhi htail
    rw [Branch.width] at hhi
    have hplace : lo ≤ place + t.width := Nat.le_add_right_of_le hlo
    have hrest : place + t.width + rest.width ≤ hi := by omega
    have hnext : Within lo hi tails (rest.entry (place + t.width) tail) :=
      rest.within_entry hplace hrest htail
    exact List.forall_mem_append.2 ⟨t.continue_layout hlo (by omega) (continue_free hnext),
      rest.continue_layout hplace hrest htail⟩

theorem Choice.continue_layout {place tail : Nat} : ∀ (c : Choice), lo ≤ place →
    place + c.width ≤ hi → Within lo hi tails tail →
    ∀ s ∈ c.layout place tail, Continue lo hi tails s.edges
  | .only b => fun hlo hhi htail => b.continue_layout hlo hhi htail
  | .or b rest => by
    intro hlo hhi htail
    rw [Choice.width] at hhi
    exact List.forall_mem_append.2 ⟨b.continue_layout hlo (by omega) htail,
      rest.continue_layout (by omega) (by omega) htail⟩

end

end Continue

/-! ## The way out of a term -/

/-- The second of two states after the block of a term. -/
theorem Term.getElem?_bypass (t : Term) (place : Nat) (post : List Edge) (s s' : State) :
    (t.layout place post ++ [s, s'])[t.width + 1]? = some s' := by
  rw [List.getElem?_append_right (by simp), t.length_layout, Nat.add_sub_cancel_left]
  rfl

/-- The way out of a term leads back to the way in, as long as nothing comes after the term. -/
theorem Term.exit_layout (place : Nat) : ∀ (t : Term),
    ∃ k < t.width, ∃ marker returns, (t.fragment place).exit = place + k ∧
      (∀ e ∈ returns, e.target = (t.fragment place).entry) ∧
      ∀ post, (t.layout place post)[k]? = some ⟨marker, returns ++ post⟩
  | .atom m => ⟨1, Nat.one_lt_two, .plain, [], rfl, nofun, fun _ => rfl⟩
  | .group index body =>
    ⟨1, Nat.succ_lt_succ (Nat.succ_pos _), .groupEnd index, [], rfl, nofun, fun _ => rfl⟩
  | .quantified .plus t => by
    obtain ⟨k, hk, marker, returns, hexit, hreturns, hstate⟩ := t.exit_layout place
    refine ⟨k, hk, marker, returns ++ [.free (t.fragment place).entry], hexit, ?_, fun post => ?_⟩
    · exact List.forall_mem_append.2 ⟨hreturns, List.forall_mem_singleton.2 rfl⟩
    · rw [List.append_assoc]
      exact hstate _
  | .quantified .optional t =>
    ⟨t.width + 1, Nat.lt_succ_self _, .plain, [], rfl, nofun, fun _ => t.getElem?_bypass _ _ _ _⟩
  | .quantified .star t =>
    ⟨t.width + 1, Nat.lt_succ_self _, .plain, [], rfl, nofun, fun _ => t.getElem?_bypass _ _ _ _⟩

/-- As long as nothing comes after a term, its states have edges, all of them within its block, but
for the way out, which need not have any. -/
theorem Term.continue_or_exit {place k : Nat} {s : State} (t : Term)
    (hs : (t.layout place [])[k]? = some s) :
    Continue place (place + t.width) [] s.edges ∨
      (place + k = (t.fragment place).exit ∧
        ∀ e ∈ s.edges, Within place (place + t.width) [] e.target) := by
  -- with an edge from the way out back to the way in, nothing is missing any more
  let back : Edge := .free (t.fragment place).entry
  obtain ⟨exit, -, hexit, hmodify⟩ := t.modify_layout place back
  have hback : Continue place (place + t.width) [] [back] :=
    continue_free (t.within_entry (Nat.le_refl _) (Nat.le_refl _))
  have hstates := t.continue_layout (Nat.le_refl _) (Nat.le_refl _) hback
  have hmodified : (t.layout place [back])[k]? =
      some (if exit = k then s.addEdge back else s) := by
    rw [← List.nil_append [back], ← hmodify, List.getElem?_modify, hs]
    split <;> rfl
  have hcontinue := hstates _ (List.mem_of_getElem? hmodified)
  by_cases hk : exit = k
  · rw [if_pos hk] at hcontinue
    refine .inr ⟨by rw [hexit, hk], fun e he => ?_⟩
    exact hcontinue.2 e (List.mem_append_left _ he)
  · rw [if_neg hk] at hcontinue
    exact .inl hcontinue

/-! ## What is added to an automaton -/

namespace Automaton

/-- What holds of the states that have been added holds of all states after those of `a`. -/
theorem forall_extend {P : Nat → State → Prop} (a : Automaton) {l : List State}
    (h : ∀ k s, l[k]? = some s → P (a.size + k) s) :
    ∀ number s, a.size ≤ number → (a.extend l).states[number]? = some s → P number s := by
  intro number s hle hs
  obtain ⟨k, rfl⟩ := Nat.exists_eq_add_of_le hle
  rw [getElem?_extend_add] at hs
  exact h k s hs

/-- The states that make `a'` out of `a` are `2 * pairs` ones after those of `a`, and their edges
lead to one another or to one of `tails`. -/
structure Adds (a : Automaton) (pairs : Nat) (tails : List Nat) (a' : Automaton) : Prop where
  size : a'.size = a.size + 2 * pairs
  within : ∀ number s, a.size ≤ number → a'.states[number]? = some s →
    ∀ e ∈ s.edges, Within a.size a'.size tails e.target

/-- `a'` is `a` with a closed block for a term, whose ways in and out are those of `f`. -/
structure AddsTerm (a : Automaton) (t : Term) (f : Fragment) (a' : Automaton) : Prop
    extends a.Adds t.pairCount [] a' where
  kept : ∀ number < a.size, a'.states[number]? = a.states[number]?
  entry : a.size ≤ f.entry ∧ f.entry < a'.size
  exit : a.size ≤ f.exit ∧ f.exit < a'.size
  /-- No state but the way out may lack an edge. -/
  eq_exit : ∀ number s, a.size ≤ number → a'.states[number]? = some s → s.edges = [] →
    number = f.exit
  /-- From the way out there is no way but back to the way in. -/
  returns : ∀ s, a'.states[f.exit]? = some s → ∀ e ∈ s.edges, e.target = f.entry

/-- `a'` is `a` with the blocks of a branch, from which the only way out is `tail`. -/
structure AddsBranch (a : Automaton) (tail : Nat) (b : Branch) (entry : Nat) (a' : Automaton) : Prop
    extends a.Adds b.pairCount [tail] a' where
  kept : ∀ number < a.size, a'.states[number]? = a.states[number]?
  edges_ne_nil : ∀ number s, a.size ≤ number → a'.states[number]? = some s → s.edges ≠ []
  entry : Within a.size a'.size [tail] entry

/-- The ways into some branches that are added one after the other. -/
def waysIn (a : Automaton) (tail : Nat) : List Branch → List Nat
  | [] => []
  | b :: rest => (a.addBranch tail b).1 :: (a.addBranch tail b).2.waysIn tail rest

/-- `a'` is `a` with the blocks of all branches of a choice, from which the only way out is `tail`,
and with an edge from `source` to each of the branches, in their order. -/
structure AddsChoice (a : Automaton) (source tail : Nat) (c : Choice) (a' : Automaton) : Prop
    extends a.Adds c.pairCount [tail] a' where
  kept : ∀ number < a.size, number ≠ source → a'.states[number]? = a.states[number]?
  source : a'.states[source]? = a.states[source]?.map fun s =>
    { s with edges := s.edges ++ (a.waysIn tail c.branches).map .free }
  edges_ne_nil : ∀ number s, a.size ≤ number → a'.states[number]? = some s → s.edges ≠ []
  entries : ∀ entry ∈ a.waysIn tail c.branches, Within a.size a'.size [tail] entry

variable (a : Automaton)

theorem addsTerm (t : Term) : a.AddsTerm t (a.addTerm t).1 (a.addTerm t).2 := by
  have hsize : (a.extend (t.layout a.size [])).size = a.size + t.width := by simp
  obtain ⟨hentry, hentry'⟩ := t.entry_mem a.size
  obtain ⟨k, hk, marker, returns, hexit, hreturns, hstate⟩ := t.exit_layout a.size
  rw [addTerm_eq]
  refine ⟨⟨?size, ?within⟩, ?kept, ?entry, ?exit, ?eq_exit, ?returns⟩
  case size => rw [hsize, t.width_eq]
  case within =>
    rw [hsize]
    refine a.forall_extend fun k' s hs => ?_
    rcases t.continue_or_exit hs with ⟨-, hwithin⟩ | ⟨-, hwithin⟩ <;> exact hwithin
  case kept => exact fun number hlt => a.getElem?_extend_of_lt _ hlt
  case entry => exact ⟨hentry, hsize.symm ▸ hentry'⟩
  case exit =>
    rw [hsize, hexit]
    exact ⟨Nat.le_add_right _ _, Nat.add_lt_add_left hk _⟩
  case eq_exit =>
    refine a.forall_extend fun k' s hs hnil => ?_
    rcases t.continue_or_exit hs with ⟨hne, -⟩ | ⟨heq, -⟩
    · exact absurd hnil hne
    · exact heq
  case returns =>
    intro s hs
    rw [hexit, getElem?_extend_add, hstate] at hs
    cases hs
    rwa [List.append_nil]

theorem addsBranch (tail : Nat) (b : Branch) :
    a.AddsBranch tail b (a.addBranch tail b).1 (a.addBranch tail b).2 := by
  have hsize : (a.extend (b.layout a.size tail)).size = a.size + b.width := by simp
  have htail : Within a.size (a.size + b.width) [tail] tail := .inr (List.mem_singleton.2 rfl)
  have hlayout := b.continue_layout (Nat.le_refl _) (Nat.le_refl _) htail
  have hadded := a.forall_extend (P := fun _ s => Continue a.size (a.size + b.width) [tail] s.edges)
    fun _ s hs => hlayout s (List.mem_of_getElem? hs)
  rw [addBranch_eq]
  refine ⟨⟨?size, ?within⟩, ?kept, ?edges, ?entry⟩
  case size => rw [hsize, b.width_eq]
  case within =>
    rw [hsize]
    exact fun number s hle hs => (hadded number s hle hs).2
  case kept => exact fun number hlt => a.getElem?_extend_of_lt _ hlt
  case edges => exact fun number s hle hs => (hadded number s hle hs).1
  case entry =>
    rw [hsize]
    exact b.within_entry (Nat.le_refl _) (Nat.le_refl _) htail

/-- The edges to the branches of a choice lead to their ways in. -/
theorem map_free_waysIn (tail : Nat) : ∀ (c : Choice) (a : Automaton),
    (a.waysIn tail c.branches).map .free = c.entries a.size tail
  | .only b, a => by
    simp only [Choice.branches, waysIn, addBranch_eq, Choice.entries, List.map_cons, List.map_nil]
  | .or b rest, a => by
    have hrest := map_free_waysIn tail rest (a.extend (b.layout a.size tail))
    rw [size_extend, b.length_layout] at hrest
    simp only [Choice.branches, waysIn, addBranch_eq, Choice.entries, List.map_cons, hrest]

theorem addsChoice {source : Nat} (h : source < a.size) (tail : Nat) (c : Choice) :
    a.AddsChoice source tail c (a.addChoice source c tail) := by
  let joined := a.addEdges source (c.entries a.size tail)
  have hjoined : joined.size = a.size := a.size_addEdges source _
  have hsize : (joined.extend (c.layout a.size tail)).size = a.size + c.width := by
    rw [size_extend, hjoined, c.length_layout]
  have hkept {number : Nat} (hlt : number < a.size) :=
    joined.getElem?_extend_of_lt (c.layout a.size tail) (hjoined ▸ hlt)
  have htail : Within a.size (a.size + c.width) [tail] tail := .inr (List.mem_singleton.2 rfl)
  have hlayout := c.continue_layout (Nat.le_refl _) (Nat.le_refl _) htail
  have hadded := joined.forall_extend
    (P := fun _ s => Continue a.size (a.size + c.width) [tail] s.edges)
    fun _ s hs => hlayout s (List.mem_of_getElem? hs)
  rw [hjoined] at hadded
  rw [addChoice_eq _ _ h]
  refine ⟨⟨?size, ?within⟩, ?kept, ?source, ?edges, ?entries⟩
  case size => rw [hsize, c.width_eq]
  case within =>
    rw [hsize]
    exact fun number s hle hs => (hadded number s hle hs).2
  case kept =>
    intro number hlt hne
    rw [hkept hlt]
    exact Array.getElem?_modify.trans (if_neg (Ne.symm hne))
  case source =>
    rw [hkept h, map_free_waysIn]
    exact Array.getElem?_modify.trans (if_pos rfl)
  case edges => exact fun number s hle hs => (hadded number s hle hs).1
  case entries =>
    intro entry hentry
    have hentries := (c.continue_entries (Nat.le_refl _) (Nat.le_refl _) htail).2
    rw [hsize]
    exact hentries (.free entry) (map_free_waysIn tail c a ▸ List.mem_map_of_mem hentry)

/-- **Blocks are closed.** A term, a branch and a choice add two states for each of their atoms,
groups and quantifiers other than `+`, and leave those that are there as they are, but for the edges
from the source of a choice to its branches. The edges of the states that are added lead to one
another or to the tail. So a compiled automaton has two states besides those of its pattern. -/
theorem blocks_are_closed :
    (∀ (a : Automaton) (t : Term), a.AddsTerm t (a.addTerm t).1 (a.addTerm t).2) ∧
    (∀ (a : Automaton) (tail : Nat) (b : Branch),
      a.AddsBranch tail b (a.addBranch tail b).1 (a.addBranch tail b).2) ∧
    (∀ (a : Automaton) (source tail : Nat) (c : Choice), source < a.size →
      a.AddsChoice source tail c (a.addChoice source c tail)) ∧
    ∀ body : Choice, (ofChoice body).size = 2 + 2 * body.pairCount := by
  refine ⟨addsTerm, addsBranch, fun a source tail c h => a.addsChoice h tail c, fun body => ?_⟩
  let ends : Automaton := addState (addState {} .plain) .final
  have hstart : start < ends.size := Nat.two_pos
  exact (ends.addsChoice hstart (start + 1) body).size

/-- A loop around a loop around a group, in which an optional character stands, and an empty branch
as the other choice. -/
theorem blocks_are_closed_stacked :
    ∃ (a : Automaton) (c : Choice), 0 < a.size ∧ c.pairCount = 4 ∧
      a.AddsChoice 0 1 c (a.addChoice 0 c 1) ∧
      (a.addChoice 0 c 1).states[0]? = some ⟨.plain, [.free 8, .free 1]⟩ ∧
      (ofChoice c).size = 10 := by
  let a : Automaton := ⟨#[⟨.plain, []⟩, ⟨.final, []⟩]⟩
  let c : Choice := .or (.cons (.quantified .star (.quantified .plus (.group 0 (.only
    (.cons (.quantified .optional (.atom (.literal 'a'))) .nil))))) .nil) (.only .nil)
  have hpos : 0 < a.size := Nat.two_pos
  exact ⟨a, c, hpos, rfl, blocks_are_closed.2.2.1 a 0 1 c hpos, by decide +kernel,
    blocks_are_closed.2.2.2 c⟩

end Automaton

end PatternSearch
