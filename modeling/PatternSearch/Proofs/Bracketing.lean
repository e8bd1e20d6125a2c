import Mathlib.Data.List.Forall2
import PatternSearch.Proofs.Derivation
import PatternSearch.Proofs.Safety

/-!
# Groups are entered and left like brackets

Entering a group that is entered already does nothing, and neither does leaving one that is not, so
that a search that did either would come to wrong captures without any sign of it. In a compiled
pattern neither happens (`Regex.disciplined_of_parse`).

Each state of a compiled automaton has its place within some groups, and these are the groups that
are entered when a search comes to it, whatever way it has come: every edge leads to a place within
the same groups, but for those of the two ends of a group, which lead one group further in or one
further out (`State.Brackets`). That this is so is a matter of the layout alone, and proved by
recursion over the pattern. What it means for captures is then proved of any automaton whose states
have places like that.
-/

namespace PatternSearch

/-! ## Groups within groups -/

mutual

/-- Whether the group `inner` stands within the group `outer` somewhere in a term. -/
def Term.Encloses : Term → Nat → Nat → Prop
  | .atom _ => fun _ _ => False
  | .group index body => fun outer inner =>
    index = outer ∧ inner ∈ body.groups ∨ body.Encloses outer inner
  | .quantified _ t => t.Encloses
termination_by structural t => t

def Branch.Encloses : Branch → Nat → Nat → Prop
  | .nil => fun _ _ => False
  | .cons t rest => fun outer inner => t.Encloses outer inner ∨ rest.Encloses outer inner
termination_by structural b => b

def Choice.Encloses : Choice → Nat → Nat → Prop
  | .only b => b.Encloses
  | .or b rest => fun outer inner => b.Encloses outer inner ∨ rest.Encloses outer inner
termination_by structural c => c

end

mutual

theorem Term.mem_groups_of_encloses {outer inner : Nat} :
    ∀ {t : Term}, t.Encloses outer inner → inner ∈ t.groups
  | .atom _, h => h.elim
  | .group _ body, h => by
    rcases h with ⟨-, hmem⟩ | hinside
    · exact List.mem_cons_of_mem _ hmem
    · exact List.mem_cons_of_mem _ (Choice.mem_groups_of_encloses hinside)
  | .quantified _ t, h => Term.mem_groups_of_encloses (t := t) h

theorem Branch.mem_groups_of_encloses {outer inner : Nat} :
    ∀ {b : Branch}, b.Encloses outer inner → inner ∈ b.groups
  | .nil, h => h.elim
  | .cons t rest, h => by
    rcases h with h | h
    · exact List.mem_append_left _ (Term.mem_groups_of_encloses h)
    · exact List.mem_append_right _ (Branch.mem_groups_of_encloses h)

theorem Choice.mem_groups_of_encloses {outer inner : Nat} :
    ∀ {c : Choice}, c.Encloses outer inner → inner ∈ c.groups
  | .only b, h => Branch.mem_groups_of_encloses (b := b) h
  | .or b rest, h => by
    rcases h with h | h
    · exact List.mem_append_left _ (Branch.mem_groups_of_encloses h)
    · exact List.mem_append_right _ (Choice.mem_groups_of_encloses h)

end

mutual

/-- For each state of the layout of a term the groups that it stands within, the innermost first,
where the term stands within the groups `around`. A group ends within itself. -/
def Term.nesting (around : List Nat) : Term → List (List Nat)
  | .atom _ => [around, around]
  | .group index body => around :: (index :: around) :: body.nesting (index :: around)
  | .quantified .plus t => t.nesting around
  | .quantified _ t => t.nesting around ++ [around, around]
termination_by structural t => t

def Branch.nesting (around : List Nat) : Branch → List (List Nat)
  | .nil => []
  | .cons t rest => t.nesting around ++ rest.nesting around
termination_by structural b => b

def Choice.nesting (around : List Nat) : Choice → List (List Nat)
  | .only b => b.nesting around
  | .or b rest => b.nesting around ++ rest.nesting around
termination_by structural c => c

end

mutual

@[simp] theorem Term.length_nesting (around : List Nat) :
    ∀ t : Term, (t.nesting around).length = t.width
  | .atom _ => rfl
  | .group index body => by
    simp only [Term.nesting, Term.width, List.length_cons, body.length_nesting]
  | .quantified .optional t => by
    simp only [Term.nesting, Term.width, List.length_append, t.length_nesting, List.length_cons,
      List.length_nil]
  | .quantified .plus t => by
    simp only [Term.nesting, Term.width, t.length_nesting]
  | .quantified .star t => by
    simp only [Term.nesting, Term.width, List.length_append, t.length_nesting, List.length_cons,
      List.length_nil]

@[simp] theorem Branch.length_nesting (around : List Nat) :
    ∀ b : Branch, (b.nesting around).length = b.width
  | .nil => rfl
  | .cons t rest => by
    simp only [Branch.nesting, Branch.width, List.length_append, t.length_nesting,
      rest.length_nesting]

@[simp] theorem Choice.length_nesting (around : List Nat) :
    ∀ c : Choice, (c.nesting around).length = c.width
  | .only b => by simp only [Choice.nesting, Choice.width, b.length_nesting]
  | .or b rest => by
    simp only [Choice.nesting, Choice.width, List.length_append, b.length_nesting,
      rest.length_nesting]

end

/-! ## Places of states -/

/-- All edges lead to states within the groups `around`. -/
def LeadTo (place : Nat → List Nat) (around : List Nat) (edges : List Edge) : Prop :=
  ∀ e ∈ edges, place e.target = around

/-- A state within the groups `around` has edges to the places where its marker leads: the start of
a group one group further in, its end one further out, and anything else to where it is. A group
starts outside of itself and ends within all groups that enclose it. -/
def State.Brackets (s : State) (encloses : Nat → Nat → Prop) (place : Nat → List Nat)
    (around : List Nat) : Prop :=
  match s.marker with
  | .plain => LeadTo place around s.edges
  | .final => around = []
  | .groupStart group => group ∉ around ∧ LeadTo place (group :: around) s.edges
  | .groupEnd group => ∃ outside, around = group :: outside ∧ group ∉ outside ∧
      (∀ outer, encloses outer group → outer ∈ outside) ∧ LeadTo place outside s.edges

/-- Every state of an automaton brackets at its place. -/
def Automaton.Brackets (a : Automaton) (encloses : Nat → Nat → Prop) (place : Nat → List Nat) :
    Prop :=
  ∀ (number : Nat) (s : State), a.states[number]? = some s →
    s.Brackets encloses place (place number)

/-- The groups in which the states from `lo` on stand begin with those of `l`. -/
def HasPlaces (place : Nat → List Nat) (lo : Nat) (l : List (List Nat)) : Prop :=
  ∀ k around, l[k]? = some around → place (lo + k) = around

section Places

variable {place : Nat → List Nat} {lo : Nat} {around : List Nat}

namespace HasPlaces

variable {l r : List (List Nat)}

theorem head (h : HasPlaces place lo (around :: l)) : place lo = around :=
  h 0 around rfl

theorem tail (h : HasPlaces place lo (around :: l)) : HasPlaces place (lo + 1) l := by
  intro k later hk
  have hplace := h (k + 1) later hk
  rwa [Nat.add_comm k 1, ← Nat.add_assoc] at hplace

theorem left (h : HasPlaces place lo (l ++ r)) : HasPlaces place lo l := by
  intro k later hk
  refine h k later ?_
  rw [List.getElem?_append_left (List.getElem?_eq_some_iff.1 hk).1, hk]

theorem right (h : HasPlaces place lo (l ++ r)) : HasPlaces place (lo + l.length) r := by
  intro k later hk
  have hplace := h (l.length + k) later
    (by rw [List.getElem?_append_right (Nat.le_add_right _ _)]; simpa)
  rwa [← Nat.add_assoc] at hplace

/-- The places of a branch are those of its first term and those of the others. -/
theorem cons {t : Term} {rest : Branch}
    (h : HasPlaces place lo ((Branch.cons t rest).nesting around)) :
    HasPlaces place lo (t.nesting around) ∧
      HasPlaces place (lo + t.width) (rest.nesting around) := by
  have hright := h.right
  rw [t.length_nesting] at hright
  exact ⟨h.left, hright⟩

/-- The places of a choice are those of its first branch and those of the others. -/
theorem or {b : Branch} {rest : Choice}
    (h : HasPlaces place lo ((Choice.or b rest).nesting around)) :
    HasPlaces place lo (b.nesting around) ∧
      HasPlaces place (lo + b.width) (rest.nesting around) := by
  have hright := h.right
  rw [b.length_nesting] at hright
  exact ⟨h.left, hright⟩

/-- The places of a term with two states after it. -/
theorem bypass {t : Term} {first second : List Nat}
    (h : HasPlaces place lo (t.nesting around ++ [first, second])) :
    HasPlaces place lo (t.nesting around) ∧ place (lo + t.width) = first ∧
      place (lo + t.width + 1) = second := by
  have hright := h.right
  rw [t.length_nesting] at hright
  exact ⟨h.left, hright.head, hright.tail.head⟩

end HasPlaces

variable {tail : Nat}

theorem LeadTo.free {target : Nat} {edges : List Edge} (htarget : place target = around)
    (h : LeadTo place around edges) : LeadTo place around (.free target :: edges) :=
  List.forall_mem_cons.2 ⟨htarget, h⟩

theorem leadTo_nil : LeadTo place around [] :=
  nofun

/-- The way into a term is where the term is. -/
theorem Term.place_entry : ∀ (t : Term), HasPlaces place lo (t.nesting around) →
    place (t.fragment lo).entry = around
  | .atom _, h => h.head
  | .group _ _, h => h.head
  | .quantified .plus t, h => t.place_entry h
  | .quantified .optional _, h => h.bypass.2.1
  | .quantified .star _, h => h.bypass.2.1

theorem Branch.place_entry {b : Branch} (h : HasPlaces place lo (b.nesting around))
    (htail : place tail = around) : place (b.entry lo tail) = around := by
  cases b with
  | nil => exact htail
  | cons t rest => exact t.place_entry h.left

theorem Choice.leadTo_entries : ∀ (c : Choice) {lo : Nat}, HasPlaces place lo (c.nesting around) →
    place tail = around → LeadTo place around (c.entries lo tail)
  | .only b, _, h, htail => leadTo_nil.free (b.place_entry h htail)
  | .or b rest, _, h, htail => by
    obtain ⟨hfirst, hlater⟩ := h.or
    exact (rest.leadTo_entries hlater htail).free (b.place_entry hfirst htail)

end Places

/-! ## Places in a compiled automaton -/

/-- A part of a pattern with the given groups stands within the groups `around`: each of its groups
is another one, and what encloses it is one of those or inside of the part. -/
structure Surrounded (encloses inside : Nat → Nat → Prop) (around groups : List Nat) : Prop where
  nodup : groups.Nodup
  apart : ∀ group ∈ groups, group ∉ around
  enclosing : ∀ outer, ∀ inner ∈ groups, encloses outer inner →
    outer ∈ around ∨ inside outer inner

namespace Surrounded

variable {encloses inside first second : Nat → Nat → Prop} {around groups l r : List Nat}
  {group : Nat}

/-- The body of a group. -/
theorem body (h : Surrounded encloses
      (fun outer inner => group = outer ∧ inner ∈ groups ∨ inside outer inner) around
      (group :: groups)) : Surrounded encloses inside (group :: around) groups := by
  obtain ⟨hnot, hnodup⟩ := List.nodup_cons.1 h.nodup
  refine ⟨hnodup, fun g hg hmem => ?_, fun outer inner hinner hencloses => ?_⟩
  · rcases List.mem_cons.1 hmem with rfl | hmem
    · exact hnot hg
    · exact h.apart g (List.mem_cons_of_mem _ hg) hmem
  · rcases h.enclosing outer inner (List.mem_cons_of_mem _ hinner) hencloses with
      hmem | ⟨rfl, -⟩ | hinside
    · exact .inl (List.mem_cons_of_mem _ hmem)
    · exact .inl List.mem_cons_self
    · exact .inr hinside

/-- What encloses a group is around it. -/
theorem enclosing_group (h : Surrounded encloses
      (fun outer inner => group = outer ∧ inner ∈ groups ∨ inside outer inner) around
      (group :: groups)) (hinside : ∀ outer inner, inside outer inner → inner ∈ groups)
    (outer : Nat) (hencloses : encloses outer group) : outer ∈ around := by
  have hnot := (List.nodup_cons.1 h.nodup).1
  rcases h.enclosing outer group List.mem_cons_self hencloses with hmem | ⟨-, hmem⟩ | hmem
  · exact hmem
  · exact absurd hmem hnot
  · exact absurd (hinside outer group hmem) hnot

theorem left (h : Surrounded encloses
      (fun outer inner => first outer inner ∨ second outer inner) around (l ++ r))
    (hsecond : ∀ {outer inner}, second outer inner → inner ∈ r) :
    Surrounded encloses first around l := by
  obtain ⟨hleft, -, hdisjoint⟩ := List.nodup_append.1 h.nodup
  refine ⟨hleft, fun g hg => h.apart g (List.mem_append_left _ hg),
    fun outer inner hinner hencloses => ?_⟩
  rcases h.enclosing outer inner (List.mem_append_left _ hinner) hencloses with hmem | hin | hin
  · exact .inl hmem
  · exact .inr hin
  · exact absurd rfl (hdisjoint inner hinner inner (hsecond hin))

theorem right (h : Surrounded encloses
      (fun outer inner => first outer inner ∨ second outer inner) around (l ++ r))
    (hfirst : ∀ {outer inner}, first outer inner → inner ∈ l) :
    Surrounded encloses second around r := by
  obtain ⟨-, hright, hdisjoint⟩ := List.nodup_append.1 h.nodup
  refine ⟨hright, fun g hg => h.apart g (List.mem_append_right _ hg),
    fun outer inner hinner hencloses => ?_⟩
  rcases h.enclosing outer inner (List.mem_append_right _ hinner) hencloses with hmem | hin | hin
  · exact .inl hmem
  · exact absurd rfl (hdisjoint inner (hfirst hin) inner hinner)
  · exact .inr hin

end Surrounded

/-- States bracket, each of them within the groups at its place in a list. -/
def Bracketed (encloses : Nat → Nat → Prop) (place : Nat → List Nat) (places : List (List Nat))
    (states : List State) : Prop :=
  List.Forall₂ (fun around s => s.Brackets encloses place around) places states

section Layout

variable {encloses : Nat → Nat → Prop} {place : Nat → List Nat} {around : List Nat}

theorem Bracketed.append {places places' : List (List Nat)} {states states' : List State}
    (h : Bracketed encloses place places states) (h' : Bracketed encloses place places' states') :
    Bracketed encloses place (places ++ places') (states ++ states') :=
  List.rel_append h h'

/-- Two states without a meaning of their own, after others. -/
theorem Bracketed.bypass {places : List (List Nat)} {states : List State} {edges edges' : List Edge}
    (h : Bracketed encloses place places states) (hfirst : LeadTo place around edges)
    (hsecond : LeadTo place around edges') :
    Bracketed encloses place (places ++ [around, around])
      (states ++ [⟨.plain, edges⟩, ⟨.plain, edges'⟩]) :=
  h.append (.cons hfirst (.cons hsecond .nil))

mutual

/-- **The states of a term bracket**, wherever the term stands. -/
theorem Term.bracketed {lo : Nat} {around : List Nat} {post : List Edge} : ∀ (t : Term),
    HasPlaces place lo (t.nesting around) → LeadTo place around post →
    Surrounded encloses t.Encloses around t.groups →
    Bracketed encloses place (t.nesting around) (t.layout lo post)
  | .atom m => by
    intro hplaces hpost hgroups
    have hexit : place (lo + 1) = around := hplaces.tail.head
    exact .cons (List.forall_mem_singleton.2 hexit) (.cons hpost .nil)
  | .group index body => by
    intro hplaces hpost hgroups
    have hnot : index ∉ around := hgroups.apart index List.mem_cons_self
    have hexit : place (lo + 1) = index :: around := hplaces.tail.head
    have henclosing := hgroups.enclosing_group fun _ _ => Choice.mem_groups_of_encloses
    refine .cons ⟨hnot, body.leadTo_entries hplaces.tail.tail hexit⟩
      (.cons ⟨around, rfl, hnot, henclosing, hpost⟩ ?_)
    exact body.bracketed hplaces.tail.tail hexit hgroups.body
  | .quantified .optional t => by
    intro hplaces hpost hgroups
    obtain ⟨hinner, -, hexit⟩ := hplaces.bypass
    have hpast : LeadTo place around [.free (lo + t.width + 1)] := leadTo_nil.free hexit
    exact (t.bracketed hinner hpast hgroups).bypass (hpast.free (t.place_entry hinner)) hpost
  | .quantified .plus t => by
    intro hplaces hpost hgroups
    exact t.bracketed hplaces (hpost.free (t.place_entry hplaces)) hgroups
  | .quantified .star t => by
    intro hplaces hpost hgroups
    obtain ⟨hinner, -, hexit⟩ := hplaces.bypass
    have hboth : LeadTo place around [.free (t.fragment lo).entry, .free (lo + t.width + 1)] :=
      (leadTo_nil.free hexit).free (t.place_entry hinner)
    exact (t.bracketed hinner hboth hgroups).bypass hboth hpost

theorem Branch.bracketed {lo tail : Nat} {around : List Nat} : ∀ (b : Branch),
    HasPlaces place lo (b.nesting around) → place tail = around →
    Surrounded encloses b.Encloses around b.groups →
    Bracketed encloses place (b.nesting around) (b.layout lo tail)
  | .nil => fun _ _ _ => .nil
  | .cons t rest => by
    intro hplaces htail hgroups
    obtain ⟨hfirst, hlater⟩ := hplaces.cons
    have hpost := leadTo_nil.free (rest.place_entry hlater htail)
    exact (t.bracketed hfirst hpost (hgroups.left Branch.mem_groups_of_encloses)).append
      (rest.bracketed hlater htail (hgroups.right Term.mem_groups_of_encloses))

theorem Choice.bracketed {lo tail : Nat} {around : List Nat} : ∀ (c : Choice),
    HasPlaces place lo (c.nesting around) → place tail = around →
    Surrounded encloses c.Encloses around c.groups →
    Bracketed encloses place (c.nesting around) (c.layout lo tail)
  | .only b => fun hplaces htail hgroups => b.bracketed hplaces htail hgroups
  | .or b rest => by
    intro hplaces htail hgroups
    obtain ⟨hfirst, hlater⟩ := hplaces.or
    exact (b.bracketed hfirst htail (hgroups.left Choice.mem_groups_of_encloses)).append
      (rest.bracketed hlater htail (hgroups.right Branch.mem_groups_of_encloses))

end

end Layout

/-- The groups that a state of a compiled automaton stands within. Where the search begins and where
it ends it is outside of all groups. -/
def Choice.place (body : Choice) (number : Nat) : List Nat :=
  (([] :: [] :: body.nesting [])[number]?).getD []

theorem Choice.hasPlaces (body : Choice) :
    HasPlaces body.place 0 ([] :: [] :: body.nesting []) := by
  intro k around hk
  rw [Nat.zero_add, place, hk]
  rfl

/-- **The states of a compiled automaton bracket.** -/
theorem Automaton.brackets_ofChoice {body : Choice} (hnodup : body.groups.Nodup) :
    (ofChoice body).Brackets body.Encloses body.place := by
  have hplaces := body.hasPlaces.tail.tail
  have hfinal : body.place 1 = [] := body.hasPlaces.tail.head
  have hgroups : Surrounded body.Encloses body.Encloses [] body.groups :=
    ⟨hnodup, fun _ _ => List.not_mem_nil, fun _ _ _ h => .inr h⟩
  have hall : Bracketed body.Encloses body.place ([] :: [] :: body.nesting [])
      (⟨.plain, body.entries 2 1⟩ :: ⟨.final, []⟩ :: body.layout 2 1) :=
    .cons (body.leadTo_entries hplaces hfinal)
      (.cons rfl (body.bracketed hplaces hfinal hgroups))
  intro number s hs
  rw [ofChoice_eq, List.getElem?_toArray] at hs
  obtain ⟨hlt, rfl⟩ := List.getElem?_eq_some_iff.1 hs
  have hlt' := hall.length_eq ▸ hlt
  have hplace := body.hasPlaces number _ (List.getElem?_eq_getElem hlt')
  rw [Nat.zero_add] at hplace
  rw [hplace]
  exact hall.get hlt' hlt

/-! ## Places and captures -/

/-- The captures at a place within the groups `around`: those are the groups that are entered, and a
group that encloses one that has been left has been left itself, unless it is one of those. -/
structure Captures.Nest (captures : Captures) (encloses : Nat → Nat → Prop) (around : List Nat) :
    Prop where
  entered : ∀ group, (captures.entered? group).isSome ↔ group ∈ around
  enclosing : ∀ outer inner, encloses outer inner → (captures.span? inner).isSome →
    (captures.span? outer).isSome ∨ outer ∈ around

/-- A group that is not entered can be entered. -/
theorem Captures.isSome_enter {captures : Captures} {group : Nat} (h : group < captures.size)
    (hout : captures.entered? group = none) (offset : Nat) :
    (captures.enter group offset).isSome := by
  rw [entered?_eq h] at hout
  simp [enter, update_eq h, Slot.enter, hout]

/-- A group that is entered can be left. -/
theorem Captures.isSome_leave {captures : Captures} {group : Nat}
    (hin : (captures.entered? group).isSome) (offset : Nat) :
    (captures.leave group offset).isSome := by
  obtain ⟨start, hstart⟩ := Option.isSome_iff_exists.1 hin
  obtain ⟨slot, hslot, hentered⟩ := Option.bind_eq_some_iff.1 hstart
  simp [leave, update, hslot, Slot.leave, hentered]

namespace Captures.Nest

variable {captures : Captures} {encloses : Nat → Nat → Prop} {place : Nat → List Nat}
  {around : List Nat} {group : Nat}

theorem fresh (groups : Nat) (encloses : Nat → Nat → Prop) :
    (Captures.fresh groups).Nest encloses [] := by
  refine ⟨fun group => by simp, fun outer inner hencloses hset => ?_⟩
  rw [span?_fresh] at hset
  cases hset

theorem not_entered (h : captures.Nest encloses around) (hnot : group ∉ around) :
    captures.entered? group = none :=
  Option.not_isSome_iff_eq_none.1 fun hsome => hnot ((h.entered group).1 hsome)

theorem enter (h : captures.Nest encloses around) (hnot : group ∉ around)
    (hslot : group < captures.size) (offset : Nat) :
    ((Marker.groupStart group).enact captures offset).Nest encloses (group :: around) := by
  obtain ⟨-, hentered, hspan⟩ := Marker.enact_groupStart offset hslot (h.not_entered hnot)
  refine ⟨fun g => ?_, fun outer inner hencloses hset => ?_⟩
  · rw [hentered, Function.update_apply, List.mem_cons, ← h.entered g]
    split
    · next heq => simp [heq]
    · next hne => simp [hne]
  · rw [hspan] at hset ⊢
    exact (h.enclosing outer inner hencloses hset).imp_right (List.mem_cons_of_mem _)

theorem leave (h : captures.Nest encloses (group :: around)) (hnot : group ∉ around)
    (henclosing : ∀ outer, encloses outer group → outer ∈ around) (offset : Nat) :
    ((Marker.groupEnd group).enact captures offset).Nest encloses around := by
  obtain ⟨start, hin⟩ := Option.isSome_iff_exists.1 ((h.entered group).2 List.mem_cons_self)
  obtain ⟨-, hentered, hspan⟩ := Marker.enact_groupEnd offset hin
  refine ⟨fun g => ?_, fun outer inner hencloses hset => ?_⟩
  · rw [hentered, Function.update_apply]
    split
    · next heq => simpa [heq] using hnot
    · next hne => simpa [hne] using h.entered g
  · rw [hspan, Function.update_apply] at hset ⊢
    by_cases hinner : inner = group
    · exact .inr (henclosing outer (hinner ▸ hencloses))
    rw [if_neg hinner] at hset
    by_cases houter : outer = group
    · exact .inl (by rw [if_pos houter]; rfl)
    rw [if_neg houter]
    exact (h.enclosing outer inner hencloses hset).imp_right fun hmem =>
      (List.mem_cons.1 hmem).resolve_left houter

/-- **A state hands on captures that fit the places its edges lead to.** -/
theorem enact {s : State} (h : captures.Nest encloses around)
    (hs : s.Brackets encloses place around) (hfinal : s.marker ≠ .final)
    (hslot : ∀ group, s.marker.IsOf group → group < captures.size) (offset : Nat) :
    ∀ e ∈ s.edges, (s.marker.enact captures offset).Nest encloses (place e.target) := by
  obtain ⟨marker, edges⟩ := s
  intro e he
  cases marker with
  | plain =>
    rw [show place e.target = around from hs e he]
    exact h
  | final => exact absurd rfl hfinal
  | groupStart group =>
    obtain ⟨hnot, hlead⟩ := hs
    rw [hlead e he]
    exact h.enter hnot (hslot group (.inl rfl)) offset
  | groupEnd group =>
    obtain ⟨outside, rfl, hnot, henclosing, hlead⟩ := hs
    rw [hlead e he]
    exact h.leave hnot henclosing offset

end Captures.Nest

/-! ## Searches -/

/-- A machine is about to come to a state with this marker, at this offset. -/
def Machine.Meets (m : Machine) (a : Automaton) (marker : Marker) (offset : Nat) : Prop :=
  ∃ number stack state, m.stack = .explore number offset :: stack ∧
    a.states[number]? = some state ∧ state.marker = marker

/-- A search enters groups that are not entered and leaves groups that are. When it finds a match,
no group is left entered, the groups lie within the match, and a group has been left if one that it
encloses has. -/
structure Query.Disciplined (q : Query) (encloses : Nat → Nat → Prop) : Prop where
  enters : ∀ origin m group offset, q.Moment origin m →
    m.Meets q.automaton (.groupStart group) offset →
    m.captures.entered? group = none ∧ (m.captures.enter group offset).isSome
  leaves : ∀ origin m group offset, q.Moment origin m →
    m.Meets q.automaton (.groupEnd group) offset →
    (m.captures.entered? group).isSome ∧ (m.captures.leave group offset).isSome
  closed : ∀ span, q.search.outcome = .matched span →
    ∀ group, q.search.captures.entered? group = none
  within : ∀ span, q.search.outcome = .matched span →
    ∀ group captured, q.search.captures.span? group = some captured →
      span.start ≤ captured.start ∧ captured.start ≤ captured.stop ∧ captured.stop ≤ span.stop
  enclosing : ∀ span, q.search.outcome = .matched span →
    ∀ outer inner, encloses outer inner → (q.search.captures.span? inner).isSome →
      (q.search.captures.span? outer).isSome

namespace Query

variable {q : Query} {encloses : Nat → Nat → Prop} {place : Nat → List Nat} {origin : Nat}
  {m : Machine}

/-- What the place of a state says of the captures with which it is explored. -/
def Placed (q : Query) (encloses : Nat → Nat → Prop) (place : Nat → List Nat) (number _ : Nat)
    (captures : Captures) : Prop :=
  captures.size = q.groups ∧ captures.Nest encloses (place number)

theorem Fits.hereditary_placed (hfits : q.Fits) (hbrackets : q.automaton.Brackets encloses place) :
    Machine.Hereditary q.setting (q.Placed encloses place) fun _ => True := by
  intro number offset captures state hplaced hs hfinal
  obtain ⟨hsize, hnest⟩ := hplaced
  have hslot : ∀ group, state.marker.IsOf group → group < captures.size := fun group hgroup =>
    hsize ▸ hfits.slot number state hs group hgroup
  refine ⟨trivial, fun e he later ha => ⟨?_, ?_⟩⟩
  · rw [Marker.size_enact, hsize]
  · exact hnest.enact (hbrackets number state hs) hfinal hslot offset e he

/-- **A state is explored with captures that fit its place**, at every moment of a search. -/
theorem Moment.placed (h : q.Moment origin m) (hfits : q.Fits)
    (hbrackets : q.automaton.Brackets encloses place) (hstart : place q.start = [])
    {number offset : Nat} {stack : List Frame}
    (hstack : m.stack = .explore number offset :: stack) :
    q.Placed encloses place number offset m.captures := by
  have hfresh : (Captures.fresh q.groups).Nest encloses (place q.start) :=
    hstart ▸ Captures.Nest.fresh q.groups encloses
  have hjustified := h.justified (P := q.Placed encloses place) (Q := fun _ => True)
    ⟨Captures.size_fresh q.groups, hfresh⟩ trivial (hfits.hereditary_placed hbrackets)
  rw [hstack] at hjustified
  exact hjustified.1

/-- The captures of a match, where it stops. -/
theorem Fits.nest_of_matched (hfits : q.Fits) (hbrackets : q.automaton.Brackets encloses place)
    (hstart : place q.start = []) {span : Span} (hmatched : q.search.outcome = .matched span) :
    q.search.captures.Nest encloses [] ∧ q.search.captures.Between span.start span.stop := by
  obtain ⟨offset, last, hmoment, hcaptures, hlast⟩ := q.exists_last_moment
  obtain ⟨rfl, number, state, stack, hstack, hs, hfinal⟩ := hlast span hmatched
  have hplaced := hmoment.placed hfits hbrackets hstart hstack
  have hreached := hmoment.justified_reached
  rw [hstack] at hreached
  have houtside : place number = [] := by
    have hs := hbrackets number state hs
    rwa [State.Brackets, hfinal] at hs
  rw [hcaptures]
  exact ⟨houtside ▸ hplaced.2, hreached.1.2.2⟩

/-- A search is disciplined if its states have places and it begins outside of all groups. -/
theorem Fits.disciplined (hfits : q.Fits) (hbrackets : q.automaton.Brackets encloses place)
    (hstart : place q.start = []) : q.Disciplined encloses := by
  have hmatch {span : Span} (hmatched : q.search.outcome = .matched span) :=
    hfits.nest_of_matched hbrackets hstart hmatched
  refine ⟨?enters, ?leaves, ?closed, ?within, ?enclosing⟩
  case enters =>
    rintro origin m group offset hm ⟨number, stack, state, hstack, hs, hmarker⟩
    obtain ⟨hsize, hnest⟩ := hm.placed hfits hbrackets hstart hstack
    have hplace := hbrackets number state hs
    rw [State.Brackets, hmarker] at hplace
    have hout := hnest.not_entered hplace.1
    have hslot := hfits.slot number state hs group (.inl hmarker)
    exact ⟨hout, Captures.isSome_enter (hsize ▸ hslot) hout offset⟩
  case leaves =>
    rintro origin m group offset hm ⟨number, stack, state, hstack, hs, hmarker⟩
    obtain ⟨-, hnest⟩ := hm.placed hfits hbrackets hstart hstack
    have hplace := hbrackets number state hs
    rw [State.Brackets, hmarker] at hplace
    obtain ⟨outside, houtside, -⟩ := hplace
    have hin := (hnest.entered group).2 (houtside ▸ List.mem_cons_self)
    exact ⟨hin, Captures.isSome_leave hin offset⟩
  case closed =>
    intro span hmatched group
    exact (hmatch hmatched).1.not_entered List.not_mem_nil
  case within =>
    intro span hmatched group captured hcaptured
    exact (hmatch hmatched).2.span? hcaptured
  case enclosing =>
    intro span hmatched outer inner hencloses hset
    exact ((hmatch hmatched).1.enclosing outer inner hencloses hset).resolve_right
      List.not_mem_nil

end Query

/-! ## Compiled patterns -/

namespace Regex

/-- **Groups are entered and left like brackets** in a search for a compiled pattern, whatever the
text and the limit: a group is entered only when it is not entered already and left only when it is,
and a match leaves behind no group entered, no group outside of the match, and no group left without
those that enclose it. -/
theorem disciplined_of_parse {source : String} {p : Pattern} (h : Pattern.parse source = .ok p) :
    ∃ r, compile source = .ok r ∧ ∀ (text : Array Char) (limit : Option Nat),
      (r.query text limit).Disciplined p.body.Encloses := by
  refine ⟨ofPattern source p, compile_of_parse h, fun text limit => ?_⟩
  have hfits := fits_query h text limit
  exact hfits.disciplined (Automaton.brackets_ofChoice (nodup_groups h)) rfl

/-- A group within a repeated one: the inner group keeps what it captured in the first iteration,
and the outer group has been left too. -/
theorem disciplined_of_parse_kept :
    ∃ p r, Pattern.parse "((a)|b)+" = .ok p ∧ compile "((a)|b)+" = .ok r ∧
      p.body.Encloses 0 1 ∧ (r.query #['a', 'b'] none).search.outcome = .matched ⟨0, 2⟩ ∧
      (r.query #['a', 'b'] none).search.captures.span? 1 = some ⟨0, 1⟩ ∧
      ((r.query #['a', 'b'] none).search.captures.span? 0).isSome := by
  have hparse : Pattern.parse "((a)|b)+" = .ok
      { anchor := ⟨false, false⟩
        body := .only (.cons (.quantified .plus (.group 0 (.or
          (.cons (.group 1 (.only (.cons (.atom (.literal 'a')) .nil))) .nil)
          (.only (.cons (.atom (.literal 'b')) .nil))))) .nil)
        groupCount := 2 } := rfl
  obtain ⟨r, hcompile, hdisciplined⟩ := disciplined_of_parse hparse
  have hr := compile_of_parse hparse
  rw [hcompile] at hr
  cases hr
  have hencloses : Choice.Encloses (.only (.cons (.quantified .plus (.group 0 (.or
      (.cons (.group 1 (.only (.cons (.atom (.literal 'a')) .nil))) .nil)
      (.only (.cons (.atom (.literal 'b')) .nil))))) .nil)) 0 1 :=
    .inl (.inl ⟨rfl, by decide⟩)
  refine ⟨_, _, hparse, hcompile, hencloses, by decide +kernel, by decide +kernel, ?_⟩
  exact (hdisciplined #['a', 'b'] none).enclosing ⟨0, 2⟩ (by decide +kernel) 0 1 hencloses
    (by decide +kernel)

end Regex

end PatternSearch
