import PatternSearch.Automaton.Build

/-!
# The layout of a compiled automaton

The states that a term adds to an automaton stand in one block, and the block can be written down at
once, although edges are added to it long after its states: only its way out gets any more edges,
and what they will be (`post` below) depends on nothing but the place of the block. `Term.layout`
gives the states of the block of a term, in their order and with all their edges, and
`Automaton.ofChoice_eq` says that compiling a pattern yields exactly the states laid out.

What is proved of compiled automata is then proved by recursion over the pattern, with each part of
it standing at its own place in one and the same automaton (`Automaton.HasBlock`).
-/

namespace PatternSearch

/-- An edge that takes nothing. -/
def Edge.free (target : Nat) : Edge :=
  ⟨none, target⟩

theorem State.plain_ne_final {edges : List Edge} : (⟨.plain, edges⟩ : State).marker ≠ .final := by
  simp

/-! ## Blocks -/

mutual

/-- The number of states of a term. -/
def Term.width : Term → Nat
  | .atom _ => 2
  | .group _ body => body.width + 2
  | .quantified .plus t => t.width
  | .quantified _ t => t.width + 2
termination_by structural t => t

def Branch.width : Branch → Nat
  | .nil => 0
  | .cons t rest => t.width + rest.width
termination_by structural b => b

def Choice.width : Choice → Nat
  | .only b => b.width
  | .or b rest => b.width + rest.width
termination_by structural c => c

end

/-- The ways in and out of the block of a term that begins with state `lo`. -/
def Term.fragment (lo : Nat) : Term → Fragment
  | .atom _ => ⟨lo, lo + 1⟩
  | .group _ _ => ⟨lo, lo + 1⟩
  | .quantified .plus t => t.fragment lo
  | .quantified _ t => ⟨lo + t.width, lo + t.width + 1⟩
termination_by structural t => t

/-- The way into a term is one of its states. -/
theorem Term.entry_mem (lo : Nat) : ∀ (t : Term),
    lo ≤ (t.fragment lo).entry ∧ (t.fragment lo).entry < lo + t.width
  | .atom _ => by simp [Term.fragment, Term.width]
  | .group _ _ => by simp [Term.fragment, Term.width]
  | .quantified .plus t => t.entry_mem lo
  | .quantified .optional t => by simp [Term.fragment, Term.width]
  | .quantified .star t => by simp [Term.fragment, Term.width]

/-- The way into a branch that is laid out from state `lo` on. -/
def Branch.entry (lo tail : Nat) : Branch → Nat
  | .nil => tail
  | .cons t _ => (t.fragment lo).entry

/-- The edges to the branches of a choice. -/
def Choice.entries (lo tail : Nat) : Choice → List Edge
  | .only b => [.free (b.entry lo tail)]
  | .or b rest => .free (b.entry lo tail) :: rest.entries (lo + b.width) tail
termination_by structural c => c

mutual

/-- The states of a term from state `lo` on, where the way out has the edges `post` besides those
that lead back into the term. -/
def Term.layout (lo : Nat) (post : List Edge) : Term → List State
  | .atom m => [⟨.plain, [⟨some m, lo + 1⟩]⟩, ⟨.plain, post⟩]
  | .group index body =>
    ⟨.groupStart index, body.entries (lo + 2) (lo + 1)⟩ :: ⟨.groupEnd index, post⟩ ::
      body.layout (lo + 2) (lo + 1)
  | .quantified .optional t =>
    t.layout lo [.free (lo + t.width + 1)] ++
      [⟨.plain, [.free (t.fragment lo).entry, .free (lo + t.width + 1)]⟩, ⟨.plain, post⟩]
  | .quantified .plus t => t.layout lo (.free (t.fragment lo).entry :: post)
  | .quantified .star t =>
    t.layout lo [.free (t.fragment lo).entry, .free (lo + t.width + 1)] ++
      [⟨.plain, [.free (t.fragment lo).entry, .free (lo + t.width + 1)]⟩, ⟨.plain, post⟩]
termination_by structural t => t

/-- The states of a branch from state `lo` on, which leads to `tail`. -/
def Branch.layout (lo tail : Nat) : Branch → List State
  | .nil => []
  | .cons t rest =>
    t.layout lo [.free (rest.entry (lo + t.width) tail)] ++ rest.layout (lo + t.width) tail
termination_by structural b => b

/-- The states of a choice from state `lo` on, all of whose branches lead to `tail`. -/
def Choice.layout (lo tail : Nat) : Choice → List State
  | .only b => b.layout lo tail
  | .or b rest => b.layout lo tail ++ rest.layout (lo + b.width) tail
termination_by structural c => c

end

mutual

@[simp] theorem Term.length_layout (lo : Nat) (post : List Edge) :
    ∀ t : Term, (t.layout lo post).length = t.width
  | .atom _ => rfl
  | .group _ body => by
    simp only [Term.layout, Term.width, List.length_cons, body.length_layout]
  | .quantified .optional t => by
    simp only [Term.layout, Term.width, List.length_append, t.length_layout, List.length_cons,
      List.length_nil]
  | .quantified .plus t => by
    simp only [Term.layout, Term.width, t.length_layout]
  | .quantified .star t => by
    simp only [Term.layout, Term.width, List.length_append, t.length_layout, List.length_cons,
      List.length_nil]

@[simp] theorem Branch.length_layout (lo tail : Nat) :
    ∀ b : Branch, (b.layout lo tail).length = b.width
  | .nil => rfl
  | .cons t rest => by
    simp only [Branch.layout, Branch.width, List.length_append, t.length_layout,
      rest.length_layout]

@[simp] theorem Choice.length_layout (lo tail : Nat) :
    ∀ c : Choice, (c.layout lo tail).length = c.width
  | .only b => by simp only [Choice.layout, Choice.width, b.length_layout]
  | .or b rest => by
    simp only [Choice.layout, Choice.width, List.length_append, b.length_layout,
      rest.length_layout]

end

/-! ## Adding to what is there -/

theorem modify_append_left {α : Type} {l : List α} {i : Nat} (h : i < l.length) (r : List α)
    (f : α → α) : (l ++ r).modify i f = l.modify i f ++ r := by
  induction l generalizing i with
  | nil => simp at h
  | cons a l ih =>
    cases i with
    | zero => rfl
    | succ i =>
      have hi : i < l.length := by simpa using h
      simp [ih hi]

theorem modify_append_right {α : Type} (l r : List α) (i : Nat) (f : α → α) :
    (l ++ r).modify (l.length + i) f = l ++ r.modify i f := by
  induction l with
  | nil => simp
  | cons a l ih =>
    have hi : (a :: l).length + i = l.length + i + 1 := Nat.add_right_comm l.length 1 i
    rw [hi]
    simp [ih]

/-- A state with one more edge. -/
def State.addEdge (s : State) (e : Edge) : State :=
  { s with edges := s.edges ++ [e] }

/-- An edge that is added to the way out of a block comes after those that are there. -/
theorem Term.modify_layout (lo : Nat) (e : Edge) :
    ∀ (t : Term), ∃ k < t.width, (t.fragment lo).exit = lo + k ∧
      ∀ post, (t.layout lo post).modify k (·.addEdge e) = t.layout lo (post ++ [e])
  | .atom m => ⟨1, by simp [Term.width], rfl, fun post => rfl⟩
  | .group index body => ⟨1, by simp [Term.width], rfl, fun post => rfl⟩
  | .quantified .plus t => by
    obtain ⟨k, hk, hexit, hmodify⟩ := t.modify_layout lo e
    exact ⟨k, hk, hexit, fun post => hmodify _⟩
  | .quantified .optional t => by
    refine ⟨t.width + 1, by simp [Term.width], rfl, fun post => ?_⟩
    have hright := modify_append_right (t.layout lo [.free (lo + t.width + 1)])
      [⟨.plain, [.free (t.fragment lo).entry, .free (lo + t.width + 1)]⟩, ⟨.plain, post⟩] 1
      (State.addEdge · e)
    rw [t.length_layout] at hright
    exact hright
  | .quantified .star t => by
    refine ⟨t.width + 1, by simp [Term.width], rfl, fun post => ?_⟩
    have hright := modify_append_right
      (t.layout lo [.free (t.fragment lo).entry, .free (lo + t.width + 1)])
      [⟨.plain, [.free (t.fragment lo).entry, .free (lo + t.width + 1)]⟩, ⟨.plain, post⟩] 1
      (State.addEdge · e)
    rw [t.length_layout] at hright
    exact hright

namespace Automaton

/-- An automaton with more states after its own. -/
def extend (a : Automaton) (l : List State) : Automaton :=
  ⟨(a.states.toList ++ l).toArray⟩

/-- An automaton with more edges after those that `source` has. -/
def addEdges (a : Automaton) (source : Nat) (edges : List Edge) : Automaton :=
  ⟨a.states.modify source fun s => { s with edges := s.edges ++ edges }⟩

section Extend

variable (a : Automaton) (l l' : List State)

@[simp] theorem size_extend : (a.extend l).size = a.size + l.length := by
  simp [size, extend]

@[simp] theorem extend_nil : a.extend [] = a := by
  simp [extend]

theorem extend_extend : (a.extend l).extend l' = a.extend (l ++ l') := by
  simp [extend]

theorem getElem?_extend_of_lt {number : Nat} (h : number < a.size) :
    (a.extend l).states[number]? = a.states[number]? := by
  have hlt : number < a.states.toList.length := h
  simp only [extend, List.getElem?_toArray]
  rw [List.getElem?_append_left hlt, Array.getElem?_toList]

theorem getElem?_extend_add (k : Nat) : (a.extend l).states[a.size + k]? = l[k]? := by
  have hle : a.states.toList.length ≤ a.size + k := Nat.le_add_right _ _
  simp only [extend, List.getElem?_toArray]
  rw [List.getElem?_append_right hle, Array.length_toList]
  exact congrArg (l[·]?) (Nat.add_sub_cancel_left _ _)

theorem addState_eq (marker : Marker) : a.addState marker = a.extend [⟨marker, []⟩] := by
  apply congrArg Automaton.mk
  apply Array.toList_inj.1
  simp

/-- Adding an edge to one of the states that have been added. -/
theorem addEdge_extend {k : Nat} (e : Edge) :
    (a.extend l).addEdge (a.size + k) e = a.extend (l.modify k (·.addEdge e)) := by
  have h := modify_append_right a.states.toList l k (State.addEdge · e)
  simp only [addEdge, extend, size, List.modify_toArray, ← Array.length_toList]
  exact congrArg (fun l => (⟨l.toArray⟩ : Automaton)) h

/-- Adding edges to the first of the states that have been added. -/
theorem addEdges_after (s : State) (edges : List Edge) :
    (a.extend (s :: l)).addEdges a.size edges =
      a.extend ({ s with edges := s.edges ++ edges } :: l) := by
  have h := modify_append_right a.states.toList (s :: l) 0
    fun s => { s with edges := s.edges ++ edges }
  simp only [addEdges, extend, size, List.modify_toArray, ← Array.length_toList]
  exact congrArg (fun l => (⟨l.toArray⟩ : Automaton)) h

/-- Adding edges to one of the states that were there before. -/
theorem addEdges_extend {source : Nat} (h : source < a.size) (edges : List Edge) :
    (a.extend l).addEdges source edges = (a.addEdges source edges).extend l := by
  have hsource : source < a.states.toList.length := by simpa [size] using h
  simp only [addEdges, extend, List.modify_toArray, Array.toList_modify]
  rw [modify_append_left hsource]

theorem addFree_eq (source target : Nat) :
    a.addFree source target = a.addEdges source [.free target] := rfl

theorem addEdges_addEdges (source : Nat) (edges edges' : List Edge) :
    (a.addEdges source edges).addEdges source edges' = a.addEdges source (edges ++ edges') := by
  apply congrArg Automaton.mk
  apply Array.toList_inj.1
  simp only [addEdges, Array.toList_modify, List.modify_modify_eq]
  simp only [Function.comp_def, List.append_assoc]

@[simp] theorem size_addEdges (source : Nat) (edges : List Edge) :
    (a.addEdges source edges).size = a.size := by
  simp [size, addEdges]

end Extend

/-- An edge from the way out of a block. -/
theorem addFree_exit (a : Automaton) (t : Term) (post : List Edge) (l : List State)
    (target : Nat) :
    (a.extend (t.layout a.size post ++ l)).addFree (t.fragment a.size).exit target =
      a.extend (t.layout a.size (post ++ [.free target]) ++ l) := by
  obtain ⟨k, hk, hexit, hmodify⟩ := t.modify_layout a.size (.free target)
  rw [addFree, hexit, ← hmodify]
  rw [← t.length_layout a.size post] at hk
  rw [← modify_append_left hk]
  exact addEdge_extend a _ _

/-- An edge from the first state after a block. -/
theorem addFree_after (a : Automaton) (t : Term) (post : List Edge) (s : State) (l : List State)
    (target : Nat) :
    (a.extend (t.layout a.size post ++ s :: l)).addFree (a.size + t.width) target =
      a.extend (t.layout a.size post ++ s.addEdge (.free target) :: l) := by
  have h := modify_append_right (t.layout a.size post) (s :: l) 0 (State.addEdge · (.free target))
  rw [Nat.add_zero, t.length_layout, List.modify_zero_cons] at h
  rw [addFree, ← h]
  exact addEdge_extend a _ _

/-- A bypass is two states after the block. -/
theorem addBypass_eq (a : Automaton) (t : Term) (post : List Edge) :
    (a.extend (t.layout a.size post)).addBypass (t.fragment a.size) =
      (⟨a.size + t.width, a.size + t.width + 1⟩,
        a.extend (t.layout a.size (post ++ [.free (a.size + t.width + 1)]) ++
          [⟨.plain, [.free (t.fragment a.size).entry, .free (a.size + t.width + 1)]⟩,
            ⟨.plain, []⟩])) := by
  have hsize : (a.extend (t.layout a.size post)).size = a.size + t.width := by simp
  simp only [addBypass, hsize, addState_eq, extend_extend, List.append_assoc, List.cons_append,
    List.nil_append]
  rw [addFree_after, addFree_after, addFree_exit]
  rfl

mutual

/-- Compiling a term lays it out after the states that are there. -/
theorem addTerm_eq (a : Automaton) :
    ∀ t : Term, a.addTerm t = (t.fragment a.size, a.extend (t.layout a.size []))
  | .atom m => by
    simp only [addTerm, addAtom, addState_eq, extend_extend, addConsuming]
    exact congrArg (Prod.mk _) (addEdge_extend a (k := 0) _ _)
  | .group index body => by
    have hlt : a.size < (a.extend [⟨.groupStart index, []⟩, ⟨.groupEnd index, []⟩]).size := by
      simp
    simp only [addTerm, addState_eq, extend_extend, List.cons_append, List.nil_append]
    rw [addChoice_eq _ _ hlt body]
    have hstart : (a.extend [⟨.groupStart index, []⟩, ⟨.groupEnd index, []⟩]).addEdges a.size
        (body.entries (a.size + 2) (a.size + 1)) =
          a.extend [⟨.groupStart index, body.entries (a.size + 2) (a.size + 1)⟩,
            ⟨.groupEnd index, []⟩] :=
      addEdges_after a _ _ _
    simp only [size_extend, List.length_cons, List.length_nil]
    rw [hstart, extend_extend]
    rfl
  | .quantified .optional t => by
    simp only [addTerm, addTerm_eq a t, addQuantifier]
    exact addBypass_eq a t []
  | .quantified .plus t => by
    simp only [addTerm, addTerm_eq a t, addQuantifier, addReturn]
    have h := addFree_exit a t [] [] (t.fragment a.size).entry
    rw [List.append_nil, List.append_nil] at h
    rw [h]
    rfl
  | .quantified .star t => by
    simp only [addTerm, addTerm_eq a t, addQuantifier, addReturn]
    have h := addFree_exit a t [] [] (t.fragment a.size).entry
    rw [List.append_nil, List.append_nil] at h
    rw [h]
    exact addBypass_eq a t _

theorem addBranch_eq (a : Automaton) (tail : Nat) :
    ∀ b : Branch, a.addBranch tail b = (b.entry a.size tail, a.extend (b.layout a.size tail))
  | .nil => by simp [addBranch, Branch.entry, Branch.layout]
  | .cons t rest => by
    simp only [addBranch, addTerm_eq a t, addBranch_eq _ tail rest, size_extend, t.length_layout,
      extend_extend]
    rw [addFree_exit]
    rfl

theorem addChoice_eq (a : Automaton) {source : Nat} (tail : Nat) (h : source < a.size) :
    ∀ c : Choice, a.addChoice source c tail =
      (a.addEdges source (c.entries a.size tail)).extend (c.layout a.size tail)
  | .only b => by
    simp only [addChoice, addBranch_eq a tail b, addFree_eq]
    rw [addEdges_extend a _ h]
    rfl
  | .or b rest => by
    have hlt : source < ((a.addEdges source [.free (b.entry a.size tail)]).extend
        (b.layout a.size tail)).size := by
      simp only [size_extend, size_addEdges]
      omega
    simp only [addChoice, addBranch_eq a tail b, addFree_eq]
    rw [addEdges_extend a _ h, addChoice_eq _ tail hlt rest]
    rw [addEdges_extend _ _ (by simpa using h), addEdges_addEdges, extend_extend]
    simp only [size_extend, size_addEdges, b.length_layout]
    rfl

end

/-- **The states of a compiled automaton**: where the search begins, the final state, and the
layout of the pattern after them. -/
theorem ofChoice_eq (body : Choice) :
    ofChoice body =
      ⟨(⟨.plain, body.entries 2 1⟩ :: ⟨.final, []⟩ :: body.layout 2 1).toArray⟩ := by
  have hlt : 0 < ((⟨#[]⟩ : Automaton).extend [⟨.plain, []⟩, ⟨.final, []⟩]).size := by simp
  simp only [ofChoice, addState_eq, extend_extend, List.cons_append, List.nil_append, start]
  rw [addChoice_eq _ 1 hlt]
  have hstart : ((⟨#[]⟩ : Automaton).extend [⟨.plain, []⟩, ⟨.final, []⟩]).addEdges 0
      (body.entries 2 1) = (⟨#[]⟩ : Automaton).extend [⟨.plain, body.entries 2 1⟩, ⟨.final, []⟩] :=
    addEdges_after ⟨#[]⟩ _ _ _
  simp only [size_extend, List.length_cons, List.length_nil]
  exact (congrArg (extend · _) hstart).trans (extend_extend _ _ _)

/-! ## Places in an automaton -/

/-- The states of an automaton from `lo` on begin with those of `l`. -/
def HasBlock (a : Automaton) (lo : Nat) (l : List State) : Prop :=
  ∀ k s, l[k]? = some s → a.states[lo + k]? = some s

namespace HasBlock

variable {a : Automaton} {lo : Nat} {s : State} {l r : List State}

theorem head (h : a.HasBlock lo (s :: l)) : a.states[lo]? = some s :=
  h 0 s rfl

theorem tail (h : a.HasBlock lo (s :: l)) : a.HasBlock (lo + 1) l := by
  intro k s' hk
  have hs := h (k + 1) s' hk
  rwa [Nat.add_comm k 1, ← Nat.add_assoc] at hs

theorem left (h : a.HasBlock lo (l ++ r)) : a.HasBlock lo l := by
  intro k s hk
  refine h k s ?_
  rw [List.getElem?_append_left (List.getElem?_eq_some_iff.1 hk).1, hk]

theorem right (h : a.HasBlock lo (l ++ r)) : a.HasBlock (lo + l.length) r := by
  intro k s hk
  have hs := h (l.length + k) s (by rw [List.getElem?_append_right (Nat.le_add_right _ _)]; simpa)
  rwa [← Nat.add_assoc] at hs

/-- The block of a branch is that of its first term and that of the others. -/
theorem cons {tail : Nat} {t : Term} {rest : Branch}
    (h : a.HasBlock lo ((Branch.cons t rest).layout lo tail)) :
    a.HasBlock lo (t.layout lo [.free (rest.entry (lo + t.width) tail)]) ∧
      a.HasBlock (lo + t.width) (rest.layout (lo + t.width) tail) := by
  have hright := h.right
  rw [t.length_layout] at hright
  exact ⟨h.left, hright⟩

/-- The block of a choice is that of its first branch and that of the others. -/
theorem or {tail : Nat} {b : Branch} {rest : Choice}
    (h : a.HasBlock lo ((Choice.or b rest).layout lo tail)) :
    a.HasBlock lo (b.layout lo tail) ∧
      a.HasBlock (lo + b.width) (rest.layout (lo + b.width) tail) := by
  have hright := h.right
  rw [b.length_layout] at hright
  exact ⟨h.left, hright⟩

/-- The block of a term with two states after it. -/
theorem bypass {t : Term} {post : List Edge} {s' : State}
    (h : a.HasBlock lo (t.layout lo post ++ [s, s'])) :
    a.HasBlock lo (t.layout lo post) ∧ a.states[lo + t.width]? = some s ∧
      a.states[lo + t.width + 1]? = some s' := by
  have hright := h.right
  rw [t.length_layout] at hright
  exact ⟨h.left, hright.head, hright.tail.head⟩

end HasBlock

theorem hasBlock_ofChoice (body : Choice) :
    (ofChoice body).HasBlock 0
      (⟨.plain, body.entries 2 1⟩ :: ⟨.final, []⟩ :: body.layout 2 1) := by
  intro k s hk
  rw [ofChoice_eq, Nat.zero_add]
  simpa using hk

end Automaton

end PatternSearch
