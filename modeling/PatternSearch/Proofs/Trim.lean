import Mathlib.Logic.Relation
import PatternSearch.Proofs.Layout
import PatternSearch.Proofs.Parsing
import PatternSearch.Regex

/-!
# Compiled automata are trim

While a pattern is compiled its states have edges missing, and nothing can be said of them. Once it
has been laid out, everything can: no state of a block is final, and its edges lead to states that
are there (`State.Inner`); each group has one start and one end in it, where the pattern has it; and
every state of a block lies between its way in and its way out (`Automaton.Links`). So there is no
dead end in a compiled automaton and nothing in it that cannot be reached
(`Pattern.trim_of_parse`).
-/

namespace PatternSearch

/-! ## The matchers of a pattern -/

mutual

/-- The matchers of a term, in their order. -/
def Term.matchers : Term → List Matcher
  | .atom m => [m]
  | .group _ body => body.matchers
  | .quantified _ t => t.matchers
termination_by structural t => t

def Branch.matchers : Branch → List Matcher
  | .nil => []
  | .cons t rest => t.matchers ++ rest.matchers
termination_by structural b => b

def Choice.matchers : Choice → List Matcher
  | .only b => b.matchers
  | .or b rest => b.matchers ++ rest.matchers
termination_by structural c => c

end

mutual

/-- **Groups are opened one after the other, and the backreferences that are written name groups
that have been opened.** -/
theorem Term.Written.backref_lt {enclosing : List Nat} {opened opened' : Nat} {chars : List Char}
    {t : Term} (h : Term.Written enclosing opened chars t opened') :
    opened ≤ opened' ∧ ∀ group, .backref group ∈ t.matchers → group < opened' := by
  match h with
  | .atom _ hstand =>
    refine ⟨Nat.le_refl _, fun group hgroup => ?_⟩
    exact (hstand group (List.mem_singleton.1 hgroup).symm).1
  | .group hbody =>
    obtain ⟨hle, hlt⟩ := hbody.backref_lt
    exact ⟨Nat.le_of_succ_le hle, hlt⟩
  | .quantified _ ht => exact ht.backref_lt

theorem Branch.Written.backref_lt {enclosing : List Nat} {opened opened' : Nat}
    {chars : List Char} {b : Branch} (h : Branch.Written enclosing opened chars b opened') :
    opened ≤ opened' ∧ ∀ group, .backref group ∈ b.matchers → group < opened' := by
  match h with
  | .nil => exact ⟨Nat.le_refl _, fun _ h => nomatch h⟩
  | .cons ht hrest =>
    obtain ⟨hle, hlt⟩ := ht.backref_lt
    obtain ⟨hle', hlt'⟩ := hrest.backref_lt
    refine ⟨Nat.le_trans hle hle', fun group hgroup => ?_⟩
    rcases List.mem_append.1 hgroup with hgroup | hgroup
    · exact Nat.lt_of_lt_of_le (hlt group hgroup) hle'
    · exact hlt' group hgroup

theorem Choice.Written.backref_lt {enclosing : List Nat} {opened opened' : Nat}
    {chars : List Char} {c : Choice} (h : Choice.Written enclosing opened chars c opened') :
    opened ≤ opened' ∧ ∀ group, .backref group ∈ c.matchers → group < opened' := by
  match h with
  | .only hb => exact hb.backref_lt
  | .or hb hrest =>
    obtain ⟨hle, hlt⟩ := hb.backref_lt
    obtain ⟨hle', hlt'⟩ := hrest.backref_lt
    refine ⟨Nat.le_trans hle hle', fun group hgroup => ?_⟩
    rcases List.mem_append.1 hgroup with hgroup | hgroup
    · exact Nat.lt_of_lt_of_le (hlt group hgroup) hle'
    · exact hlt' group hgroup

end

/-! ## The states of a block -/

/-- An edge that leads to one of the first `size` states and takes what one of the given matchers
takes, if anything. -/
structure Edge.Fits (e : Edge) (size : Nat) (matchers : List Matcher) : Prop where
  target_lt : e.target < size
  mem_matchers : ∀ m, e.matcher? = some m → m ∈ matchers

/-- A state in the block of a part of a pattern with the given matchers. -/
structure State.Inner (s : State) (size : Nat) (matchers : List Matcher) : Prop where
  ne_final : s.marker ≠ .final
  fits : ∀ e ∈ s.edges, e.Fits size matchers

section Inner

variable {size : Nat} {matchers : List Matcher}

theorem Edge.fits_free {target : Nat} (h : target < size) : (Edge.free target).Fits size matchers :=
  ⟨h, fun _ hm => nomatch hm⟩

theorem Edge.fits_nil : ∀ e ∈ ([] : List Edge), e.Fits size matchers :=
  nofun

theorem Edge.fits_cons {target : Nat} {edges : List Edge} (h : target < size)
    (hedges : ∀ e ∈ edges, e.Fits size matchers) :
    ∀ e ∈ .free target :: edges, e.Fits size matchers :=
  List.forall_mem_cons.2 ⟨fits_free h, hedges⟩

theorem State.inner_plain {edges : List Edge} (h : ∀ e ∈ edges, e.Fits size matchers) :
    (State.mk .plain edges).Inner size matchers :=
  ⟨plain_ne_final, h⟩

theorem State.inner_bypass {l : List State} {inner exit : Nat} {post : List Edge}
    (hl : ∀ s ∈ l, s.Inner size matchers) (hinner : inner < size) (hexit : exit < size)
    (hpost : ∀ e ∈ post, e.Fits size matchers) :
    ∀ s ∈ l ++ [⟨.plain, [.free inner, .free exit]⟩, ⟨.plain, post⟩], s.Inner size matchers :=
  List.forall_mem_append.2 ⟨hl, List.forall_mem_cons.2
    ⟨inner_plain (Edge.fits_cons hinner (Edge.fits_cons hexit Edge.fits_nil)),
      List.forall_mem_singleton.2 (inner_plain hpost)⟩⟩

theorem Branch.entry_lt {lo tail : Nat} (b : Branch) (hwidth : lo + b.width ≤ size)
    (htail : tail < size) : b.entry lo tail < size := by
  cases b with
  | nil => exact htail
  | cons t rest =>
    have hentry := (t.entry_mem lo).2
    rw [Branch.width] at hwidth
    exact Nat.lt_of_lt_of_le hentry (by omega)

theorem Choice.fits_entries {lo tail : Nat} (c : Choice) (hwidth : lo + c.width ≤ size)
    (htail : tail < size) : ∀ e ∈ c.entries lo tail, e.Fits size matchers := by
  cases c with
  | only b => exact Edge.fits_cons (b.entry_lt hwidth htail) Edge.fits_nil
  | or b rest =>
    rw [Choice.width] at hwidth
    exact Edge.fits_cons (b.entry_lt (by omega) htail) (rest.fits_entries (by omega) htail)

mutual

/-- **The states of a block are not final and lead to states that are there.** -/
theorem Term.inner_layout {lo : Nat} {post : List Edge} : ∀ (t : Term), lo + t.width ≤ size →
    t.matchers ⊆ matchers → (∀ e ∈ post, e.Fits size matchers) →
    ∀ s ∈ t.layout lo post, s.Inner size matchers
  | .atom m => by
    intro hwidth hsub hpost
    rw [Term.width] at hwidth
    have hedge : (⟨some m, lo + 1⟩ : Edge).Fits size matchers :=
      ⟨hwidth, fun m' hm => hsub (List.mem_singleton.2 (Option.some.inj hm).symm)⟩
    exact List.forall_mem_cons.2 ⟨State.inner_plain (List.forall_mem_singleton.2 hedge),
      List.forall_mem_singleton.2 (State.inner_plain hpost)⟩
  | .group index body => by
    intro hwidth hsub hpost
    rw [Term.width] at hwidth
    have hwidth : lo + 2 + body.width ≤ size := by omega
    have htail : lo + 1 < size := by omega
    exact List.forall_mem_cons.2 ⟨⟨by simp, body.fits_entries hwidth htail⟩,
      List.forall_mem_cons.2 ⟨⟨by simp, hpost⟩, body.inner_layout hwidth htail hsub⟩⟩
  | .quantified .optional t => by
    intro hwidth hsub hpost
    have hwidth : lo + (t.width + 2) ≤ size := hwidth
    have hentry := (t.entry_mem lo).2
    have hwidth' : lo + t.width ≤ size := by omega
    have hexit : lo + t.width + 1 < size := by omega
    have hinner := t.inner_layout hwidth' hsub (Edge.fits_cons hexit Edge.fits_nil)
    exact State.inner_bypass hinner (by omega) hexit hpost
  | .quantified .plus t => by
    intro hwidth hsub hpost
    have hentry := (t.entry_mem lo).2
    exact t.inner_layout hwidth hsub (Edge.fits_cons (Nat.lt_of_lt_of_le hentry hwidth) hpost)
  | .quantified .star t => by
    intro hwidth hsub hpost
    have hwidth : lo + (t.width + 2) ≤ size := hwidth
    have hentry : (t.fragment lo).entry < size :=
      Nat.lt_of_lt_of_le (t.entry_mem lo).2 (by omega)
    have hwidth' : lo + t.width ≤ size := by omega
    have hexit : lo + t.width + 1 < size := by omega
    have hinner := t.inner_layout hwidth' hsub
      (Edge.fits_cons hentry (Edge.fits_cons hexit Edge.fits_nil))
    exact State.inner_bypass hinner hentry hexit hpost

theorem Branch.inner_layout {lo tail : Nat} : ∀ (b : Branch), lo + b.width ≤ size → tail < size →
    b.matchers ⊆ matchers → ∀ s ∈ b.layout lo tail, s.Inner size matchers
  | .nil => nofun
  | .cons t rest => by
    intro hwidth htail hsub
    obtain ⟨hfirst, hlater⟩ := List.append_subset.1 hsub
    rw [Branch.width] at hwidth
    have hrest : lo + t.width + rest.width ≤ size := by omega
    exact List.forall_mem_append.2 ⟨t.inner_layout (by omega) hfirst
      (Edge.fits_cons (rest.entry_lt hrest htail) Edge.fits_nil),
      rest.inner_layout hrest htail hlater⟩

theorem Choice.inner_layout {lo tail : Nat} : ∀ (c : Choice), lo + c.width ≤ size → tail < size →
    c.matchers ⊆ matchers → ∀ s ∈ c.layout lo tail, s.Inner size matchers
  | .only b => fun hwidth htail hsub => b.inner_layout hwidth htail hsub
  | .or b rest => by
    intro hwidth htail hsub
    obtain ⟨hfirst, hlater⟩ := List.append_subset.1 hsub
    rw [Choice.width] at hwidth
    exact List.forall_mem_append.2 ⟨b.inner_layout (by omega) htail hfirst,
      rest.inner_layout (by omega) htail hlater⟩

end

end Inner

/-! ## The ends of the groups -/

/-- One of the two ends of a group. -/
def Marker.IsEnd (mark : Nat → Marker) : Prop :=
  mark = .groupStart ∨ mark = .groupEnd

section Ends

variable {mark : Nat → Marker} {group : Nat}

theorem Marker.IsEnd.countP_group (hmark : Marker.IsEnd mark) (index : Nat)
    (edges edges' : List Edge) (l : List State) :
    (State.mk (.groupStart index) edges :: ⟨.groupEnd index, edges'⟩ :: l).countP
      (·.marker = mark group) =
      l.countP (·.marker = mark group) + if index = group then 1 else 0 := by
  rcases hmark with rfl | rfl <;> simp [List.countP_cons]

theorem Marker.IsEnd.countP_bypass (hmark : Marker.IsEnd mark) (edges edges' : List Edge)
    (l : List State) :
    (l ++ [State.mk .plain edges, ⟨.plain, edges'⟩]).countP (·.marker = mark group) =
      l.countP (·.marker = mark group) := by
  rcases hmark with rfl | rfl <;> simp

mutual

/-- **The groups of a term have their ends in its block**, each as often as it stands in the term. -/
theorem Term.countP_layout (hmark : Marker.IsEnd mark) {lo : Nat} {post : List Edge} :
    ∀ (t : Term), (t.layout lo post).countP (·.marker = mark group) = t.groups.count group
  | .atom m => hmark.countP_bypass _ _ []
  | .group index body => by
    rw [Term.layout, hmark.countP_group, body.countP_layout hmark, Term.groups, List.count_cons]
    simp only [beq_iff_eq]
  | .quantified .optional t => by
    rw [Term.layout, hmark.countP_bypass, t.countP_layout hmark, Term.groups]
  | .quantified .plus t => by
    rw [Term.layout, t.countP_layout hmark, Term.groups]
  | .quantified .star t => by
    rw [Term.layout, hmark.countP_bypass, t.countP_layout hmark, Term.groups]

theorem Branch.countP_layout (hmark : Marker.IsEnd mark) {lo tail : Nat} :
    ∀ (b : Branch), (b.layout lo tail).countP (·.marker = mark group) = b.groups.count group
  | .nil => rfl
  | .cons t rest => by
    rw [Branch.layout, List.countP_append, t.countP_layout hmark, rest.countP_layout hmark,
      Branch.groups, List.count_append]

theorem Choice.countP_layout (hmark : Marker.IsEnd mark) {lo tail : Nat} :
    ∀ (c : Choice), (c.layout lo tail).countP (·.marker = mark group) = c.groups.count group
  | .only b => b.countP_layout hmark
  | .or b rest => by
    rw [Choice.layout, List.countP_append, b.countP_layout hmark, rest.countP_layout hmark,
      Choice.groups, List.count_append]

end

end Ends

/-! ## Ways through an automaton -/

namespace Automaton

/-- There is an edge from one state to another. -/
def HasEdge (a : Automaton) (source target : Nat) : Prop :=
  ∃ e ∈ a.edges source, e.target = target

/-- There is a way from one state to another along the edges, whatever they take. -/
def Leads (a : Automaton) : Nat → Nat → Prop :=
  Relation.ReflTransGen a.HasEdge

section Links

/-- The states from `lo` up to `hi` all lie on ways from `source` to `sink`. -/
structure Links (a : Automaton) (source sink lo hi : Nat) : Prop where
  through : a.Leads source sink
  between : ∀ n, lo ≤ n → n < hi → a.Leads source n ∧ a.Leads n sink

variable {a : Automaton} {source sink lo mid hi : Nat}

theorem leads_of_mem {s : State} {e : Edge} (hs : a.states[source]? = some s) (he : e ∈ s.edges) :
    a.Leads source e.target := by
  refine .single ⟨e, ?_, rfl⟩
  rw [edges, hs]
  exact he

namespace Links

theorem empty (h : a.Leads source sink) : a.Links source sink lo lo :=
  ⟨h, fun _ hle hlt => absurd hlt (Nat.not_lt.2 hle)⟩

theorem single {n : Nat} (hin : a.Leads source n) (hout : a.Leads n sink) :
    a.Links source sink n (n + 1) := by
  refine ⟨hin.trans hout, fun n' hle hlt => ?_⟩
  rw [← Nat.le_antisymm hle (Nat.le_of_lt_succ hlt)]
  exact ⟨hin, hout⟩

theorem append (h : a.Links source sink lo mid) (h' : a.Links source sink mid hi) :
    a.Links source sink lo hi :=
  ⟨h.through, fun n hle hlt =>
    (Nat.lt_or_ge n mid).elim (h.between n hle) (h'.between n · hlt)⟩

theorem extend {source' sink' : Nat} (hsource : a.Leads source' source)
    (h : a.Links source sink lo hi) (hsink : a.Leads sink sink') :
    a.Links source' sink' lo hi := by
  refine ⟨(hsource.trans h.through).trans hsink, fun n hle hlt => ?_⟩
  obtain ⟨hin, hout⟩ := h.between n hle hlt
  exact ⟨hsource.trans hin, hout.trans hsink⟩

/-- A block with its way in and its way out after it. -/
theorem bypass {t : Term} {post : List Edge} {e : Edge}
    (hentry : a.states[lo + t.width]? =
      some ⟨.plain, [.free (t.fragment lo).entry, .free (lo + t.width + 1)]⟩)
    (hexit : a.states[lo + t.width + 1]? = some ⟨.plain, post⟩)
    (hinner : a.Links (t.fragment lo).entry (lo + t.width + 1) lo (lo + t.width)) (he : e ∈ post) :
    a.Links (lo + t.width) e.target lo (lo + (t.width + 2)) := by
  have hin : a.Leads (lo + t.width) (t.fragment lo).entry :=
    leads_of_mem hentry List.mem_cons_self
  have hpast : a.Leads (lo + t.width) (lo + t.width + 1) :=
    leads_of_mem hentry (List.mem_cons_of_mem _ List.mem_cons_self)
  have hout : a.Leads (lo + t.width + 1) e.target := leads_of_mem hexit he
  exact ((extend hin hinner hout).append (single .refl (hpast.trans hout))).append
    (single hpast hout)

end Links

end Links

end Automaton

section Links

variable {a : Automaton}

mutual

/-- **Every state of a block lies between its way in and wherever its way out leads.** -/
theorem Term.links {lo : Nat} {post : List Edge} : ∀ (t : Term),
    a.HasBlock lo (t.layout lo post) → ∀ e ∈ post,
      a.Links (t.fragment lo).entry e.target lo (lo + t.width)
  | .atom m => by
    intro hblock e he
    have hin : a.Leads lo (lo + 1) := Automaton.leads_of_mem hblock.head List.mem_cons_self
    have hout : a.Leads (lo + 1) e.target := Automaton.leads_of_mem hblock.tail.head he
    exact (Automaton.Links.single .refl (hin.trans hout)).append (.single hin hout)
  | .group index body => by
    intro hblock e he
    have hbody : a.Links lo (lo + 1) (lo + 2) (lo + 2 + body.width) :=
      body.links hblock.tail.tail fun e he => Automaton.leads_of_mem hblock.head he
    have hout : a.Leads (lo + 1) e.target := Automaton.leads_of_mem hblock.tail.head he
    have hends := (Automaton.Links.single .refl (hbody.through.trans hout)).append
      (.single hbody.through hout)
    have hwidth : lo + (body.width + 2) = lo + 2 + body.width := by omega
    rw [Term.width, hwidth]
    exact hends.append (.extend .refl hbody hout)
  | .quantified .optional t => by
    intro hblock e he
    obtain ⟨hinner, hentry, hexit⟩ := hblock.bypass
    exact .bypass hentry hexit (t.links hinner _ List.mem_cons_self) he
  | .quantified .plus t => by
    intro hblock e he
    exact t.links hblock e (List.mem_cons_of_mem _ he)
  | .quantified .star t => by
    intro hblock e he
    obtain ⟨hinner, hentry, hexit⟩ := hblock.bypass
    exact .bypass hentry hexit (t.links hinner _ (List.mem_cons_of_mem _ List.mem_cons_self)) he

theorem Branch.links {lo tail : Nat} : ∀ (b : Branch),
    a.HasBlock lo (b.layout lo tail) → a.Links (b.entry lo tail) tail lo (lo + b.width)
  | .nil => fun _ => .empty .refl
  | .cons t rest => by
    intro hblock
    obtain ⟨hleft, hright⟩ := hblock.cons
    have hfirst := t.links hleft _ List.mem_cons_self
    have hlater := rest.links hright
    have hwidth : lo + (t.width + rest.width) = lo + t.width + rest.width := by omega
    rw [Branch.width, hwidth]
    exact (Automaton.Links.extend .refl hfirst hlater.through).append (.extend hfirst.through hlater .refl)

theorem Choice.links {lo tail source : Nat} : ∀ (c : Choice),
    a.HasBlock lo (c.layout lo tail) → (∀ e ∈ c.entries lo tail, a.Leads source e.target) →
      a.Links source tail lo (lo + c.width)
  | .only b => by
    intro hblock hsource
    exact .extend (hsource _ List.mem_cons_self) (b.links hblock) .refl
  | .or b rest => by
    intro hblock hsource
    obtain ⟨hleft, hright⟩ := hblock.or
    obtain ⟨hfirst, hlater⟩ := List.forall_mem_cons.1 hsource
    have hwidth : lo + (b.width + rest.width) = lo + b.width + rest.width := by omega
    rw [Choice.width, hwidth]
    exact (Automaton.Links.extend hfirst (b.links hleft) .refl).append (rest.links hright hlater)

end

end Links

/-! ## Compiled patterns -/

namespace Automaton

/-- An automaton of `groups` groups with nothing amiss and nothing to spare. -/
structure Trim (a : Automaton) (groups : Nat) : Prop where
  wellFormed : a.WellFormed
  /-- State 1 is final and has no edges. -/
  final : a.states[1]? = some ⟨.final, []⟩
  /-- No other state is final. -/
  eq_final : ∀ (n : Nat) (s : State), a.states[n]? = some s → s.marker = .final → n = 1
  /-- Every state can be reached from the one where a search begins. -/
  reached : ∀ n < a.size, a.Leads start n
  /-- The final state can be reached from every state. -/
  reaches : ∀ n < a.size, a.Leads n 1
  /-- Every group has exactly one start, and no other group has one. -/
  starts : ∀ group, a.states.countP (·.marker = .groupStart group) = if group < groups then 1 else 0
  /-- Every group has exactly one end, and no other group has one. -/
  ends : ∀ group, a.states.countP (·.marker = .groupEnd group) = if group < groups then 1 else 0
  /-- Every backreference names one of the groups. -/
  backref_lt : ∀ (n : Nat) (s : State), a.states[n]? = some s → ∀ e ∈ s.edges, ∀ group,
    e.matcher? = some (.backref group) → group < groups

section OfChoice

variable (body : Choice)

theorem size_ofChoice : (ofChoice body).size = 2 + body.width := by
  rw [ofChoice_eq, size, List.size_toArray, List.length_cons, List.length_cons,
    body.length_layout]
  omega

/-- The states of a compiled automaton are the final one, and states that are not. -/
theorem inner_ofChoice {n : Nat} {s : State} (hs : (ofChoice body).states[n]? = some s) :
    (n = 1 ∧ s = ⟨.final, []⟩) ∨ s.Inner (ofChoice body).size body.matchers := by
  have hsize := size_ofChoice body
  have htail : 1 < (ofChoice body).size := by omega
  have hlayout := body.inner_layout hsize.ge htail (List.Subset.refl body.matchers)
  simp only [ofChoice_eq, List.getElem?_toArray] at hs
  match n with
  | 0 =>
    cases hs
    exact .inr (State.inner_plain (body.fits_entries hsize.ge htail))
  | 1 =>
    cases hs
    exact .inl ⟨rfl, rfl⟩
  | n + 2 => exact .inr (hlayout s (List.mem_of_getElem? hs))

theorem links_ofChoice : (ofChoice body).Links 0 1 0 (ofChoice body).size := by
  have hblock := hasBlock_ofChoice body
  have hbody : (ofChoice body).Links 0 1 2 (2 + body.width) :=
    body.links hblock.tail.tail fun e he => leads_of_mem hblock.head he
  rw [size_ofChoice]
  exact ((Links.single .refl hbody.through).append (.single hbody.through .refl)).append hbody

theorem countP_ofChoice {mark : Nat → Marker} (hmark : Marker.IsEnd mark) (group : Nat) :
    (ofChoice body).states.countP (·.marker = mark group) = body.groups.count group := by
  rw [← body.countP_layout hmark, ofChoice_eq, List.countP_toArray]
  rcases hmark with rfl | rfl <;> rfl

theorem final_ofChoice : (ofChoice body).states[1]? = some ⟨.final, []⟩ :=
  (hasBlock_ofChoice body).tail.head

theorem countP_final_ofChoice : (ofChoice body).states.countP (·.marker = .final) = 1 := by
  have hlayout : (body.layout 2 1).countP (·.marker = .final) = 0 := by
    refine List.countP_eq_zero.2 fun s hs => ?_
    have hinner : s.Inner (2 + body.width) body.matchers :=
      body.inner_layout (Nat.le_refl _) (by omega) (List.Subset.refl _) s hs
    simpa using hinner.ne_final
  rw [ofChoice_eq, List.countP_toArray, List.countP_cons, List.countP_cons, hlayout]
  rfl

/-- A state from which the final one can be reached has an edge, unless it is the final one. -/
theorem edges_ne_nil {a : Automaton} {n : Nat} {s : State} (hs : a.states[n]? = some s)
    (hreaches : a.Leads n 1) (hn : n ≠ 1) : s.edges ≠ [] := by
  rcases hreaches.cases_head with heq | ⟨m, ⟨e, he, -⟩, -⟩
  · exact absurd heq hn
  · rw [edges, hs] at he
    exact List.ne_nil_of_mem he

theorem wellFormed_ofChoice : (ofChoice body).WellFormed := by
  refine ⟨countP_final_ofChoice body, fun s hs => ?_⟩
  obtain ⟨n, hs⟩ := List.mem_iff_getElem?.1 hs
  rw [Array.getElem?_toList] at hs
  rcases inner_ofChoice body hs with ⟨-, rfl⟩ | hinner
  · exact ⟨.inl rfl, nofun⟩
  · refine ⟨.inr ?_, fun e he => (hinner.fits e he).target_lt⟩
    have hn : n ≠ 1 := by
      rintro rfl
      rw [final_ofChoice] at hs
      cases hs
      exact hinner.ne_final rfl
    have hlt : n < (ofChoice body).size := (Array.getElem?_eq_some_iff.1 hs).1
    exact edges_ne_nil hs ((links_ofChoice body).between n (Nat.zero_le n) hlt).2 hn

end OfChoice

end Automaton

/-- **The automaton of a pattern is trim**: it is well formed, with one final state, every state of
it lies between the start and that one, each group has one start and one end, and every
backreference names a group. It is the automaton in which the compiled pattern is searched for, in
any text and with any limit, and state 0 is where the search starts. -/
theorem Pattern.trim_of_parse {source : String} {p : Pattern} (h : Pattern.parse source = .ok p) :
    (∃ r, Regex.compile source = .ok r ∧ ∀ text limit,
      (r.query text limit).automaton = Automaton.ofChoice p.body ∧
        (r.query text limit).groups = p.groupCount ∧ (r.query text limit).start = 0) ∧
      (Automaton.ofChoice p.body).Trim p.groupCount := by
  have hlinks := Automaton.links_ofChoice p.body
  have hcount (group : Nat) : p.body.groups.count group = if group < p.groupCount then 1 else 0 := by
    rw [Pattern.groups_of_parse h, List.count_range]
  have hwritten := (Pattern.written_of_parse h).2.backref_lt.2
  refine ⟨⟨Regex.ofPattern source p, Regex.compile_of_parse h, fun _ _ => ⟨rfl, rfl, rfl⟩⟩,
    ?wellFormed, ?final, ?unique, ?reached, ?reaches, ?starts, ?ends, ?backrefs⟩
  case wellFormed => exact Automaton.wellFormed_ofChoice p.body
  case final => exact Automaton.final_ofChoice p.body
  case unique =>
    intro n s hs hfinal
    rcases Automaton.inner_ofChoice p.body hs with ⟨hn, -⟩ | hinner
    · exact hn
    · exact absurd hfinal hinner.ne_final
  case reached => exact fun n hn => (hlinks.between n (Nat.zero_le n) hn).1
  case reaches => exact fun n hn => (hlinks.between n (Nat.zero_le n) hn).2
  case starts => exact fun group => (Automaton.countP_ofChoice _ (.inl rfl) group).trans (hcount group)
  case ends => exact fun group => (Automaton.countP_ofChoice _ (.inr rfl) group).trans (hcount group)
  case backrefs =>
    intro n s hs e he group hgroup
    rcases Automaton.inner_ofChoice p.body hs with ⟨-, rfl⟩ | hinner
    · exact absurd he List.not_mem_nil
    · exact hwritten group ((hinner.fits e he).mem_matchers _ hgroup)

/-- Loops in loops, an empty branch and a backreference. -/
theorem Pattern.trim_of_parse_nested :
    ∃ p, Pattern.parse "((a|)+b*)?\\2" = .ok p ∧ p.groupCount = 2 ∧
      (Automaton.ofChoice p.body).Trim 2 := by
  have hparse : Pattern.parse "((a|)+b*)?\\2" = .ok
      { anchor := ⟨false, false⟩
        body := .only (.cons (.quantified .optional (.group 0 (.only
          (.cons (.quantified .plus (.group 1 (.or (.cons (.atom (.literal 'a')) .nil)
            (.only .nil))))
            (.cons (.quantified .star (.atom (.literal 'b'))) .nil)))))
          (.cons (.atom (.backref 1)) .nil))
        groupCount := 2 } := rfl
  exact ⟨_, hparse, rfl, (Pattern.trim_of_parse hparse).2⟩

end PatternSearch
