import PatternSearch.Proofs.Derivation

/-!
# Journeys

A derivation that also tells the way: which states it passes, and at which offsets
(`Term.Travels`). The states are those of the block of the term, which are numbered as they are laid
out. What counts as the iterations of a loop is left open, so that it can be any number of them
(`iterated`) or less. Every derivation is a journey (`Term.travels_of_derives`), and a route can
follow any journey state by state (`Term.reaches`).
-/

namespace PatternSearch

/-- A relation between points of a text that tells what is passed on the way: states of an
automaton, and the offsets at which they are passed. -/
abbrev Journey :=
  Point → Point → List (Nat × Nat) → Prop

/-- A journey between the state `entry` and the next one, which stand around it, or past it. -/
def bypassed (entry : Nat) (D : Journey) : Journey := fun p q trace =>
  (∃ inner, D p q inner ∧ trace = (entry, p.offset) :: inner ++ [(entry + 1, q.offset)]) ∨
    q = p ∧ trace = [(entry, p.offset), (entry + 1, p.offset)]

mutual

/-- The journeys through a term whose block begins with state `lo`, where `loop` says what comes of
iterations. -/
def Term.Travels (text : Array Char) (loop : Journey → Journey) (lo : Nat) : Term → Journey
  | .atom m => fun p q trace =>
    m.pass? text p = some q ∧ trace = [(lo, p.offset), (lo + 1, q.offset)]
  | .group index body => fun p q trace => ∃ r inner, body.Travels text loop (lo + 2) p r inner ∧
      q = r.capture index p.offset ∧ trace = (lo, p.offset) :: inner ++ [(lo + 1, r.offset)]
  | .quantified .optional t => bypassed (lo + t.width) (t.Travels text loop lo)
  | .quantified .plus t => loop (t.Travels text loop lo)
  | .quantified .star t => bypassed (lo + t.width) (loop (t.Travels text loop lo))
termination_by structural t => t

/-- The journeys through the terms of a branch, one after the other. -/
def Branch.Travels (text : Array Char) (loop : Journey → Journey) (lo : Nat) : Branch → Journey
  | .nil => fun p q trace => q = p ∧ trace = []
  | .cons t rest => fun p q trace => ∃ r trace₁ trace₂, t.Travels text loop lo p r trace₁ ∧
      rest.Travels text loop (lo + t.width) r q trace₂ ∧ trace = trace₁ ++ trace₂
termination_by structural b => b

/-- The journeys through one of the branches of a choice. -/
def Choice.Travels (text : Array Char) (loop : Journey → Journey) (lo : Nat) : Choice → Journey
  | .only b => b.Travels text loop lo
  | .or b rest => fun p q trace =>
    b.Travels text loop lo p q trace ∨ rest.Travels text loop (lo + b.width) p q trace
termination_by structural c => c

end

/-! ## Iterations -/

/-- Some iterations of a loop, with the trace of each. -/
inductive Iterations (D : Journey) : Point → Point → List (List (Nat × Nat)) → Prop
  | single {p q : Point} {trace : List (Nat × Nat)} (h : D p q trace) : Iterations D p q [trace]
  | cons {p r q : Point} {trace : List (Nat × Nat)} {traces : List (List (Nat × Nat))}
      (h : D p r trace) (rest : Iterations D r q traces) : Iterations D p q (trace :: traces)

/-- Any number of iterations, but at least one. -/
def iterated (D : Journey) : Journey := fun p q trace =>
  ∃ traces, Iterations D p q traces ∧ trace = traces.flatten

/-- Whatever `loop` says comes of iterations. -/
def Iterates (loop : Journey → Journey) : Prop :=
  ∀ (D : Journey) (p q : Point) (trace : List (Nat × Nat)), loop D p q trace →
    iterated D p q trace

theorem iterates_iterated : Iterates iterated :=
  fun _ _ _ _ h => h

/-! ## From a derivation to a journey -/

theorem iterated_of_transGen {R : Point → Point → Prop} {D : Journey}
    (hD : ∀ p q, R p q → ∃ trace, D p q trace) {p q : Point} (h : Relation.TransGen R p q) :
    ∃ trace, iterated D p q trace := by
  induction h using Relation.TransGen.head_induction_on with
  | single hlast =>
    obtain ⟨trace, htrace⟩ := hD _ _ hlast
    exact ⟨_, _, .single htrace, rfl⟩
  | head hfirst _ ih =>
    obtain ⟨trace, htrace⟩ := hD _ _ hfirst
    obtain ⟨-, traces, hrest, -⟩ := ih
    exact ⟨_, _, .cons htrace hrest, rfl⟩

theorem bypassed_of_or {R : Point → Point → Prop} {D : Journey} {entry : Nat} {p q : Point}
    (hD : R p q → ∃ trace, D p q trace) (h : R p q ∨ q = p) :
    ∃ trace, bypassed entry D p q trace := by
  rcases h with hin | rfl
  · obtain ⟨inner, hinner⟩ := hD hin
    exact ⟨_, .inl ⟨inner, hinner, rfl⟩⟩
  · exact ⟨_, .inr ⟨rfl, rfl⟩⟩

section Travels

variable {text : Array Char}

mutual

/-- **Every derivation is a journey**, wherever the term is laid out. -/
theorem Term.travels_of_derives : ∀ (t : Term) (lo : Nat) (p q : Point), t.Derives text p q →
    ∃ trace, t.Travels text iterated lo p q trace
  | .atom m => fun lo p q h => ⟨_, h, rfl⟩
  | .group index body => by
    rintro lo p q ⟨r, hbody, rfl⟩
    obtain ⟨inner, hinner⟩ := body.travels_of_derives (lo + 2) p r hbody
    exact ⟨_, r, inner, hinner, rfl, rfl⟩
  | .quantified .optional t => fun lo p q h => bypassed_of_or (t.travels_of_derives lo p q) h
  | .quantified .plus t => fun lo p q h => iterated_of_transGen (t.travels_of_derives lo) h
  | .quantified .star t => fun lo p q h =>
    bypassed_of_or (fun hin => iterated_of_transGen (t.travels_of_derives lo) hin)
      (Relation.reflTransGen_iff_eq_or_transGen.1 h).symm

theorem Branch.travels_of_derives : ∀ (b : Branch) (lo : Nat) (p q : Point), b.Derives text p q →
    ∃ trace, b.Travels text iterated lo p q trace
  | .nil => fun lo p q h => ⟨_, h, rfl⟩
  | .cons t rest => by
    rintro lo p q ⟨r, ht, hrest⟩
    obtain ⟨trace₁, htrace₁⟩ := t.travels_of_derives lo p r ht
    obtain ⟨trace₂, htrace₂⟩ := rest.travels_of_derives (lo + t.width) r q hrest
    exact ⟨_, r, trace₁, trace₂, htrace₁, htrace₂, rfl⟩

theorem Choice.travels_of_derives : ∀ (c : Choice) (lo : Nat) (p q : Point), c.Derives text p q →
    ∃ trace, c.Travels text iterated lo p q trace
  | .only b => b.travels_of_derives
  | .or b rest => by
    rintro lo p q (hhere | hthere)
    · exact (b.travels_of_derives lo p q hhere).imp fun _ => .inl
    · exact (rest.travels_of_derives (lo + b.width) p q hthere).imp fun _ => .inr

end

end Travels

/-! ## From a journey to a derivation -/

theorem transGen_of_iterated {R : Point → Point → Prop} {D : Journey}
    (hD : ∀ p q trace, D p q trace → R p q) {p q : Point} {trace : List (Nat × Nat)}
    (h : iterated D p q trace) : Relation.TransGen R p q := by
  obtain ⟨traces, h, -⟩ := h
  induction h with
  | single h => exact .single (hD _ _ _ h)
  | cons h _ ih => exact .head (hD _ _ _ h) ih

theorem or_of_bypassed {R : Point → Point → Prop} {D : Journey} {entry : Nat} {p q : Point}
    {trace : List (Nat × Nat)} (hD : ∀ trace, D p q trace → R p q)
    (h : bypassed entry D p q trace) : R p q ∨ q = p := by
  rcases h with ⟨inner, hin, -⟩ | ⟨rfl, -⟩
  · exact .inl (hD inner hin)
  · exact .inr rfl

section Travels

variable {text : Array Char} {loop : Journey → Journey}

mutual

/-- **Every journey is a derivation.** -/
theorem Term.derives_of_travels (hloop : Iterates loop) : ∀ (t : Term) (lo : Nat) (p q : Point)
    (trace : List (Nat × Nat)),
    t.Travels text loop lo p q trace → t.Derives text p q
  | .atom m => fun lo p q trace h => h.1
  | .group index body => by
    rintro lo p q trace ⟨r, inner, hbody, rfl, -⟩
    exact ⟨r, body.derives_of_travels hloop (lo + 2) p r inner hbody, rfl⟩
  | .quantified .optional t => fun lo p q trace h =>
    or_of_bypassed (t.derives_of_travels hloop lo p q) h
  | .quantified .plus t => fun lo p q trace h =>
    transGen_of_iterated (t.derives_of_travels hloop lo) (hloop _ _ _ _ h)
  | .quantified .star t => fun lo p q trace h =>
    Relation.reflTransGen_iff_eq_or_transGen.2 (or_of_bypassed (fun trace hin =>
      transGen_of_iterated (t.derives_of_travels hloop lo) (hloop _ _ _ _ hin)) h).symm

theorem Branch.derives_of_travels (hloop : Iterates loop) : ∀ (b : Branch) (lo : Nat) (p q : Point)
    (trace : List (Nat × Nat)), b.Travels text loop lo p q trace → b.Derives text p q
  | .nil => fun lo p q trace h => h.1
  | .cons t rest => by
    rintro lo p q trace ⟨r, trace₁, trace₂, ht, hrest, -⟩
    exact ⟨r, t.derives_of_travels hloop lo p r trace₁ ht,
      rest.derives_of_travels hloop (lo + t.width) r q trace₂ hrest⟩

theorem Choice.derives_of_travels (hloop : Iterates loop) : ∀ (c : Choice) (lo : Nat) (p q : Point)
    (trace : List (Nat × Nat)), c.Travels text loop lo p q trace → c.Derives text p q
  | .only b => b.derives_of_travels hloop
  | .or b rest => fun lo p q trace h =>
    h.imp (b.derives_of_travels hloop lo p q trace) (rest.derives_of_travels hloop (lo + b.width) p q trace)

end

end Travels

/-! ## From a journey to a route -/

/-- From `offset` and `captures` a route can get to the point `q` along the trace: wherever it goes
from there, it can be led there from here. -/
def Reaches (Into Onward : Nat → Captures → Nat → Captures → List (Nat × Nat) → Prop)
    (offset : Nat) (captures : Captures) (q : Point) (trace : List (Nat × Nat)) : Prop :=
  ∃ captures', captures'.point q.offset = q ∧ captures.SameOpen captures' ∧
    ∀ {stop final rest}, Onward stop final q.offset captures' rest →
      Into stop final offset captures (trace ++ rest)

namespace Reaches

variable {Into Between Onward : Nat → Captures → Nat → Captures → List (Nat × Nat) → Prop}
  {offset : Nat} {captures : Captures} {p q : Point} {trace trace' : List (Nat × Nat)}

theorem refl (hp : captures.point offset = p) (h : ∀ {stop final rest},
      Onward stop final offset captures rest → Into stop final offset captures (trace ++ rest)) :
    Reaches Into Onward offset captures p trace := by
  subst hp
  exact ⟨captures, rfl, .refl captures, h⟩

theorem trans (h : Reaches Into Between offset captures p trace)
    (hnext : ∀ {captures'}, captures'.point p.offset = p → captures.SameOpen captures' →
      Reaches Between Onward p.offset captures' q trace') :
    Reaches Into Onward offset captures q (trace ++ trace') := by
  obtain ⟨captures', hp, hsame, hinto⟩ := h
  obtain ⟨captures'', hq, hsame', hbetween⟩ := hnext hp hsame
  refine ⟨captures'', hq, hsame.trans hsame', fun honward => ?_⟩
  rw [List.append_assoc]
  exact hinto (hbetween honward)

theorem into {Into' : Nat → Captures → Nat → Captures → List (Nat × Nat) → Prop}
    (h : Reaches Into Onward offset captures q trace)
    (hinto : ∀ {stop final l}, Into stop final offset captures l →
      Into' stop final offset captures l) :
    Reaches Into' Onward offset captures q trace := by
  obtain ⟨captures', hq, hsame, h⟩ := h
  exact ⟨captures', hq, hsame, fun honward => hinto (h honward)⟩

end Reaches

section Block

variable {σ : Setting}

/-- Iterations of a block that can be gone round again. -/
theorem Reaches.iterate {D : Journey} {entry : Nat} {post : List Edge} {groups : List Nat}
    (hD : ∀ {offset captures p q trace}, captures.Awaits groups → captures.point offset = p →
      D p q trace → Reaches (fun stop final => Route σ stop final entry)
        (fun stop final => RouteVia σ stop final (.free entry :: post)) offset captures q trace)
    {p q : Point} {traces : List (List (Nat × Nat))} (h : Iterations D p q traces) :
    ∀ {offset captures}, captures.Awaits groups → captures.point offset = p →
      Reaches (fun stop final => Route σ stop final entry)
        (fun stop final => RouteVia σ stop final post) offset captures q traces.flatten := by
  induction h with
  | single hlast =>
    intro offset captures hawaits hp
    exact (hD hawaits hp hlast).trans fun hq _ => .refl hq fun honward =>
      routeVia_cons.2 (.inr honward)
  | cons hfirst _ ih =>
    intro offset captures hawaits hp
    refine (hD hawaits hp hfirst).trans fun hr hsame => ?_
    exact (ih (hawaits.of_sameOpen hsame) hr).into fun hroute =>
      routeVia_cons.2 (.inl (routeVia_free.2 hroute))

/-- A block that can be passed by. -/
theorem Reaches.bypass {D : Journey} {number inner offset : Nat} {post : List Edge}
    {captures : Captures} {p q : Point} {trace : List (Nat × Nat)}
    (hentry : σ.automaton.states[number]? = some ⟨.plain, [.free inner, .free (number + 1)]⟩)
    (hexit : σ.automaton.states[number + 1]? = some ⟨.plain, post⟩)
    (hinner : ∀ {trace}, D p q trace → Reaches (fun stop final => Route σ stop final inner)
      (fun stop final => RouteVia σ stop final [.free (number + 1)]) offset captures q trace)
    (hp : captures.point offset = p) (h : bypassed number D p q trace) :
    Reaches (fun stop final => Route σ stop final number)
      (fun stop final => RouteVia σ stop final post) offset captures q trace := by
  rcases h with ⟨trace, hin, rfl⟩ | ⟨rfl, rfl⟩
  · obtain ⟨captures', hq, hsame, hinto⟩ := hinner hin
    refine ⟨captures', hq, hsame, fun honward => ?_⟩
    subst hp
    have hroute := hinto (routeVia_free.2 (Route.of_via hexit State.plain_ne_final honward))
    rw [List.cons_append, List.cons_append, List.append_assoc]
    exact Route.of_via hentry State.plain_ne_final (routeVia_cons.2 (.inl (routeVia_free.2 hroute)))
  · refine .refl hp fun honward => ?_
    subst hp
    have hroute := Route.of_via hexit State.plain_ne_final honward
    exact Route.of_via hentry State.plain_ne_final (routeVia_cons.2 (.inr (routeVia_free.2 hroute)))

variable {loop : Journey → Journey}

mutual

/-- **A route can follow any journey through a term** through the block of the term. -/
theorem Term.reaches (hloop : Iterates loop) {lo : Nat} {post : List Edge} : ∀ (t : Term),
    σ.automaton.HasBlock lo (t.layout lo post) → t.groups.Nodup →
    ∀ {offset : Nat} {captures : Captures} {p q : Point} {trace : List (Nat × Nat)},
      captures.Awaits t.groups → captures.point offset = p →
      t.Travels σ.text loop lo p q trace →
      Reaches (fun stop final => Route σ stop final (t.fragment lo).entry)
        (fun stop final => RouteVia σ stop final post) offset captures q trace
  | .atom m => by
    intro hblock hnodup offset captures p q trace hawaits hp h
    subst hp
    obtain ⟨h, rfl⟩ := h
    rw [Matcher.pass?_point] at h
    obtain ⟨n, hn, rfl⟩ := Option.map_eq_some_iff.1 h
    have ha : (⟨some m, lo + 1⟩ : Edge).arrival? σ.text offset captures = some (offset + n) :=
      Option.map_eq_some_iff.2 ⟨n, hn, rfl⟩
    refine ⟨captures, rfl, .refl captures, fun honward => ?_⟩
    have hexit := Route.of_via hblock.tail.head nofun honward
    exact .move hblock.head nofun List.mem_cons_self ha hexit
  | .group index body => by
    intro hblock hnodup offset captures p q trace hawaits hp h
    subst hp
    obtain ⟨r, inner, hbody, rfl, rfl⟩ := h
    obtain ⟨hnot, hbodyNodup⟩ := List.nodup_cons.1 hnodup
    obtain ⟨captures', hr, hsame, hinto⟩ :=
      body.reaches hloop hblock.tail.tail hbodyNodup (hawaits.enter hnot) hawaits.point_enter hbody
    obtain ⟨hsame', hpoint⟩ := Captures.SameOpen.point_group hawaits hsame r.offset
    refine ⟨_, ?_, hsame', fun honward => ?_⟩
    · rw [hr] at hpoint
      exact hpoint
    · have hvia := hinto (Route.of_via hblock.tail.head nofun honward)
      rw [List.cons_append, List.cons_append, List.append_assoc]
      exact Route.of_via hblock.head nofun hvia
  | .quantified .optional t => by
    intro hblock hnodup offset captures p q trace hawaits hp h
    obtain ⟨hinner, hentry, hexit⟩ := hblock.bypass
    exact Reaches.bypass hentry hexit (fun hin => t.reaches hloop hinner hnodup hawaits hp hin) hp h
  | .quantified .plus t => by
    intro hblock hnodup offset captures p q trace hawaits hp h
    obtain ⟨traces, hiterations, rfl⟩ := hloop _ _ _ _ h
    exact Reaches.iterate (fun hawaits hp hD => t.reaches hloop hblock hnodup hawaits hp hD)
      hiterations hawaits hp
  | .quantified .star t => by
    intro hblock hnodup offset captures p q trace hawaits hp h
    obtain ⟨hinner, hentry, hexit⟩ := hblock.bypass
    refine Reaches.bypass hentry hexit (fun hin => ?_) hp h
    obtain ⟨traces, hiterations, rfl⟩ := hloop _ _ _ _ hin
    exact Reaches.iterate (fun hawaits hp hD => t.reaches hloop hinner hnodup hawaits hp hD)
      hiterations hawaits hp

theorem Branch.reaches (hloop : Iterates loop) {lo tail : Nat} : ∀ (b : Branch),
    σ.automaton.HasBlock lo (b.layout lo tail) → b.groups.Nodup →
    ∀ {offset : Nat} {captures : Captures} {p q : Point} {trace : List (Nat × Nat)},
      captures.Awaits b.groups → captures.point offset = p →
      b.Travels σ.text loop lo p q trace →
      Reaches (fun stop final => Route σ stop final (b.entry lo tail))
        (fun stop final => Route σ stop final tail) offset captures q trace
  | .nil => by
    intro hblock hnodup offset captures p q trace hawaits hp h
    obtain ⟨rfl, rfl⟩ := h
    exact .refl hp fun honward => honward
  | .cons t rest => by
    intro hblock hnodup offset captures p q trace hawaits hp h
    obtain ⟨r, trace₁, trace₂, ht, hrest, rfl⟩ := h
    obtain ⟨hfirst, hlater, -⟩ := List.nodup_append.1 hnodup
    obtain ⟨hleft, hright⟩ := hblock.cons
    refine (t.reaches hloop hleft hfirst hawaits.left hp ht).trans fun hr hsame => ?_
    exact (rest.reaches hloop hright hlater (hawaits.right.of_sameOpen hsame) hr hrest).into
      routeVia_free.2

theorem Choice.reaches (hloop : Iterates loop) {lo tail : Nat} : ∀ (c : Choice),
    σ.automaton.HasBlock lo (c.layout lo tail) → c.groups.Nodup →
    ∀ {offset : Nat} {captures : Captures} {p q : Point} {trace : List (Nat × Nat)},
      captures.Awaits c.groups → captures.point offset = p →
      c.Travels σ.text loop lo p q trace →
      Reaches (fun stop final => RouteVia σ stop final (c.entries lo tail))
        (fun stop final => Route σ stop final tail) offset captures q trace
  | .only b => by
    intro hblock hnodup offset captures p q trace hawaits hp h
    exact (b.reaches hloop hblock hnodup hawaits hp h).into routeVia_free.2
  | .or b rest => by
    intro hblock hnodup offset captures p q trace hawaits hp h
    obtain ⟨hfirst, hlater, -⟩ := List.nodup_append.1 hnodup
    obtain ⟨hleft, hright⟩ := hblock.or
    rcases h with hhere | hthere
    · exact (b.reaches hloop hleft hfirst hawaits.left hp hhere).into fun hroute =>
        routeVia_cons.2 (.inl (routeVia_free.2 hroute))
    · exact (rest.reaches hloop hright hlater hawaits.right hp hthere).into fun hvia =>
        routeVia_cons.2 (.inr hvia)

end

end Block

/-! ## Compiled patterns -/

namespace Regex

variable {source : String} {p : Pattern} {text : String} {offset : Nat} {q : Point}

/-- A route follows any journey through a pattern, from the start to the final state. -/
theorem route_of_travels {loop : Journey → Journey} (hloop : Iterates loop)
    (h : Pattern.parse source = .ok p) {trace : List (Nat × Nat)}
    (htravels : p.body.Travels text.toList.toArray loop 2 (.start offset) q trace)
    (hend : p.anchor.atEnd = true → q.offset = text.toList.length) :
    ∃ final, Route ((ofPattern source p).queryIn text).unlimited.setting q.offset final
      Automaton.start offset (.fresh p.groupCount) ((0, offset) :: trace ++ [(1, q.offset)]) := by
  have hblock := Automaton.hasBlock_ofChoice p.body
  obtain ⟨captures, hq, hsame, hinto⟩ := p.body.reaches hloop
    (σ := ((ofPattern source p).queryIn text).unlimited.setting) hblock.tail.tail
    (nodup_groups h) (awaits_groups h) (Captures.point_fresh _ _) htravels
  have hstop : (!p.anchor.atEnd || q.offset == text.toList.length) = true := by
    cases hatEnd : p.anchor.atEnd with
    | false => rfl
    | true => simpa using hend hatEnd
  have hvia := hinto (.halt hblock.tail.head rfl hstop)
  exact ⟨captures, Route.of_via hblock.head nofun hvia⟩

/-- Wherever the pattern derives a match, a route leads there. -/
theorem route_of_derives (h : Pattern.parse source = .ok p)
    (hderives : p.body.Derives text.toList.toArray (.start offset) q)
    (hend : p.anchor.atEnd = true → q.offset = text.toList.length) :
    ∃ final trace, Route ((ofPattern source p).queryIn text).unlimited.setting q.offset final
      Automaton.start offset (.fresh p.groupCount) trace := by
  obtain ⟨trace, htravels⟩ := p.body.travels_of_derives 2 _ _ hderives
  obtain ⟨final, hroute⟩ := route_of_travels iterates_iterated h htravels hend
  exact ⟨final, _, hroute⟩

end Regex

end PatternSearch
