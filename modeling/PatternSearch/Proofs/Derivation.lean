import Mathlib.Logic.Relation
import PatternSearch.Proofs.Capturing
import PatternSearch.Proofs.Numbering
import PatternSearch.Proofs.Route
import PatternSearch.Proofs.Search

/-!
# Derivations of matches

What it means for a pattern to match, said over its tree and without any automaton: a term relates
a point of a text, which is an offset together with the spans that the groups have there, to the
points where it can stop. Spans are handed from one part of a pattern to the next and from one
iteration of a loop to the next, and are never taken back.

Every route through the block of a term is such a derivation up to the point where it leaves the
block (`Term.crosses`): an induction over the term, and in a loop over the length of the route.
-/

namespace PatternSearch

/-- An offset of a text and the spans that the groups have there. -/
@[ext]
structure Point where
  offset : Nat
  spans : Nat → Option Span

/-- The point of a text that a search is at. -/
def Captures.point (captures : Captures) (offset : Nat) : Point :=
  ⟨offset, captures.span?⟩

/-- The point after what a matcher takes, if it takes anything. A backreference takes a copy of what
its group has captured, which may be empty, but it takes nothing at the end of the text. -/
def Matcher.pass? (m : Matcher) (text : Array Char) (p : Point) : Option Point :=
  match text[p.offset]?, m with
  | none, _ => none
  | some _, .backref group =>
    match p.spans group with
    | none => none
    | some span =>
      let copy := span.slice text
      if text.extract p.offset (p.offset + copy.size) = copy then
        some { p with offset := p.offset + copy.size }
      else none
  | some c, single => if single.allows c then some { p with offset := p.offset + 1 } else none

theorem Matcher.pass?_point (m : Matcher) (text : Array Char) (captures : Captures)
    (offset : Nat) :
    m.pass? text (captures.point offset) =
      (m.consume text offset captures).map (captures.point <| offset + ·) := by
  unfold Captures.point pass? consume
  cases text[offset]? with
  | none => rfl
  | some c =>
    cases m with
    | backref group =>
      simp only
      cases captures.span? group with
      | none => rfl
      | some span => simp only [apply_ite (Option.map _), Option.map_some, Option.map_none]
    | literal a => simp only [apply_ite (Option.map _), Option.map_some, Option.map_none]
    | shorthand s => simp only [apply_ite (Option.map _), Option.map_some, Option.map_none]
    | any => simp only [apply_ite (Option.map _), Option.map_some, Option.map_none]
    | set s => simp only [apply_ite (Option.map _), Option.map_some, Option.map_none]

/-- The point where a group is left that was entered at offset `start`. -/
def Point.capture (p : Point) (group start : Nat) : Point :=
  { p with spans := Function.update p.spans group (some ⟨start, p.offset⟩) }

theorem Captures.Awaits.point_enter {captures : Captures} {groups : List Nat} {group offset : Nat}
    (h : captures.Awaits (group :: groups)) :
    ((Marker.groupStart group).enact captures offset).point offset = captures.point offset :=
  congrArg (Point.mk offset) h.span?_enter

/-- From the start of a group to its end, the point is the one after the group has been left. -/
theorem Captures.SameOpen.point_group {captures captures' : Captures} {groups : List Nat}
    {group start : Nat} (h : captures.Awaits (group :: groups))
    (hsame : ((Marker.groupStart group).enact captures start).SameOpen captures') (stop : Nat) :
    captures.SameOpen ((Marker.groupEnd group).enact captures' stop) ∧
      ((Marker.groupEnd group).enact captures' stop).point stop =
        (captures'.point stop).capture group start := by
  obtain ⟨hsame', hspan⟩ := Captures.SameOpen.group h hsame stop
  exact ⟨hsame', congrArg (Point.mk stop) hspan⟩

mutual

/-- The points between which a term matches. -/
def Term.Derives (text : Array Char) : Term → Point → Point → Prop
  | .atom m => fun p q => m.pass? text p = some q
  | .group index body => fun p q => ∃ r, body.Derives text p r ∧ q = r.capture index p.offset
  | .quantified .optional t => fun p q => t.Derives text p q ∨ q = p
  | .quantified .plus t => Relation.TransGen (t.Derives text)
  | .quantified .star t => Relation.ReflTransGen (t.Derives text)
termination_by structural t => t

/-- The points between which the terms of a branch match, one after the other. -/
def Branch.Derives (text : Array Char) : Branch → Point → Point → Prop
  | .nil => fun p q => q = p
  | .cons t rest => Relation.Comp (t.Derives text) (rest.Derives text)
termination_by structural b => b

/-- The points between which one of the branches of a choice matches. -/
def Choice.Derives (text : Array Char) : Choice → Point → Point → Prop
  | .only b => b.Derives text
  | .or b rest => fun p q => b.Derives text p q ∨ rest.Derives text p q
termination_by structural c => c

end

/-! ## Routes and derivations -/

/-- From `offset` and `captures` there is a derivation `R`, after which a route goes on as `Onward`
says, no longer than `bound`. -/
def Crosses (R : Point → Point → Prop) (Onward : Nat → Captures → List (Nat × Nat) → Prop)
    (offset : Nat) (captures : Captures) (bound : Nat) : Prop :=
  ∃ later captures' trace, R (captures.point offset) (captures'.point later) ∧
    captures.SameOpen captures' ∧ Onward later captures' trace ∧ trace.length ≤ bound

namespace Crosses

variable {R S : Point → Point → Prop} {Onward Onward' : Nat → Captures → List (Nat × Nat) → Prop}
  {offset : Nat} {captures : Captures} {bound : Nat}

theorem bind (h : Crosses R Onward offset captures bound)
    (hnext : ∀ later captures' trace, captures.SameOpen captures' →
      Onward later captures' trace → trace.length ≤ bound →
      Crosses S Onward' later captures' trace.length) :
    Crosses (Relation.Comp R S) Onward' offset captures bound := by
  obtain ⟨later, captures', trace, hR, hsame, honward, hle⟩ := h
  obtain ⟨last, captures'', trace', hS, hsame', honward', hle'⟩ :=
    hnext later captures' trace hsame honward hle
  exact ⟨last, captures'', trace', ⟨_, hR, hS⟩, hsame.trans hsame', honward',
    Nat.le_trans hle' hle⟩

theorem mono {bound' : Nat} (h : Crosses R Onward offset captures bound)
    (hRS : ∀ p q, R p q → S p q) (hle : bound ≤ bound') :
    Crosses S Onward offset captures bound' := by
  obtain ⟨later, captures', trace, hR, hsame, honward, hbound⟩ := h
  exact ⟨later, captures', trace, hRS _ _ hR, hsame, honward, Nat.le_trans hbound hle⟩

end Crosses

section Block

variable {σ : Setting} {stop : Nat} {final : Captures}

/-- A route that can go round a block again, or leave it, goes round it some times and leaves. -/
theorem Crosses.iterate {D : Point → Point → Prop} {entry : Nat} {post : List Edge}
    {groups : List Nat}
    (hD : ∀ {offset captures trace}, captures.Awaits groups →
      Route σ stop final entry offset captures trace →
      Crosses D (RouteVia σ stop final (.free entry :: post)) offset captures (trace.length - 1))
    (length : Nat) : ∀ {offset captures trace}, trace.length ≤ length → captures.Awaits groups →
      Route σ stop final entry offset captures trace →
      Crosses (Relation.TransGen D) (RouteVia σ stop final post) offset captures
        (trace.length - 1) := by
  induction length with
  | zero =>
    intro offset captures trace hlength hawaits h
    have hpos := h.length_pos
    omega
  | succ length ih =>
    intro offset captures trace hlength hawaits h
    have hpos := h.length_pos
    obtain ⟨later, captures', rest, hstep, hsame, hvia, hle⟩ := hD hawaits h
    rcases routeVia_cons.1 hvia with hagain | hleave
    · have hagain := routeVia_free.1 hagain
      obtain ⟨last, captures'', rest', hsteps, hsame', hvia', hle'⟩ :=
        ih (by omega) (hawaits.of_sameOpen hsame) hagain
      exact ⟨last, captures'', rest', .head hstep hsteps, hsame.trans hsame', hvia', by omega⟩
    · exact ⟨later, captures', rest, .single hstep, hsame, hleave, hle⟩

/-- A route that can pass a block by. -/
theorem Crosses.bypass {R : Point → Point → Prop} {number inner exit offset : Nat}
    {post : List Edge} {captures : Captures} {trace : List (Nat × Nat)}
    (hentry : σ.automaton.states[number]? = some ⟨.plain, [.free inner, .free exit]⟩)
    (hexit : σ.automaton.states[exit]? = some ⟨.plain, post⟩)
    (hinner : ∀ {rest}, Route σ stop final inner offset captures rest →
      Crosses R (RouteVia σ stop final [.free exit]) offset captures (rest.length - 1))
    (h : Route σ stop final number offset captures trace) :
    Crosses (fun p q => R p q ∨ q = p) (RouteVia σ stop final post) offset captures
      (trace.length - 1) := by
  obtain ⟨rest, hvia, rfl⟩ := h.via hentry nofun
  rcases routeVia_cons.1 hvia with hin | hpast
  · obtain ⟨later, captures', rest', hR, hsame, hvia', hle⟩ := hinner (routeVia_free.1 hin)
    obtain ⟨rest'', hvia'', rfl⟩ := (routeVia_free.1 hvia').via hexit nofun
    refine ⟨later, captures', rest'', .inl hR, hsame, hvia'', ?_⟩
    simp only [List.length_cons] at hle ⊢
    omega
  · obtain ⟨rest', hvia', rfl⟩ := (routeVia_free.1 hpast).via hexit nofun
    refine ⟨offset, captures, rest', .inr rfl, .refl captures, hvia', ?_⟩
    simp only [List.length_cons]
    omega

mutual

/-- **A route into the block of a term derives the term** before it leaves the block. -/
theorem Term.crosses {lo : Nat} {post : List Edge} : ∀ (t : Term),
    σ.automaton.HasBlock lo (t.layout lo post) → t.groups.Nodup →
    ∀ {offset : Nat} {captures : Captures} {trace : List (Nat × Nat)},
      captures.Awaits t.groups →
      Route σ stop final (t.fragment lo).entry offset captures trace →
      Crosses (t.Derives σ.text) (RouteVia σ stop final post) offset captures (trace.length - 1)
  | .atom m => by
    intro hblock hnodup offset captures trace hawaits h
    obtain ⟨rest, ⟨e, he, later, ha, hroute⟩, rfl⟩ := h.via hblock.head nofun
    cases List.mem_singleton.1 he
    obtain ⟨n, hn, rfl⟩ := Option.map_eq_some_iff.1 ha
    obtain ⟨rest', hvia, rfl⟩ := hroute.via hblock.tail.head nofun
    refine ⟨offset + n, captures, rest', ?_, .refl captures, hvia, ?_⟩
    · have hn : m.consume σ.text offset captures = some n := hn
      change m.pass? σ.text (captures.point offset) = _
      rw [Matcher.pass?_point, hn]
      rfl
    · simp only [List.length_cons]
      omega
  | .group index body => by
    intro hblock hnodup offset captures trace hawaits h
    obtain ⟨hnot, hbody⟩ := List.nodup_cons.1 hnodup
    obtain ⟨rest, hvia, rfl⟩ := h.via hblock.head nofun
    obtain ⟨later, captures', rest', hderives, hsame, hroute, hle⟩ :=
      body.crosses hblock.tail.tail hbody (hawaits.enter hnot) hvia
    obtain ⟨rest'', hvia', rfl⟩ := hroute.via hblock.tail.head nofun
    obtain ⟨hsame', hpoint⟩ := Captures.SameOpen.point_group hawaits hsame later
    rw [hawaits.point_enter] at hderives
    refine ⟨later, _, rest'', ⟨captures'.point later, hderives, hpoint⟩, hsame', hvia', ?_⟩
    simp only [List.length_cons] at hle ⊢
    omega
  | .quantified .optional t => by
    intro hblock hnodup offset captures trace hawaits h
    obtain ⟨hinner, hentry, hexit⟩ := hblock.bypass
    exact Crosses.bypass hentry hexit (fun hroute => t.crosses hinner hnodup hawaits hroute) h
  | .quantified .plus t => by
    intro hblock hnodup offset captures trace hawaits h
    exact Crosses.iterate (fun hawaits hroute => t.crosses hblock hnodup hawaits hroute)
      trace.length (Nat.le_refl _) hawaits h
  | .quantified .star t => by
    intro hblock hnodup offset captures trace hawaits h
    obtain ⟨hinner, hentry, hexit⟩ := hblock.bypass
    have hplus (rest : List (Nat × Nat))
        (hroute : Route σ stop final (t.fragment lo).entry offset captures rest) :
        Crosses (Relation.TransGen (t.Derives σ.text))
          (RouteVia σ stop final [.free (lo + t.width + 1)]) offset captures
          (rest.length - 1) :=
      Crosses.iterate (fun hawaits hroute => t.crosses hinner hnodup hawaits hroute)
        rest.length (Nat.le_refl _) hawaits hroute
    refine (Crosses.bypass hentry hexit (hplus _) h).mono (fun p q hpq => ?_) (Nat.le_refl _)
    exact Relation.reflTransGen_iff_eq_or_transGen.2 hpq.symm

theorem Branch.crosses {lo tail : Nat} : ∀ (b : Branch),
    σ.automaton.HasBlock lo (b.layout lo tail) → b.groups.Nodup →
    ∀ {offset : Nat} {captures : Captures} {trace : List (Nat × Nat)},
      captures.Awaits b.groups →
      Route σ stop final (b.entry lo tail) offset captures trace →
      Crosses (b.Derives σ.text) (Route σ stop final tail) offset captures trace.length
  | .nil => by
    intro hblock hnodup offset captures trace hawaits h
    exact ⟨offset, captures, trace, rfl, .refl captures, h, Nat.le_refl _⟩
  | .cons t rest => by
    intro hblock hnodup offset captures trace hawaits h
    obtain ⟨hfirst, hlater, -⟩ := List.nodup_append.1 hnodup
    obtain ⟨hleft, hright⟩ := hblock.cons
    have hterm := t.crosses hleft hfirst
      hawaits.left h
    refine (hterm.mono (fun _ _ h => h) (Nat.sub_le _ _)).bind ?_
    intro later captures' trace' hsame hvia hle
    exact rest.crosses hright hlater
      (hawaits.right.of_sameOpen hsame) (routeVia_free.1 hvia)

theorem Choice.crosses {lo tail : Nat} : ∀ (c : Choice),
    σ.automaton.HasBlock lo (c.layout lo tail) → c.groups.Nodup →
    ∀ {offset : Nat} {captures : Captures} {trace : List (Nat × Nat)},
      captures.Awaits c.groups →
      RouteVia σ stop final (c.entries lo tail) offset captures trace →
      Crosses (c.Derives σ.text) (Route σ stop final tail) offset captures trace.length
  | .only b => by
    intro hblock hnodup offset captures trace hawaits h
    exact b.crosses hblock hnodup hawaits (routeVia_free.1 h)
  | .or b rest => by
    intro hblock hnodup offset captures trace hawaits h
    obtain ⟨hfirst, hlater, -⟩ := List.nodup_append.1 hnodup
    obtain ⟨hleft, hright⟩ := hblock.or
    rcases routeVia_cons.1 h with hhere | hthere
    · exact (b.crosses hleft hfirst hawaits.left
        (routeVia_free.1 hhere)).mono (fun _ _ => .inl) (Nat.le_refl _)
    · exact (rest.crosses hright hlater hawaits.right
        hthere).mono (fun _ _ => .inr) (Nat.le_refl _)

end

end Block

/-! ## Compiled patterns -/

/-- The point at `offset` where no group has been left yet. -/
def Point.start (offset : Nat) : Point :=
  ⟨offset, fun _ => none⟩

/-- The captured characters of the first `count` groups. -/
def Point.texts (p : Point) (count : Nat) (text : Array Char) : List (Option String) :=
  (List.range count).map fun group =>
    (p.spans group).map fun span => String.ofList (span.slice text).toList

theorem Captures.point_fresh (groups offset : Nat) :
    (Captures.fresh groups).point offset = .start offset := by
  unfold point Point.start
  rw [Point.mk.injEq]
  exact ⟨rfl, funext fun group => span?_fresh groups group⟩

theorem Captures.texts_eq (captures : Captures) (offset : Nat) (text : Array Char) :
    captures.texts text = (captures.point offset).texts captures.size text := by
  refine List.ext_getElem (by simp [texts, Point.texts, size]) fun g hg _ => ?_
  have hlt : g < captures.slots.size := by simpa [texts] using hg
  simp only [texts, Point.texts, point, List.getElem_map, List.getElem_range,
    Array.getElem_toList]
  rw [span?_eq hlt]

namespace Regex

variable {source : String} {p : Pattern} {text : String} {offset stop : Nat} {final : Captures}

/-- The slots of a search that begins await the groups of the pattern. -/
theorem awaits_groups (h : Pattern.parse source = .ok p) :
    (Captures.fresh p.groupCount).Awaits p.body.groups := by
  refine Captures.awaits_fresh fun g hg => ?_
  rw [Pattern.groups_of_parse h] at hg
  exact List.mem_range.1 hg

theorem nodup_groups (h : Pattern.parse source = .ok p) : p.body.groups.Nodup := by
  rw [Pattern.groups_of_parse h]
  exact List.nodup_range

/-- What an exploration for a pattern finds, the pattern derives. -/
theorem derives_of_explore (h : Pattern.parse source = .ok p)
    (hfound : (((ofPattern source p).queryIn text).explore offset).found = some (stop, final)) :
    p.body.Derives text.toList.toArray (.start offset) (final.point stop) ∧
      (p.anchor.atEnd = true → stop = text.toList.length) ∧ final.size = p.groupCount := by
  have hblock := Automaton.hasBlock_ofChoice p.body
  obtain ⟨trace, hroute⟩ := Setting.route_of_explore hfound
  obtain ⟨rest, hvia, rfl⟩ := hroute.via hblock.head nofun
  obtain ⟨later, captures, trace', hderives, hsame, honward, -⟩ :=
    p.body.crosses hblock.tail.tail (nodup_groups h) (awaits_groups h) hvia
  obtain ⟨rfl, rfl, hend⟩ := honward.at_final hblock.tail.head rfl
  rw [← Captures.point_fresh p.groupCount offset]
  exact ⟨hderives, hend, hsame.size.trans (Captures.size_fresh _)⟩

/-- **Matches and captures are derived by the pattern.** If a search matches, the pattern derives
the match from its start, where no group has been left, and the captures are the spans that the
groups have at its end. -/
theorem derives_of_matched (h : Pattern.parse source = .ok p) :
    ∃ r, compile source = .ok r ∧ ∀ (text : String) (span : Span),
      (r.find text).outcome = .matched span →
        (p.anchor.atStart = true → span.start = 0) ∧
        (p.anchor.atEnd = true → span.stop = text.toList.length) ∧
        ∃ spans, p.body.Derives text.toList.toArray (.start span.start) ⟨span.stop, spans⟩ ∧
          r.captures? text =
            some ((Point.mk span.stop spans).texts p.groupCount text.toList.toArray) := by
  refine ⟨ofPattern source p, compile_of_parse h, fun text span houtcome => ?_⟩
  obtain ⟨hmem, ⟨final, hfound, hcaptures⟩, -⟩ := found_of_matched houtcome
  obtain ⟨hderives, hend, hsize⟩ := derives_of_explore h hfound
  refine ⟨((Query.mem_offsets _).1 hmem).2, hend, final.span?, hderives, ?_⟩
  rw [hcaptures, final.texts_eq span.stop, hsize]
  rfl

/-- The second group keeps what it captured in the first iteration. -/
theorem derives_of_matched_kept :
    ∃ p r, Pattern.parse "((a)|b)+\\2" = .ok p ∧ compile "((a)|b)+\\2" = .ok r ∧
      (r.find "aba").outcome = .matched ⟨0, 3⟩ ∧
      ∃ spans, p.body.Derives "aba".toList.toArray (.start 0) ⟨3, spans⟩ ∧
        r.captures? "aba" =
          some ((Point.mk 3 spans).texts p.groupCount "aba".toList.toArray) := by
  have hparse : Pattern.parse "((a)|b)+\\2" = .ok
      { anchor := ⟨false, false⟩
        body := .only (.cons (.quantified .plus (.group 0 (.or
          (.cons (.group 1 (.only (.cons (.atom (.literal 'a')) .nil))) .nil)
          (.only (.cons (.atom (.literal 'b')) .nil))))) (.cons (.atom (.backref 1)) .nil))
        groupCount := 2 } := rfl
  obtain ⟨r, hcompile, hmatched⟩ := derives_of_matched hparse
  have hr := compile_of_parse hparse
  rw [hcompile] at hr
  cases hr
  refine ⟨_, _, hparse, hcompile, by decide +kernel, ?_⟩
  exact (hmatched "aba" ⟨0, 3⟩ (by decide +kernel)).2.2

end Regex

end PatternSearch
