import Mathlib.Data.List.Basic
import PatternSearch.Proofs.Derivation
import PatternSearch.Proofs.Idling

/-!
# Matches in order of priority

From a point of a text, a term has outcomes, which are the points where it can stop, and some of
them come before others: earlier branches before later ones, and more iterations before fewer
(`Term.outcomes`). If the loops of a pattern consume, a search comes to the first outcome that the
anchors allow at the first offset that has one, with the captures of that very outcome
(`Regex.search_by_priority`).

What is proved of a term is said by way of what comes after it: if, from each of its outcomes, an
exploration of the edges out of its block finds what `K` says, then an exploration of its block
finds the first thing that `K` says along its outcomes (`Term.leads`). The order of the edges then
gives the order of the outcomes, one construct at a time.
-/

namespace PatternSearch

/-- The outcomes of one or more iterations in a text of `size` characters, those with more
iterations first. An iteration that takes nothing is the last one. -/
def iterations (size : Nat) (f : Point → List Point) (p : Point) : List Point :=
  (f p).flatMap fun q =>
    if p.offset < q.offset ∧ q.offset ≤ size then iterations size f q ++ [q] else [q]
termination_by size - p.offset

mutual

/-- The points where a term can stop, in order of priority. -/
def Term.outcomes (text : Array Char) : Term → Point → List Point
  | .atom m => fun p => (m.pass? text p).toList
  | .group index body => fun p => (body.outcomes text p).map (·.capture index p.offset)
  | .quantified .optional t => fun p => t.outcomes text p ++ [p]
  | .quantified .plus t => iterations text.size (t.outcomes text)
  | .quantified .star t => fun p => iterations text.size (t.outcomes text) p ++ [p]
termination_by structural t => t

def Branch.outcomes (text : Array Char) : Branch → Point → List Point
  | .nil => fun p => [p]
  | .cons t rest => fun p => (t.outcomes text p).flatMap (rest.outcomes text)
termination_by structural b => b

def Choice.outcomes (text : Array Char) : Choice → Point → List Point
  | .only b => b.outcomes text
  | .or b rest => fun p => b.outcomes text p ++ rest.outcomes text p
termination_by structural c => c

end

/-! ## Where outcomes lie -/

/-- What `f` yields from a point in a text lies between it and the end of the text, and lies further
on if `strict` holds. -/
def Advances (size : Nat) (strict : Prop) (f : Point → List Point) : Prop :=
  ∀ p q, p.offset ≤ size → q ∈ f p →
    p.offset ≤ q.offset ∧ q.offset ≤ size ∧ (strict → p.offset < q.offset)

theorem Advances.mono {size : Nat} {strict strict' : Prop} {f : Point → List Point}
    (h : Advances size strict f) (hstrict : strict' → strict) : Advances size strict' f := by
  intro p q hp hq
  obtain ⟨hle, hsize, hlt⟩ := h p q hp hq
  exact ⟨hle, hsize, fun hs => hlt (hstrict hs)⟩

theorem advances_iterations {size : Nat} {strict : Prop} {f : Point → List Point}
    (h : Advances size strict f) : Advances size strict (iterations size f) := by
  intro p q hp hq
  fun_induction iterations size f p with
  | case1 p ih =>
    obtain ⟨r, hr, hq⟩ := List.mem_flatMap.1 hq
    obtain ⟨hle, hsize, hlt⟩ := h p r hp hr
    split at hq
    · next hlater =>
      rcases List.mem_append.1 hq with hq | hq
      · obtain ⟨hle', hsize', hlt'⟩ := ih r hlater hsize hq
        exact ⟨by omega, hsize', fun hs => by have := hlt hs; omega⟩
      · cases List.mem_singleton.1 hq
        exact ⟨hle, hsize, hlt⟩
    · cases List.mem_singleton.1 hq
      exact ⟨hle, hsize, hlt⟩

theorem Advances.append_self {size : Nat} {strict : Prop} {f : Point → List Point}
    (h : Advances size strict f) : Advances size False fun p => f p ++ [p] := by
  intro p q hp hq
  rcases List.mem_append.1 hq with hq | hq
  · obtain ⟨hle, hsize, -⟩ := h p q hp hq
    exact ⟨hle, hsize, nofun⟩
  · cases List.mem_singleton.1 hq
    exact ⟨Nat.le_refl _, hp, nofun⟩

theorem Matcher.advances (m : Matcher) (text : Array Char) :
    Advances text.size (∀ group, m ≠ .backref group) fun p => (m.pass? text p).toList := by
  intro p q hp hq
  rw [Option.mem_toList] at hq
  unfold pass? at hq
  split at hq
  · cases hq
  · split at hq
    · cases hq
    · simp only at hq
      split at hq
      · next hcopy =>
        cases hq
        have hsize := congrArg Array.size hcopy
        rw [Array.size_extract] at hsize
        refine ⟨Nat.le_add_right _ _, by simp only; omega, fun hstrict => ?_⟩
        exact absurd rfl (hstrict _)
      · cases hq
  · next c htext _ =>
    split at hq
    · cases hq
      have hlt := (Array.getElem?_eq_some_iff.1 htext).1
      exact ⟨Nat.le_succ _, hlt, fun _ => Nat.lt_succ_self _⟩
    · cases hq

mutual

theorem Term.advances (text : Array Char) : ∀ (t : Term),
    Advances text.size t.Consumes (t.outcomes text)
  | .atom m => m.advances text
  | .group index body => by
    intro p q hp hq
    obtain ⟨r, hr, rfl⟩ := List.mem_map.1 hq
    exact body.advances text p r hp hr
  | .quantified .optional t => (t.advances text).append_self
  | .quantified .plus t => advances_iterations (t.advances text)
  | .quantified .star t => (advances_iterations (t.advances text)).append_self

theorem Branch.advances (text : Array Char) : ∀ (b : Branch),
    Advances text.size b.Consumes (b.outcomes text)
  | .nil => by
    intro p q hp hq
    cases List.mem_singleton.1 hq
    exact ⟨Nat.le_refl _, hp, nofun⟩
  | .cons t rest => by
    intro p q hp hq
    obtain ⟨r, hr, hq⟩ := List.mem_flatMap.1 hq
    obtain ⟨hle, hsize, hlt⟩ := t.advances text p r hp hr
    obtain ⟨hle', hsize', hlt'⟩ := rest.advances text r q hsize hq
    refine ⟨by omega, hsize', ?_⟩
    rintro (hterm | hrest)
    · have := hlt hterm
      omega
    · have := hlt' hrest
      omega

theorem Choice.advances (text : Array Char) : ∀ (c : Choice),
    Advances text.size c.Consumes (c.outcomes text)
  | .only b => b.advances text
  | .or b rest => by
    intro p q hp hq
    rcases List.mem_append.1 hq with hq | hq
    · obtain ⟨hle, hsize, hlt⟩ := b.advances text p q hp hq
      exact ⟨hle, hsize, fun hconsumes => hlt hconsumes.1⟩
    · obtain ⟨hle, hsize, hlt⟩ := rest.advances text p q hp hq
      exact ⟨hle, hsize, fun hconsumes => hlt hconsumes.2⟩

end

/-- Iterations that take characters: after each of the first, either more of them or none. -/
theorem iterations_eq {size : Nat} {f : Point → List Point} (h : Advances size True f) {p : Point}
    (hp : p.offset ≤ size) :
    iterations size f p = (f p).flatMap fun q => iterations size f q ++ [q] := by
  rw [iterations]
  refine List.flatMap_congr fun q hq => ?_
  obtain ⟨-, hsize, hlt⟩ := h p q hp hq
  rw [if_pos ⟨hlt trivial, hsize⟩]

/-! ## What an exploration finds -/

/-- The point that an exploration comes to, if it finds something. -/
def Exploration.point? (r : Exploration) : Option Point :=
  r.found.map fun found => found.2.point found.1

/-- Exploring a state comes to `result` unless a visit is in the way. -/
def Leads (σ : Setting) (number offset : Nat) (captures : Captures) (result : Option Point) :
    Prop :=
  ∀ visits, σ.Fresh visits number offset →
    (σ.explore number offset captures visits).point? = result

/-- Trying some edges comes to `result` unless a visit is in the way. -/
def LeadsVia (σ : Setting) (edges : List Edge) (offset : Nat) (captures : Captures)
    (result : Option Point) : Prop :=
  ∀ visits, (∀ e ∈ edges, ∀ later, e.arrival? σ.text offset captures = some later →
      σ.Fresh visits e.target later) →
    (σ.tryEdges edges offset captures visits).point? = result

section Leads

variable {σ : Setting} {number target offset later : Nat} {captures : Captures} {state : State}
  {e : Edge} {rest : List Edge} {result next : Option Point}

theorem leadsVia_nil : LeadsVia σ [] offset captures none := by
  intro visits _
  rw [Setting.tryEdges_nil]
  rfl

theorem LeadsVia.blocked (ha : e.arrival? σ.text offset captures = none)
    (h : LeadsVia σ rest offset captures result) :
    LeadsVia σ (e :: rest) offset captures result := by
  intro visits hfresh
  rw [Setting.tryEdges_cons_none ha]
  exact h visits fun e' he' => hfresh e' (List.mem_cons_of_mem e he')

theorem LeadsVia.taken (ha : e.arrival? σ.text offset captures = some later)
    (h : Leads σ e.target later captures result) (hrest : LeadsVia σ rest offset captures next) :
    LeadsVia σ (e :: rest) offset captures (result.or next) := by
  intro visits hfresh
  have hhere := h visits (hfresh e List.mem_cons_self later ha)
  have hthere := hrest visits fun e' he' => hfresh e' (List.mem_cons_of_mem e he')
  rw [Setting.tryEdges_cons_some ha]
  unfold Exploration.point? at *
  rw [Exploration.found_orElse, Option.map_or, hhere, hthere]

theorem LeadsVia.free (h : Leads σ target offset captures result) :
    LeadsVia σ [.free target] offset captures result := by
  have hsingle := LeadsVia.taken (e := .free target) rfl h leadsVia_nil
  rwa [Option.or_none] at hsingle

/-- A state that is not final leads where its edges lead. -/
theorem LeadsVia.leads (h : LeadsVia σ state.edges offset (state.marker.enact captures offset)
      result) (hidles : WellFounded σ.automaton.Idles)
    (hs : σ.automaton.states[number]? = some state) (hfinal : state.marker ≠ .final) :
    Leads σ number offset captures result := by
  intro visits hfresh
  obtain ⟨previous, hv, hne⟩ := hfresh.exists_previous hidles hs
  rw [Setting.explore_visit hs hv hne hfinal]
  exact h _ fun e he later ha => hfresh.move hs he ha

theorem leads_final (hidles : WellFounded σ.automaton.Idles)
    (hs : σ.automaton.states[number]? = some state) (hfinal : state.marker = .final) :
    Leads σ number offset captures
      (Option.guard (fun q => !σ.toEnd || q.offset == σ.text.size) (captures.point offset)) := by
  intro visits hfresh
  obtain ⟨previous, hv, hne⟩ := hfresh.exists_previous hidles hs
  rw [Setting.explore_final hs hv hne hfinal]
  unfold Exploration.point? Option.guard
  by_cases hend : (!σ.toEnd || offset == σ.text.size) = true
  · rw [if_pos hend]
    exact (if_pos hend).symm
  · rw [if_neg hend]
    exact (if_neg hend).symm

end Leads

theorem findSome?_flatMap {α β γ : Type} (l : List α) (g : α → List β) (K : β → Option γ) :
    (l.flatMap g).findSome? K = l.findSome? fun a => (g a).findSome? K := by
  induction l with
  | nil => rfl
  | cons a l ih =>
    rw [List.flatMap_cons, List.findSome?_append, ih, List.findSome?_cons]
    cases (g a).findSome? K <;> rfl

theorem findSome?_congr {α β : Type} {l : List α} {f g : α → Option β}
    (h : ∀ a ∈ l, f a = g a) : l.findSome? f = l.findSome? g := by
  induction l with
  | nil => rfl
  | cons a l ih =>
    rw [List.findSome?_cons, List.findSome?_cons, h a List.mem_cons_self,
      ih fun b hb => h b (List.mem_cons_of_mem a hb)]

section Block

variable {σ : Setting}

/-- A block leads to `K` of the first of some outcomes, if what comes after the block leads there
from each of them. -/
def LeadsThrough (σ : Setting) (groups : List Nat) (f : Point → List Point)
    (Into Onward : Nat → Captures → Option Point → Prop) : Prop :=
  ∀ (offset : Nat) (captures : Captures) (K : Point → Option Point), offset ≤ σ.text.size →
    captures.Awaits groups →
    (∀ later captures', captures'.point later ∈ f (captures.point offset) →
      captures.SameOpen captures' → Onward later captures' (K (captures'.point later))) →
    Into offset captures ((f (captures.point offset)).findSome? K)

section Through

variable {f : Point → List Point} {number exit index : Nat} {edges post : List Edge}
  {groups : List Nat}

/-- The two states of a matcher. -/
theorem LeadsThrough.atom {m : Matcher} (hidles : WellFounded σ.automaton.Idles)
    (hentry : σ.automaton.states[number]? = some ⟨.plain, [⟨some m, exit⟩]⟩)
    (hexit : σ.automaton.states[exit]? = some ⟨.plain, post⟩) :
    LeadsThrough σ groups (fun p => (m.pass? σ.text p).toList) (Leads σ number)
      (LeadsVia σ post) := by
  intro offset captures K hoffset hawaits hpost
  refine LeadsVia.leads ?_ hidles hentry State.plain_ne_final
  have hpoint := m.pass?_point σ.text captures offset
  cases hn : m.consume σ.text offset captures with
  | none =>
    rw [hn, Option.map_none] at hpoint
    have ha : (⟨some m, exit⟩ : Edge).arrival? σ.text offset captures = none :=
      Option.map_eq_none_iff.2 hn
    simp only [hpoint, Option.toList_none, List.findSome?_nil]
    exact .blocked ha leadsVia_nil
  | some n =>
    rw [hn, Option.map_some] at hpoint
    have ha : (⟨some m, exit⟩ : Edge).arrival? σ.text offset captures = some (offset + n) :=
      Option.map_eq_some_iff.2 ⟨n, hn, rfl⟩
    have hmem : captures.point (offset + n) ∈ (m.pass? σ.text (captures.point offset)).toList :=
      Option.mem_toList.2 hpoint
    have hleave := LeadsVia.leads (hpost _ captures hmem (.refl captures)) hidles hexit State.plain_ne_final
    have hedge := LeadsVia.taken ha hleave leadsVia_nil
    rw [Option.or_none] at hedge
    simp only [hpoint, Option.toList_some, List.findSome?_singleton]
    exact hedge

/-- What stands in a group, between its start and its end. -/
theorem LeadsThrough.group (hidles : WellFounded σ.automaton.Idles)
    (hentry : σ.automaton.states[number]? = some ⟨.groupStart index, edges⟩)
    (hexit : σ.automaton.states[exit]? = some ⟨.groupEnd index, post⟩) (hnot : index ∉ groups)
    (h : LeadsThrough σ groups f (LeadsVia σ edges) (Leads σ exit)) :
    LeadsThrough σ (index :: groups) (fun p => (f p).map (·.capture index p.offset))
      (Leads σ number) (LeadsVia σ post) := by
  intro offset captures K hoffset hawaits hpost
  refine LeadsVia.leads ?_ hidles hentry nofun
  have hinner := h offset _ (fun q => K (q.capture index offset)) hoffset (hawaits.enter hnot)
    fun later captures' hmem hsame => by
      obtain ⟨hsame', hpoint⟩ := Captures.SameOpen.point_group hawaits hsame later
      rw [hawaits.point_enter] at hmem
      rw [← hpoint]
      refine LeadsVia.leads (hpost later _ ?_ hsame') hidles hexit nofun
      rw [hpoint]
      exact List.mem_map_of_mem hmem
  rw [hawaits.point_enter] at hinner
  rw [List.findSome?_map]
  exact hinner

/-- Iterations of a block that is gone round again before it is left. -/
theorem LeadsThrough.iterate (hf : Advances σ.text.size True f)
    (h : LeadsThrough σ groups f (Leads σ number) (LeadsVia σ (.free number :: post))) :
    LeadsThrough σ groups (iterations σ.text.size f) (Leads σ number) (LeadsVia σ post) := by
  intro offset captures K hoffset hawaits hpost
  -- what is left of the text gets less with each iteration
  induction hleft : σ.text.size - offset using Nat.strong_induction_on
    generalizing offset captures with
  | _ left ih =>
    have hrounds := iterations_eq hf (p := captures.point offset) hoffset
    rw [hrounds, findSome?_flatMap]
    refine h offset captures _ hoffset hawaits fun later captures' hmem hsame => ?_
    obtain ⟨-, hlater, hlt⟩ : _ ∧ later ≤ σ.text.size ∧ (True → offset < later) :=
      hf _ _ hoffset hmem
    have hless : σ.text.size - later < left := by
      have := hlt trivial
      omega
    rw [List.findSome?_append, List.findSome?_singleton]
    refine .taken rfl ?_ ?_
    · refine ih (σ.text.size - later) hless later captures' hlater
        (hawaits.of_sameOpen hsame) (fun last captures'' hmem' hsame' => ?_) rfl
      refine hpost last captures'' ?_ (hsame.trans hsame')
      rw [hrounds]
      exact List.mem_flatMap.2 ⟨_, hmem, List.mem_append_left _ hmem'⟩
    · refine hpost later captures' ?_ hsame
      rw [hrounds]
      exact List.mem_flatMap.2 ⟨_, hmem, List.mem_append_right _ List.mem_cons_self⟩

/-- A block that can be passed by, if nothing comes of going through it. -/
theorem LeadsThrough.bypass {inner : Nat} (hidles : WellFounded σ.automaton.Idles)
    (hentry : σ.automaton.states[number]? = some ⟨.plain, [.free inner, .free exit]⟩)
    (hexit : σ.automaton.states[exit]? = some ⟨.plain, post⟩)
    (h : LeadsThrough σ groups f (Leads σ inner) (LeadsVia σ [.free exit])) :
    LeadsThrough σ groups (fun p => f p ++ [p]) (Leads σ number) (LeadsVia σ post) := by
  intro offset captures K hoffset hawaits hpost
  have hout (later : Nat) (captures' : Captures)
      (hmem : captures'.point later ∈ f (captures.point offset) ++ [captures.point offset])
      (hsame : captures.SameOpen captures') :
      Leads σ exit later captures' (K (captures'.point later)) :=
    LeadsVia.leads (hpost later captures' hmem hsame) hidles hexit State.plain_ne_final
  have hin := h offset captures K hoffset hawaits fun later captures' hmem hsame =>
    .free (hout later captures' (List.mem_append_left _ hmem) hsame)
  have hpast := hout offset captures (List.mem_append_right _ List.mem_cons_self) (.refl captures)
  rw [List.findSome?_append, List.findSome?_singleton]
  exact LeadsVia.leads (.taken rfl hin (.free hpast)) hidles hentry State.plain_ne_final

end Through

mutual

/-- **A search goes through the outcomes of a term in their order.** -/
theorem Term.leads {lo : Nat} {post : List Edge} (hidles : WellFounded σ.automaton.Idles) :
    ∀ (t : Term), σ.automaton.HasBlock lo (t.layout lo post) → t.groups.Nodup → t.LoopsConsume →
      LeadsThrough σ t.groups (t.outcomes σ.text) (Leads σ (t.fragment lo).entry)
        (LeadsVia σ post)
  | .atom m => fun hblock _ _ => LeadsThrough.atom hidles hblock.head hblock.tail.head
  | .group index body => by
    intro hblock hnodup hloops
    obtain ⟨hnot, hbody⟩ := List.nodup_cons.1 hnodup
    have hinner := body.leads hidles hblock.tail.tail hbody hloops
    exact hinner.group hidles hblock.head hblock.tail.head hnot
  | .quantified .optional t => by
    intro hblock hnodup hloops
    obtain ⟨hinner, hentry, hexit⟩ := hblock.bypass
    exact (t.leads hidles hinner hnodup hloops).bypass hidles hentry hexit
  | .quantified .plus t => by
    intro hblock hnodup hloops
    have hadvances := (t.advances σ.text).mono fun _ : True => hloops.1
    exact (t.leads hidles hblock hnodup hloops.2).iterate hadvances
  | .quantified .star t => by
    intro hblock hnodup hloops
    obtain ⟨hinner, hentry, hexit⟩ := hblock.bypass
    have hadvances := (t.advances σ.text).mono fun _ : True => hloops.1
    have hplus := (t.leads hidles hinner hnodup hloops.2).iterate hadvances
    exact hplus.bypass hidles hentry hexit

theorem Branch.leads {lo tail : Nat} (hidles : WellFounded σ.automaton.Idles) :
    ∀ (b : Branch), σ.automaton.HasBlock lo (b.layout lo tail) → b.groups.Nodup →
      b.LoopsConsume → LeadsThrough σ b.groups (b.outcomes σ.text) (Leads σ (b.entry lo tail))
        (Leads σ tail)
  | .nil => by
    intro hblock hnodup hloops offset captures K hoffset hawaits hpost
    rw [Branch.outcomes, List.findSome?_singleton]
    exact hpost offset captures List.mem_cons_self (.refl captures)
  | .cons t rest => by
    intro hblock hnodup hloops offset captures K hoffset hawaits hpost
    obtain ⟨hfirst, hlater, -⟩ := List.nodup_append.1 hnodup
    obtain ⟨hleft, hright⟩ := hblock.cons
    rw [Branch.outcomes, findSome?_flatMap]
    refine t.leads hidles hleft hfirst hloops.1 offset captures _ hoffset
      hawaits.left fun middle captures' hmem hsame => ?_
    obtain ⟨-, hmiddle, -⟩ := t.advances σ.text _ _ hoffset hmem
    refine .free (rest.leads hidles hright hlater hloops.2 middle captures' K hmiddle
      (hawaits.right.of_sameOpen hsame)
      fun later captures'' hmem' hsame' => ?_)
    exact hpost later captures'' (List.mem_flatMap.2 ⟨_, hmem, hmem'⟩) (hsame.trans hsame')

theorem Choice.leads {lo tail : Nat} (hidles : WellFounded σ.automaton.Idles) :
    ∀ (c : Choice), σ.automaton.HasBlock lo (c.layout lo tail) → c.groups.Nodup →
      c.LoopsConsume → LeadsThrough σ c.groups (c.outcomes σ.text)
        (LeadsVia σ (c.entries lo tail)) (Leads σ tail)
  | .only b => by
    intro hblock hnodup hloops offset captures K hoffset hawaits hpost
    exact .free (b.leads hidles hblock hnodup hloops offset captures K hoffset hawaits hpost)
  | .or b rest => by
    intro hblock hnodup hloops offset captures K hoffset hawaits hpost
    obtain ⟨hfirst, hlater, -⟩ := List.nodup_append.1 hnodup
    obtain ⟨hleft, hright⟩ := hblock.or
    have hhere := b.leads hidles hleft hfirst hloops.1 offset captures K hoffset
      hawaits.left
      fun later captures' hmem => hpost later captures' (List.mem_append_left _ hmem)
    have hthere := rest.leads hidles hright hlater hloops.2 offset captures K hoffset
      hawaits.right
      fun later captures' hmem => hpost later captures' (List.mem_append_right _ hmem)
    rw [Choice.outcomes, List.findSome?_append]
    exact .taken rfl hhere hthere

end

end Block

/-! ## Compiled patterns -/

/-- The offset at which a match starts and the point where it stops, if the first outcome that the
anchors allow, at the first offset that has one, is taken. -/
def Pattern.firstMatch? (p : Pattern) (text : Array Char) : Option (Nat × Point) :=
  (if p.anchor.atStart then [0] else List.range (text.size + 1)).findSome? fun start =>
    ((p.body.outcomes text (.start start)).find? fun q =>
      !p.anchor.atEnd || q.offset == text.size).map (start, ·)

namespace Regex

variable {source : String} {p : Pattern} {text : String} {offset : Nat}

/-- An exploration for a pattern comes to the first outcome that the end of the text allows. -/
theorem point?_explore (h : Pattern.parse source = .ok p) (hloops : p.body.LoopsConsume)
    (hoffset : offset ≤ text.toList.toArray.size) :
    (((ofPattern source p).queryIn text).explore offset).point? =
      (p.body.outcomes text.toList.toArray (.start offset)).find? fun q =>
        !p.anchor.atEnd || q.offset == text.toList.toArray.size := by
  have hblock := Automaton.hasBlock_ofChoice p.body
  have hidles := Automaton.wellFounded_idles hloops
  have hbody := p.body.leads (σ := ((ofPattern source p).queryIn text).unlimited.setting) hidles
    hblock.tail.tail (nodup_groups h) hloops offset (.fresh p.groupCount)
    (Option.guard fun q => !p.anchor.atEnd || q.offset == text.toList.toArray.size) hoffset
    (awaits_groups h) fun later captures' _ _ => leads_final hidles hblock.tail.head rfl
  rw [List.find?_eq_findSome?_guard, ← Captures.point_fresh p.groupCount]
  have hstart := LeadsVia.leads (σ := ((ofPattern source p).queryIn text).unlimited.setting) hbody
    hidles hblock.head nofun
  exact hstart _ (Setting.fresh_replicate _ _ _)

/-- What a search comes to, by its points. -/
theorem firstMatch?_eq (h : Pattern.parse source = .ok p) (hloops : p.body.LoopsConsume)
    (text : String) :
    ((ofPattern source p).find text).found?.map
        (fun found => (found.1, found.2.2.point found.2.1)) =
      p.firstMatch? text.toList.toArray := by
  rw [found?_find, Query.firstFound, List.map_findSome?]
  refine findSome?_congr fun offset hmem => ?_
  have hoffset := ((Query.mem_offsets _).1 hmem).1
  have hpoint := point?_explore h hloops hoffset
  rw [← hpoint]
  simp [Exploration.point?, Function.comp_def]

/-- **Searching goes by priority.** If whatever a pattern repeats consumes, a search for it comes to
the first outcome that the anchors allow at the first offset that has one. -/
theorem search_by_priority (h : Pattern.parse source = .ok p) (hloops : p.body.LoopsConsume) :
    ∃ r, compile source = .ok r ∧ ∀ text : String,
      match p.firstMatch? text.toList.toArray with
      | none => (r.find text).outcome = .unmatched ∧ r.captures? text = none
      | some (start, q) =>
        (r.find text).outcome = .matched ⟨start, q.offset⟩ ∧
          (r.find text).captures.span? = q.spans ∧
          r.captures? text = some (q.texts p.groupCount text.toList.toArray) := by
  refine ⟨ofPattern source p, compile_of_parse h, fun text => ?_⟩
  have hfirst := firstMatch?_eq h hloops text
  rw [← hfirst, outcome_find, captures?_eq]
  cases hfound : ((ofPattern source p).find text).found? with
  | none => exact ⟨rfl, rfl⟩
  | some found =>
    obtain ⟨start, stop, final⟩ := found
    have hsize : final.size = p.groupCount := by
      rw [found?_find] at hfound
      exact (derives_of_explore h (Query.firstFound_eq_some hfound).2.1).2.2
    refine ⟨rfl, ?_, ?_⟩
    · rw [Report.captures_of_found? hfound]
      rfl
    · rw [← hsize]
      exact congrArg some (final.texts_eq stop _)

/-- Two iterations of the first branch come before one iteration of either. -/
theorem search_by_priority_loop :
    ∃ p r q, Pattern.parse "(a|ab)+(c|bcd)" = .ok p ∧ p.body.LoopsConsume ∧
      compile "(a|ab)+(c|bcd)" = .ok r ∧ p.firstMatch? "xaabcd".toList.toArray = some (1, q) ∧
      q.offset = 6 ∧ q.texts p.groupCount "xaabcd".toList.toArray = [some "a", some "bcd"] := by
  have hparse : Pattern.parse "(a|ab)+(c|bcd)" = .ok
      { anchor := ⟨false, false⟩
        body := .only (.cons (.quantified .plus (.group 0 (.or
          (.cons (.atom (.literal 'a')) .nil)
          (.only (.cons (.atom (.literal 'a')) (.cons (.atom (.literal 'b')) .nil))))))
          (.cons (.group 1 (.or (.cons (.atom (.literal 'c')) .nil)
            (.only (.cons (.atom (.literal 'b')) (.cons (.atom (.literal 'c'))
              (.cons (.atom (.literal 'd')) .nil)))))) .nil))
        groupCount := 2 } := rfl
  obtain ⟨r, hcompile, hsearch⟩ := search_by_priority hparse (by simp)
  have hrun : (r.find "xaabcd").outcome = .matched ⟨1, 6⟩ ∧
      r.captures? "xaabcd" = some [some "a", some "bcd"] := by
    rw [compile_of_parse hparse] at hcompile
    cases hcompile
    decide +kernel
  obtain ⟨houtcome, hcaptures⟩ := hrun
  have hmatch := hsearch "xaabcd"
  split at hmatch
  · rw [houtcome] at hmatch
    cases hmatch.1
  · next start q hfirst =>
    obtain ⟨hspan, -, htexts⟩ := hmatch
    rw [houtcome, Outcome.matched.injEq, Span.mk.injEq] at hspan
    obtain ⟨rfl, hstop⟩ := hspan
    rw [hcaptures] at htexts
    exact ⟨_, r, q, hparse, by simp, hcompile, hfirst, hstop.symm, (Option.some.inj htexts).symm⟩

end Regex

end PatternSearch
