import Mathlib.Computability.Language
import PatternSearch.Proofs.Journey
import PatternSearch.Proofs.Trim

/-!
# The language of a pattern

A pattern without backreferences stands for a language in the usual sense (`Choice.language`), and a
search matches exactly where a word of it stands, the leftmost one first (`Regex.matches_language`).

That a word stands between two offsets of a text is a relation on offsets (`Occurs`), and the
operations on languages are those on relations. Without backreferences a derivation does not depend
on the spans it is given, so that it is tracked by the offsets alone (`Term.tracks`). A route for it
need not be one that the search takes, for it may come back to a state without having moved; but it
is one again after its loops have been left out.
-/

namespace PatternSearch

open Computability

mutual

/-- The words that a term stands for; for a backreference there are none. -/
def Term.language : Term → Language Char
  | .atom m => {w | ∃ c, m.allows c = true ∧ w = [c]}
  | .group _ body => body.language
  | .quantified .optional t => 1 + t.language
  | .quantified .plus t => t.language * t.language∗
  | .quantified .star t => t.language∗
termination_by structural t => t

def Branch.language : Branch → Language Char
  | .nil => 1
  | .cons t rest => t.language * rest.language
termination_by structural b => b

def Choice.language : Choice → Language Char
  | .only b => b.language
  | .or b rest => b.language + rest.language
termination_by structural c => c

end

mutual

/-- There is no backreference in a term. -/
@[simp]
def Term.BackrefFree : Term → Prop
  | .atom m => ∀ group, m ≠ .backref group
  | .group _ body => body.BackrefFree
  | .quantified _ t => t.BackrefFree
termination_by structural t => t

@[simp]
def Branch.BackrefFree : Branch → Prop
  | .nil => True
  | .cons t rest => t.BackrefFree ∧ rest.BackrefFree
termination_by structural b => b

@[simp]
def Choice.BackrefFree : Choice → Prop
  | .only b => b.BackrefFree
  | .or b rest => b.BackrefFree ∧ rest.BackrefFree
termination_by structural c => c

end

/-! ## Words in a text -/

/-- A word of `L` stands in `text` between the offsets `i` and `j`. -/
def Occurs (text : List Char) (L : Language Char) (i j : Nat) : Prop :=
  ∃ w ∈ L, w <+: text.drop i ∧ j = i + w.length

section Occurs

variable {text : List Char} {L M : Language Char} {i j : Nat}

theorem occurs_one : Occurs text 1 i j ↔ j = i := by
  constructor
  · rintro ⟨w, hw, -, rfl⟩
    rw [(Language.mem_one w).1 hw, List.length_nil, Nat.add_zero]
  · rintro rfl
    exact ⟨[], Language.nil_mem_one, List.nil_prefix, rfl⟩

theorem occurs_add : Occurs text (L + M) i j ↔ Occurs text L i j ∨ Occurs text M i j := by
  constructor
  · rintro ⟨w, hL | hM, h⟩
    · exact .inl ⟨w, hL, h⟩
    · exact .inr ⟨w, hM, h⟩
  · rintro (⟨w, hL, h⟩ | ⟨w, hM, h⟩)
    · exact ⟨w, .inl hL, h⟩
    · exact ⟨w, .inr hM, h⟩

theorem append_prefix_drop {u v : List Char} :
    u ++ v <+: text.drop i ↔ u <+: text.drop i ∧ v <+: text.drop (i + u.length) := by
  constructor
  · rintro ⟨rest, hrest⟩
    have hu : u <+: text.drop i := ⟨v ++ rest, by rw [← hrest, List.append_assoc]⟩
    refine ⟨hu, rest, ?_⟩
    rw [← List.drop_drop, ← hrest, List.append_assoc, List.drop_left]
  · rintro ⟨⟨rest, hrest⟩, hv⟩
    rw [← List.drop_drop, ← hrest, List.drop_left] at hv
    obtain ⟨rest', rfl⟩ := hv
    exact ⟨rest', by rw [← hrest, List.append_assoc]⟩

theorem occurs_mul :
    Occurs text (L * M) i j ↔ Relation.Comp (Occurs text L) (Occurs text M) i j := by
  constructor
  · rintro ⟨w, hw, hprefix, rfl⟩
    obtain ⟨u, hu, v, hv, rfl⟩ := Language.mem_mul.1 hw
    obtain ⟨hu', hv'⟩ := append_prefix_drop.1 hprefix
    exact ⟨i + u.length, ⟨u, hu, hu', rfl⟩, v, hv, hv', by rw [List.length_append, Nat.add_assoc]⟩
  · rintro ⟨k, ⟨u, hu, hu', rfl⟩, v, hv, hv', rfl⟩
    refine ⟨u ++ v, Language.append_mem_mul hu hv, append_prefix_drop.2 ⟨hu', hv'⟩, ?_⟩
    rw [List.length_append, Nat.add_assoc]

theorem occurs_kstar : Occurs text L∗ i j ↔ Relation.ReflTransGen (Occurs text L) i j := by
  constructor
  · rintro ⟨w, hw, hprefix, rfl⟩
    obtain ⟨ws, rfl, hws⟩ := Language.mem_kstar.1 hw
    clear hw
    induction ws generalizing i with
    | nil => exact .refl
    | cons u ws ih =>
      rw [List.flatten_cons] at hprefix ⊢
      obtain ⟨hu, hrest⟩ := append_prefix_drop.1 hprefix
      have hfirst : Occurs text L i (i + u.length) := ⟨u, hws u List.mem_cons_self, hu, rfl⟩
      have hlater := ih (fun y hy => hws y (List.mem_cons_of_mem u hy)) hrest
      rw [List.length_append, ← Nat.add_assoc]
      exact .head hfirst hlater
  · intro h
    induction h using Relation.ReflTransGen.head_induction_on with
    | refl => exact ⟨[], Language.nil_mem_kstar L, List.nil_prefix, rfl⟩
    | head hfirst _ ih =>
      have hmul : Occurs text (L * L∗) _ j := occurs_mul.2 ⟨_, hfirst, ih⟩
      rw [← Language.one_add_self_mul_kstar_eq_kstar]
      exact occurs_add.2 (.inr hmul)

theorem occurs_mul_kstar :
    Occurs text (L * L∗) i j ↔ Relation.TransGen (Occurs text L) i j := by
  rw [occurs_mul, Relation.TransGen.head'_iff]
  exact ⟨fun ⟨k, h, h'⟩ => ⟨k, h, occurs_kstar.1 h'⟩, fun ⟨k, h, h'⟩ => ⟨k, h, occurs_kstar.2 h'⟩⟩

/-- The word between two offsets is what stands between them. -/
theorem occurs_iff (hi : i ≤ text.length) :
    Occurs text L i j ↔ i ≤ j ∧ j ≤ text.length ∧ (text.drop i).take (j - i) ∈ L := by
  constructor
  · rintro ⟨w, hw, hprefix, rfl⟩
    have hlength := hprefix.length_le
    rw [List.length_drop] at hlength
    refine ⟨Nat.le_add_right _ _, by omega, ?_⟩
    rw [Nat.add_sub_cancel_left, ← List.prefix_iff_eq_take.1 hprefix]
    exact hw
  · rintro ⟨hij, hj, hw⟩
    refine ⟨_, hw, List.take_prefix _ _, ?_⟩
    rw [List.length_take, List.length_drop]
    omega

theorem occurs_allowed {allowed : Char → Prop} :
    Occurs text {w | ∃ c, allowed c ∧ w = [c]} i j ↔
      ∃ c, text[i]? = some c ∧ allowed c ∧ j = i + 1 := by
  constructor
  · rintro ⟨w, ⟨c, hc, rfl⟩, hprefix, rfl⟩
    obtain ⟨rest, hrest⟩ := hprefix
    refine ⟨c, ?_, hc, rfl⟩
    rw [← List.head?_drop, ← hrest]
    rfl
  · rintro ⟨c, hi, hc, rfl⟩
    refine ⟨[c], ⟨c, hc, rfl⟩, ?_, rfl⟩
    rw [← List.head?_drop, List.head?_eq_some_iff] at hi
    obtain ⟨rest, hrest⟩ := hi
    exact ⟨rest, hrest.symm⟩

end Occurs

/-! ## Derivations by their offsets -/

/-- Where a derivation can get to depends on offsets alone, as the relation `M` says. -/
def Tracks (D : Point → Point → Prop) (M : Nat → Nat → Prop) : Prop :=
  ∀ p j, (∃ q, D p q ∧ q.offset = j) ↔ M p.offset j

namespace Tracks

variable {D D' : Point → Point → Prop} {M M' : Nat → Nat → Prop}

theorem congr (h : Tracks D M) (hM : ∀ i j, M i j ↔ M' i j) : Tracks D M' :=
  fun p j => (h p j).trans (hM p.offset j)

theorem stay : Tracks (fun p q => q = p) fun i j => j = i := by
  intro p j
  constructor
  · rintro ⟨q, rfl, rfl⟩
    rfl
  · rintro rfl
    exact ⟨p, rfl, rfl⟩

theorem or (h : Tracks D M) (h' : Tracks D' M') :
    Tracks (fun p q => D p q ∨ D' p q) fun i j => M i j ∨ M' i j := by
  intro p j
  constructor
  · rintro ⟨q, hq | hq, hj⟩
    · exact .inl ((h p j).1 ⟨q, hq, hj⟩)
    · exact .inr ((h' p j).1 ⟨q, hq, hj⟩)
  · rintro (hj | hj)
    · obtain ⟨q, hq, hj⟩ := (h p j).2 hj
      exact ⟨q, .inl hq, hj⟩
    · obtain ⟨q, hq, hj⟩ := (h' p j).2 hj
      exact ⟨q, .inr hq, hj⟩

theorem comp (h : Tracks D M) (h' : Tracks D' M') :
    Tracks (Relation.Comp D D') (Relation.Comp M M') := by
  intro p j
  constructor
  · rintro ⟨q, ⟨r, hr, hq⟩, hj⟩
    exact ⟨r.offset, (h p _).1 ⟨r, hr, rfl⟩, (h' r j).1 ⟨q, hq, hj⟩⟩
  · rintro ⟨k, hk, hj⟩
    obtain ⟨r, hr, rfl⟩ := (h p k).2 hk
    obtain ⟨q, hq, hj⟩ := (h' r j).2 hj
    exact ⟨q, ⟨r, hr, hq⟩, hj⟩

theorem transGen (h : Tracks D M) : Tracks (Relation.TransGen D) (Relation.TransGen M) := by
  intro p j
  constructor
  · rintro ⟨q, hq, rfl⟩
    exact hq.lift Point.offset fun a b hab => (h a _).1 ⟨b, hab, rfl⟩
  · intro hj
    generalize hi : p.offset = i at hj
    induction hj using Relation.TransGen.head_induction_on generalizing p with
    | single hlast =>
      subst hi
      obtain ⟨q, hq, hj⟩ := (h p j).2 hlast
      exact ⟨q, .single hq, hj⟩
    | head hfirst _ ih =>
      subst hi
      obtain ⟨r, hr, hk⟩ := (h p _).2 hfirst
      obtain ⟨q, hq, hj⟩ := ih r hk
      exact ⟨q, .head hr hq, hj⟩

theorem reflTransGen (h : Tracks D M) :
    Tracks (Relation.ReflTransGen D) (Relation.ReflTransGen M) := by
  intro p j
  have heither := (stay.or h.transGen) p j
  simp only [← Relation.reflTransGen_iff_eq_or_transGen] at heither
  exact heither

end Tracks

section Tracks

variable {text : List Char}

theorem Matcher.pass?_of_ne_backref {m : Matcher} (hm : ∀ group, m ≠ .backref group)
    (text : Array Char) (p : Point) :
    m.pass? text p = text[p.offset]?.bind fun c =>
      if m.allows c then some { p with offset := p.offset + 1 } else none := by
  unfold pass?
  cases text[p.offset]? with
  | none => rfl
  | some c =>
    cases m with
    | backref group => exact absurd rfl (hm group)
    | literal | shorthand | any | set => rfl

theorem Matcher.tracks {m : Matcher} (hm : ∀ group, m ≠ .backref group) :
    Tracks (fun p q => m.pass? text.toArray p = some q)
      (Occurs text {w | ∃ c, m.allows c = true ∧ w = [c]}) := by
  intro p j
  rw [occurs_allowed]
  constructor
  · rintro ⟨q, hq, rfl⟩
    rw [pass?_of_ne_backref hm] at hq
    obtain ⟨c, hc, hq⟩ := Option.bind_eq_some_iff.1 hq
    split at hq
    · next hallows =>
      cases hq
      exact ⟨c, by simpa using hc, hallows, rfl⟩
    · cases hq
  · rintro ⟨c, hc, hallows, rfl⟩
    refine ⟨{ p with offset := p.offset + 1 }, ?_, rfl⟩
    change m.pass? text.toArray p = some _
    rw [pass?_of_ne_backref hm, List.getElem?_toArray, hc, Option.bind_some, if_pos hallows]

mutual

/-- **Without backreferences a term derives the words of its language**, from whatever spans. -/
theorem Term.tracks : ∀ (t : Term), t.BackrefFree →
    Tracks (t.Derives text.toArray) (Occurs text t.language)
  | .atom m => fun hfree => Matcher.tracks hfree
  | .group index body => by
    intro hfree p j
    rw [Term.language, ← body.tracks hfree p j]
    constructor
    · rintro ⟨q, ⟨r, hr, rfl⟩, hj⟩
      exact ⟨r, hr, hj⟩
    · rintro ⟨r, hr, hj⟩
      exact ⟨_, ⟨r, hr, rfl⟩, hj⟩
  | .quantified .optional t => by
    intro hfree
    refine ((t.tracks hfree).or .stay).congr fun i j => ?_
    rw [Term.language, occurs_add, occurs_one, or_comm]
  | .quantified .plus t => by
    intro hfree
    refine (t.tracks hfree).transGen.congr fun i j => ?_
    rw [Term.language, occurs_mul_kstar]
  | .quantified .star t => by
    intro hfree
    refine (t.tracks hfree).reflTransGen.congr fun i j => ?_
    rw [Term.language, occurs_kstar]

theorem Branch.tracks : ∀ (b : Branch), b.BackrefFree →
    Tracks (b.Derives text.toArray) (Occurs text b.language)
  | .nil => by
    intro hfree
    refine Tracks.stay.congr fun i j => ?_
    rw [Branch.language, occurs_one]
  | .cons t rest => by
    intro hfree
    refine ((t.tracks hfree.1).comp (rest.tracks hfree.2)).congr fun i j => ?_
    rw [Branch.language, occurs_mul]

theorem Choice.tracks : ∀ (c : Choice), c.BackrefFree →
    Tracks (c.Derives text.toArray) (Occurs text c.language)
  | .only b => fun hfree => b.tracks hfree
  | .or b rest => by
    intro hfree
    refine ((b.tracks hfree.1).or (rest.tracks hfree.2)).congr fun i j => ?_
    rw [Choice.language, occurs_add]

end

end Tracks

/-! ## Automata that read no captures -/

mutual

theorem Term.backref_notMem {group : Nat} : ∀ (t : Term), t.BackrefFree →
    .backref group ∉ t.matchers
  | .atom _ => fun hfree hmem => hfree group (List.mem_singleton.1 hmem).symm
  | .group _ body => body.backref_notMem
  | .quantified _ t => t.backref_notMem

theorem Branch.backref_notMem {group : Nat} : ∀ (b : Branch), b.BackrefFree →
    .backref group ∉ b.matchers
  | .nil => fun _ hmem => nomatch hmem
  | .cons t rest => fun hfree hmem =>
    (List.mem_append.1 hmem).elim (t.backref_notMem hfree.1) (rest.backref_notMem hfree.2)

theorem Choice.backref_notMem {group : Nat} : ∀ (c : Choice), c.BackrefFree →
    .backref group ∉ c.matchers
  | .only b => b.backref_notMem
  | .or b rest => fun hfree hmem =>
    (List.mem_append.1 hmem).elim (b.backref_notMem hfree.1) (rest.backref_notMem hfree.2)

end

theorem Automaton.captureFree_ofChoice {body : Choice} (hfree : body.BackrefFree) :
    (Automaton.ofChoice body).CaptureFree := by
  intro number state hs e he group hm
  rcases inner_ofChoice body hs with ⟨-, rfl⟩ | hinner
  · exact absurd he List.not_mem_nil
  · exact body.backref_notMem hfree ((hinner.fits e he).mem_matchers _ hm)

/-! ## Compiled patterns -/

/-- A word of the pattern stands in `text` between `i` and `j`, where the anchors allow it. -/
def Pattern.MatchesBetween (p : Pattern) (text : List Char) (i j : Nat) : Prop :=
  i ≤ j ∧ j ≤ text.length ∧ (text.drop i).take (j - i) ∈ p.body.language ∧
    (p.anchor.atStart = true → i = 0) ∧ (p.anchor.atEnd = true → j = text.length)

namespace Regex

variable {source : String} {p : Pattern} {text : String} {i : Nat}

/-- An exploration finds something wherever a word of the pattern begins. -/
theorem isSome_explore_iff (h : Pattern.parse source = .ok p) (hfree : p.body.BackrefFree)
    (hi : i ≤ text.toList.length) (hstart : p.anchor.atStart = true → i = 0) :
    (((ofPattern source p).queryIn text).explore i).found.isSome ↔
      ∃ j, p.MatchesBetween text.toList i j := by
  constructor
  · intro hsome
    obtain ⟨⟨stop, final⟩, hfound⟩ := Option.isSome_iff_exists.1 hsome
    obtain ⟨hderives, hend, -⟩ := derives_of_explore h hfound
    have hoccurs := (p.body.tracks hfree _ stop).1 ⟨_, hderives, rfl⟩
    obtain ⟨hle, hstop, hword⟩ := (occurs_iff hi).1 hoccurs
    exact ⟨stop, hle, hstop, hword, hstart, hend⟩
  · rintro ⟨j, hle, hj, hword, -, hend⟩
    have hoccurs : Occurs text.toList p.body.language i j := (occurs_iff hi).2 ⟨hle, hj, hword⟩
    obtain ⟨q, hderives, rfl⟩ := (p.body.tracks hfree (.start i) j).2 hoccurs
    obtain ⟨final, trace, hroute⟩ := route_of_derives h hderives hend
    obtain ⟨final', trace', hroute', hnodup⟩ :=
      hroute.exists_nodup (Automaton.captureFree_ofChoice hfree)
    exact Setting.explore_isSome_of_nodup hroute' hnodup

/-- **A pattern without backreferences matches where a word of its language stands**, at the
leftmost place there is. -/
theorem matches_language (h : Pattern.parse source = .ok p) (hfree : p.body.BackrefFree) :
    ∃ r, compile source = .ok r ∧ ∀ text : String,
      (r.isMatch text = true ↔ ∃ i j, p.MatchesBetween text.toList i j) ∧
      ∀ span, (r.find text).outcome = .matched span →
        IsLeast {i | ∃ j, p.MatchesBetween text.toList i j} span.start := by
  refine ⟨ofPattern source p, compile_of_parse h, fun text => ?_⟩
  have hmem {i : Nat} : i ∈ ((ofPattern source p).queryIn text).offsets ↔
      i ≤ text.toList.length ∧ (p.anchor.atStart = true → i = 0) := Query.mem_offsets _
  have hfound {i : Nat} (hi : i ∈ ((ofPattern source p).queryIn text).offsets) :
      (((ofPattern source p).queryIn text).explore i).found.isSome ↔
        ∃ j, p.MatchesBetween text.toList i j :=
    isSome_explore_iff h hfree (hmem.1 hi).1 (hmem.1 hi).2
  have hoffset {i : Nat} (hi : ∃ j, p.MatchesBetween text.toList i j) :
      i ∈ ((ofPattern source p).queryIn text).offsets := by
    obtain ⟨j, hle, hj, -, hstart, -⟩ := hi
    exact hmem.2 ⟨hle.trans hj, hstart⟩
  refine ⟨?_, fun span houtcome => ?_⟩
  · rw [isMatch_iff]
    constructor
    · rintro ⟨i, hi, hsome⟩
      exact ⟨i, (hfound hi).1 hsome⟩
    · rintro ⟨i, hi⟩
      exact ⟨i, hoffset hi, (hfound (hoffset hi)).2 hi⟩
  · obtain ⟨hstart, ⟨final, hexplore, -⟩, hleast⟩ := found_of_matched houtcome
    refine ⟨(hfound hstart).1 (by rw [hexplore]; rfl), fun i hi => ?_⟩
    exact hleast i (hoffset hi) ((hfound (hoffset hi)).2 hi)

/-- A loop whose body may be empty. -/
theorem matches_language_loop :
    ∃ p r, Pattern.parse "(a|b*)+c" = .ok p ∧ p.body.BackrefFree ∧ compile "(a|b*)+c" = .ok r ∧
      IsLeast {i | ∃ j, p.MatchesBetween "xbac".toList i j} 1 := by
  have hparse : Pattern.parse "(a|b*)+c" = .ok
      { anchor := ⟨false, false⟩
        body := .only (.cons (.quantified .plus (.group 0 (.or
          (.cons (.atom (.literal 'a')) .nil)
          (.only (.cons (.quantified .star (.atom (.literal 'b'))) .nil)))))
          (.cons (.atom (.literal 'c')) .nil))
        groupCount := 1 } := rfl
  obtain ⟨r, hcompile, hmatches⟩ := matches_language hparse (by simp)
  have hr := compile_of_parse hparse
  rw [hcompile] at hr
  cases hr
  refine ⟨_, _, hparse, by simp, hcompile, ?_⟩
  exact (hmatches "xbac").2 ⟨1, 4⟩ (by decide +kernel)

end Regex

end PatternSearch
