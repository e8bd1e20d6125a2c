import PatternSearch.Proofs.Journey
import PatternSearch.Proofs.Trim

/-!
# Coming back to a state

A search drops a branch that comes back to a state at the same offset. What is dropped may be needed:
the branch may have captured something since, which a backreference reads further on. A journey all
of whose iterations take something comes back to a state only from one iteration to the next, and if
no group that a backreference names is entered or left on such a way back, then what is left out
makes no difference, and there is a match (`Regex.isMatch_of_steadily`). Otherwise there may be none
(`Regex.isMatch_of_steadily_fails`).
-/

namespace PatternSearch

/-- The groups that backreferences name. -/
def Pattern.Reads (p : Pattern) (group : Nat) : Prop :=
  .backref group ∈ p.body.matchers

/-- From where a trace passes a state until the next one passes it at the same offset, none of the
`groups` is entered or left. -/
def Automaton.Apart (a : Automaton) (groups : Nat → Prop) (trace next : List (Nat × Nat)) : Prop :=
  ∀ p before between between' after, trace = before ++ p :: between →
    next = between' ++ p :: after → ∀ q ∈ p :: between ++ between', ¬ a.Bounds groups q.1

/-- At most one iteration, or iterations that each take something, where the traces of any two
successive ones are related as `Apart` says. -/
def steadily (Apart : List (Nat × Nat) → List (Nat × Nat) → Prop) (D : Journey) : Journey :=
  fun p q trace => D p q trace ∨ ∃ traces,
    Iterations (fun p q trace => p.offset < q.offset ∧ D p q trace) p q traces ∧
      traces.IsChain Apart ∧ trace = traces.flatten

/-- A journey through the pattern between two offsets of `text`, where the anchors allow it. -/
def Pattern.MatchesBy (p : Pattern) (loop : Journey → Journey) (text : List Char) : Prop :=
  ∃ i q trace, i ≤ q.offset ∧ q.offset ≤ text.length ∧ (p.anchor.atStart = true → i = 0) ∧
    (p.anchor.atEnd = true → q.offset = text.length) ∧
    p.body.Travels text.toArray loop 2 (.start i) q trace

/-! ## Undisturbed traces -/

namespace Automaton

variable {a : Automaton} {groups : Nat → Prop} {trace next more : List (Nat × Nat)}

theorem undisturbed_of_nodup (h : trace.Nodup) : a.Undisturbed groups trace := by
  intro p between hstretch
  have hnodup : (p :: between ++ [p]).Nodup := h.sublist (List.IsInfix.sublist hstretch)
  simp at hnodup

theorem Undisturbed.append (h : a.Undisturbed groups trace) (hnext : a.Undisturbed groups next)
    (hapart : a.Apart groups trace next) : a.Undisturbed groups (trace ++ next) := by
  intro p between hstretch
  rcases List.infix_append_iff.1 hstretch with hleft | hright | ⟨l, r, heq, ⟨before, hl⟩, after, hr⟩
  · exact h p between hleft
  · exact hnext p between hright
  · rcases List.append_eq_cons_iff.1 heq.symm with ⟨rfl, rfl⟩ | ⟨l, rfl, hrest⟩
    · exact hnext p between ⟨[], after, hr⟩
    · rcases List.eq_nil_or_concat r with rfl | ⟨r, p', rfl⟩
      · rw [List.append_nil] at heq
        exact h p between ⟨before, [], by rw [heq, List.append_nil, hl]⟩
      · rw [List.concat_eq_append, ← List.append_assoc] at hrest
        obtain ⟨rfl, hp⟩ := List.append_inj' hrest rfl
        cases hp
        refine hapart p before l r after hl.symm ?_
        rw [← hr, List.concat_eq_append, List.append_assoc]
        rfl

theorem apart_of_disjoint (h : ∀ v ∈ trace, v ∉ next) : a.Apart groups trace next := by
  rintro p before between between' after rfl rfl
  exact absurd (List.mem_append_right _ List.mem_cons_self) (h p (by simp))

/-- What a trace passes does not matter if none of it enters or leaves one of the `groups`. -/
theorem apart_of_unread (h : ∀ v ∈ trace ++ next, ¬ a.Bounds groups v.1) :
    a.Apart groups trace next := by
  rintro p before between between' after rfl rfl q hq
  refine h q ?_
  simp only [List.mem_append, List.mem_cons] at hq ⊢
  tauto

theorem Apart.append (h : a.Apart groups trace next) (hmore : ∀ v ∈ trace, v ∉ more) :
    a.Apart groups trace (next ++ more) := by
  intro p before between between' after htrace hnext
  have hp : p ∉ more := hmore p (by rw [htrace]; simp)
  rcases List.append_eq_append_iff.1 hnext with ⟨l, -, rfl⟩ | ⟨l, rfl, heq⟩
  · exact absurd (by simp) hp
  · cases l with
    | nil => exact absurd (by rw [← heq.trans (List.nil_append _)]; simp) hp
    | cons p' l =>
      obtain ⟨rfl, -⟩ := List.cons.inj heq
      exact h p before between between' l htrace rfl

/-- Two visits around a trace that does not come back to either of them. -/
theorem Undisturbed.enclose {v w : Nat × Nat} (h : a.Undisturbed groups trace) (hv : v ∉ trace)
    (hw : w ∉ trace) (hne : v ≠ w) : a.Undisturbed groups (v :: trace ++ [w]) := by
  have hfront : a.Undisturbed groups ([v] ++ trace) :=
    (undisturbed_of_nodup (List.nodup_singleton v)).append h
      (apart_of_disjoint fun u hu => List.mem_singleton.1 hu ▸ hv)
  refine hfront.append (undisturbed_of_nodup (List.nodup_singleton w))
    (apart_of_disjoint fun u hu huw => ?_)
  cases List.mem_singleton.1 huw
  rcases List.mem_cons.1 hu with rfl | hu
  · exact hne rfl
  · exact hw hu

end Automaton

/-! ## Where journeys pass -/

/-- A trace passes states from `lo` up to `hi`, at offsets from `i` to `j`. -/
structure Passes (lo hi i j : Nat) (trace : List (Nat × Nat)) : Prop where
  le : i ≤ j
  state : ∀ v ∈ trace, lo ≤ v.1 ∧ v.1 < hi
  offset : ∀ v ∈ trace, i ≤ v.2 ∧ v.2 ≤ j

section Passes

variable {lo hi i j k : Nat} {p q : Point} {trace trace' : List (Nat × Nat)} {D : Journey}

namespace Passes

theorem nil (h : i ≤ j) : Passes lo hi i j [] :=
  ⟨h, nofun, nofun⟩

theorem mono {lo' hi' : Nat} (h : Passes lo hi i j trace) (hlo : lo' ≤ lo) (hhi : hi ≤ hi') :
    Passes lo' hi' i j trace :=
  ⟨h.le, fun v hv => ⟨hlo.trans (h.state v hv).1, (h.state v hv).2.trans_le hhi⟩, h.offset⟩

theorem append (h : Passes lo hi i k trace) (h' : Passes lo hi k j trace') :
    Passes lo hi i j (trace ++ trace') where
  le := h.le.trans h'.le
  state := List.forall_mem_append.2 ⟨h.state, h'.state⟩
  offset := List.forall_mem_append.2
    ⟨fun v hv => ⟨(h.offset v hv).1, (h.offset v hv).2.trans h'.le⟩,
      fun v hv => ⟨h.le.trans (h'.offset v hv).1, (h'.offset v hv).2⟩⟩

theorem enclose {n : Nat} (h : Passes lo hi i j trace) (hlo : lo ≤ n) (hhi : n + 1 < hi) :
    Passes lo hi i j ((n, i) :: trace ++ [(n + 1, j)]) where
  le := h.le
  state := List.forall_mem_append.2 ⟨List.forall_mem_cons.2
    ⟨⟨hlo, Nat.lt_of_succ_lt hhi⟩, h.state⟩,
    List.forall_mem_singleton.2 ⟨Nat.le_succ_of_le hlo, hhi⟩⟩
  offset := List.forall_mem_append.2 ⟨List.forall_mem_cons.2
    ⟨⟨Nat.le_refl _, h.le⟩, h.offset⟩, List.forall_mem_singleton.2 ⟨h.le, Nat.le_refl _⟩⟩

theorem bypassed (hD : ∀ trace, D p q trace → Passes lo hi p.offset q.offset trace)
    (hle : lo ≤ hi) (h : bypassed hi D p q trace) :
    Passes lo (hi + 2) p.offset q.offset trace := by
  rcases h with ⟨inner, hin, rfl⟩ | ⟨rfl, rfl⟩
  · exact ((hD inner hin).mono (Nat.le_refl _) (Nat.le_add_right _ _)).enclose hle (by omega)
  · exact (nil (Nat.le_refl _)).enclose hle (by omega)

end Passes

theorem Iterations.passes
    (hD : ∀ p q trace, D p q trace → Passes lo hi p.offset q.offset trace)
    {traces : List (List (Nat × Nat))} (h : Iterations D p q traces) :
    Passes lo hi p.offset q.offset traces.flatten := by
  induction h with
  | single h =>
    rw [List.flatten_singleton]
    exact hD _ _ _ h
  | cons h _ ih => exact (hD _ _ _ h).append ih

theorem Iterates.passes {loop : Journey → Journey} (hloop : Iterates loop)
    (hD : ∀ p q trace, D p q trace → Passes lo hi p.offset q.offset trace)
    (h : loop D p q trace) : Passes lo hi p.offset q.offset trace := by
  obtain ⟨traces, hiterations, rfl⟩ := hloop D p q trace h
  exact hiterations.passes hD

theorem Matcher.le_of_pass? {m : Matcher} {text : Array Char} (h : m.pass? text p = some q) :
    p.offset ≤ q.offset := by
  unfold pass? at h
  split at h
  · cases h
  · split at h
    · cases h
    · simp only at h
      split at h
      · cases h
        exact Nat.le_add_right _ _
      · cases h
  · split at h
    · cases h
      exact Nat.le_succ _
    · cases h

end Passes

section Travels

variable {text : Array Char} {loop : Journey → Journey}

mutual

/-- **A journey through a term stays within the block of the term.** -/
theorem Term.passes (hloop : Iterates loop) : ∀ (t : Term) (lo : Nat) (p q : Point)
    (trace : List (Nat × Nat)), t.Travels text loop lo p q trace →
      Passes lo (lo + t.width) p.offset q.offset trace
  | .atom m => by
    rintro lo p q trace ⟨h, rfl⟩
    exact (Passes.nil (m.le_of_pass? h)).enclose (Nat.le_refl lo) (Nat.lt_succ_self _)
  | .group index body => by
    rintro lo p q trace ⟨r, inner, hbody, rfl, rfl⟩
    have hwidth : lo + 2 + body.width ≤ lo + (body.width + 2) := by omega
    have hinner := (body.passes hloop (lo + 2) p r inner hbody).mono (Nat.le_add_right lo 2) hwidth
    exact hinner.enclose (Nat.le_refl lo) (by omega)
  | .quantified .optional t => fun lo p q trace h =>
    .bypassed (t.passes hloop lo p q) (Nat.le_add_right _ _) h
  | .quantified .plus t => fun lo p q trace h => hloop.passes (t.passes hloop lo) h
  | .quantified .star t => fun lo p q trace h =>
    .bypassed (fun trace hin => hloop.passes (t.passes hloop lo) hin) (Nat.le_add_right _ _) h

theorem Branch.passes (hloop : Iterates loop) : ∀ (b : Branch) (lo : Nat) (p q : Point)
    (trace : List (Nat × Nat)), b.Travels text loop lo p q trace →
      Passes lo (lo + b.width) p.offset q.offset trace
  | .nil => by
    rintro lo p q trace ⟨rfl, rfl⟩
    exact .nil (Nat.le_refl _)
  | .cons t rest => by
    rintro lo p q trace ⟨r, trace₁, trace₂, ht, hrest, rfl⟩
    have hleft : lo + t.width ≤ lo + (t.width + rest.width) := by omega
    have hright : lo + t.width + rest.width ≤ lo + (t.width + rest.width) := by omega
    have hfirst := (t.passes hloop lo p r trace₁ ht).mono (Nat.le_refl _) hleft
    have hlater := (rest.passes hloop (lo + t.width) r q trace₂ hrest).mono
      (Nat.le_add_right _ _) hright
    exact hfirst.append hlater

theorem Choice.passes (hloop : Iterates loop) : ∀ (c : Choice) (lo : Nat) (p q : Point)
    (trace : List (Nat × Nat)), c.Travels text loop lo p q trace →
      Passes lo (lo + c.width) p.offset q.offset trace
  | .only b => b.passes hloop
  | .or b rest => by
    rintro lo p q trace (hhere | hthere)
    · have hleft : lo + b.width ≤ lo + (b.width + rest.width) := by omega
      exact (b.passes hloop lo p q trace hhere).mono (Nat.le_refl _) hleft
    · have hright : lo + b.width + rest.width ≤ lo + (b.width + rest.width) := by omega
      exact (rest.passes hloop (lo + b.width) p q trace hthere).mono (Nat.le_add_right _ _) hright

end

end Travels

/-! ## Steady journeys -/

section Steadily

variable {a : Automaton} {groups : Nat → Prop} {D : Journey} {lo hi : Nat} {p q : Point}
  {trace : List (Nat × Nat)}

theorem Iterations.imp {D' : Journey} (hD : ∀ p q trace, D p q trace → D' p q trace)
    {traces : List (List (Nat × Nat))} (h : Iterations D p q traces) :
    Iterations D' p q traces := by
  induction h with
  | single h => exact .single (hD _ _ _ h)
  | cons h _ ih => exact .cons (hD _ _ _ h) ih

theorem iterates_steadily (Apart : List (Nat × Nat) → List (Nat × Nat) → Prop) :
    Iterates (steadily Apart) := by
  rintro D p q trace (h | ⟨traces, h, -, rfl⟩)
  · exact ⟨[trace], .single h, List.flatten_singleton.symm⟩
  · exact ⟨traces, h.imp fun _ _ _ hD => hD.2, rfl⟩

/-- Iterations that each take something come back to a state only from one to the next: those after
that begin further on. -/
theorem Iterations.undisturbed
    (hpasses : ∀ p q trace, D p q trace → Passes lo hi p.offset q.offset trace)
    (hD : ∀ p q trace, D p q trace → a.Undisturbed groups trace)
    {traces : List (List (Nat × Nat))}
    (h : Iterations (fun p q trace => p.offset < q.offset ∧ D p q trace) p q traces)
    (hchain : traces.IsChain (a.Apart groups)) : a.Undisturbed groups traces.flatten := by
  induction h with
  | single h =>
    rw [List.flatten_singleton]
    exact hD _ _ _ h.2
  | @cons p r q trace traces h rest ih =>
    rw [List.flatten_cons]
    refine (hD _ _ _ h.2).append (ih hchain.of_cons) ?_
    cases rest with
    | single =>
      rw [List.flatten_singleton]
      exact (List.isChain_cons_cons.1 hchain).1
    | cons hnext hlater =>
      rw [List.flatten_cons]
      refine (List.isChain_cons_cons.1 hchain).1.append fun v hv hv' => ?_
      have hbefore := ((hpasses _ _ _ h.2).offset v hv).2
      have hafter := ((hlater.passes fun p q trace hD => hpasses p q trace hD.2).offset v hv').1
      exact absurd hnext.1 (Nat.not_lt.2 (hafter.trans hbefore))

theorem steadily_undisturbed
    (hpasses : ∀ p q trace, D p q trace → Passes lo hi p.offset q.offset trace)
    (hD : ∀ p q trace, D p q trace → a.Undisturbed groups trace)
    (h : steadily (a.Apart groups) D p q trace) : a.Undisturbed groups trace := by
  rcases h with h | ⟨traces, h, hchain, rfl⟩
  · exact hD p q trace h
  · exact h.undisturbed hpasses hD hchain

theorem bypassed_undisturbed
    (hpasses : ∀ trace, D p q trace → Passes lo hi p.offset q.offset trace)
    (hD : ∀ trace, D p q trace → a.Undisturbed groups trace) (h : bypassed hi D p q trace) :
    a.Undisturbed groups trace := by
  rcases h with ⟨inner, hin, rfl⟩ | ⟨rfl, rfl⟩
  · have hout {n : Nat} (hn : hi ≤ n) (offset : Nat) : (n, offset) ∉ inner :=
      fun hmem => absurd ((hpasses inner hin).state _ hmem).2 (Nat.not_lt.2 hn)
    exact (hD inner hin).enclose (hout (Nat.le_refl _) _) (hout (Nat.le_succ _) _) (by simp)
  · exact Automaton.undisturbed_of_nodup (by simp)

variable {text : Array Char}

mutual

/-- **A steady journey through a term is not disturbed.** -/
theorem Term.undisturbed : ∀ (t : Term) (lo : Nat) (p q : Point) (trace : List (Nat × Nat)),
    t.Travels text (steadily (a.Apart groups)) lo p q trace → a.Undisturbed groups trace
  | .atom m => by
    rintro lo p q trace ⟨-, rfl⟩
    exact Automaton.undisturbed_of_nodup (by simp)
  | .group index body => by
    rintro lo p q trace ⟨r, inner, hbody, rfl, rfl⟩
    have hpasses := body.passes (iterates_steadily _) (lo + 2) p r inner hbody
    have hout {n : Nat} (hn : n < lo + 2) (offset : Nat) : (n, offset) ∉ inner :=
      fun hmem => absurd (hpasses.state _ hmem).1 (Nat.not_le.2 hn)
    exact (body.undisturbed (lo + 2) p r inner hbody).enclose (hout (by omega) _)
      (hout (by omega) _) (by simp)
  | .quantified .optional t => fun lo p q trace h =>
    bypassed_undisturbed (t.passes (iterates_steadily _) lo p q) (t.undisturbed lo p q) h
  | .quantified .plus t => fun lo p q trace h =>
    steadily_undisturbed (t.passes (iterates_steadily _) lo) (t.undisturbed lo) h
  | .quantified .star t => fun lo p q trace h =>
    bypassed_undisturbed
      (fun trace hin => (iterates_steadily _).passes (t.passes (iterates_steadily _) lo) hin)
      (fun trace hin => steadily_undisturbed (t.passes (iterates_steadily _) lo)
        (t.undisturbed lo) hin) h

theorem Branch.undisturbed : ∀ (b : Branch) (lo : Nat) (p q : Point) (trace : List (Nat × Nat)),
    b.Travels text (steadily (a.Apart groups)) lo p q trace → a.Undisturbed groups trace
  | .nil => by
    rintro lo p q trace ⟨-, rfl⟩
    exact Automaton.undisturbed_of_nodup List.nodup_nil
  | .cons t rest => by
    rintro lo p q trace ⟨r, trace₁, trace₂, ht, hrest, rfl⟩
    have hfirst := t.passes (iterates_steadily _) lo p r trace₁ ht
    have hlater := rest.passes (iterates_steadily _) (lo + t.width) r q trace₂ hrest
    refine (t.undisturbed lo p r trace₁ ht).append
      (rest.undisturbed (lo + t.width) r q trace₂ hrest) ?_
    exact Automaton.apart_of_disjoint fun v hv hv' =>
      absurd (hfirst.state v hv).2 (Nat.not_lt.2 (hlater.state v hv').1)

theorem Choice.undisturbed : ∀ (c : Choice) (lo : Nat) (p q : Point) (trace : List (Nat × Nat)),
    c.Travels text (steadily (a.Apart groups)) lo p q trace → a.Undisturbed groups trace
  | .only b => b.undisturbed
  | .or b rest => fun lo p q trace h =>
    h.elim (b.undisturbed lo p q trace) (rest.undisturbed (lo + b.width) p q trace)

end

end Steadily

/-! ## Compiled patterns -/

/-- The only captures that are read are those of groups that backreferences name. -/
theorem Pattern.readsOnly (p : Pattern) : (Automaton.ofChoice p.body).ReadsOnly p.Reads := by
  intro number state hs e he group hm
  rcases Automaton.inner_ofChoice p.body hs with ⟨-, rfl⟩ | hinner
  · exact absurd he List.not_mem_nil
  · exact (hinner.fits e he).mem_matchers _ hm

namespace Regex

variable {source : String} {p : Pattern} {text : String}

/-- An exploration finds something at the start of a journey that is not disturbed. -/
theorem isSome_explore_of_travels (h : Pattern.parse source = .ok p) {loop : Journey → Journey}
    (hloop : Iterates loop) {i : Nat} {q : Point} {trace : List (Nat × Nat)}
    (htravels : p.body.Travels text.toList.toArray loop 2 (.start i) q trace)
    (hend : p.anchor.atEnd = true → q.offset = text.toList.length)
    (hundisturbed : (Automaton.ofChoice p.body).Undisturbed p.Reads trace) :
    (((ofPattern source p).queryIn text).explore i).found.isSome := by
  obtain ⟨final, hroute⟩ := route_of_travels hloop h htravels hend
  have hout {n : Nat} (hn : n < 2) (offset : Nat) : (n, offset) ∉ trace :=
    fun hmem => absurd ((p.body.passes hloop 2 _ q trace htravels).state _ hmem).1
      (Nat.not_le.2 hn)
  obtain ⟨final', trace', hroute', hnodup, -⟩ := hroute.exists_nodup_sublist p.readsOnly
    (hundisturbed.enclose (hout (by omega) _) (hout (by omega) _) (by simp))
  exact Setting.explore_isSome_of_nodup hroute' hnodup

/-- **What a steady journey matches is not missed** where no group that a backreference names is
entered or left between two visits of successive iterations to one state at the same offset. -/
theorem isMatch_of_steadily (h : Pattern.parse source = .ok p) :
    ∃ r, compile source = .ok r ∧ ∀ text : String,
      p.MatchesBy (steadily (r.automaton.Apart p.Reads)) text.toList → r.isMatch text = true := by
  refine ⟨ofPattern source p, compile_of_parse h, fun text hmatches => ?_⟩
  obtain ⟨i, q, trace, hle, hstop, hstart, hend, htravels⟩ := hmatches
  have hmem : i ∈ ((ofPattern source p).queryIn text).offsets :=
    (Query.mem_offsets _).2 ⟨hle.trans hstop, hstart⟩
  refine (isMatch_iff _ _).2 ⟨i, hmem, ?_⟩
  exact isSome_explore_of_travels h (iterates_steadily _) htravels hend
    (p.body.undisturbed 2 _ q trace htravels)

/-- The second iteration comes back to states 11 and 14 at the offset where the first has passed
them, behind `a?` and before `b?`. On the way, only the second group is left and entered again, and
the backreference reads the first one. -/
theorem isMatch_of_steadily_latest :
    ∃ p r, Pattern.parse "(c)(a?b?)+\\1" = .ok p ∧ compile "(c)(a?b?)+\\1" = .ok r ∧
      p.MatchesBy (steadily (r.automaton.Apart p.Reads)) "cabc".toList ∧
      r.isMatch "cabc" = true := by
  let first : Term := .group 0 (.only (.cons (.atom (.literal 'c')) .nil))
  let second : Term := .group 1 (.only (.cons (.quantified .optional (.atom (.literal 'a')))
    (.cons (.quantified .optional (.atom (.literal 'b'))) .nil)))
  let p : Pattern :=
    { anchor := ⟨false, false⟩
      body := .only (.cons first (.cons (.quantified .plus second)
        (.cons (.atom (.backref 0)) .nil)))
      groupCount := 2 }
  have hparse : Pattern.parse "(c)(a?b?)+\\1" = .ok p := rfl
  obtain ⟨r, hcompile, hmatch⟩ := isMatch_of_steadily hparse
  obtain rfl : ofPattern _ p = r := Except.ok.inj ((compile_of_parse hparse).symm.trans hcompile)
  let loop := steadily ((Automaton.ofChoice p.body).Apart p.Reads)
  let q₀ : Point := Point.capture ⟨1, fun _ => none⟩ 0 0
  let q₁ : Point := Point.capture ⟨2, q₀.spans⟩ 1 1
  let q₂ : Point := Point.capture ⟨3, q₁.spans⟩ 1 2
  let trace₁ : List (Nat × Nat) :=
    [(6, 1), (10, 1), (8, 1), (9, 2), (11, 2), (14, 2), (15, 2), (7, 2)]
  let trace₂ : List (Nat × Nat) :=
    [(6, 2), (10, 2), (11, 2), (14, 2), (12, 2), (13, 3), (15, 3), (7, 3)]
  have hopening : first.Travels "cabc".toList.toArray loop 2 (.start 0) q₀
      [(2, 0), (4, 0), (5, 1), (3, 1)] :=
    ⟨⟨1, fun _ => none⟩, [(4, 0), (5, 1)], ⟨_, [(4, 0), (5, 1)], [], ⟨rfl, rfl⟩, ⟨rfl, rfl⟩,
      rfl⟩, rfl, rfl⟩
  have hfirst : second.Travels "cabc".toList.toArray loop 6 q₀ q₁ trace₁ := by
    refine ⟨⟨2, q₀.spans⟩, [(10, 1), (8, 1), (9, 2), (11, 2), (14, 2), (15, 2)], ?_, rfl, rfl⟩
    refine ⟨_, [(10, 1), (8, 1), (9, 2), (11, 2)], _, .inl ⟨_, ⟨rfl, rfl⟩, rfl⟩, ?_, rfl⟩
    exact ⟨_, [(14, 2), (15, 2)], [], .inr ⟨rfl, rfl⟩, ⟨rfl, rfl⟩, rfl⟩
  have hsecond : second.Travels "cabc".toList.toArray loop 6 q₁ q₂ trace₂ := by
    refine ⟨⟨3, q₁.spans⟩, [(10, 2), (11, 2), (14, 2), (12, 2), (13, 3), (15, 3)], ?_, rfl, rfl⟩
    refine ⟨_, [(10, 2), (11, 2)], _, .inr ⟨rfl, rfl⟩, ?_, rfl⟩
    exact ⟨_, [(14, 2), (12, 2), (13, 3), (15, 3)], [], .inl ⟨_, ⟨rfl, rfl⟩, rfl⟩, ⟨rfl, rfl⟩, rfl⟩
  -- only the first group is read, and its ends are not among the states that the loop passes
  have hends : ∀ v ∈ trace₁ ++ trace₂, ∀ s ∈ (Automaton.ofChoice p.body).states[v.1]?,
      s.marker ≠ .groupStart 0 ∧ s.marker ≠ .groupEnd 0 := by decide +kernel
  have hapart : (Automaton.ofChoice p.body).Apart p.Reads trace₁ trace₂ := by
    refine Automaton.apart_of_unread fun v hv => ?_
    rintro ⟨s, hs, group, hgroup, hof⟩
    obtain rfl : group = 0 := by
      simpa [Pattern.Reads, p, first, second, Choice.matchers, Branch.matchers, Term.matchers]
        using hgroup
    exact hof.elim (hends v hv s hs).1 (hends v hv s hs).2
  have hloop : (Term.quantified .plus second).Travels "cabc".toList.toArray loop 6 q₀ q₂ _ :=
    .inr ⟨_, .cons ⟨by decide, hfirst⟩ (.single ⟨by decide, hsecond⟩),
      List.isChain_cons_cons.2 ⟨hapart, .singleton _⟩, rfl⟩
  have hmatches : p.MatchesBy loop "cabc".toList :=
    ⟨0, ⟨4, q₂.spans⟩, _, by decide, by decide, nofun, nofun,
      q₀, _, _, hopening, ⟨q₂, _, _, hloop, ⟨_, _, _, ⟨rfl, rfl⟩, ⟨rfl, rfl⟩, rfl⟩, rfl⟩, rfl⟩
  exact ⟨p, _, hparse, hcompile, hmatches, hmatch "cabc" hmatches⟩

/-- Two iterations take `a` and `b`, so that the group captures `b` and the backreference takes the
other `b`. But the second iteration passes the states of `b?` where the first has passed them, and
the first alone leaves `a` in the group. -/
theorem isMatch_of_steadily_fails :
    ∃ p r, Pattern.parse "^(a?b?)+\\1$" = .ok p ∧ compile "^(a?b?)+\\1$" = .ok r ∧
      p.MatchesBy (steadily fun _ _ => True) "abb".toList ∧ r.isMatch "abb" = false := by
  let body : Choice := .only (.cons (.quantified .optional (.atom (.literal 'a')))
    (.cons (.quantified .optional (.atom (.literal 'b'))) .nil))
  have hparse : Pattern.parse "^(a?b?)+\\1$" = .ok
      { anchor := ⟨true, true⟩
        body := .only (.cons (.quantified .plus (.group 0 body)) (.cons (.atom (.backref 0)) .nil))
        groupCount := 1 } := rfl
  refine ⟨_, _, hparse, compile_of_parse hparse, ?_, by decide +kernel⟩
  let q₁ : Point := Point.capture ⟨1, fun _ => none⟩ 0 0
  let q₂ : Point := Point.capture ⟨2, q₁.spans⟩ 0 1
  have hfirst : (Term.group 0 body).Travels "abb".toList.toArray (steadily fun _ _ => True) 2
      (.start 0) q₁ [(2, 0), (6, 0), (4, 0), (5, 1), (7, 1), (10, 1), (11, 1), (3, 1)] := by
    refine ⟨⟨1, fun _ => none⟩, [(6, 0), (4, 0), (5, 1), (7, 1), (10, 1), (11, 1)], ?_, rfl, rfl⟩
    refine ⟨_, [(6, 0), (4, 0), (5, 1), (7, 1)], _, .inl ⟨_, ⟨rfl, rfl⟩, rfl⟩, ?_, rfl⟩
    exact ⟨_, [(10, 1), (11, 1)], [], .inr ⟨rfl, rfl⟩, ⟨rfl, rfl⟩, rfl⟩
  have hsecond : (Term.group 0 body).Travels "abb".toList.toArray (steadily fun _ _ => True) 2
      q₁ q₂ [(2, 1), (6, 1), (7, 1), (10, 1), (8, 1), (9, 2), (11, 2), (3, 2)] := by
    refine ⟨⟨2, q₁.spans⟩, [(6, 1), (7, 1), (10, 1), (8, 1), (9, 2), (11, 2)], ?_, rfl, rfl⟩
    refine ⟨_, [(6, 1), (7, 1)], _, .inr ⟨rfl, rfl⟩, ?_, rfl⟩
    exact ⟨_, [(10, 1), (8, 1), (9, 2), (11, 2)], [], .inl ⟨_, ⟨rfl, rfl⟩, rfl⟩, ⟨rfl, rfl⟩, rfl⟩
  have hloop : (Term.quantified .plus (.group 0 body)).Travels "abb".toList.toArray
      (steadily fun _ _ => True) 2 (.start 0) q₂ _ :=
    .inr ⟨_, .cons ⟨by decide, hfirst⟩ (.single ⟨by decide, hsecond⟩), by simp, rfl⟩
  exact ⟨0, ⟨3, q₂.spans⟩, _, by decide, by decide, fun _ => rfl, fun _ => rfl,
    q₂, _, _, hloop, ⟨_, _, _, ⟨rfl, rfl⟩, ⟨rfl, rfl⟩, rfl⟩, rfl⟩

end Regex

end PatternSearch
