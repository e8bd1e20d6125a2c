import Mathlib.Data.Nat.Find
import PatternSearch.Proofs.Limit

/-!
# Searches as attempts on suffixes

A search that may start anywhere is a row of attempts. Each of them is a search of its own, for a
match at the start of what is left of the text (`Query.suffix`), and the attempts have nothing to do
with each other: the first that succeeds makes the search succeed (`Query.search_everywhere`).

The text before an attempt has no influence on it, because nothing there is ever read. What an
exploration knows of the text is offsets, in captures and in visits, and all of it moves along when
the text is cut off in front (`Setting.explore_shift`). A backreference reads the same characters
through a span that has moved.
-/

namespace PatternSearch

/-! ## Moving along a text -/

/-- A span `n` offsets further on. -/
def Span.shift (n : Nat) (span : Span) : Span :=
  ⟨n + span.start, n + span.stop⟩

/-- What is known of a group, `n` offsets further on. -/
def Slot.shift (n : Nat) (slot : Slot) : Slot :=
  ⟨slot.entered.map (n + ·), slot.span.map (Span.shift n)⟩

/-- What is known of all groups, `n` offsets further on. -/
def Captures.shift (n : Nat) (captures : Captures) : Captures :=
  ⟨captures.slots.map (Slot.shift n)⟩

/-- What an exploration comes to, `n` offsets further on. -/
def Exploration.shift (n : Nat) (r : Exploration) : Exploration :=
  ⟨r.found.map fun found => (n + found.1, found.2.shift n), r.steps⟩

/-- Where each state was last visited, `n` offsets further on. -/
def shiftVisits (n : Nat) (visits : Array (Option Nat)) : Array (Option Nat) :=
  visits.map (Option.map (n + ·))

/-- What is left of a text from offset `n` on. -/
def textFrom (text : Array Char) (n : Nat) : Array Char :=
  text.extract n text.size

theorem getElem?_textFrom (text : Array Char) (n offset : Nat) :
    (textFrom text n)[offset]? = text[n + offset]? := by
  unfold textFrom
  rw [Array.getElem?_extract]
  split
  · rfl
  · rw [Array.getElem?_eq_none (by omega)]

theorem extract_textFrom (text : Array Char) (n start stop : Nat) :
    (textFrom text n).extract start stop = text.extract (n + start) (n + stop) := by
  apply Array.ext
  · simp only [textFrom, Array.size_extract]
    omega
  · intro k hleft hright
    simp [textFrom, Nat.add_assoc]

theorem Span.slice_shift (span : Span) (n : Nat) (text : Array Char) :
    (span.shift n).slice text = span.slice (textFrom text n) :=
  (extract_textFrom text n span.start span.stop).symm

namespace Slot

theorem enter_shift (slot : Slot) (n offset : Nat) :
    (slot.shift n).enter (n + offset) = (slot.enter offset).map (shift n) := by
  obtain ⟨entered, span⟩ := slot
  cases entered <;> rfl

theorem leave_shift (slot : Slot) (n offset : Nat) :
    (slot.shift n).leave (n + offset) = (slot.leave offset).map (shift n) := by
  obtain ⟨entered, span⟩ := slot
  cases entered <;> rfl

end Slot

namespace Captures

theorem shift_fresh (groups n : Nat) : (fresh groups).shift n = fresh groups := by
  simp [shift, fresh, Slot.shift]

theorem span?_shift (captures : Captures) (n group : Nat) :
    (captures.shift n).span? group = (captures.span? group).map (Span.shift n) := by
  simp only [span?, shift, Array.getElem?_map]
  cases captures.slots[group]? <;> rfl

theorem shift_restore (captures : Captures) (n group : Nat) (slot : Slot) :
    (captures.restore group slot).shift n = (captures.shift n).restore group (slot.shift n) := by
  simp [restore, shift, Array.map_setIfInBounds]

/-- A change moves along if what it does to a slot does. -/
theorem update_shift (captures : Captures) (n group : Nat) {change moved : Slot → Option Slot}
    (h : ∀ slot, moved (slot.shift n) = (change slot).map (Slot.shift n)) :
    (((captures.shift n).update group moved).map Prod.snd).getD (captures.shift n) =
      (((captures.update group change).map Prod.snd).getD captures).shift n := by
  unfold update
  have hslots : (captures.shift n).slots[group]? = captures.slots[group]?.map (Slot.shift n) :=
    Array.getElem?_map
  rw [hslots]
  cases captures.slots[group]? with
  | none => rfl
  | some slot =>
    simp only [Option.map_some, Option.bind_some, h]
    cases change slot with
    | none => rfl
    | some changed => exact (shift_restore captures n group changed).symm

/-- The captured characters stay the same. -/
theorem texts_shift (captures : Captures) (n : Nat) (text : Array Char) :
    (captures.shift n).texts text = captures.texts (textFrom text n) := by
  simp [texts, shift, Slot.shift, Span.slice_shift, Function.comp_def]

end Captures

theorem Marker.enact_shift (marker : Marker) (captures : Captures) (n offset : Nat) :
    marker.enact (captures.shift n) (n + offset) = (marker.enact captures offset).shift n := by
  cases marker with
  | plain => rfl
  | final => rfl
  | groupStart group => exact captures.update_shift n group fun slot => slot.enter_shift n offset
  | groupEnd group => exact captures.update_shift n group fun slot => slot.leave_shift n offset

theorem Matcher.consume_shift (m : Matcher) (text : Array Char) (n offset : Nat)
    (captures : Captures) :
    m.consume text (n + offset) (captures.shift n) =
      m.consume (textFrom text n) offset captures := by
  unfold consume
  rw [getElem?_textFrom]
  cases text[n + offset]? with
  | none => rfl
  | some c =>
    cases m with
    | backref group =>
      simp only [Captures.span?_shift]
      cases captures.span? group with
      | none => rfl
      | some span =>
        simp only [Option.map_some, Span.slice_shift, extract_textFrom, Nat.add_assoc]
    | literal | shorthand | any | set => rfl

theorem Edge.arrival?_shift (e : Edge) (text : Array Char) (n offset : Nat) (captures : Captures) :
    e.arrival? text (n + offset) (captures.shift n) =
      (e.arrival? (textFrom text n) offset captures).map (n + ·) := by
  unfold arrival?
  cases e.matcher? with
  | none => rfl
  | some m =>
    simp only [Matcher.consume_shift, Option.map_map]
    exact congrArg (Option.map · _) (funext fun taken => Nat.add_assoc n offset taken)

theorem getElem?_shiftVisits {visits : Array (Option Nat)} {number : Nat} {previous : Option Nat}
    (h : visits[number]? = some previous) (n : Nat) :
    (shiftVisits n visits)[number]? = some (previous.map (n + ·)) := by
  rw [shiftVisits, Array.getElem?_map, h]
  rfl

theorem map_shift_ne {previous : Option Nat} {offset : Nat} (h : previous ≠ some offset) (n : Nat) :
    previous.map (n + ·) ≠ some (n + offset) := by
  cases previous with
  | none => nofun
  | some earlier => simpa using h

theorem shiftVisits_setIfInBounds (visits : Array (Option Nat)) (n number offset : Nat) :
    shiftVisits n (visits.setIfInBounds number (some offset)) =
      (shiftVisits n visits).setIfInBounds number (some (n + offset)) := by
  simp [shiftVisits, Array.map_setIfInBounds]

theorem Exploration.shift_orElse (first next : Exploration) (n : Nat) :
    (first.orElse next).shift n = (first.shift n).orElse (next.shift n) := by
  obtain ⟨found, steps⟩ := first
  cases found <;> rfl

/-- The same setting for what is left of the text from offset `n` on. -/
def Setting.cut (σ : Setting) (n : Nat) : Setting :=
  { σ with text := textFrom σ.text n }

/-- **Cutting off the text in front moves an exploration and changes nothing else.** -/
theorem Setting.explore_shift (σ : Setting) {n : Nat} (hn : n ≤ σ.text.size)
    (number offset : Nat) (captures : Captures) (visits : Array (Option Nat)) :
    σ.explore number (n + offset) (captures.shift n) (shiftVisits n visits) =
      ((σ.cut n).explore number offset captures visits).shift n := by
  refine ((σ.cut n).explore_induction
    (P := fun number offset captures visits =>
      σ.explore number (n + offset) (captures.shift n) (shiftVisits n visits) =
        ((σ.cut n).explore number offset captures visits).shift n)
    (Q := fun edges offset captures visits =>
      σ.tryEdges edges (n + offset) (captures.shift n) (shiftVisits n visits) =
        ((σ.cut n).tryEdges edges offset captures visits).shift n)
    ?dead ?final ?visit ?nil ?blocked ?taken).1 number offset captures visits
  case dead =>
    intro number offset captures visits hdead
    rw [explore_dead hdead, explore_dead]
    · rfl
    · rcases hdead with hs | hv | hv
      · exact .inl hs
      · exact .inr (.inl (by simpa [shiftVisits] using hv))
      · exact .inr (.inr (getElem?_shiftVisits hv n))
  case final =>
    intro number offset captures visits state previous hs hv hne hfinal
    have hv' := getElem?_shiftVisits hv n
    have hend : (n + offset == σ.text.size) = (offset == (σ.cut n).text.size) := by
      have hsize : (σ.cut n).text.size = σ.text.size - n := by simp [Setting.cut, textFrom]
      rw [hsize, Bool.eq_iff_iff, beq_iff_eq, beq_iff_eq]
      omega
    have htoEnd : (σ.cut n).toEnd = σ.toEnd := rfl
    rw [explore_final hs hv hne hfinal, explore_final (σ := σ) hs hv' (map_shift_ne hne n) hfinal,
      hend, htoEnd]
    split <;> rfl
  case visit =>
    intro number offset captures visits state previous hs hv hne hfinal hedges
    have hv' := getElem?_shiftVisits hv n
    rw [explore_visit hs hv hne hfinal, explore_visit (σ := σ) hs hv' (map_shift_ne hne n) hfinal,
      Marker.enact_shift, ← shiftVisits_setIfInBounds, hedges]
    rfl
  case nil =>
    intro offset captures visits
    rw [tryEdges_nil, tryEdges_nil]
    rfl
  case blocked =>
    intro e rest offset captures visits ha hrest
    have ha' := e.arrival?_shift σ.text n offset captures
    rw [show e.arrival? (textFrom σ.text n) offset captures = none from ha] at ha'
    rw [tryEdges_cons_none ha, tryEdges_cons_none ha', hrest]
  case taken =>
    intro e rest offset captures visits later ha hfirst hrest
    have ha' := e.arrival?_shift σ.text n offset captures
    rw [show e.arrival? (textFrom σ.text n) offset captures = some later from ha] at ha'
    rw [tryEdges_cons_some ha, tryEdges_cons_some ha', hfirst, hrest, Exploration.shift_orElse]

/-! ## Searches -/

namespace Query

/-- The same search for a match that may start anywhere, without a limit. -/
def everywhere (q : Query) : Query :=
  { q with anchor := { q.anchor with atStart := false }, limit := none }

/-- The search for a match at the start of what is left of the text from offset `i` on, without a
limit. -/
def suffix (q : Query) (i : Nat) : Query :=
  { q with anchor := { q.anchor with atStart := true }, text := textFrom q.text i, limit := none }

/-- The explorations that the searches at the first `n` offsets make, each of them counted by
itself. -/
def suffixSteps (q : Query) (n : Nat) : Nat :=
  ((List.range n).map fun i => (q.suffix i).search.steps).sum

variable (q : Query)

/-- **An attempt is a search in what is left of the text.** -/
theorem explore_everywhere {i : Nat} (hi : i ≤ q.text.size) :
    q.everywhere.explore i = ((q.suffix i).explore 0).shift i := by
  have h := q.everywhere.unlimited.setting.explore_shift hi q.start 0 (.fresh q.groups)
    (Array.replicate q.automaton.size none)
  have hvisits : shiftVisits i (Array.replicate q.automaton.size none) =
      Array.replicate q.automaton.size none := by
    simp [shiftVisits]
  rw [hvisits, Captures.shift_fresh] at h
  exact h

/-- A search at one offset only is the attempt there. -/
theorem search_suffix (i : Nat) :
    (q.suffix i).search = (q.suffix i).unlimited.searchFrom (.fresh q.groups) 0 [] [0] :=
  rfl

theorem found?_suffix (i : Nat) :
    (q.suffix i).search.found? = ((q.suffix i).explore 0).found.map (0, ·) := by
  rw [search_suffix, (found?_searchFrom _ _ _ _ _).2, firstFound_cons]
  cases ((q.suffix i).explore 0).found <;> rfl

theorem steps_suffix (i : Nat) : (q.suffix i).search.steps = ((q.suffix i).explore 0).steps := by
  rw [search_suffix, searchFrom]
  cases hfound : ((q.suffix i).explore 0).found with
  | none =>
    rw [attempt_of_none hfound]
    exact Nat.zero_add _
  | some found =>
    obtain ⟨m, hattempt, -, hsteps⟩ := attempt_of_found hfound 0
    rw [hattempt]
    exact hsteps.trans (Nat.zero_add _)

theorem suffixSteps_succ (n : Nat) :
    q.suffixSteps (n + 1) = q.suffixSteps n + (q.suffix n).search.steps := by
  simp [suffixSteps, List.range_succ]

theorem sum_steps_everywhere {n : Nat} (hn : n ≤ q.text.size + 1) :
    ((List.range n).map fun i => (q.everywhere.explore i).steps).sum = q.suffixSteps n := by
  refine congrArg List.sum (List.map_congr_left fun i hi => ?_)
  have hlt := List.mem_range.1 hi
  rw [explore_everywhere q (by omega), steps_suffix]
  rfl

variable {q}

/-- A search gets over offsets at which there is nothing to be found, and takes nothing with it but
the count. -/
theorem searchFrom_append {before : List Nat}
    (h : ∀ offset ∈ before, (q.explore offset).found = none) (steps : Nat) (tried rest : List Nat) :
    q.unlimited.searchFrom (.fresh q.groups) steps tried (before ++ rest) =
      q.unlimited.searchFrom (.fresh q.groups)
        (steps + (before.map fun offset => (q.explore offset).steps).sum) (before.reverse ++ tried)
        rest := by
  induction before generalizing steps tried with
  | nil => rfl
  | cons offset before ih =>
    obtain ⟨hoffset, hbefore⟩ := List.forall_mem_cons.1 h
    rw [List.cons_append, searchFrom, attempt_of_none hoffset]
    simp only
    rw [ih hbefore, List.map_cons, List.sum_cons, List.reverse_cons, List.append_assoc,
      Nat.add_assoc]
    rfl

/-- Up to the first suffix in which something is found, a search comes to nothing. -/
theorem search_everywhere_eq {i : Nat} (hi : i ≤ q.text.size + 1)
    (h : ∀ earlier < i, (q.suffix earlier).search.found? = none) :
    q.everywhere.search = q.everywhere.searchFrom (.fresh q.groups) (q.suffixSteps i)
      (List.range i).reverse (List.range' i (q.text.size + 1 - i)) := by
  have hnone : ∀ offset ∈ List.range i, (q.everywhere.explore offset).found = none := by
    intro offset hoffset
    have hlt := List.mem_range.1 hoffset
    have hsuffix := h offset hlt
    rw [found?_suffix, Option.map_eq_none_iff] at hsuffix
    rw [explore_everywhere q (by omega), Exploration.shift, hsuffix]
    rfl
  have hoffsets : q.everywhere.offsets = List.range i ++ List.range' i (q.text.size + 1 - i) := by
    have happend := List.range'_append_1 (s := 0) (m := i) (n := q.text.size + 1 - i)
    rw [Nat.zero_add, Nat.add_sub_cancel' hi, ← List.range_eq_range',
      ← List.range_eq_range'] at happend
    exact happend.symm
  have hsearch := searchFrom_append hnone 0 [] (List.range' i (q.text.size + 1 - i))
  rw [sum_steps_everywhere q hi, Nat.zero_add, List.append_nil, ← hoffsets] at hsearch
  exact hsearch

/-- What a search reports if the suffix at offset `i` is the first in which something is found. -/
theorem search_everywhere_of_first {i : Nat} (hi : i ≤ q.text.size) {span : Span}
    (hmatched : (q.suffix i).search.outcome = .matched span)
    (h : ∀ earlier < i, (q.suffix earlier).search.found? = none) :
    span.start = 0 ∧ q.everywhere.search =
      ⟨.matched ⟨i, i + span.stop⟩, (q.suffix i).search.captures.shift i, q.suffixSteps (i + 1),
        List.range (i + 1)⟩ := by
  have hfound? : (q.suffix i).search.found? =
      some (span.start, span.stop, (q.suffix i).search.captures) := by
    rw [Report.found?, hmatched]
  have hfound := hfound?
  rw [found?_suffix] at hfound
  obtain ⟨found, hexplore, hpair⟩ := Option.map_eq_some_iff.1 hfound
  obtain ⟨hstart, rfl⟩ := Prod.mk.inj hpair
  have hsuffix : (q.everywhere.explore i).found =
      some (i + span.stop, (q.suffix i).search.captures.shift i) := by
    rw [explore_everywhere q hi, Exploration.shift, hexplore]
    rfl
  obtain ⟨m, hattempt, hcaptures, hsteps⟩ := attempt_of_found hsuffix (q.suffixSteps i)
  have hrest : q.text.size + 1 - i = q.text.size - i + 1 := by omega
  refine ⟨hstart.symm, ?_⟩
  rw [search_everywhere_eq (Nat.le_succ_of_le hi) h, hrest, List.range'_succ, searchFrom,
    show q.everywhere.attempt i (q.suffixSteps i) = _ from hattempt]
  have hcount : m.steps = q.suffixSteps (i + 1) := by
    rw [hsteps, suffixSteps_succ, steps_suffix, explore_everywhere q hi]
    rfl
  have hattempts : (i :: (List.range i).reverse).reverse = List.range (i + 1) := by
    rw [List.reverse_cons, List.reverse_reverse, List.range_succ]
  simp only [hcaptures, hcount, hattempts]

/-- What a search reports if nothing is found in any suffix. -/
theorem search_everywhere_of_none (h : ∀ i ≤ q.text.size, (q.suffix i).search.found? = none) :
    q.everywhere.search = ⟨.unmatched, .fresh q.groups, q.suffixSteps (q.text.size + 1),
      List.range (q.text.size + 1)⟩ := by
  rw [search_everywhere_eq (Nat.le_refl _) fun i hi => h i (Nat.le_of_lt_succ hi), Nat.sub_self,
    List.range'_zero, searchFrom, List.reverse_reverse]

/-- If something is found in a suffix, there is a first in which something is. -/
theorem exists_first_suffix {i : Nat} (h : (q.suffix i).search.found?.isSome) :
    ∃ first ≤ i, ∃ span, (q.suffix first).search.outcome = .matched span ∧
      ∀ earlier < first, (q.suffix earlier).search.found? = none := by
  have hex : ∃ k, (q.suffix k).search.found?.isSome := ⟨i, h⟩
  refine ⟨Nat.find hex, Nat.find_min' hex h, ?_⟩
  have hfirst := Nat.find_spec hex
  have hearlier : ∀ earlier < Nat.find hex, (q.suffix earlier).search.found? = none := fun k hk =>
    Option.not_isSome_iff_eq_none.1 (Nat.find_min hex hk)
  unfold Report.found? at hfirst
  split at hfirst
  · next span houtcome => exact ⟨span, houtcome, hearlier⟩
  all_goals cases hfirst

/-- **A search that may start anywhere is the first success among the searches in what is left of
the text**: it finds a match if and only if one of them does, and the first that does says where the
match stops and what the groups captured. The attempts are those up to that one, or all of them, and
the explorations are theirs. -/
theorem search_everywhere (q : Query) :
    (q.everywhere.search.found?.isSome ↔
        ∃ i ≤ q.text.size, (q.suffix i).search.found?.isSome) ∧
      (∀ i ≤ q.text.size, ∀ span, (q.suffix i).search.outcome = .matched span →
        (∀ earlier < i, (q.suffix earlier).search.found? = none) →
        span.start = 0 ∧ q.everywhere.search.outcome = .matched ⟨i, i + span.stop⟩ ∧
          q.everywhere.search.captures.texts q.text =
            (q.suffix i).search.captures.texts (q.suffix i).text ∧
          q.everywhere.search.attempts = List.range (i + 1) ∧
          q.everywhere.search.steps =
            ((List.range (i + 1)).map fun k => (q.suffix k).search.steps).sum) ∧
      ((∀ i ≤ q.text.size, (q.suffix i).search.found? = none) →
        q.everywhere.search.outcome = .unmatched ∧
          q.everywhere.search.attempts = List.range (q.text.size + 1) ∧
          q.everywhere.search.steps =
            ((List.range (q.text.size + 1)).map fun k => (q.suffix k).search.steps).sum) := by
  refine ⟨⟨fun h => ?_, fun ⟨i, hi, h⟩ => ?_⟩, fun i hi span hmatched h => ?_, fun h => ?_⟩
  · by_contra hnone
    have hsuffixes : ∀ i ≤ q.text.size, (q.suffix i).search.found? = none := fun i hi =>
      Option.not_isSome_iff_eq_none.1 fun hsome => hnone ⟨i, hi, hsome⟩
    rw [search_everywhere_of_none hsuffixes] at h
    cases h
  · obtain ⟨first, hle, span, hmatched, hearlier⟩ := exists_first_suffix h
    rw [(search_everywhere_of_first (Nat.le_trans hle hi) hmatched hearlier).2]
    rfl
  · obtain ⟨hstart, hreport⟩ := search_everywhere_of_first hi hmatched h
    rw [hreport]
    exact ⟨hstart, rfl, Captures.texts_shift _ i q.text, rfl, rfl⟩
  · rw [search_everywhere_of_none h]
    exact ⟨rfl, rfl, rfl⟩

/-- A repeated copy of what a group captured, up to the end of the text: the first suffix in which
there is a match comes after some in which an attempt gets as far as the copy. -/
theorem search_everywhere_copy :
    ∃ q : Query, q.text = #['a', 'b', 'a', 'c', 'a', 'a', 'b', 'a'] ∧
      q.everywhere.search.outcome = .matched ⟨5, 8⟩ ∧
      q.everywhere.search.captures.texts q.text = [some "a"] ∧
      q.everywhere.search.attempts = [0, 1, 2, 3, 4, 5] := by
  let q : Query :=
    { automaton := ⟨#[⟨.groupStart 0, [⟨none, 1⟩]⟩, ⟨.plain, [⟨some (.literal 'a'), 2⟩]⟩,
        ⟨.plain, [⟨none, 1⟩, ⟨none, 3⟩]⟩, ⟨.groupEnd 0, [⟨some (.literal 'b'), 4⟩]⟩,
        ⟨.plain, [⟨some (.backref 0), 5⟩]⟩, ⟨.final, []⟩]⟩
      groups := 1
      start := 0
      anchor := ⟨false, true⟩
      text := #['a', 'b', 'a', 'c', 'a', 'a', 'b', 'a']
      limit := none }
  obtain ⟨-, hmatched, htexts, hattempts, -⟩ := (search_everywhere q).2.1 5 (by decide) ⟨0, 3⟩
    (by decide +kernel) (by decide +kernel)
  exact ⟨q, rfl, hmatched, htexts.trans (by decide +kernel), hattempts⟩

end Query

end PatternSearch
