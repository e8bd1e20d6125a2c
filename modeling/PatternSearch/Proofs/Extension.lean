import PatternSearch.Proofs.Language
import PatternSearch.Proofs.Reachability
import PatternSearch.Proofs.Safety

/-!
# How far a match looks

What comes after a match cannot take it away, as long as something does: at the end of a text a
backreference takes nothing, not even a copy of an empty capture. So in any text that is the same
up to where a match stops, and goes on there, there is a match that starts where this one does or
before (`Regex.find_of_agree`). Without backreferences the text need not go on.

It need not be the same match, nor one that is found in the same way, since in the other text a
branch that came to nothing may come to something. But the route to the match is still there
(`Route.in_text`). As an exploration has found it, it never comes back to a state at the same
offset, so whatever else is explored in the other text, it is not missed.
-/

namespace PatternSearch

/-! ## Texts that agree -/

/-- Two texts agree up to offset `stop`. -/
def AgreeUpTo (text text' : Array Char) (stop : Nat) : Prop :=
  ∀ offset < stop, text[offset]? = text'[offset]?

section Agree

variable {text text' : Array Char} {stop offset : Nat} {captures : Captures}

theorem agreeUpTo_of_take {text text' : List Char} (h : text.take stop = text'.take stop) :
    AgreeUpTo text.toArray text'.toArray stop := by
  intro offset hlt
  have hget := congrArg (·[offset]?) h
  simpa [List.getElem?_take, hlt] using hget

theorem getElem?_extract (text : Array Char) (lo hi n : Nat) :
    (text.extract lo hi)[n]? = if lo + n < hi then text[lo + n]? else none := by
  rw [Array.getElem?_extract]
  split
  · rw [if_pos (by omega)]
  · split
    · rw [Array.getElem?_eq_none (by omega)]
    · rfl

theorem AgreeUpTo.extract (h : AgreeUpTo text text' stop) {lo hi : Nat} (hle : hi ≤ stop) :
    text.extract lo hi = text'.extract lo hi := by
  apply Array.ext_getElem?
  intro n
  rw [getElem?_extract, getElem?_extract]
  split
  · exact h (lo + n) (by omega)
  · rfl

/-- A backreference takes the same in both texts, if that is not past `stop` and the other text goes
on there. -/
theorem Matcher.consume_backref_of_agree (hagree : AgreeUpTo text text' stop)
    (hnext : stop < text'.size) (hbetween : captures.Between 0 offset) {group n : Nat}
    (h : (Matcher.backref group).consume text offset captures = some n)
    (hstop : offset + n ≤ stop) :
    (Matcher.backref group).consume text' offset captures = some n := by
  obtain ⟨hlt, -⟩ := consume_le h
  have hlt' : offset < text'.size := by omega
  cases hspan : captures.span? group with
  | none => simp [consume, hlt, hspan] at h
  | some span =>
    obtain ⟨-, -, hle⟩ := hbetween.span? hspan
    have hcopy : span.slice text = span.slice text' := hagree.extract (by omega)
    simp only [consume, Array.getElem?_eq_getElem hlt, hspan] at h
    split at h
    · next hsame =>
      cases h
      have hthere := (hagree.extract hstop).symm.trans hsame
      simp only [consume, Array.getElem?_eq_getElem hlt', hspan, ← hcopy, if_pos hthere]
    · cases h

/-- An edge leads to the same offset in both texts, if that is not past `stop`. Only for a
backreference does it matter whether the other text goes on. -/
theorem Edge.arrival?_of_agree (hagree : AgreeUpTo text text' stop) {e : Edge}
    (hnext : stop < text'.size ∨ e.CaptureFree) (hbetween : captures.Between 0 offset) {later : Nat}
    (h : e.arrival? text offset captures = some later) (hstop : later ≤ stop) :
    e.arrival? text' offset captures = some later := by
  by_cases hfree : e.CaptureFree
  · rcases hfree.takes_of_arrival? h with ⟨htakes, rfl⟩ | ⟨c, hc, htakes, rfl⟩
    · exact arrival?_of_takes_none htakes
    · exact arrival?_of_takes_some ((hagree offset hstop).symm.trans hc) htakes
  · obtain ⟨group, hm⟩ := not_forall_not.1 hfree
    simp only [arrival?, hm] at h ⊢
    obtain ⟨n, hn, rfl⟩ := Option.map_eq_some_iff.1 h
    rw [Matcher.consume_backref_of_agree hagree (hnext.resolve_right hfree) hbetween hn hstop]
    rfl

end Agree

/-! ## Routes in other texts -/

section Routes

variable {σ : Setting} {stop number offset : Nat} {final captures : Captures}
  {trace : List (Nat × Nat)}

/-- A route does not leave the text. -/
theorem Route.stop_le (h : Route σ stop final number offset captures trace)
    (hle : offset ≤ σ.text.size) : stop ≤ σ.text.size := by
  induction h with
  | halt => exact hle
  | move hs hfinal he ha rest ih => exact ih (Edge.arrival?_le ha hle)

/-- **A route is one in any other text that agrees up to where it stops**, if the match may stop
there. -/
theorem Route.in_text {text' : Array Char}
    (h : Route σ stop final number offset captures trace) (htoEnd : σ.toEnd = false)
    (hagree : AgreeUpTo σ.text text' stop)
    (hnext : stop < text'.size ∨ σ.automaton.CaptureFree) (hbetween : captures.Between 0 offset) :
    Route { σ with text := text' } stop final number offset captures trace := by
  induction h with
  | halt hs hfinal hend => exact .halt hs hfinal (by simp [htoEnd])
  | @move number offset later captures state e trace hs hfinal he ha rest ih =>
    have henact := hbetween.enact (Nat.zero_le offset) state.marker
    have hnext' : stop < text'.size ∨ e.CaptureFree :=
      hnext.imp_right fun hfree => hfree number state hs e he
    have ha' := Edge.arrival?_of_agree hagree hnext' henact ha rest.le_stop
    exact .move hs hfinal he ha' (ih (henact.mono (Edge.le_of_arrival? ha)))

end Routes

/-! ## Searches in other texts -/

/-- What an attempt finds in one text, an attempt in the other does not miss. -/
theorem Query.explore_isSome_of_agree {q : Query} {text' : Array Char} {offset stop : Nat}
    {final : Captures} (hend : q.anchor.atEnd = false) (hagree : AgreeUpTo q.text text' stop)
    (hnext : stop < text'.size ∨ q.automaton.CaptureFree)
    (h : (q.explore offset).found = some (stop, final)) :
    ({ q with text := text' }.explore offset).found.isSome := by
  obtain ⟨trace, hroute, hnodup⟩ := Setting.nodup_route_of_explore h
  have hroute' := hroute.in_text hend hagree hnext (Captures.between_fresh _ _ _)
  exact Setting.explore_isSome_of_nodup hroute' (hnodup (Setting.behind_replicate _ _)).1

namespace Regex

variable {source : String} {p : Pattern} {r : Regex} {text text' : String} {span : Span}

/-- A match lies within the text. -/
theorem within_of_matched (h : (r.find text).outcome = .matched span) :
    span.Within text.toList.length := by
  obtain ⟨hmem, ⟨final, hexplore, -⟩, -⟩ := found_of_matched h
  obtain ⟨trace, hroute⟩ := Setting.route_of_explore hexplore
  exact ⟨hroute.le_stop, hroute.stop_le ((Query.mem_offsets _).1 hmem).1⟩

/-- **A match is not lost in a text that agrees up to where it stops**, if that text goes on there
or nothing in the automaton reads captures. -/
theorem find_of_agree (hend : r.anchor.atEnd = false) (h : (r.find text).outcome = .matched span)
    (htake : text.toList.take span.stop = text'.toList.take span.stop)
    (hle : span.stop ≤ text'.toList.length)
    (hnext : span.stop < text'.toList.length ∨ r.automaton.CaptureFree) :
    ∃ span', (r.find text').outcome = .matched span' ∧ span'.start ≤ span.start := by
  obtain ⟨hmem, ⟨final, hexplore, -⟩, -⟩ := found_of_matched h
  obtain ⟨hordered, -⟩ := within_of_matched h
  have hmem' : span.start ∈ (r.queryIn text').offsets :=
    (Query.mem_offsets _).2 ⟨hordered.trans hle, ((Query.mem_offsets _).1 hmem).2⟩
  exact exists_matched hmem' (Query.explore_isSome_of_agree hend (agreeUpTo_of_take htake) hnext
    hexplore)

/-- **Only the text up to one character past a match matters**, unless the pattern has an end
anchor. In any other text that is the same up to where the match stops, and goes on there, there is
a match that starts where this one does or before. Without backreferences there is one even in the
text that ends there. In particular, a match is never lost by appending to a text. -/
theorem find_extended (h : Pattern.parse source = .ok p) (hend : p.anchor.atEnd = false) :
    ∃ r, compile source = .ok r ∧ ∀ text span, (r.find text).outcome = .matched span →
      (∀ text' : String, span.stop < text'.toList.length →
        text'.toList.take span.stop = text.toList.take span.stop →
        ∃ span', (r.find text').outcome = .matched span' ∧ span'.start ≤ span.start) ∧
      (p.body.BackrefFree →
        ∃ span', (r.find (.ofList (text.toList.take span.stop))).outcome = .matched span' ∧
          span'.start ≤ span.start) ∧
      ∀ more : String, ∃ span', (r.find (text ++ more)).outcome = .matched span' ∧
        span'.start ≤ span.start := by
  refine ⟨ofPattern source p, compile_of_parse h, fun text span hmatched => ?_⟩
  have hstop := (within_of_matched hmatched).2
  have hlonger : ∀ text' : String, span.stop < text'.toList.length →
      text'.toList.take span.stop = text.toList.take span.stop →
      ∃ span', ((ofPattern source p).find text').outcome = .matched span' ∧
        span'.start ≤ span.start :=
    fun text' hlt htake => find_of_agree hend hmatched htake.symm hlt.le (.inl hlt)
  refine ⟨hlonger, fun hfree => ?cut, fun more => ?appended⟩
  case cut =>
    refine find_of_agree hend hmatched ?_ ?_ (.inr (Automaton.captureFree_ofChoice hfree))
    · simp
    · simp [hstop]
  case appended =>
    by_cases hmore : more.toList = []
    · have hnone : more = "" := String.toList_inj.1 hmore
      subst hnone
      exact ⟨span, by simpa using hmatched, Nat.le_refl _⟩
    · apply hlonger
      · have hpos := List.length_pos_iff.2 hmore
        rw [String.toList_append, List.length_append]
        omega
      · rw [String.toList_append, List.take_append_of_le_length hstop]

/-- The backreference takes a copy of nothing, but not at the end of the text. -/
example : ∃ r, compile "(a?)b\\1" = .ok r ∧ (r.find "bc").outcome = .matched ⟨0, 1⟩ ∧
    (r.find "b").outcome = .unmatched :=
  ⟨_, rfl, by decide +kernel⟩

/-- With another `b` the loop goes round once more before the backreference takes its copy. The
pattern without a backreference matches what is left of the text when the rest is cut off. -/
theorem find_extended_loops :
    ∃ r r', compile "(a|b)*\\1" = .ok r ∧ (r.find "abb").outcome = .matched ⟨0, 3⟩ ∧
      (∃ span, (r.find "abbb").outcome = .matched span ∧ span.start ≤ 0) ∧
      compile "(a|b*)+c?" = .ok r' ∧ (r'.find "bad").outcome = .matched ⟨0, 2⟩ ∧
      ∃ span, (r'.find (.ofList ("bad".toList.take 2))).outcome = .matched span ∧
        span.start ≤ 0 := by
  have hcopy : Pattern.parse "(a|b)*\\1" = .ok
      { anchor := ⟨false, false⟩
        body := .only (.cons (.quantified .star (.group 0 (.or
          (.cons (.atom (.literal 'a')) .nil) (.only (.cons (.atom (.literal 'b')) .nil)))))
          (.cons (.atom (.backref 0)) .nil))
        groupCount := 1 } := rfl
  have hfree : Pattern.parse "(a|b*)+c?" = .ok
      { anchor := ⟨false, false⟩
        body := .only (.cons (.quantified .plus (.group 0 (.or
          (.cons (.atom (.literal 'a')) .nil)
          (.only (.cons (.quantified .star (.atom (.literal 'b'))) .nil)))))
          (.cons (.quantified .optional (.atom (.literal 'c'))) .nil))
        groupCount := 1 } := rfl
  obtain ⟨r, hcompile, hkept⟩ := find_extended hcopy rfl
  obtain ⟨r', hcompile', hcut⟩ := find_extended hfree rfl
  have hr := hcompile.symm.trans (compile_of_parse hcopy)
  have hr' := hcompile'.symm.trans (compile_of_parse hfree)
  cases hr
  cases hr'
  refine ⟨_, _, hcompile, by decide +kernel, ?_, hcompile', by decide +kernel, ?_⟩
  · exact (hkept "abb" ⟨0, 3⟩ (by decide +kernel)).1 "abbb" (by decide) (by decide)
  · exact (hcut "bad" ⟨0, 2⟩ (by decide +kernel)).2.1 (by simp)

end Regex

end PatternSearch
