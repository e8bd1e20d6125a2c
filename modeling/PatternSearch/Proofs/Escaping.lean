import PatternSearch.Proofs.Culprit

/-!
# Escaped characters

A pattern is read from left to right, and a backslash that is not escaped itself takes the character
after it (`readEscapes`). Whether a `$` at the end of the pattern is an anchor is decided before
that, from right to left, by the number of backslashes in front of it.

The two agree (`getLast?_readEscapes`). So a `$` at the end is either an anchor or a literal, and
when it is taken off it leaves no backslash behind that has nothing to escape
(`Pattern.dollar_at_end`).
-/

namespace PatternSearch

/-- The characters of a text from left to right, each with whether it is escaped: the first one as
told, the others if they come after a backslash that is not escaped itself. -/
def readEscapes (escaped : Bool) : List Char → List (Char × Bool)
  | [] => []
  | c :: rest => (c, escaped) :: readEscapes (c == '\\' && !escaped) rest

/-- **Whether the last character is escaped** is the same from left to right as from the number of
backslashes before it. -/
theorem getLast?_readEscapes_append (chars : List Char) (c : Char) (before : List Char) :
    (readEscapes (Anchor.isEscapedAfter before) (chars ++ [c])).getLast? =
      some (c, Anchor.isEscapedAfter (chars.reverse ++ before)) := by
  induction chars generalizing before with
  | nil => rfl
  | cons d chars ih =>
    have hnext := ih (d :: before)
    rw [Anchor.isEscapedAfter_cons] at hnext
    rw [List.cons_append, readEscapes, List.getLast?_cons, hnext, List.reverse_cons,
      List.append_assoc]
    rfl

theorem getLast?_readEscapes (chars : List Char) (c : Char) :
    (readEscapes false (chars ++ [c])).getLast? =
      some (c, Anchor.isEscapedAfter chars.reverse) := by
  have h := getLast?_readEscapes_append chars c []
  rwa [List.append_nil] at h

/-! ## The anchor at the end -/

namespace Anchor

/-- Only an anchor at the start can be taken off, so the end of a pattern is that of the rest. -/
theorem exists_stripStart_eq {chars : List Char} (h : chars.getLast? = some '$') :
    ∃ init, (stripStart chars).2 = init ++ ['$'] := by
  have hlast : (stripStart chars).2.getLast? = some '$' := by
    rcases stripStart_cases chars with ⟨hchars, -⟩ | ⟨hchars, -⟩
    · rw [hchars, List.getLast?_cons] at h
      cases hrest : (stripStart chars).2.getLast? with
      | none =>
        rw [hrest] at h
        cases h
      | some c =>
        rw [hrest] at h
        exact h
    · rwa [hchars] at h
  exact ⟨_, (List.getLast?_eq_some_iff.1 hlast).choose_spec⟩

/-- What the right end of a pattern loses, if it is a `$`. -/
theorem stripEnd_append_dollar (init : List Char) :
    stripEnd (init ++ ['$']) =
      if isEscapedAfter init.reverse then (false, init ++ ['$']) else (true, init) := by
  simp [stripEnd]

end Anchor

/-! ## A literal at the end -/

/-- A matcher that is spelled with a `$` at the end is a literal `$`. -/
theorem Matcher.Spelled.eq_dollar {chars : List Char} {m : Matcher} (h : m.Spelled chars)
    (hlast : chars.getLast? = some '$') : m = .literal '$' := by
  cases h with
  | any => cases hlast
  | @literal c =>
    obtain rfl : c = '$' := Option.some.inj hlast
    rfl
  | shorthand s => cases s <;> cases hlast
  | @escaped c =>
    obtain rfl : c = '$' := Option.some.inj hlast
    rfl
  | @backref c group hdigit =>
    obtain rfl : c = '$' := Option.some.inj hlast
    exact absurd hdigit (by decide)
  | set | negatedSet =>
    rw [List.getLast?_concat] at hlast
    cases hlast

theorem Term.Written.eq_dollar {enclosing : List Nat} {opened opened' : Nat} {chars : List Char}
    {t : Term} (h : Term.Written enclosing opened chars t opened')
    (hlast : chars.getLast? = some '$') : t = .atom (.literal '$') := by
  cases h with
  | atom hspelled => rw [hspelled.eq_dollar hlast]
  | group =>
    rw [List.getLast?_concat] at hlast
    cases hlast
  | quantified q =>
    rw [List.getLast?_concat] at hlast
    cases q <;> cases hlast

/-- Only a branch without terms is written without characters. -/
theorem Branch.Written.eq_nil {enclosing : List Nat} {opened opened' : Nat} {b : Branch}
    (h : Branch.Written enclosing opened [] b opened') : b = .nil := by
  generalize hchars : ([] : List Char) = chars at h
  cases h with
  | nil => rfl
  | cons ht _ =>
    obtain ⟨c, rest, rfl, -⟩ := ht.head_ne_symbol
    cases hchars

/-- **A branch that is written with a `$` at the end** ends in a literal `$`. -/
theorem Branch.Written.getLast?_terms {enclosing : List Nat} {opened opened' : Nat}
    {chars : List Char} {b : Branch} (h : Branch.Written enclosing opened chars b opened')
    (hlast : chars.getLast? = some '$') : b.terms.getLast? = some (.atom (.literal '$')) := by
  match h with
  | .nil => cases hlast
  | @Branch.Written.cons _ _ _ _ chars chars' t rest ht hrest =>
    rcases chars'.eq_nil_or_concat' with rfl | ⟨init, c, rfl⟩
    · rw [List.append_nil] at hlast
      rw [ht.eq_dollar hlast, hrest.eq_nil]
      rfl
    · rw [List.getLast?_append, List.getLast?_concat, Option.some_or] at hlast
      have hterms := hrest.getLast?_terms (List.getLast?_concat.trans hlast)
      rw [Branch.terms, List.getLast?_cons, hterms]
      rfl

theorem Choice.Written.getLast?_branches {enclosing : List Nat} {opened opened' : Nat}
    {chars : List Char} {c : Choice} (h : Choice.Written enclosing opened chars c opened')
    (hlast : chars.getLast? = some '$') :
    ∃ b, c.branches.getLast? = some b ∧ b.terms.getLast? = some (.atom (.literal '$')) := by
  match h with
  | .only hb => exact ⟨_, rfl, hb.getLast?_terms hlast⟩
  | @Choice.Written.or _ _ _ _ chars chars' b rest hb hrest =>
    rcases chars'.eq_nil_or_concat' with rfl | ⟨init, c, rfl⟩
    · rw [List.getLast?_concat] at hlast
      cases hlast
    · rw [List.getLast?_append, List.getLast?_cons, List.getLast?_concat, Option.some_or] at hlast
      obtain ⟨b, hb, hterms⟩ := hrest.getLast?_branches (List.getLast?_concat.trans hlast)
      refine ⟨b, ?_, hterms⟩
      rw [Choice.branches, List.getLast?_cons, hb]
      rfl

/-! ## Patterns -/

namespace Pattern

variable {source : String}

/-- **Before a `$` no backslash is left with nothing to escape.** -/
theorem fault_ne_trailingBackslash (hlast : source.toList.getLast? = some '$') {r : Rejection}
    (h : parse source = .error r) : r.fault ≠ .trailingBackslash := by
  intro hfault
  have hvisible := visibleAt_of_parse h
  rw [hfault] at hvisible
  obtain ⟨hbackslash, -, hlength⟩ := hvisible
  rw [List.getLast?_eq_getElem?, ← hlength, Nat.add_sub_cancel, hbackslash] at hlast
  cases hlast

/-- **A `$` at the end of a pattern is an anchor or a literal.** It is left in the body exactly if
it is escaped when the pattern, without the anchor at its start, is read from left to right. Then it
is a term of its own, the last one of the last branch; and in neither case is the pattern rejected
for a backslash at its end. -/
theorem dollar_at_end (hlast : source.toList.getLast? = some '$') :
    ∃ init, (Anchor.stripStart source.toList).2 = init ++ ['$'] ∧
      ((Anchor.strip source.toList).2 = init ++ ['$'] ↔
        (readEscapes false (init ++ ['$'])).getLast? = some ('$', true)) ∧
      ((Anchor.strip source.toList).2 = init ↔
        (readEscapes false (init ++ ['$'])).getLast? = some ('$', false)) ∧
      (∀ p, parse source = .ok p → p.anchor.atEnd = true ∨
        ∃ b, p.body.branches.getLast? = some b ∧ b.terms.getLast? = some (.atom (.literal '$'))) ∧
      ∀ r, parse source = .error r → r.fault ≠ .trailingBackslash := by
  obtain ⟨init, hinit⟩ := Anchor.exists_stripStart_eq hlast
  have hstrip : Anchor.strip source.toList =
      (⟨(Anchor.stripStart source.toList).1, (Anchor.stripEnd (init ++ ['$'])).1⟩,
        (Anchor.stripEnd (init ++ ['$'])).2) := by
    rw [← hinit]
    rfl
  have hread := getLast?_readEscapes init '$'
  rw [Anchor.stripEnd_append_dollar] at hstrip
  refine ⟨init, hinit, ?left, ?taken, fun p hp => ?accepted,
    fun r hr => fault_ne_trailingBackslash hlast hr⟩
  case left | taken =>
    cases hescaped : Anchor.isEscapedAfter init.reverse <;> simp [hstrip, hread, hescaped]
  case accepted =>
    obtain ⟨hanchor, hwritten⟩ := written_of_parse hp
    cases hescaped : Anchor.isEscapedAfter init.reverse with
    | false =>
      left
      simp [hanchor, hstrip, hescaped]
    | true =>
      right
      simp only [hstrip, hescaped, if_true] at hwritten
      exact hwritten.getLast?_branches List.getLast?_concat

/-- The last of three backslashes escapes the `$`, and a fourth one stands in a set. -/
theorem dollar_at_end_escaped :
    "^[\\]]|a\\\\\\$".toList.getLast? = some '$' ∧
      (Anchor.strip "^[\\]]|a\\\\\\$".toList).2 = "[\\]]|a\\\\\\$".toList ∧
      ∃ p, parse "^[\\]]|a\\\\\\$" = .ok p ∧ p.anchor.atEnd = false ∧
        ∃ b, p.body.branches.getLast? = some b ∧
          b.terms.getLast? = some (.atom (.literal '$')) := by
  have hlast : "^[\\]]|a\\\\\\$".toList.getLast? = some '$' := rfl
  obtain ⟨init, hinit, hleft, -, haccepted, -⟩ := dollar_at_end hlast
  have hchars : init ++ ['$'] = "[\\]]|a\\\\\\$".toList := hinit.symm
  rw [hchars] at hleft
  exact ⟨hlast, hleft.2 rfl, _, rfl, rfl, (haccepted _ rfl).resolve_left Bool.false_ne_true⟩

end Pattern

end PatternSearch
