import PatternSearch.Proofs.RoundTrip

/-!
# The outline of a pattern

Where the groups of a pattern open and close can be told character by character. It is enough to
know whether the next character is escaped, whether it stands in a set, and which parentheses are
open (`Outline.next`); nothing is read for that, and no character is ever wrong.

Whatever spells a matcher leaves the outline as it was (`Matcher.Spelled.after`), so the outline of
a pattern that is read shows the parentheses of its groups and no others, in the order of the groups
(`Term.Located.after`). Together with what the grammar demands this describes the trees that are
read (`Pattern.wellBuilt_of_parse`).
-/

namespace PatternSearch

/-- What is known of a pattern after some of its characters. -/
structure Outline where
  /-- The number of characters so far. -/
  length : Nat := 0
  /-- Whether the next character comes after a backslash that is not escaped itself. -/
  escaped : Bool := false
  /-- The place of the bracket that opened the set in which the next character stands. -/
  bracket? : Option Nat := none
  /-- The places of the parentheses that opened groups. -/
  opened : List Nat := []
  /-- The places of those that are still open, the innermost first. -/
  enclosing : List Nat := []
deriving DecidableEq, Repr

namespace Outline

/-- The outline after `n` more characters that do not matter to it. -/
def skip (o : Outline) (n : Nat) : Outline :=
  { o with length := o.length + n }

/-- The outline `n` characters further on, in a set that begins where `o` is. -/
def inSet (o : Outline) (n : Nat) : Outline :=
  { o with length := o.length + n, bracket? := some o.length }

/-- The outline after one more character. -/
def next (o : Outline) (c : Char) : Outline :=
  if o.escaped then { o with length := o.length + 1, escaped := false }
  else if c = '\\' then { o with length := o.length + 1, escaped := true }
  else if o.bracket?.isSome then
    if c = ']' then { o with length := o.length + 1, bracket? := none } else o.skip 1
  else if c = '[' then o.inSet 1
  else if c = '(' then
    { o with
      length := o.length + 1
      opened := o.opened ++ [o.length]
      enclosing := o.length :: o.enclosing }
  else if c = ')' then { o with length := o.length + 1, enclosing := o.enclosing.tail }
  else o.skip 1

/-- The outline after some more characters. -/
def after (o : Outline) (chars : List Char) : Outline :=
  chars.foldl next o

/-- The outline of a pattern, or of the beginning of one. -/
def of (chars : List Char) : Outline :=
  ({} : Outline).after chars

/-- The outline of a pattern up to place `n`. -/
def upTo (chars : List Char) (n : Nat) : Outline :=
  of (chars.take n)

/-- The next character is neither escaped nor in a set. -/
structure Plain (o : Outline) : Prop where
  escaped : o.escaped = false
  bracket : o.bracket? = none

theorem plain_empty : ({} : Outline).Plain := ⟨rfl, rfl⟩

theorem Plain.skip {o : Outline} (h : o.Plain) (n : Nat) : (o.skip n).Plain := ⟨h.1, h.2⟩

@[simp] theorem after_nil (o : Outline) : o.after [] = o := rfl

@[simp] theorem after_cons (o : Outline) (c : Char) (chars : List Char) :
    o.after (c :: chars) = (o.next c).after chars := rfl

@[simp] theorem after_append (o : Outline) (l r : List Char) :
    o.after (l ++ r) = (o.after l).after r :=
  List.foldl_append

theorem of_append (l r : List Char) : of (l ++ r) = (of l).after r :=
  after_append {} l r

@[simp] theorem skip_skip (o : Outline) (n k : Nat) : (o.skip n).skip k = o.skip (n + k) := by
  simp only [skip, Nat.add_assoc]

section Characters

variable {o : Outline} {c : Char}

theorem length_next (o : Outline) (c : Char) : (o.next c).length = o.length + 1 := by
  unfold next
  split_ifs <;> rfl

theorem length_after (o : Outline) (chars : List Char) :
    (o.after chars).length = o.length + chars.length := by
  induction chars generalizing o with
  | nil => rfl
  | cons c chars ih =>
    rw [after_cons, ih, length_next, List.length_cons, Nat.add_right_comm, Nat.add_assoc]

theorem length_of (chars : List Char) : (of chars).length = chars.length :=
  (length_after {} chars).trans (Nat.zero_add _)

theorem escaped_next (o : Outline) (c : Char) :
    (o.next c).escaped = (c == '\\' && !o.escaped) := by
  unfold next
  split_ifs <;> simp_all [skip, inSet]

/-- **Whether the next character is escaped** is the same from left to right as from the number of
backslashes before it. -/
theorem escaped_after (chars : List Char) {before : List Char}
    (h : o.escaped = Anchor.isEscapedAfter before) :
    (o.after chars).escaped = Anchor.isEscapedAfter (chars.reverse ++ before) := by
  induction chars generalizing o before with
  | nil => exact h
  | cons c chars ih =>
    rw [after_cons, List.reverse_cons, List.append_assoc]
    exact ih (by rw [escaped_next, h, List.singleton_append, Anchor.isEscapedAfter_cons])

/-- Neither a backslash nor the character that it escapes matters. -/
theorem after_escaped (h : o.escaped = false) (c : Char) : o.after ['\\', c] = o.skip 2 := by
  simp [next, h, skip]

/-- In a set, what can be written bare does not matter. -/
theorem next_bare (h : o.escaped = false) (hset : o.bracket?.isSome) (hc : BareInSet c) :
    o.next c = o.skip 1 := by
  simp [next, h, hset, hc.1, hc.2]

theorem next_bracket (h : o.Plain) : o.next '[' = o.inSet 1 := by
  simp [next, h.1, h.2]

theorem next_closeSet (h : o.Plain) (n : Nat) : (o.inSet n).next ']' = o.skip (n + 1) := by
  simp [next, inSet, skip, h.1, h.2, Nat.add_assoc]

theorem next_openGroup (h : o.Plain) :
    o.next '(' = { o with
      length := o.length + 1
      opened := o.opened ++ [o.length]
      enclosing := o.length :: o.enclosing } := by
  simp [next, h.1, h.2]

theorem next_closeGroup (h : o.Plain) :
    o.next ')' = { o with length := o.length + 1, enclosing := o.enclosing.tail } := by
  simp [next, h.1, h.2]

/-- Outside of sets, what neither opens nor closes anything does not matter. -/
theorem next_plain (h : o.Plain) (hc : c ∉ ['\\', '[', '(', ')']) : o.next c = o.skip 1 := by
  simp only [List.mem_cons, List.not_mem_nil, or_false, not_or] at hc
  simp [next, h.1, h.2, hc]

end Characters

/-! ## Matchers -/

section Matchers

variable {o : Outline} {chars rest : List Char}

theorem after_append_eq_skip (h : o.after chars = o.skip chars.length)
    (hrest : (o.skip chars.length).after rest = (o.skip chars.length).skip rest.length) :
    o.after (chars ++ rest) = o.skip (chars ++ rest).length := by
  rw [after_append, h, hrest, skip_skip, List.length_append]

theorem after_cons_eq_skip {c : Char} (h : o.next c = o.skip 1)
    (hrest : (o.skip 1).after rest = (o.skip 1).skip rest.length) :
    o.after (c :: rest) = o.skip (c :: rest).length :=
  @after_append_eq_skip o [c] rest h hrest

/-- Items of a set neither begin a set nor end one. -/
theorem after_items {added : List Char} (hitems : Items chars added) (h : o.escaped = false)
    (hset : o.bracket?.isSome) : o.after chars = o.skip chars.length := by
  induction hitems generalizing o with
  | nil => rfl
  | shorthand s _ ih => exact after_append_eq_skip (after_escaped h s.letter) (ih h hset)
  | @escaped c _ _ _ _ ih => exact after_append_eq_skip (after_escaped h c) (ih h hset)
  | range hlow hhigh _ _ ih =>
    have hdash : BareInSet '-' := ⟨by decide, by decide⟩
    refine after_cons_eq_skip (next_bare h hset hlow) ?_
    refine after_cons_eq_skip (next_bare h hset hdash) ?_
    exact after_cons_eq_skip (next_bare h hset hhigh) (ih h hset)
  | single hc _ _ ih => exact after_cons_eq_skip (next_bare h hset hc) (ih h hset)

/-- Items after the beginning of a set, which may be one of a complement, are in that set. -/
theorem after_opening {opening added : List Char} (h : o.Plain)
    (hopening : opening = ['['] ∨ opening = ['[', '^']) (hitems : Items chars added) :
    o.after (opening ++ chars) = o.inSet (opening ++ chars).length := by
  have hset : o.after opening = o.inSet opening.length := by
    have hcaret : BareInSet '^' := ⟨by decide, by decide⟩
    rcases hopening with rfl | rfl
    · exact next_bracket h
    · rw [after_cons, next_bracket h]
      exact next_bare h.escaped rfl hcaret
  have hinside : (o.inSet opening.length).after chars =
      (o.inSet opening.length).skip chars.length := after_items hitems h.escaped rfl
  rw [after_append, hset, hinside, List.length_append]
  simp only [inSet, skip, Nat.add_assoc]

/-- A set does not matter as a whole. -/
theorem after_set {opening added : List Char} (h : o.Plain)
    (hopening : opening = ['['] ∨ opening = ['[', '^']) (hitems : Items chars added) :
    o.after (opening ++ chars ++ [']']) = o.skip (opening ++ chars ++ [']']).length := by
  rw [after_append, after_opening h hopening hitems, after_cons, next_closeSet h]
  simp only [after_nil, List.length_append, List.length_cons, List.length_nil, Nat.add_assoc]

end Matchers

end Outline

/-- **What spells a matcher does not matter to the outline.** -/
theorem Matcher.Spelled.after {chars : List Char} {m : Matcher} {o : Outline}
    (hm : m.Spelled chars) (h : o.Plain) : o.after chars = o.skip chars.length := by
  cases hm with
  | any => exact Outline.next_plain h (by decide)
  | literal hc =>
    refine Outline.next_plain h fun hmem => hc ?_
    simp only [List.mem_cons, List.not_mem_nil, or_false] at hmem
    rcases hmem with rfl | rfl | rfl | rfl <;> decide
  | shorthand | escaped | backref => exact Outline.after_escaped h.escaped _
  | set items => exact Outline.after_set h (.inl rfl) items
  | negatedSet items => exact Outline.after_set h (.inr rfl) items

/-! ## Groups and their parentheses -/

mutual

/-- `chars`, which stand at `position`, spell a term, and `openings` are the numbers of its groups
and the places of their opening parentheses, in the order of these. -/
inductive Term.Located : Nat → List Char → Term → List (Nat × Nat) → Prop
  | atom {position : Nat} {chars : List Char} {m : Matcher} (h : m.Spelled chars) :
      Term.Located position chars (.atom m) []
  | group {position index : Nat} {chars : List Char} {body : Choice} {openings : List (Nat × Nat)}
      (h : Choice.Located (position + 1) chars body openings) :
      Term.Located position ('(' :: chars ++ [')']) (.group index body)
        ((index, position) :: openings)
  | quantified {position : Nat} {chars : List Char} {t : Term} {openings : List (Nat × Nat)}
      (q : Quantifier) (h : Term.Located position chars t openings) :
      Term.Located position (chars ++ [q.symbol]) (.quantified q t) openings

inductive Branch.Located : Nat → List Char → Branch → List (Nat × Nat) → Prop
  | nil {position : Nat} : Branch.Located position [] .nil []
  | cons {position : Nat} {chars chars' : List Char} {t : Term} {rest : Branch}
      {openings openings' : List (Nat × Nat)} (ht : Term.Located position chars t openings)
      (hrest : Branch.Located (position + chars.length) chars' rest openings') :
      Branch.Located position (chars ++ chars') (.cons t rest) (openings ++ openings')

inductive Choice.Located : Nat → List Char → Choice → List (Nat × Nat) → Prop
  | only {position : Nat} {chars : List Char} {b : Branch} {openings : List (Nat × Nat)}
      (h : Branch.Located position chars b openings) :
      Choice.Located position chars (.only b) openings
  | or {position : Nat} {chars chars' : List Char} {b : Branch} {rest : Choice}
      {openings openings' : List (Nat × Nat)} (hb : Branch.Located position chars b openings)
      (hrest : Choice.Located (position + chars.length + 1) chars' rest openings') :
      Choice.Located position (chars ++ '|' :: chars') (.or b rest) (openings ++ openings')

end

mutual

/-- What is written stands somewhere. -/
theorem Term.Written.located {enclosing : List Nat} {opened opened' : Nat} {chars : List Char}
    {t : Term} (h : Term.Written enclosing opened chars t opened') (position : Nat) :
    ∃ openings, t.Located position chars openings := by
  match h with
  | .atom hspelled _ => exact ⟨_, .atom hspelled⟩
  | .group hbody =>
    obtain ⟨openings, hbody⟩ := hbody.located (position + 1)
    exact ⟨_, .group hbody⟩
  | .quantified q ht =>
    obtain ⟨openings, ht⟩ := ht.located position
    exact ⟨_, .quantified q ht⟩

theorem Branch.Written.located {enclosing : List Nat} {opened opened' : Nat} {chars : List Char}
    {b : Branch} (h : Branch.Written enclosing opened chars b opened') (position : Nat) :
    ∃ openings, b.Located position chars openings := by
  match h with
  | .nil => exact ⟨_, .nil⟩
  | .cons ht hrest =>
    obtain ⟨openings, ht⟩ := ht.located position
    obtain ⟨openings', hrest⟩ := hrest.located _
    exact ⟨_, .cons ht hrest⟩

theorem Choice.Written.located {enclosing : List Nat} {opened opened' : Nat} {chars : List Char}
    {c : Choice} (h : Choice.Written enclosing opened chars c opened') (position : Nat) :
    ∃ openings, c.Located position chars openings := by
  match h with
  | .only hb =>
    obtain ⟨openings, hb⟩ := hb.located position
    exact ⟨_, .only hb⟩
  | .or hb hrest =>
    obtain ⟨openings, hb⟩ := hb.located position
    obtain ⟨openings', hrest⟩ := hrest.located _
    exact ⟨_, .or hb hrest⟩

end

mutual

/-- The openings are those of the groups, in their order. -/
theorem Term.Located.groups_eq {position : Nat} {chars : List Char} {t : Term}
    {openings : List (Nat × Nat)} (h : t.Located position chars openings) :
    openings.map Prod.fst = t.groups := by
  match h with
  | .atom _ => rfl
  | .group hbody => rw [List.map_cons, hbody.groups_eq, Term.groups]
  | .quantified _ ht => rw [ht.groups_eq, Term.groups]

theorem Branch.Located.groups_eq {position : Nat} {chars : List Char} {b : Branch}
    {openings : List (Nat × Nat)} (h : b.Located position chars openings) :
    openings.map Prod.fst = b.groups := by
  match h with
  | .nil => rfl
  | .cons ht hrest => rw [List.map_append, ht.groups_eq, hrest.groups_eq, Branch.groups]

theorem Choice.Located.groups_eq {position : Nat} {chars : List Char} {c : Choice}
    {openings : List (Nat × Nat)} (h : c.Located position chars openings) :
    openings.map Prod.fst = c.groups := by
  match h with
  | .only hb => rw [hb.groups_eq, Choice.groups]
  | .or hb hrest => rw [List.map_append, hb.groups_eq, hrest.groups_eq, Choice.groups]

end

/-- The outline after `n` more characters, among them parentheses of groups at the given places that
have been closed again. -/
def Outline.pass (o : Outline) (n : Nat) (places : List Nat) : Outline :=
  { o with length := o.length + n, opened := o.opened ++ places }

namespace Outline

variable {o : Outline}

theorem skip_eq_pass (o : Outline) (n : Nat) : o.skip n = o.pass n [] := by
  simp only [skip, pass, List.append_nil]

theorem pass_pass (o : Outline) (n k : Nat) (l r : List Nat) :
    (o.pass n l).pass k r = o.pass (n + k) (l ++ r) := by
  simp only [pass, Nat.add_assoc, List.append_assoc]

theorem Plain.pass (h : o.Plain) (n : Nat) (places : List Nat) : (o.pass n places).Plain :=
  ⟨h.1, h.2⟩

theorem next_bar (h : o.Plain) : o.next '|' = o.skip 1 :=
  next_plain h (by decide)

theorem next_quantifier (h : o.Plain) (q : Quantifier) : o.next q.symbol = o.skip 1 :=
  next_plain h (by cases q <;> decide)

end Outline

mutual

/-- **The outline after a term** shows the parentheses that open its groups, and none of them is
open any more. -/
theorem Term.Located.after {position : Nat} {chars : List Char} {t : Term}
    {openings : List (Nat × Nat)} (h : t.Located position chars openings) {o : Outline}
    (hplain : o.Plain) (hposition : o.length = position) :
    o.after chars = o.pass chars.length (openings.map Prod.snd) := by
  match h with
  | .atom hspelled => rw [hspelled.after hplain, Outline.skip_eq_pass]; rfl
  | @Term.Located.group _ _ chars _ openings hbody =>
    have hopened : (o.next '(').Plain := by
      rw [Outline.next_openGroup hplain]
      exact ⟨hplain.escaped, hplain.bracket⟩
    have hnext : (o.next '(').length = position + 1 := by
      rw [Outline.length_next, hposition]
    have hinside := hbody.after hopened hnext
    have hclosed : ((o.next '(').pass chars.length (openings.map Prod.snd)).next ')' =
        o.pass (1 + chars.length + 1) ([position] ++ openings.map Prod.snd) := by
      rw [Outline.next_closeGroup (hopened.pass _ _), Outline.next_openGroup hplain, hposition]
      simp only [Outline.pass, hposition, Nat.add_assoc, List.append_assoc, List.tail_cons]
    rw [List.cons_append, Outline.after_cons, Outline.after_append, hinside, Outline.after_cons,
      hclosed, Outline.after_nil, List.length_cons, List.length_append, List.map_cons,
      Nat.add_comm 1, Nat.add_right_comm]
    rfl
  | .quantified q ht =>
    rw [Outline.after_append, ht.after hplain hposition, Outline.after_cons,
      Outline.next_quantifier (hplain.pass _ _), Outline.skip_eq_pass, Outline.pass_pass,
      List.append_nil, List.length_append]
    rfl

theorem Branch.Located.after {position : Nat} {chars : List Char} {b : Branch}
    {openings : List (Nat × Nat)} (h : b.Located position chars openings) {o : Outline}
    (hplain : o.Plain) (hposition : o.length = position) :
    o.after chars = o.pass chars.length (openings.map Prod.snd) := by
  match h with
  | .nil => exact Outline.skip_eq_pass o 0
  | @Branch.Located.cons _ chars _ _ _ openings _ ht hrest =>
    have hnext : (o.pass chars.length (openings.map Prod.snd)).length =
        position + chars.length := by
      rw [← hposition]
      rfl
    rw [Outline.after_append, ht.after hplain hposition, hrest.after (hplain.pass _ _) hnext,
      Outline.pass_pass, List.length_append, List.map_append]

theorem Choice.Located.after {position : Nat} {chars : List Char} {c : Choice}
    {openings : List (Nat × Nat)} (h : c.Located position chars openings) {o : Outline}
    (hplain : o.Plain) (hposition : o.length = position) :
    o.after chars = o.pass chars.length (openings.map Prod.snd) := by
  match h with
  | .only hb => exact hb.after hplain hposition
  | @Choice.Located.or _ chars chars' _ _ openings openings' hb hrest =>
    have hbar : (o.after chars).next '|' =
        o.pass (chars.length + 1) (openings.map Prod.snd ++ []) := by
      rw [hb.after hplain hposition, Outline.next_bar (hplain.pass _ _), Outline.skip_eq_pass,
        Outline.pass_pass]
    have hnext : (o.pass (chars.length + 1) (openings.map Prod.snd ++ [])).length =
        position + chars.length + 1 := by
      rw [← hposition, Nat.add_assoc]
      rfl
    rw [Outline.after_append, Outline.after_cons, hbar, hrest.after (hplain.pass _ _) hnext,
      Outline.pass_pass, List.length_append, List.length_cons, List.map_append, List.append_nil,
      Nat.add_assoc, Nat.add_comm 1]

end

/-! ## The body and the anchors -/

namespace Anchor

/-- The anchor at the start is a `^`, and the rest of the pattern comes after it. -/
theorem stripStart_cases (chars : List Char) :
    chars = '^' :: (stripStart chars).2 ∧ (stripStart chars).1 = true ∨
      chars = (stripStart chars).2 ∧ (stripStart chars).1 = false := by
  unfold stripStart
  split
  · exact .inl ⟨rfl, rfl⟩
  · exact .inr ⟨rfl, rfl⟩

/-- The anchor at the end is a `$` that is not escaped. -/
theorem stripEnd_cases (chars : List Char) :
    chars = (stripEnd chars).2 ++ ['$'] ∧ isEscapedAfter (stripEnd chars).2.reverse = false ∨
      chars = (stripEnd chars).2 := by
  unfold stripEnd
  split
  · next before hreverse =>
    have hchars : chars = before.reverse ++ ['$'] := by
      rw [← List.reverse_reverse chars, hreverse, List.reverse_cons]
    split
    · exact .inr rfl
    · next hescaped => exact .inl ⟨hchars, by simpa using hescaped⟩
  · exact .inr rfl

/-- **A pattern is its body between its anchors**, which are not escaped. -/
theorem eq_append_strip (chars : List Char) : ∃ before after,
    chars = before ++ (strip chars).2 ++ after ∧ before.length = (strip chars).1.width ∧
      (before = [] ∨ before = ['^']) ∧
      (after = [] ∨ after = ['$'] ∧ isEscapedAfter (strip chars).2.reverse = false) := by
  obtain ⟨before, hbefore, hwidth, hcaret⟩ : ∃ before, chars = before ++ (stripStart chars).2 ∧
      before.length = (strip chars).1.width ∧ (before = [] ∨ before = ['^']) := by
    unfold width strip
    rcases stripStart_cases chars with ⟨hchars, hstart⟩ | ⟨hchars, hstart⟩
    · exact ⟨['^'], hchars, by simp [hstart], .inr rfl⟩
    · exact ⟨[], hchars, by simp [hstart], .inl rfl⟩
  rcases stripEnd_cases (stripStart chars).2 with ⟨hend, hescaped⟩ | hend
  · refine ⟨before, ['$'], ?_, hwidth, hcaret, .inr ⟨rfl, hescaped⟩⟩
    rw [List.append_assoc]
    exact hbefore.trans (congrArg (before ++ ·) hend)
  · refine ⟨before, [], ?_, hwidth, hcaret, .inl rfl⟩
    rw [List.append_nil]
    exact hbefore.trans (congrArg (before ++ ·) hend)

end Anchor

/-- An anchor at the start does not matter to the outline. -/
theorem Outline.of_startAnchor {before : List Char} (h : before = [] ∨ before = ['^']) :
    of before = ({} : Outline).skip before.length := by
  have hcaret : '^' ∉ ['\\', '[', '(', ')'] := by decide
  rcases h with rfl | rfl
  · rfl
  · exact next_plain plain_empty hcaret

/-- Nor does it matter to whether what comes after it is escaped. -/
theorem Outline.escaped_of {before : List Char} (h : before = [] ∨ before = ['^'])
    (chars : List Char) :
    (of (before ++ chars)).escaped = Anchor.isEscapedAfter chars.reverse := by
  have hfirst : (({} : Outline).skip before.length).escaped = Anchor.isEscapedAfter [] := rfl
  rw [of_append, of_startAnchor h, escaped_after chars hfirst, List.append_nil]

/-! ## The trees that are read -/

mutual

/-- The choices in a term, which are the bodies of its groups. -/
def Term.choices : Term → List Choice
  | .atom _ => []
  | .group _ body => body :: body.choices
  | .quantified _ t => t.choices
termination_by structural t => t

def Branch.choices : Branch → List Choice
  | .nil => []
  | .cons t rest => t.choices ++ rest.choices
termination_by structural b => b

def Choice.choices : Choice → List Choice
  | .only b => b.choices
  | .or b rest => b.choices ++ rest.choices
termination_by structural c => c

end

/-- The tree of a pattern is built as its characters have it. -/
structure Pattern.WellBuilt (p : Pattern) (chars : List Char) : Prop where
  /-- The body and every choice in it has a branch. -/
  branches : ∀ c ∈ p.body :: p.body.choices, c.branches ≠ []
  /-- The groups are `0, 1, ...` in the order in which they are met. -/
  numbered : p.body.groups = List.range p.groupCount
  /-- The body spells the tree so that the parentheses which open the groups are, in their order,
  those of the pattern that are neither escaped nor in a set. -/
  located : ∃ openings, p.body.Located p.anchor.width (Anchor.strip chars).2 openings ∧
    openings.map Prod.fst = List.range p.groupCount ∧
    openings.map Prod.snd = (Outline.of chars).opened
  /-- A backreference names one of the groups, and does so by one digit. -/
  backref_bounds : ∀ group, .backref group ∈ p.body.matchers → group < p.groupCount ∧ group ≤ 8
  /-- A backreference comes after the end of its group. -/
  backrefs : BackrefsFollow [] p.body.mentions
  /-- A set has members, in strictly increasing order. -/
  sets : ∀ s, .set s ∈ p.body.matchers →
    s.members ≠ #[] ∧ s.members.toList.Pairwise (· < ·)

/-- **Every tree that is read is well built.** -/
theorem Pattern.wellBuilt_of_parse {source : String} {p : Pattern}
    (h : Pattern.parse source = .ok p) : p.WellBuilt source.toList := by
  obtain ⟨hanchor, hwritten⟩ := written_of_parse h
  have hwellFormed := wellFormed_of_parse h
  refine ⟨fun c _ => c.branches_ne_nil, hwellFormed.numbered, ?located, ?bounds,
    hwellFormed.backrefs, fun s hs => ⟨hwellFormed.writable _ hs, s.increasing⟩⟩
  case located =>
    obtain ⟨openings, hlocated⟩ := hwritten.located p.anchor.width
    refine ⟨openings, hlocated, hlocated.groups_eq.trans hwellFormed.numbered, ?_⟩
    obtain ⟨before, after, hchars, hwidth, hbefore, hafter⟩ := Anchor.eq_append_strip source.toList
    have hstart : (({} : Outline).skip before.length).length = p.anchor.width := by
      rw [hanchor, ← hwidth]
      exact Nat.zero_add _
    have hplain := Outline.plain_empty.skip before.length
    have hbody := hlocated.after hplain hstart
    rw [hchars, Outline.of_append, Outline.of_append, Outline.of_startAnchor hbefore, hbody]
    rcases hafter with rfl | ⟨rfl, -⟩
    · rfl
    · have hdollar : '$' ∉ ['\\', '[', '(', ')'] := by decide
      rw [Outline.after_cons, Outline.next_plain (hplain.pass _ _) hdollar]
      rfl
  case bounds =>
    exact fun group hgroup => ⟨hwritten.backref_lt.2 group hgroup, hwellFormed.writable _ hgroup⟩

/-- Of the parentheses in sight, one is escaped and one is a member of a set. -/
theorem Pattern.wellBuilt_of_parse_escaped : ∃ p : Pattern,
    Pattern.parse "^(a\\(|[(]())\\2$" = .ok p ∧ p.groupCount = 2 ∧
      (Outline.of "^(a\\(|[(]())\\2$".toList).opened = [1, 9] ∧
      p.WellBuilt "^(a\\(|[(]())\\2$".toList :=
  ⟨_, rfl, rfl, rfl, Pattern.wellBuilt_of_parse rfl⟩

end PatternSearch
