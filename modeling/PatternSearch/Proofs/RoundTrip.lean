import PatternSearch.Proofs.Rendering

/-!
# Reading what has been written

Reading the written form of a well formed pattern gives back the pattern (`Pattern.parse_render`),
and whatever is read is well formed (`Pattern.wellFormed_of_parse`), so that no pattern is without a
written form.

For the first, the body is written as the grammar has it, and what is left is to tell the anchors
from it. No body begins with `^`. No `$` in it stands unescaped, and no backslash of it escapes what
comes after it (`Unanchored`), so the reader takes the `$` of the anchor off the end and no other.
-/

namespace PatternSearch

/-! ## The anchors are told from the body -/

theorem Anchor.isEscapedAfter_cons (c : Char) (before : List Char) :
    isEscapedAfter (c :: before) = (c == '\\' && !isEscapedAfter before) := by
  unfold isEscapedAfter
  by_cases hc : c = '\\'
  · subst hc
    rw [List.takeWhile_cons_of_pos rfl, List.length_cons]
    rcases Nat.mod_two_eq_zero_or_one (before.takeWhile (· == '\\')).length with h | h
    · simp [Nat.add_mod, h]
    · simp [Nat.add_mod, h]
  · rw [List.takeWhile_cons_of_neg (by simpa using hc)]
    simp [hc]

/-- Characters without a `$` that is not escaped, and without a backslash that escapes nothing. -/
inductive Unanchored : List Char → Prop
  | nil : Unanchored []
  | plain {c : Char} {chars : List Char} (hescape : c ≠ '\\') (hanchor : c ≠ '$')
      (rest : Unanchored chars) : Unanchored (c :: chars)
  | escaped (c : Char) {chars : List Char} (rest : Unanchored chars) :
      Unanchored ('\\' :: c :: chars)

namespace Unanchored

theorem append {l r : List Char} (h : Unanchored l) (hr : Unanchored r) : Unanchored (l ++ r) := by
  induction h with
  | nil => exact hr
  | plain hescape hanchor rest ih => exact .plain hescape hanchor ih
  | escaped c rest ih => exact .escaped c ih

theorem single {c : Char} (hescape : c ≠ '\\') (hanchor : c ≠ '$') : Unanchored [c] :=
  .plain hescape hanchor .nil

/-- What comes after such characters is not escaped, if they do not begin escaped. -/
theorem isEscapedAfter_eq_false {chars before : List Char} (h : Unanchored chars)
    (hbefore : Anchor.isEscapedAfter before = false) :
    Anchor.isEscapedAfter (chars.reverse ++ before) = false := by
  induction h generalizing before with
  | nil => exact hbefore
  | @plain c chars hescape hanchor rest ih =>
    rw [List.reverse_cons, List.append_assoc]
    exact ih (by simp [Anchor.isEscapedAfter_cons, hescape])
  | @escaped c chars rest ih =>
    simp only [List.reverse_cons, List.append_assoc, List.singleton_append]
    exact ih (by simp [Anchor.isEscapedAfter_cons, hbefore])

/-- A `$` at the end of such characters is escaped. -/
theorem isEscapedAfter_eq_true {chars init before : List Char} (h : Unanchored chars)
    (hbefore : Anchor.isEscapedAfter before = false) (hinit : chars = init ++ ['$']) :
    Anchor.isEscapedAfter (init.reverse ++ before) = true := by
  induction h generalizing init before with
  | nil => simp at hinit
  | @plain c chars hescape hanchor rest ih =>
    cases init with
    | nil =>
      cases hinit
      exact absurd rfl hanchor
    | cons a init =>
      simp only [List.cons_append, List.cons.injEq] at hinit
      obtain ⟨rfl, hinit⟩ := hinit
      rw [List.reverse_cons, List.append_assoc]
      exact ih (by simp [Anchor.isEscapedAfter_cons, hescape]) hinit
  | @escaped c chars rest ih =>
    match init, hinit with
    | [], hinit => cases hinit
    | [a], hinit =>
      cases hinit
      simp [Anchor.isEscapedAfter_cons, hbefore]
    | a :: a' :: init, hinit =>
      simp only [List.cons_append, List.cons.injEq] at hinit
      obtain ⟨rfl, rfl, hinit⟩ := hinit
      simp only [List.reverse_cons, List.append_assoc, List.singleton_append]
      exact ih (by simp [Anchor.isEscapedAfter_cons, hbefore]) hinit

/-- The anchor at the end is taken off, and nothing else. -/
theorem stripEnd_append {chars : List Char} (h : Unanchored chars) (atEnd : Bool) :
    Anchor.stripEnd (chars ++ if atEnd then ['$'] else []) = (atEnd, chars) := by
  have hfresh : Anchor.isEscapedAfter [] = false := rfl
  unfold Anchor.stripEnd
  cases atEnd with
  | true =>
    have hescaped := h.isEscapedAfter_eq_false hfresh
    rw [List.append_nil] at hescaped
    simp [hescaped]
  | false =>
    simp only [Bool.false_eq_true, if_false, List.append_nil]
    split
    · next before hreverse =>
      have hchars : chars = before.reverse ++ ['$'] := by
        rw [← List.reverse_reverse chars, hreverse, List.reverse_cons]
      have hescaped := h.isEscapedAfter_eq_true hfresh hchars
      rw [List.reverse_reverse, List.append_nil] at hescaped
      rw [if_pos hescaped]
    · rfl

end Unanchored

theorem unanchored_renderLiteral (c : Char) : Unanchored (renderLiteral c) := by
  unfold renderLiteral
  split
  · exact .escaped c .nil
  · next hc =>
    simp only [specials, List.cons_append, List.nil_append, List.mem_cons, not_or] at hc
    exact .single (by simp [hc]) (by simp [hc])

theorem unanchored_renderMembers (members : List Char) :
    Unanchored (members.flatMap renderMember) := by
  induction members with
  | nil => exact .nil
  | cons c members ih =>
    rw [List.flatMap_cons]
    rcases renderMember_cases c with ⟨s, rfl, hc⟩ | ⟨-, hc⟩
    · rw [hc]
      cases s
      · exact .plain (by decide) (by decide) ih
      · exact .plain (by decide) (by decide) ih
    · rw [hc]
      exact .escaped c ih

theorem Matcher.unanchored_render {m : Matcher} (h : m.Writable) : Unanchored m.render := by
  cases m with
  | literal c => exact unanchored_renderLiteral c
  | shorthand s => exact .escaped _ .nil
  | any => exact .single (by decide) (by decide)
  | set s =>
    have hitems := unanchored_renderMembers s.members.toList
    have hset : Unanchored (s.members.toList.flatMap renderMember ++ [']']) :=
      hitems.append (.single (by decide) (by decide))
    rw [render]
    split
    · exact .plain (by decide) (by decide) (.plain (by decide) (by decide) hset)
    · exact .plain (by decide) (by decide) hset
  | backref group =>
    obtain ⟨c, hc, -⟩ := repr_digit h
    rw [render, hc]
    exact .escaped c .nil

mutual

theorem Term.unanchored_render : ∀ (t : Term), (∀ m ∈ t.matchers, m.Writable) →
    Unanchored t.render
  | .atom m => fun h => Matcher.unanchored_render (h m List.mem_cons_self)
  | .group _ body => fun h => .plain (by decide) (by decide)
      ((body.unanchored_render h).append (.single (by decide) (by decide)))
  | .quantified q t => fun h =>
    (t.unanchored_render h).append (.single (by cases q <;> decide) (by cases q <;> decide))

theorem Branch.unanchored_render : ∀ (b : Branch), (∀ m ∈ b.matchers, m.Writable) →
    Unanchored b.render
  | .nil => fun _ => .nil
  | .cons t rest => by
    intro h
    obtain ⟨ht, hrest⟩ := List.forall_mem_append.1 h
    exact (t.unanchored_render ht).append (rest.unanchored_render hrest)

theorem Choice.unanchored_render : ∀ (c : Choice), (∀ m ∈ c.matchers, m.Writable) →
    Unanchored c.render
  | .only b => b.unanchored_render
  | .or b rest => by
    intro h
    obtain ⟨hb, hrest⟩ := List.forall_mem_append.1 h
    exact (b.unanchored_render hb).append
      (.plain (by decide) (by decide) (rest.unanchored_render hrest))

end

theorem Matcher.head_render (m : Matcher) : ∃ c rest, m.render = c :: rest ∧ c ≠ '^' := by
  cases m with
  | literal c =>
    rw [render, renderLiteral]
    split
    · exact ⟨_, _, rfl, by decide⟩
    · next hc => exact ⟨c, [], rfl, fun hcaret => hc (by simp [hcaret])⟩
  | shorthand | any | set | backref => exact ⟨_, _, rfl, by decide⟩

theorem Term.head_render : ∀ (t : Term), ∃ c rest, t.render = c :: rest ∧ c ≠ '^'
  | .atom m => m.head_render
  | .group _ _ => ⟨_, _, rfl, by decide⟩
  | .quantified q t => by
    obtain ⟨c, rest, hrender, hne⟩ := t.head_render
    exact ⟨c, rest ++ [q.symbol], by rw [render, hrender]; rfl, hne⟩

theorem Branch.head?_render (b : Branch) {after : List Char} (h : after.head? ≠ some '^') :
    (b.render ++ after).head? ≠ some '^' := by
  cases b with
  | nil => exact h
  | cons t rest =>
    obtain ⟨c, chars, hrender, hne⟩ := t.head_render
    rw [render, hrender]
    simpa using hne

/-- No body begins like an anchor. -/
theorem Choice.head?_render (c : Choice) {after : List Char} (h : after.head? ≠ some '^') :
    (c.render ++ after).head? ≠ some '^' := by
  cases c with
  | only b => exact b.head?_render h
  | or b rest =>
    rw [render, List.append_assoc]
    exact b.head?_render (by simp)

theorem Anchor.stripStart_of_head? {chars : List Char} (h : chars.head? ≠ some '^') :
    stripStart chars = (false, chars) := by
  unfold stripStart
  split
  · exact absurd rfl h
  · rfl

/-- The anchors of the written form are those of the pattern, and what is left of it is the body. -/
theorem Pattern.strip_render {p : Pattern} (h : ∀ m ∈ p.body.matchers, m.Writable) :
    Anchor.strip p.render.toList = (p.anchor, p.body.render) := by
  have hend := (p.body.unanchored_render h).stripEnd_append p.anchor.atEnd
  have hstart : Anchor.stripStart p.render.toList =
      (p.anchor.atStart, p.body.render ++ if p.anchor.atEnd then ['$'] else []) := by
    rw [render, String.toList_ofList, List.append_assoc]
    cases p.anchor.atStart with
    | true => rfl
    | false =>
      apply Anchor.stripStart_of_head?
      apply p.body.head?_render
      cases p.anchor.atEnd <;> simp
  simp only [Anchor.strip, hstart, hend]

/-- **Every pattern that is well formed is what reading its written form returns.** -/
theorem Pattern.parse_render {p : Pattern} (h : p.WellFormed) : Pattern.parse p.render = .ok p := by
  have hstrip := strip_render h.writable
  have hscope : Scope [] 0 [] := ⟨nofun, nofun⟩
  have hlength : p.body.groups.length = p.groupCount := by rw [h.numbered, List.length_range]
  have hfitting : Fitting 0 [] p.body.groups p.body.mentions p.body.matchers := by
    refine ⟨?_, h.backrefs, h.writable⟩
    rw [hlength, h.numbered, List.range_eq_range']
  have hwritten := p.body.written_render hscope hfitting
  rw [hlength, Nat.zero_add] at hwritten
  apply parse_of_written
  · rw [hstrip]
  · rw [hstrip]
    exact hwritten

/-- A group whose number is followed by a digit, an anchor as a character, and a set that holds a
bracket and the letter of a shorthand. -/
theorem Pattern.parse_render_digit :
    ∃ p : Pattern, p.WellFormed ∧ p.render = "^(\\^[^\\]d]|)+\\11?\\$$" ∧
      Pattern.parse p.render = .ok p := by
  let set : CharSet := ⟨true, #[']', 'd'], by decide⟩
  let p : Pattern :=
    { anchor := ⟨true, true⟩
      body := .only
        (.cons (.quantified .plus (.group 0 (.or
          (.cons (.atom (.literal '^')) (.cons (.atom (.set set)) .nil)) (.only .nil))))
        (.cons (.atom (.backref 0))
        (.cons (.quantified .optional (.atom (.literal '1')))
        (.cons (.atom (.literal '$')) .nil))))
      groupCount := 1 }
  have hwellFormed : p.WellFormed := by
    refine ⟨rfl, ?backrefs, ?writable⟩
    case backrefs =>
      have hmentions : p.body.mentions = [.groupEnd 0, .backref 0] := rfl
      rw [hmentions]
      intro earlier group later heq
      match earlier, heq with
      | [_], heq =>
        cases heq
        exact List.mem_cons_self
      | _ :: _ :: _, heq => simp at heq
    case writable =>
      have hmatchers : p.body.matchers =
          [.literal '^', .set set, .backref 0, .literal '1', .literal '$'] := rfl
      rw [hmatchers]
      simp [Matcher.Writable, set]
  exact ⟨p, hwellFormed, rfl, Pattern.parse_render hwellFormed⟩

/-! ## What is read can be written -/

/-- The groups that have been opened before some place of a pattern and are not open there have
ended. -/
def AllEnded (enclosing : List Nat) (opened : Nat) (before : List Mention) : Prop :=
  ∀ group < opened, group ∉ enclosing → .groupEnd group ∈ before

/-- Items are there only for the sake of members. -/
theorem Items.exists_mem {items members : List Char} (h : Items items members) (hne : items ≠ []) :
    ∃ c, c ∈ members := by
  cases h with
  | nil => exact absurd rfl hne
  | shorthand s =>
    obtain ⟨c, hc⟩ := List.exists_mem_of_ne_nil _ s.members_ne_nil
    exact ⟨c, List.mem_append_left _ hc⟩
  | escaped | single => exact ⟨_, List.mem_cons_self⟩
  | range _ _ hle =>
    exact ⟨_, List.mem_append_left _ (Text.mem_interval.2 ⟨Char.le_refl _, hle⟩)⟩

theorem Items.writable {items members : List Char} (h : Items items members) (hne : items ≠ [])
    (negated : Bool) : (Matcher.set (.ofList negated members)).Writable := by
  obtain ⟨c, hc⟩ := h.exists_mem hne
  intro hempty
  have hmem : c ∈ (CharSet.ofList negated members).members.toList := by
    simpa [CharSet.ofList] using hc
  rw [hempty] at hmem
  cases hmem

theorem Matcher.Spelled.writable {chars : List Char} {m : Matcher} (h : m.Spelled chars) :
    m.Writable := by
  cases h with
  | any | literal | shorthand | escaped => trivial
  | @backref c group hdigit hgroup =>
    have hle : c.toNat ≤ '9'.toNat := hdigit.2
    have hnine : '9'.toNat = '1'.toNat + 8 := rfl
    show group ≤ 8
    omega
  | set items hne => exact items.writable hne false
  | negatedSet items hne => exact items.writable hne true

mutual

theorem Term.Written.writable {enclosing : List Nat} {opened opened' : Nat} {chars : List Char}
    {t : Term} (h : Term.Written enclosing opened chars t opened') :
    ∀ m ∈ t.matchers, m.Writable := by
  match h with
  | .atom hspelled _ => exact List.forall_mem_singleton.2 hspelled.writable
  | .group hbody => exact hbody.writable
  | .quantified _ ht => exact ht.writable

theorem Branch.Written.writable {enclosing : List Nat} {opened opened' : Nat} {chars : List Char}
    {b : Branch} (h : Branch.Written enclosing opened chars b opened') :
    ∀ m ∈ b.matchers, m.Writable := by
  match h with
  | .nil => exact nofun
  | .cons ht hrest => exact List.forall_mem_append.2 ⟨ht.writable, hrest.writable⟩

theorem Choice.Written.writable {enclosing : List Nat} {opened opened' : Nat} {chars : List Char}
    {c : Choice} (h : Choice.Written enclosing opened chars c opened') :
    ∀ m ∈ c.matchers, m.Writable := by
  match h with
  | .only hb => exact hb.writable
  | .or hb hrest => exact List.forall_mem_append.2 ⟨hb.writable, hrest.writable⟩

end

mutual

/-- In a written term every backreference comes after the end of its group. -/
theorem Term.Written.follows {enclosing : List Nat} {opened opened' : Nat} {chars : List Char}
    {t : Term} {before : List Mention} (h : Term.Written enclosing opened chars t opened')
    (hbefore : AllEnded enclosing opened before) :
    BackrefsFollow before t.mentions ∧ AllEnded enclosing opened' (before ++ t.mentions) := by
  match h with
  | @Term.Written.atom _ _ _ m _ hstand =>
    refine ⟨?_, fun group hlt hout => List.mem_append_left _ (hbefore group hlt hout)⟩
    cases m with
    | backref group =>
      obtain ⟨hlt, hout⟩ := hstand group rfl
      exact .backref (hbefore group hlt hout)
    | literal | shorthand | any | set => exact .nil
  | @Term.Written.group _ _ _ _ body hbody =>
    have hinner : AllEnded (opened :: enclosing) (opened + 1) before := by
      intro group hlt hout
      obtain ⟨hne, hout⟩ := not_or.1 (mt List.mem_cons.2 hout)
      exact hbefore group (by omega) hout
    obtain ⟨hfollow, hended⟩ := hbody.follows hinner
    refine ⟨hfollow.of_append (.groupEnd _), fun group hlt hout => ?_⟩
    rw [Term.mentions, ← List.append_assoc, List.mem_append]
    by_cases hgroup : group = opened
    · exact .inr (List.mem_singleton.2 (by rw [hgroup]))
    · refine .inl (hended group hlt fun hin => ?_)
      rcases List.mem_cons.1 hin with hin | hin
      · exact hgroup hin
      · exact hout hin
  | .quantified _ ht => exact ht.follows hbefore

theorem Branch.Written.follows {enclosing : List Nat} {opened opened' : Nat} {chars : List Char}
    {b : Branch} {before : List Mention} (h : Branch.Written enclosing opened chars b opened')
    (hbefore : AllEnded enclosing opened before) :
    BackrefsFollow before b.mentions ∧ AllEnded enclosing opened' (before ++ b.mentions) := by
  match h with
  | .nil =>
    rw [Branch.mentions, List.append_nil]
    exact ⟨.nil, hbefore⟩
  | .cons ht hrest =>
    obtain ⟨hfollow, hended⟩ := ht.follows hbefore
    obtain ⟨hfollow', hended'⟩ := hrest.follows hended
    rw [List.append_assoc] at hended'
    exact ⟨hfollow.of_append hfollow', hended'⟩

theorem Choice.Written.follows {enclosing : List Nat} {opened opened' : Nat} {chars : List Char}
    {c : Choice} {before : List Mention} (h : Choice.Written enclosing opened chars c opened')
    (hbefore : AllEnded enclosing opened before) :
    BackrefsFollow before c.mentions ∧ AllEnded enclosing opened' (before ++ c.mentions) := by
  match h with
  | .only hb => exact hb.follows hbefore
  | .or hb hrest =>
    obtain ⟨hfollow, hended⟩ := hb.follows hbefore
    obtain ⟨hfollow', hended'⟩ := hrest.follows hended
    rw [List.append_assoc] at hended'
    exact ⟨hfollow.of_append hfollow', hended'⟩

end

/-- **Every pattern that is read is well formed**, so that it has a written form in turn. -/
theorem Pattern.wellFormed_of_parse {source : String} {p : Pattern}
    (h : Pattern.parse source = .ok p) : p.WellFormed := by
  have hwritten := (written_of_parse h).2
  have hnone : AllEnded [] 0 [] := nofun
  exact ⟨groups_of_parse h, (hwritten.follows hnone).1, hwritten.writable⟩

end PatternSearch
