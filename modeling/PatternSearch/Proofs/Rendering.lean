import Mathlib.Tactic.IntervalCases
import PatternSearch.Proofs.Trim

/-!
# The written form of a pattern

A tree can be written down again (`Pattern.render`): characters that mean something else are
escaped, and in a set every member is, but for the letters of shorthands, which mean something else
after a backslash. Not every tree can be meant by a written pattern. Groups have to be numbered as
they are opened, a backreference comes after the end of its group and has one digit, and a set has a
member (`Pattern.WellFormed`).

Where this is so, the body of the written form is one that the grammar writes
(`Choice.written_render`). The recursion over the tree carries what has been written before each
part of it (`Scope`), since that decides which groups a backreference may name.
-/

namespace PatternSearch

/-! ## Writing -/

/-- A character that stands for itself, outside of sets. Those that write anchors at the ends of a
pattern are escaped wherever they stand. -/
def renderLiteral (c : Char) : List Char :=
  if c ∈ specials ++ ['^', '$'] then ['\\', c] else [c]

/-- A member of a set. -/
def renderMember (c : Char) : List Char :=
  if (Shorthand.ofLetter? c).isSome then [c] else ['\\', c]

def Matcher.render : Matcher → List Char
  | literal c => renderLiteral c
  | shorthand s => ['\\', s.letter]
  | any => ['.']
  | set s =>
    let items := s.members.toList.flatMap renderMember
    '[' :: (if s.negated then '^' :: items else items) ++ [']']
  | backref group => '\\' :: (group + 1).repr.toList

mutual

def Term.render : Term → List Char
  | .atom m => m.render
  | .group _ body => '(' :: body.render ++ [')']
  | .quantified q t => t.render ++ [q.symbol]
termination_by structural t => t

def Branch.render : Branch → List Char
  | .nil => []
  | .cons t rest => t.render ++ rest.render
termination_by structural b => b

def Choice.render : Choice → List Char
  | .only b => b.render
  | .or b rest => b.render ++ '|' :: rest.render
termination_by structural c => c

end

/-- The written form of a pattern, with its anchors at the ends. -/
def Pattern.render (p : Pattern) : String :=
  String.ofList ((if p.anchor.atStart then ['^'] else []) ++ p.body.render ++
    if p.anchor.atEnd then ['$'] else [])

/-! ## Trees that can be written -/

/-- What matters to a backreference: where groups end, and where it stands itself. -/
inductive Mention where
  | groupEnd (group : Nat)
  | backref (group : Nat)
deriving DecidableEq, Repr

mutual

/-- The ends of groups and the backreferences of a term, in the order in which they are written. -/
def Term.mentions : Term → List Mention
  | .atom (.backref group) => [.backref group]
  | .atom _ => []
  | .group index body => body.mentions ++ [.groupEnd index]
  | .quantified _ t => t.mentions
termination_by structural t => t

def Branch.mentions : Branch → List Mention
  | .nil => []
  | .cons t rest => t.mentions ++ rest.mentions
termination_by structural b => b

def Choice.mentions : Choice → List Mention
  | .only b => b.mentions
  | .or b rest => b.mentions ++ rest.mentions
termination_by structural c => c

end

/-- A matcher that can be written: a backreference has one digit, and a set has a member. -/
def Matcher.Writable : Matcher → Prop
  | backref group => group ≤ 8
  | set s => s.members ≠ #[]
  | _ => True

/-- Every backreference comes after the end of its group, where `before` has been written already. -/
def BackrefsFollow (before mentions : List Mention) : Prop :=
  ∀ earlier group later, mentions = earlier ++ .backref group :: later →
    .groupEnd group ∈ before ++ earlier

/-- A pattern that a written form can stand for. That a choice has a branch and that the members of
a set are strictly increasing is part of their types. -/
structure Pattern.WellFormed (p : Pattern) : Prop where
  /-- The groups are `0, 1, ...` in the order of their opening parentheses. -/
  numbered : p.body.groups = List.range p.groupCount
  backrefs : BackrefsFollow [] p.body.mentions
  writable : ∀ m ∈ p.body.matchers, m.Writable

namespace BackrefsFollow

variable {before l r : List Mention} {group : Nat}

theorem nil : BackrefsFollow before [] := by
  intro earlier group later heq
  simp at heq

theorem groupEnd (group : Nat) :
    BackrefsFollow before [.groupEnd group] := by
  intro earlier group' later heq
  simp [List.cons_eq_append_iff] at heq

theorem backref
    (h : .groupEnd group ∈ before) : BackrefsFollow before [.backref group] := by
  intro earlier group' later heq
  cases earlier with
  | nil =>
    cases heq
    rwa [List.append_nil]
  | cons a earlier => simp at heq

theorem of_append (h : BackrefsFollow before l)
    (hr : BackrefsFollow (before ++ l) r) : BackrefsFollow before (l ++ r) := by
  intro earlier group later heq
  rcases List.append_eq_append_iff.1 heq with ⟨between, rfl, hr'⟩ | ⟨between, hl, hlater⟩
  · have hmem := hr between group later hr'
    rwa [List.append_assoc] at hmem
  · cases between with
    | nil =>
      rw [List.append_nil] at hl
      subst hl
      have hmem := hr [] group later (by simpa using hlater.symm)
      rwa [List.append_nil] at hmem
    | cons a between =>
      obtain ⟨rfl, rfl⟩ := List.cons.inj hlater
      exact h earlier group between hl

theorem append (h : BackrefsFollow before (l ++ r)) :
    BackrefsFollow before l ∧ BackrefsFollow (before ++ l) r := by
  constructor
  · rintro earlier group later rfl
    exact h earlier group (later ++ r) (by simp)
  · rintro earlier group later rfl
    have hmem := h (l ++ earlier) group later (by simp)
    rwa [List.append_assoc]

end BackrefsFollow

/-! ## Matchers are spelled -/

theorem CharSet.ofList_members (s : CharSet) : CharSet.ofList s.negated s.members.toList = s := by
  have hlist : squeeze (s.members.toList.mergeSort (· ≤ ·)) = s.members.toList := by
    refine (CharSet.ofList s.negated s.members.toList).increasing.eq_of_mem_iff s.increasing
      fun c => ?_
    simp [CharSet.ofList]
  cases s
  simp only [CharSet.ofList, hlist]

theorem renderMember_letter (s : Shorthand) : renderMember s.letter = [s.letter] := by
  simp [renderMember]

theorem renderMember_of_ne {c : Char} (h : ∀ s : Shorthand, c ≠ s.letter) :
    renderMember c = ['\\', c] := by
  simp [renderMember, Lexeme.ofLetter?_eq_none h]

/-- A written member is either a letter that names a shorthand, or escaped and none of these. -/
theorem renderMember_cases (c : Char) :
    (∃ s : Shorthand, c = s.letter ∧ renderMember c = [c]) ∨
      (∀ s : Shorthand, c ≠ s.letter) ∧ renderMember c = ['\\', c] := by
  by_cases hletter : ∃ s : Shorthand, c = s.letter
  · obtain ⟨s, rfl⟩ := hletter
    exact .inl ⟨s, rfl, renderMember_letter s⟩
  · have hletter : ∀ s : Shorthand, c ≠ s.letter := not_exists.1 hletter
    exact .inr ⟨hletter, renderMember_of_ne hletter⟩

/-- Written members begin neither like a range nor with the sign of a complement. -/
theorem head?_renderMembers {members : List Char} {c : Char}
    (h : (members.flatMap renderMember).head? = some c) : c ≠ '-' ∧ c ≠ '^' := by
  cases members with
  | nil => cases h
  | cons a members =>
    rw [List.flatMap_cons] at h
    rcases renderMember_cases a with ⟨s, rfl, ha⟩ | ⟨-, ha⟩
    · rw [ha] at h
      cases h
      cases s <;> decide
    · rw [ha] at h
      cases h
      decide

theorem bareInSet_letter (s : Shorthand) : BareInSet s.letter := by
  cases s <;> exact ⟨by decide, by decide⟩

/-- The written members of a set are items with just these members. -/
theorem items_renderMembers (members : List Char) :
    Items (members.flatMap renderMember) members := by
  induction members with
  | nil => exact .nil
  | cons c members ih =>
    rw [List.flatMap_cons]
    rcases renderMember_cases c with ⟨s, rfl, hc⟩ | ⟨hne, hc⟩
    · rw [hc]
      refine .single (bareInSet_letter s) (fun high after heq => ?_) ih
      have hhead := head?_renderMembers (congrArg List.head? heq)
      exact absurd rfl hhead.1
    · rw [hc]
      exact .escaped hne ih

theorem renderMembers_ne_nil {members : List Char} (h : members ≠ []) :
    members.flatMap renderMember ≠ [] := by
  cases members with
  | nil => exact absurd rfl h
  | cons c members =>
    rw [List.flatMap_cons]
    rcases renderMember_cases c with ⟨-, -, hc⟩ | ⟨-, hc⟩ <;> simp [hc]

theorem spelled_renderLiteral (c : Char) : (Matcher.literal c).Spelled (renderLiteral c) := by
  unfold renderLiteral
  split
  · next hc =>
    have hplain : ∀ c ∈ specials ++ ['^', '$'],
        (∀ s : Shorthand, c ≠ s.letter) ∧ ¬ ('1' ≤ c ∧ c ≤ '9') := by
      intro c hc
      simp only [specials, List.cons_append, List.nil_append, List.mem_cons, List.not_mem_nil,
        or_false] at hc
      rcases hc with rfl | rfl | rfl | rfl | rfl | rfl | rfl | rfl | rfl | rfl | rfl <;>
        exact ⟨fun s => by cases s <;> decide, by decide⟩
    obtain ⟨hletter, hdigit⟩ := hplain c hc
    exact .escaped hletter hdigit
  · next hc => exact .literal fun hspecial => hc (List.mem_append_left _ hspecial)

theorem spelled_renderMembers (negated : Bool) {members : List Char} (h : members ≠ []) :
    (Matcher.set (.ofList negated members)).Spelled
      ('[' :: (if negated then '^' :: members.flatMap renderMember
        else members.flatMap renderMember) ++ [']']) := by
  have hitems := items_renderMembers members
  have hne := renderMembers_ne_nil h
  cases negated with
  | false => exact .set hitems hne fun hcaret => (head?_renderMembers hcaret).2 rfl
  | true => exact .negatedSet hitems hne

/-- A backreference is written with one digit. -/
theorem repr_digit {group : Nat} (h : group ≤ 8) :
    ∃ c, (group + 1).repr.toList = [c] ∧ ('1' ≤ c ∧ c ≤ '9') ∧ c.toNat = '1'.toNat + group := by
  interval_cases group <;> exact ⟨_, rfl, by decide, rfl⟩

/-- **A matcher that can be written is spelled by its written form.** -/
theorem Matcher.spelled_render {m : Matcher} (h : m.Writable) : m.Spelled m.render := by
  cases m with
  | literal c => exact spelled_renderLiteral c
  | shorthand s => exact .shorthand s
  | any => exact .any
  | set s =>
    have hne : s.members.toList ≠ [] := by
      have hne : s.members ≠ #[] := h
      simpa using hne
    have hspelled := spelled_renderMembers s.negated hne
    rwa [CharSet.ofList_members] at hspelled
  | backref group =>
    obtain ⟨c, hc, hdigit, hgroup⟩ := repr_digit h
    rw [render, hc]
    exact .backref hdigit hgroup

/-! ## The body is written -/

section Body

/-- What has been written before some place of a pattern, where the groups `enclosing` are open and
`opened` groups have been opened. -/
structure Scope (enclosing : List Nat) (opened : Nat) (before : List Mention) : Prop where
  ended : ∀ group, .groupEnd group ∈ before → group < opened ∧ group ∉ enclosing
  enclosing_lt : ∀ group ∈ enclosing, group < opened

/-- What is asked of a part of a pattern that is to be written there. -/
structure Fitting (opened : Nat) (before : List Mention) (groups : List Nat)
    (mentions : List Mention) (matchers : List Matcher) : Prop where
  numbered : groups = List.range' opened groups.length
  backrefs : BackrefsFollow before mentions
  writable : ∀ m ∈ matchers, m.Writable

variable {enclosing : List Nat} {opened : Nat} {before : List Mention}

theorem Fitting.append {groups groups' : List Nat} {mentions mentions' : List Mention}
    {matchers matchers' : List Matcher}
    (h : Fitting opened before (groups ++ groups') (mentions ++ mentions')
      (matchers ++ matchers')) :
    Fitting opened before groups mentions matchers ∧
      Fitting (opened + groups.length) (before ++ mentions) groups' mentions' matchers' := by
  obtain ⟨hbackrefs, hbackrefs'⟩ := h.backrefs.append
  obtain ⟨hwritable, hwritable'⟩ := List.forall_mem_append.1 h.writable
  have hnumbered := h.numbered
  rw [List.length_append, ← List.range'_append_1] at hnumbered
  obtain ⟨hgroups, hgroups'⟩ := List.append_inj hnumbered (by simp)
  exact ⟨⟨hgroups, hbackrefs, hwritable⟩, ⟨hgroups', hbackrefs', hwritable'⟩⟩

mutual

/-- The groups that end in a term are those that stand in it. -/
theorem Term.mem_groups_of_mentions {group : Nat} :
    ∀ (t : Term), .groupEnd group ∈ t.mentions → group ∈ t.groups
  | .atom m => by
    cases m <;> simp [Term.mentions]
  | .group index body => by
    intro h
    rcases List.mem_append.1 h with h | h
    · exact List.mem_cons_of_mem _ (body.mem_groups_of_mentions h)
    · cases List.mem_singleton.1 h
      exact List.mem_cons_self
  | .quantified q t => t.mem_groups_of_mentions

theorem Branch.mem_groups_of_mentions {group : Nat} :
    ∀ (b : Branch), .groupEnd group ∈ b.mentions → group ∈ b.groups
  | .nil => nofun
  | .cons t rest => fun h => List.mem_append.2
      ((List.mem_append.1 h).imp t.mem_groups_of_mentions rest.mem_groups_of_mentions)

theorem Choice.mem_groups_of_mentions {group : Nat} :
    ∀ (c : Choice), .groupEnd group ∈ c.mentions → group ∈ c.groups
  | .only b => b.mem_groups_of_mentions
  | .or b rest => fun h => List.mem_append.2
      ((List.mem_append.1 h).imp b.mem_groups_of_mentions rest.mem_groups_of_mentions)

end

/-- After a part of a pattern its groups have been opened and have ended. -/
theorem Scope.after {groups : List Nat} {mentions : List Mention} {matchers : List Matcher}
    (h : Scope enclosing opened before) (hpart : Fitting opened before groups mentions matchers)
    (hends : ∀ group, .groupEnd group ∈ mentions → group ∈ groups) :
    Scope enclosing (opened + groups.length) (before ++ mentions) := by
  refine ⟨fun group hgroup => ?_, fun group hgroup => ?_⟩
  · rcases List.mem_append.1 hgroup with hgroup | hgroup
    · obtain ⟨hlt, hout⟩ := h.ended group hgroup
      exact ⟨Nat.lt_add_right _ hlt, hout⟩
    · have hmem := hends group hgroup
      rw [hpart.numbered, List.mem_range'_1] at hmem
      refine ⟨hmem.2, fun hin => ?_⟩
      have hlt := h.enclosing_lt group hin
      omega
  · exact Nat.lt_add_right _ (h.enclosing_lt group hgroup)

/-- Within a group it is one more that is open. -/
theorem Scope.enter (h : Scope enclosing opened before) :
    Scope (opened :: enclosing) (opened + 1) before := by
  refine ⟨fun group hgroup => ?_, fun group hgroup => ?_⟩
  · obtain ⟨hlt, hout⟩ := h.ended group hgroup
    refine ⟨Nat.lt_succ_of_lt hlt, fun hin => ?_⟩
    rcases List.mem_cons.1 hin with rfl | hin
    · exact Nat.lt_irrefl _ hlt
    · exact hout hin
  · rcases List.mem_cons.1 hgroup with rfl | hgroup
    · exact Nat.lt_succ_self _
    · exact Nat.lt_succ_of_lt (h.enclosing_lt group hgroup)

theorem Fitting.body {index : Nat} {groups : List Nat} {mentions : List Mention}
    {matchers : List Matcher}
    (h : Fitting opened before (index :: groups) (mentions ++ [.groupEnd index]) matchers) :
    index = opened ∧ Fitting (opened + 1) before groups mentions matchers := by
  have hnumbered := h.numbered
  rw [List.length_cons, List.range'_succ] at hnumbered
  obtain ⟨hindex, hgroups⟩ := List.cons.inj hnumbered
  exact ⟨hindex, hgroups, h.backrefs.append.1, h.writable⟩

/-- A backreference can stand where its group has ended. -/
theorem Scope.canStand {m : Matcher} (h : Scope enclosing opened before)
    (hbackrefs : BackrefsFollow before (Term.atom m).mentions) : m.CanStand enclosing opened := by
  rintro group rfl
  have hmem := hbackrefs [] group [] rfl
  rw [List.append_nil] at hmem
  exact h.ended group hmem

mutual

/-- **What is written of a term is what the grammar writes.** -/
theorem Term.written_render {enclosing : List Nat} {opened : Nat} {before : List Mention} :
    ∀ (t : Term), Scope enclosing opened before →
      Fitting opened before t.groups t.mentions t.matchers →
      Term.Written enclosing opened t.render t (opened + t.groups.length)
  | .atom m => fun hscope h =>
    .atom (Matcher.spelled_render (h.writable m List.mem_cons_self)) (hscope.canStand h.backrefs)
  | .group index body => by
    intro hscope h
    obtain ⟨rfl, hbody⟩ := Fitting.body h
    have hwritten := body.written_render hscope.enter hbody
    have hopened : index + 1 + body.groups.length = index + (index :: body.groups).length := by
      rw [List.length_cons]
      omega
    rw [hopened] at hwritten
    exact .group hwritten
  | .quantified q t => fun hscope h => .quantified q (t.written_render hscope h)

theorem Branch.written_render {enclosing : List Nat} {opened : Nat} {before : List Mention} :
    ∀ (b : Branch), Scope enclosing opened before →
      Fitting opened before b.groups b.mentions b.matchers →
      Branch.Written enclosing opened b.render b (opened + b.groups.length)
  | .nil => fun _ _ => .nil
  | .cons t rest => by
    intro hscope h
    obtain ⟨ht, hrest⟩ := Fitting.append h
    have hwritten := t.written_render hscope ht
    have hwritten' := rest.written_render (hscope.after ht fun _ => t.mem_groups_of_mentions) hrest
    rw [Nat.add_assoc, ← List.length_append] at hwritten'
    exact .cons hwritten hwritten'

theorem Choice.written_render {enclosing : List Nat} {opened : Nat} {before : List Mention} :
    ∀ (c : Choice), Scope enclosing opened before →
      Fitting opened before c.groups c.mentions c.matchers →
      Choice.Written enclosing opened c.render c (opened + c.groups.length)
  | .only b => fun hscope h => .only (b.written_render hscope h)
  | .or b rest => by
    intro hscope h
    obtain ⟨hb, hrest⟩ := Fitting.append h
    have hwritten := b.written_render hscope hb
    have hwritten' := rest.written_render (hscope.after hb fun _ => b.mem_groups_of_mentions) hrest
    rw [Nat.add_assoc, ← List.length_append] at hwritten'
    exact .or hwritten hwritten'

end

end Body

end PatternSearch
