import PatternSearch.Pattern.Reading

/-!
# The numbers of groups

Groups are numbered as they are opened, so that a pattern that has been read holds the groups
`0, 1, ...` in the order of their opening parentheses (`Pattern.groups_of_parse`), each exactly
once. In particular no group stands within one of the same number, and there is a slot for each.
-/

namespace PatternSearch

mutual

/-- The groups of a term, in the order of their opening parentheses. -/
def Term.groups : Term → List Nat
  | .atom _ => []
  | .group index body => index :: body.groups
  | .quantified _ t => t.groups
termination_by structural t => t

def Branch.groups : Branch → List Nat
  | .nil => []
  | .cons t rest => t.groups ++ rest.groups
termination_by structural b => b

def Choice.groups : Choice → List Nat
  | .only b => b.groups
  | .or b rest => b.groups ++ rest.groups
termination_by structural c => c

end

@[simp] theorem Branch.groups_ofList (l : List Term) :
    (Branch.ofList l).groups = l.flatMap Term.groups := by
  induction l with
  | nil => rfl
  | cons t l ih => simp [ofList, groups, ih]

@[simp] theorem Choice.groups_ofList (earlier : List Branch) (last : Branch) :
    (Choice.ofList earlier last).groups = earlier.flatMap Branch.groups ++ last.groups := by
  induction earlier with
  | nil => rfl
  | cons b earlier ih =>
    have hcons : Choice.ofList (b :: earlier) last = .or b (Choice.ofList earlier last) := rfl
    rw [hcons, groups, ih, List.flatMap_cons, List.append_assoc]

namespace Level

/-- The groups of what has been read of a choice. -/
def groups (level : Level) : List Nat :=
  level.choice.groups

theorem groups_eq (level : Level) :
    level.groups = level.branches.reverse.flatMap Branch.groups ++
      level.terms.reverse.flatMap Term.groups := by
  simp [groups, choice, branch]

@[simp] theorem groups_empty : ({} : Level).groups = [] := rfl

@[simp] theorem groups_push (level : Level) (t : Term) :
    (level.push t).groups = level.groups ++ t.groups := by
  simp [groups_eq, push]

@[simp] theorem groups_bar (level : Level) : level.bar.groups = level.groups := by
  simp [groups_eq, bar, branch]

theorem groups_quantify? {level quantified : Level} {q : Quantifier}
    (h : level.quantify? q = some quantified) : quantified.groups = level.groups := by
  unfold quantify? at h
  split at h
  · cases h
  · next t rest hterms =>
    cases h
    simp [groups_eq, hterms, Term.groups]

end Level

namespace Reading

/-- The groups that have been opened around a level, and those closed before it. -/
def groupsBefore : List OpenGroup → List Nat
  | [] => []
  | g :: rest => groupsBefore rest ++ g.outer.groups ++ [g.index]

/-- The groups that have been opened are `0, 1, ...`, in the order in which they stand. -/
def Numbered (r : Reading) : Prop :=
  groupsBefore r.enclosing ++ r.level.groups = List.range r.groups

theorem Numbered.push {r : Reading} (h : r.Numbered) (m : Matcher) :
    (r.push (.atom m)).Numbered := by
  simpa [Numbered, Reading.push, Term.groups] using h

theorem Numbered.openGroup {r : Reading} (h : r.Numbered) (position : Nat) :
    (r.openGroup position).Numbered := by
  unfold Numbered at h ⊢
  simp only [Reading.openGroup, groupsBefore, Level.groups_empty, List.append_nil]
  rw [h, List.range_succ]

theorem Numbered.closeGroup {r closed : Reading} (h : r.Numbered)
    (hclose : r.closeGroup? = some closed) : closed.Numbered := by
  unfold closeGroup? at hclose
  split at hclose
  · cases hclose
  · next g rest henclosing =>
    cases hclose
    unfold Numbered at h ⊢
    rw [henclosing, groupsBefore] at h
    simp only [Level.groups_push, Term.groups]
    rw [← h, ← Level.groups]
    simp

theorem Numbered.read {r next : Reading} {l : Lexeme} (h : r.Numbered)
    (hread : r.read l = .ok next) : next.Numbered := by
  unfold Reading.read at hread
  split at hread
  · cases hread
    exact h.push _
  · split at hread
    · cases hread
      exact h.push _
    · cases hread
  · cases hread
    exact h.openGroup _
  · split at hread
    · next hclose =>
      cases hread
      exact h.closeGroup hclose
    · cases hread
  · cases hread
    unfold Numbered at h ⊢
    rw [Level.groups_bar]
    exact h
  · split at hread
    · next hquantify =>
      cases hread
      unfold Numbered at h ⊢
      rw [Level.groups_quantify? hquantify]
      exact h
    · cases hread
  · cases hread

/-- What reading one lexeme preserves, reading any number of them preserves. -/
theorem foldlM_read {P : Reading → Prop}
    (hstep : ∀ {r next : Reading} {l : Lexeme}, P r → r.read l = .ok next → P next)
    {lexemes : List Lexeme} {r last : Reading} (h : P r)
    (hread : lexemes.foldlM Reading.read r = .ok last) : P last := by
  induction lexemes generalizing r with
  | nil =>
    cases hread
    exact h
  | cons l lexemes ih =>
    rw [List.foldlM_cons] at hread
    cases hnext : r.read l with
    | error stop =>
      rw [hnext] at hread
      cases hread
    | ok next =>
      rw [hnext] at hread
      exact ih (hstep h hnext) hread

end Reading

theorem Except.bind_eq_ok {ε α β : Type} {x : Except ε α} {f : α → Except ε β} {b : β}
    (h : (x >>= f) = .ok b) : ∃ a, x = .ok a ∧ f a = .ok b := by
  cases x with
  | error e => cases h
  | ok a => exact ⟨a, rfl, h⟩

theorem Except.bind_eq_error {ε α β : Type} {x : Except ε α} {f : α → Except ε β} {e : ε}
    (h : (x >>= f) = .error e) : x = .error e ∨ ∃ a, x = .ok a ∧ f a = .error e := by
  cases x with
  | error e' => exact .inl (by cases h; rfl)
  | ok a => exact .inr ⟨a, rfl, h⟩

theorem Except.mapError_eq_ok {ε ε' α : Type} {x : Except ε α} {f : ε → ε'} {a : α}
    (h : x.mapError f = .ok a) : x = .ok a := by
  cases x with
  | error e => cases h
  | ok a' =>
    cases h
    rfl

theorem Except.mapError_eq_error {ε ε' α : Type} {x : Except ε α} {f : ε → ε'} {e' : ε'}
    (h : x.mapError f = .error e') : ∃ e, x = .error e ∧ f e = e' := by
  cases x with
  | error e => exact ⟨e, rfl, Except.error.inj h⟩
  | ok a => cases h

/-- A pattern that has been read is the choice that was left when every group was closed. -/
theorem Pattern.reading_of_parse {source : String} {p : Pattern}
    (h : Pattern.parse source = .ok p) :
    ∃ r : Reading, (Lexeme.scan p.anchor.width (Anchor.strip source.toList).2).foldlM
        Reading.read {} = .ok r ∧ p.anchor = (Anchor.strip source.toList).1 ∧
      r.enclosing = [] ∧ p.body = r.level.choice ∧ p.groupCount = r.groups := by
  obtain ⟨r, hread, h⟩ := Except.bind_eq_ok (Except.mapError_eq_ok h)
  obtain ⟨body, hfinish, h⟩ := Except.bind_eq_ok h
  cases h
  refine ⟨r, hread, rfl, ?_⟩
  unfold Reading.finish at hfinish
  split at hfinish
  · next henclosing =>
    cases hfinish
    exact ⟨henclosing, rfl, rfl⟩
  · cases hfinish

/-- **The groups of a pattern are numbered from 0** by their opening parentheses. -/
theorem Pattern.groups_of_parse {source : String} {p : Pattern}
    (h : Pattern.parse source = .ok p) : p.body.groups = List.range p.groupCount := by
  obtain ⟨r, hread, -, henclosing, hbody, hcount⟩ := reading_of_parse h
  have hempty : Reading.Numbered {} := rfl
  have hnumbered : r.Numbered := Reading.foldlM_read Reading.Numbered.read hempty hread
  unfold Reading.Numbered at hnumbered
  rw [henclosing] at hnumbered
  rw [hbody, hcount]
  exact hnumbered

end PatternSearch
