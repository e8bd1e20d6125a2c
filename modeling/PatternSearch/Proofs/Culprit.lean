import Mathlib.Data.List.Induction
import PatternSearch.Proofs.Outline

/-!
# Where a pattern is wrong

A rejection gives a fault and a place. What the fault says of the pattern can be seen at that place,
in the characters there and in the outline up to there (`Fault.VisibleAt`), without knowing how the
reader came to it (`Pattern.visible_of_parse`).

A fault that the reader tells from what is left over is always that of a parenthesis or of a
quantifier: whatever else a pattern goes on with, there is a lexeme that can be read, or that is seen
to be wrong. So nothing is ever unexpected, and neither is the end (`Reading.Stop.VisibleIn`).

The faults that show in the characters alone stand after lexemes, where the outline is as plain as
at the beginning. For the others the reader has to know the same as the outline: it has opened the
same groups, the same of them are open still, and where it has no term to repeat, a choice or a
branch has just begun (`Reading.Traces`). Every lexeme keeps it so.
-/

namespace PatternSearch

/-- The parenthesis that opened a group is none of those that are open still. Groups are numbered
from 0. -/
def Outline.HasClosed (o : Outline) (group : Nat) : Prop :=
  ∃ place, o.opened[group]? = some place ∧ place ∉ o.enclosing

/-- What a fault says of place `n` of a pattern whose body stands from `start` to `stop`. -/
def Fault.VisibleAt (chars : List Char) (start stop n : Nat) : Fault → Prop
  | .unclosedSet =>
    chars[n]? = some '[' ∧ (Outline.upTo chars n).Plain ∧
      (Outline.upTo chars stop).bracket? = some n
  | .emptySet =>
    chars[n]? = some '[' ∧ (Outline.upTo chars n).Plain ∧
      (chars[n + 1]? = some ']' ∨ chars[n + 1]? = some '^' ∧ chars[n + 2]? = some ']')
  | .invalidRange low high =>
    chars[n]? = some low ∧ chars[n + 1]? = some '-' ∧ chars[n + 2]? = some high ∧ high < low ∧
      (Outline.upTo chars n).escaped = false ∧ (Outline.upTo chars n).bracket?.isSome
  | .unclosedGroup =>
    chars[n]? = some '(' ∧ (Outline.upTo chars n).Plain ∧
      n ∈ (Outline.upTo chars stop).enclosing ∧ ∀ m ∈ (Outline.upTo chars stop).enclosing, m ≤ n
  | .unmatchedClose =>
    chars[n]? = some ')' ∧ (Outline.upTo chars n).Plain ∧ (Outline.upTo chars n).enclosing = []
  | .trailingBackslash =>
    chars[n]? = some '\\' ∧ (Outline.upTo chars n).Plain ∧ n + 1 = chars.length
  | .invalidBackreference number =>
    chars[n]? = some '\\' ∧ (Outline.upTo chars n).Plain ∧
      (∃ c, chars[n + 1]? = some c ∧ c.toNat = '0'.toNat + number) ∧ 1 ≤ number ∧ number ≤ 9 ∧
      ¬ (Outline.upTo chars n).HasClosed (number - 1)
  | .nothingToRepeat q =>
    chars[n]? = some q.symbol ∧ (Outline.upTo chars n).Plain ∧
      (n = start ∨ ∃ m, n = m + 1 ∧ (chars[m]? = some '(' ∨ chars[m]? = some '|') ∧
        (Outline.upTo chars m).Plain)
  -- nothing in a pattern is unexpected
  | .unexpected _ | .unexpectedEnd => False

/-- What can be seen at a place is there. -/
theorem Fault.VisibleAt.lt_length {chars : List Char} {start stop n : Nat} {fault : Fault}
    (h : fault.VisibleAt chars start stop n) : n < chars.length := by
  have hsome : ∃ c, chars[n]? = some c := by
    cases fault with
    | unexpected | unexpectedEnd => exact h.elim
    | _ => exact ⟨_, h.1⟩
  obtain ⟨c, hc⟩ := hsome
  exact (List.getElem?_eq_some_iff.1 hc).1

/-- What the early end of a reading says of a pattern whose body stands from `start` to `stop`. -/
def Reading.Stop.VisibleIn (chars : List Char) (start stop : Nat) : Reading.Stop → Prop
  | seen fault position => fault.VisibleAt chars start stop position
  | leftover position => start ≤ position ∧
      (Fault.leftover ((chars.take stop).drop position)).VisibleAt chars start stop position
  | incomplete => False

/-- The rejection that comes of it says the same. -/
theorem Reading.Stop.VisibleIn.visibleAt {before body after : List Char} {s : Reading.Stop}
    (h : s.VisibleIn (before ++ body ++ after) before.length (before ++ body).length)
    (length : Nat) :
    (s.rejection before.length body length).fault.VisibleAt (before ++ body ++ after)
      before.length (before ++ body).length (s.rejection before.length body length).position := by
  cases s with
  | seen fault position => exact h
  | leftover position =>
    obtain ⟨hle, hvisible⟩ := h
    rwa [List.take_left, List.drop_append, List.drop_eq_nil_of_le hle, List.nil_append] at hvisible
  | incomplete => exact h.elim

/-! ## The places in an outline -/

namespace Outline

theorem upTo_append (l r : List Char) : upTo (l ++ r) l.length = of l := by
  rw [upTo, List.take_left]

theorem upTo_append_of_le {l : List Char} {n : Nat} (h : n ≤ l.length) (r : List Char) :
    upTo (l ++ r) n = upTo l n := by
  rw [upTo, upTo, List.take_append_of_le_length h]

/-- One more character opens a group, or else the groups are the same, but for the innermost one
that may be closed. -/
theorem next_cases (o : Outline) (c : Char) :
    (c = '(' ∧ o.Plain ∧ (o.next c).opened = o.opened ++ [o.length] ∧
      (o.next c).enclosing = o.length :: o.enclosing) ∨
    (o.next c).opened = o.opened ∧
      ((o.next c).enclosing = o.enclosing ∨ (o.next c).enclosing = o.enclosing.tail) := by
  unfold next
  split_ifs with hescaped hbackslash hset hcloseSet hbracket hopen hclose
  · exact .inr ⟨rfl, .inl rfl⟩
  · exact .inr ⟨rfl, .inl rfl⟩
  · exact .inr ⟨rfl, .inl rfl⟩
  · exact .inr ⟨rfl, .inl rfl⟩
  · exact .inr ⟨rfl, .inl rfl⟩
  · exact .inl ⟨hopen, ⟨by simpa using hescaped, by simpa using hset⟩, rfl, rfl⟩
  · exact .inr ⟨rfl, .inr rfl⟩
  · exact .inr ⟨rfl, .inl rfl⟩

theorem bracket_next_backslash (o : Outline) : (o.next '\\').bracket? = o.bracket? := by
  by_cases h : o.escaped = true <;> simp [next, h]

/-- The places in an outline are places of parentheses in `chars`. -/
structure Places (o : Outline) (chars : List Char) : Prop where
  opened : ∀ m ∈ o.opened, chars[m]? = some '(' ∧ (upTo chars m).Plain
  enclosing : ∀ m ∈ o.enclosing, m ∈ o.opened
  /-- Of the groups that are open, the innermost one was opened last. -/
  descending : o.enclosing.Pairwise (· > ·)

theorem Places.lt_length {o : Outline} {chars : List Char} (h : o.Places chars) {m : Nat}
    (hm : m ∈ o.opened) : m < chars.length :=
  (List.getElem?_eq_some_iff.1 (h.opened m hm).1).1

/-- What can be seen in a pattern as far as it goes can be seen in a longer one. -/
theorem Places.append {o : Outline} {chars : List Char} (h : o.Places chars) (rest : List Char) :
    o.Places (chars ++ rest) where
  opened m hm := by
    have hlt := h.lt_length hm
    rw [List.getElem?_append_left hlt, upTo_append_of_le (Nat.le_of_lt hlt)]
    exact h.opened m hm
  enclosing := h.enclosing
  descending := h.descending

/-- The places in the outline of a pattern are those of its parentheses. -/
theorem places_of (chars : List Char) : (of chars).Places chars := by
  induction chars using List.reverseRecOn with
  | nil => exact ⟨nofun, nofun, .nil⟩
  | append_singleton chars c ih =>
    have hlength := length_of chars
    have hbefore := ih.append [c]
    rw [of_append, after_cons, after_nil]
    rcases next_cases (of chars) c with
      ⟨rfl, hplain, hopened, henclosing⟩ | ⟨hopened, henclosing⟩
    · rw [hlength] at hopened henclosing
      refine ⟨fun m hm => ?_, ?_, ?_⟩
      · rw [hopened] at hm
        rcases List.mem_append.1 hm with hm | hm
        · exact hbefore.opened m hm
        · rw [List.mem_singleton.1 hm, upTo_append]
          exact ⟨List.getElem?_concat_length, hplain⟩
      · rw [henclosing, hopened]
        exact List.forall_mem_cons.2 ⟨List.mem_append_right _ List.mem_cons_self,
          fun m hm => List.mem_append_left _ (ih.enclosing m hm)⟩
      · rw [henclosing]
        exact List.pairwise_cons.2 ⟨fun m hm => ih.lt_length (ih.enclosing m hm), ih.descending⟩
    · refine ⟨fun m hm => hbefore.opened m (hopened ▸ hm), ?_, ?_⟩
      · rw [hopened]
        rcases henclosing with henclosing | henclosing
        · rw [henclosing]
          exact ih.enclosing
        · rw [henclosing]
          exact fun m hm => ih.enclosing m (List.mem_of_mem_tail hm)
      · rcases henclosing with henclosing | henclosing
        · rw [henclosing]
          exact ih.descending
        · rw [henclosing]
          exact ih.descending.tail

end Outline

/-! ## Faults in the characters -/

section Characters

variable {read chars opening after : List Char} {r : Rejection} {start : Nat}

/-- A fault in a set stands at the bracket of the set, or at the range that is none. -/
theorem Rejection.InSet.visibleAt (h : InSet read.length [] (read.length + opening.length) chars r)
    (hplain : (Outline.of read).Plain)
    (hopening : opening = ['['] ∨ opening = ['[', '^']) (after : List Char) :
    r.fault.VisibleAt (read ++ opening ++ chars ++ after) start (read ++ opening ++ chars).length
      r.position := by
  have hbracket : (read ++ opening ++ chars ++ after)[read.length]? = some '[' := by
    rcases hopening with rfl | rfl <;> simp
  have hbefore : (Outline.upTo (read ++ opening ++ chars ++ after) read.length).Plain := by
    rwa [List.append_assoc, List.append_assoc, Outline.upTo_append]
  have hinside {items added : List Char} (hitems : Items items added) :
      Outline.of (read ++ opening ++ items) =
        (Outline.of read).inSet (opening ++ items).length := by
    rw [List.append_assoc, Outline.of_append, Outline.after_opening hplain hopening hitems]
  cases h with
  | unclosed hitems =>
    refine ⟨hbracket, hbefore, ?_⟩
    rw [Outline.upTo_append, hinside hitems]
    exact congrArg some (Outline.length_of read)
  | unclosedEscape hitems =>
    refine ⟨hbracket, hbefore, ?_⟩
    rw [Outline.upTo_append, ← List.append_assoc, Outline.of_append, hinside hitems,
      Outline.after_cons, Outline.after_nil, Outline.bracket_next_backslash]
    exact congrArg some (Outline.length_of read)
  | empty _ rest =>
    refine ⟨hbracket, hbefore, ?_⟩
    rcases hopening with rfl | rfl
    · exact .inl (by simp)
    · exact .inr (by simp)
  | @range items _ low high hitems _ _ hlt rest =>
    have hinside := hinside hitems
    have hchars : read ++ opening ++ (items ++ low :: '-' :: high :: rest) ++ after =
        read ++ opening ++ items ++ low :: '-' :: high :: (rest ++ after) := by
      simp only [List.append_assoc, List.cons_append]
    have hposition : read.length + opening.length + items.length =
        (read ++ opening ++ items).length := by
      simp only [List.length_append]
    simp only [hchars, hposition]
    generalize read ++ opening ++ items = inside at hinside ⊢
    refine ⟨by simp, by simp, by simp, hlt, ?_, ?_⟩
    · rw [Outline.upTo_append, hinside]
      exact hplain.escaped
    · rw [Outline.upTo_append, hinside]
      rfl

/-- **A fault that shows in the characters alone** is visible at its place, if what comes before it
leaves the outline plain. -/
theorem Rejection.Shows.visibleAt (h : Shows read.length chars r)
    (hplain : (Outline.of read).Plain)
    (hafter : after = [] ∨ (Outline.of (read ++ chars)).escaped = false) :
    r.fault.VisibleAt (read ++ chars ++ after) start (read ++ chars).length r.position := by
  cases h with
  | trailingBackslash =>
    have hescaped : (Outline.of (read ++ ['\\'])).escaped = true := by
      rw [Outline.of_append, Outline.after_cons, Outline.after_nil, Outline.escaped_next,
        hplain.escaped]
      rfl
    obtain rfl : after = [] := hafter.resolve_right fun h =>
      Bool.false_ne_true (h.symm.trans hescaped)
    rw [List.append_nil]
    refine ⟨List.getElem?_concat_length, ?_, ?_⟩
    · rwa [Outline.upTo_append]
    · rw [List.length_append]
      rfl
  | @set chars _ h _ =>
    have hvisible : r.fault.VisibleAt (read ++ ['['] ++ chars ++ after) start
        (read ++ ['['] ++ chars).length r.position := h.visibleAt hplain (.inl rfl) after
    rwa [List.append_assoc read] at hvisible
  | @negatedSet chars _ h =>
    have hvisible : r.fault.VisibleAt (read ++ ['[', '^'] ++ chars ++ after) start
        (read ++ ['[', '^'] ++ chars).length r.position := h.visibleAt hplain (.inr rfl) after
    rwa [List.append_assoc read] at hvisible

end Characters

/-! ## What the reader knows -/

/-- A choice or a branch begins after `chars`. -/
def Fresh (chars : List Char) : Prop :=
  ∃ before c, chars = before ++ [c] ∧ (c = '(' ∨ c = '|') ∧ (Outline.of before).Plain

/-- The reading of `chars`, whose body begins at `start`, knows what their outline shows. -/
structure Reading.Traces (r : Reading) (start : Nat) (chars : List Char) : Prop where
  start_le : start ≤ chars.length
  plain : (Outline.of chars).Plain
  groups : r.groups = (Outline.of chars).opened.length
  enclosing : r.enclosing.map (·.position) = (Outline.of chars).enclosing
  opened : ∀ g ∈ r.enclosing, (Outline.of chars).opened[g.index]? = some g.position
  fresh : r.level.terms = [] → chars.length = start ∨ Fresh chars

namespace Reading

/-- Of the matchers, only a backreference can be rejected. -/
theorem read_token_error {r : Reading} {m : Matcher} {position : Nat} {s : Stop}
    (h : r.read ⟨position, m.token⟩ = .error s) :
    ∃ group, m = .backref group ∧ ¬ r.isClosed group = true ∧
      .seen (.invalidBackreference (group + 1)) position = s := by
  cases m with
  | backref group =>
    simp only [Matcher.token, read, Nat.add_sub_cancel] at h
    split at h
    · cases h
    · next hclosed =>
      cases h
      exact ⟨group, rfl, hclosed, rfl⟩
  | _ => cases h

/-- A parenthesis is left over where no group is open. -/
theorem read_closeGroup_error {r : Reading} {position : Nat} {s : Stop}
    (h : r.read ⟨position, .closeGroup⟩ = .error s) :
    r.enclosing = [] ∧ .leftover position = s := by
  simp only [read, closeGroup?] at h
  cases henclosing : r.enclosing with
  | nil =>
    rw [henclosing] at h
    exact ⟨rfl, Except.error.inj h⟩
  | cons g rest =>
    rw [henclosing] at h
    cases h

/-- A quantifier is left over where there is no term before it. -/
theorem read_quantifier_error {r : Reading} {q : Quantifier} {position : Nat} {s : Stop}
    (h : r.read ⟨position, .quantifier q⟩ = .error s) :
    r.level.terms = [] ∧ .leftover position = s := by
  simp only [read, Level.quantify?] at h
  cases hterms : r.level.terms with
  | nil =>
    rw [hterms] at h
    exact ⟨rfl, Except.error.inj h⟩
  | cons t rest =>
    rw [hterms] at h
    cases h

namespace Traces

variable {r next : Reading} {start : Nat} {chars spelling : List Char} {token : Token}

/-- Before the body nothing has been read. -/
theorem empty (h : chars = [] ∨ chars = ['^']) : ({} : Reading).Traces chars.length chars := by
  have hafter := Outline.of_startAnchor h
  constructor
  case start_le => exact Nat.le_refl _
  case plain => exact hafter ▸ Outline.plain_empty.skip _
  case groups => exact hafter ▸ rfl
  case enclosing => exact hafter ▸ rfl
  case opened => exact nofun
  case fresh => exact fun _ => .inl rfl

/-- A group that the outline shows as closed is closed for the reader. -/
theorem isClosed (h : r.Traces start chars) {group : Nat}
    (hclosed : (Outline.of chars).HasClosed group) : r.isClosed group = true := by
  obtain ⟨place, hplace, hnotMem⟩ := hclosed
  have hlt : group < r.groups := by
    rw [h.groups]
    exact (List.getElem?_eq_some_iff.1 hplace).1
  refine isClosed_iff.2 ⟨hlt, fun hmem => hnotMem ?_⟩
  obtain ⟨g, hg, rfl⟩ := List.mem_map.1 hmem
  have heq : g.position = place := Option.some.inj ((h.opened g hg).symm.trans hplace)
  rw [← h.enclosing, ← heq]
  exact List.mem_map_of_mem hg

/-- Characters that do not matter to the outline do not matter to the groups. -/
theorem of_skip (h : r.Traces start chars)
    (hskip : (Outline.of chars).after spelling = (Outline.of chars).skip spelling.length)
    (hgroups : next.groups = r.groups) (henclosing : next.enclosing = r.enclosing)
    (hfresh : next.level.terms = [] → Fresh (chars ++ spelling)) :
    next.Traces start (chars ++ spelling) := by
  have hafter := Outline.of_append chars spelling
  rw [hskip] at hafter
  constructor
  case start_le => exact h.start_le.trans (by simp)
  case plain => exact hafter ▸ h.plain.skip _
  case groups => exact hafter ▸ hgroups.trans h.groups
  case enclosing => rw [hafter, henclosing]; exact h.enclosing
  case opened => rw [hafter, henclosing]; exact h.opened
  case fresh => exact fun hterms => .inr (hfresh hterms)

/-- **Every lexeme that is read** is known to the reader as the outline shows it. -/
theorem read (h : r.Traces start chars) (hspelled : token.Spelled spelling)
    (hread : r.read ⟨chars.length, token⟩ = .ok next) : next.Traces start (chars ++ spelling) := by
  have hlength := Outline.length_of chars
  cases hspelled with
  | matcher hm =>
    obtain ⟨-, rfl⟩ := read_token.1 hread
    exact h.of_skip (hm.after h.plain) rfl rfl fun hterms => nomatch hterms
  | openGroup =>
    cases hread
    have hafter := Outline.of_append chars ['(']
    rw [Outline.after_cons, Outline.after_nil, Outline.next_openGroup h.plain, hlength] at hafter
    constructor
    case start_le => exact h.start_le.trans (by simp)
    case plain => exact hafter ▸ ⟨h.plain.escaped, h.plain.bracket⟩
    case groups =>
      rw [hafter, List.length_append, ← h.groups]
      rfl
    case enclosing =>
      rw [hafter]
      exact congrArg (chars.length :: ·) h.enclosing
    case opened =>
      rw [hafter]
      refine List.forall_mem_cons.2 ⟨?_, fun g hg => ?_⟩
      · rw [h.groups]
        exact List.getElem?_concat_length
      · have hg := h.opened g hg
        rwa [List.getElem?_append_left (List.getElem?_eq_some_iff.1 hg).1]
    case fresh => exact fun _ => .inr ⟨chars, '(', rfl, .inl rfl, h.plain⟩
  | closeGroup =>
    have hafter := Outline.of_append chars [')']
    rw [Outline.after_cons, Outline.after_nil, Outline.next_closeGroup h.plain] at hafter
    obtain ⟨g, rest, henclosing, rfl⟩ := read_closeGroup hread
    have hopened := h.opened
    have houter := h.enclosing
    rw [henclosing] at hopened houter
    constructor
    case start_le => exact h.start_le.trans (by simp)
    case plain => exact hafter ▸ ⟨h.plain.escaped, h.plain.bracket⟩
    case groups => exact hafter ▸ h.groups
    case enclosing =>
      rw [hafter, ← houter]
      rfl
    case opened =>
      rw [hafter]
      exact (List.forall_mem_cons.1 hopened).2
    case fresh => exact fun hterms => nomatch hterms
  | bar =>
    cases hread
    exact h.of_skip (Outline.next_bar h.plain) rfl rfl fun _ =>
      ⟨chars, '|', rfl, .inr rfl, h.plain⟩
  | quantifier q =>
    obtain ⟨level, hquantify, rfl⟩ := read_quantifier hread
    refine h.of_skip (Outline.next_quantifier h.plain q) rfl rfl fun hterms => ?_
    unfold Level.quantify? at hquantify
    split at hquantify
    · cases hquantify
    · cases hquantify
      cases hterms

/-- What is left over at a lexeme begins with its characters. -/
theorem visibleIn_leftover (h : r.Traces start chars) {rest after : List Char}
    (hvisible : (Fault.leftover (spelling ++ rest)).VisibleAt (chars ++ spelling ++ rest ++ after)
      start (chars ++ spelling ++ rest).length chars.length) :
    (Stop.leftover chars.length).VisibleIn (chars ++ spelling ++ rest ++ after) start
      (chars ++ spelling ++ rest).length := by
  refine ⟨h.start_le, ?_⟩
  have hleft : ((chars ++ spelling ++ rest ++ after).take (chars ++ spelling ++ rest).length).drop
      chars.length = spelling ++ rest := by
    rw [List.take_left, List.append_assoc, List.drop_left]
  rwa [hleft]

/-- **Where a lexeme cannot be read**, the fault is visible at the lexeme. -/
theorem visibleIn (h : r.Traces start chars) (hspelled : token.Spelled spelling) {s : Stop}
    (hread : r.read ⟨chars.length, token⟩ = .error s) (rest after : List Char) :
    s.VisibleIn (chars ++ spelling ++ rest ++ after) start (chars ++ spelling ++ rest).length := by
  have hupTo : Outline.upTo (chars ++ spelling ++ rest ++ after) chars.length =
      Outline.of chars := by
    rw [List.append_assoc, List.append_assoc, Outline.upTo_append]
  have hbefore : (Outline.upTo (chars ++ spelling ++ rest ++ after) chars.length).Plain := by
    rw [hupTo]
    exact h.plain
  cases hspelled with
  | @matcher _ m hm =>
    obtain ⟨group, rfl, hclosed, rfl⟩ := read_token_error hread
    have hgroup : group ≤ 8 := hm.writable
    cases hm with
    | @backref c _ hdigit hnumber =>
      refine ⟨by simp, hbefore, ⟨c, by simp, ?_⟩, by omega, by omega, fun hvisible => ?_⟩
      · rw [hnumber, show '1'.toNat = '0'.toNat + 1 from rfl]
        omega
      · rw [hupTo, Nat.add_sub_cancel] at hvisible
        exact hclosed (h.isClosed hvisible)
  | openGroup => cases hread
  | closeGroup =>
    obtain ⟨henclosing, rfl⟩ := read_closeGroup_error hread
    refine h.visibleIn_leftover ⟨by simp, hbefore, ?_⟩
    rw [hupTo, ← h.enclosing, henclosing]
    rfl
  | bar => cases hread
  | quantifier q =>
    obtain ⟨hterms, rfl⟩ := read_quantifier_error hread
    refine h.visibleIn_leftover ?_
    rw [List.singleton_append, Fault.leftover_symbol]
    refine ⟨by simp, hbefore, (h.fresh hterms).imp_right ?_⟩
    rintro ⟨before, c, rfl, hc, hplain⟩
    refine ⟨before.length, by simp, ?_, ?_⟩
    · rcases hc with rfl | rfl
      · exact .inl (by simp)
      · exact .inr (by simp)
    · simpa only [List.append_assoc, Outline.upTo_append] using hplain

/-- **What the reader knows it knows to the end**, unless there is a fault that is visible. -/
theorem foldlM_read {read chars after : List Char} (h : r.Traces start read)
    (hafter : after = [] ∨ (Outline.of (read ++ chars)).escaped = false) :
    match (Lexeme.scan read.length chars).foldlM Reading.read r with
    | .ok last => last.Traces start (read ++ chars)
    | .error s => s.VisibleIn (read ++ chars ++ after) start (read ++ chars).length := by
  generalize hposition : read.length = position
  induction position, chars using Lexeme.scan_induction generalizing r read with
  | nil position =>
    rw [List.append_nil]
    exact h
  | lexeme position spelling token rest hspelled ih =>
    subst hposition
    rw [Lexeme.scan_spelled hspelled, List.foldlM_cons]
    rw [← List.append_assoc] at hafter ⊢
    cases hread : r.read ⟨read.length, token⟩ with
    | error s => exact h.visibleIn hspelled hread rest after
    | ok next => exact ih (h.read hspelled hread) hafter List.length_append
  | fault position chars rejection hshows hscan =>
    subst hposition
    rw [hscan]
    exact hshows.visibleAt h.plain hafter

/-- Where a group is never closed, the last one of these is visible. -/
theorem visibleIn_finish (h : r.Traces start chars) {s : Stop} (hfinish : r.finish = .error s)
    (after : List Char) : s.VisibleIn (chars ++ after) start chars.length := by
  unfold finish at hfinish
  split at hfinish
  · cases hfinish
  · next g rest henclosing =>
    cases hfinish
    have hplaces := Outline.places_of chars
    have hshown : (Outline.of chars).enclosing =
        g.position :: rest.map (·.position) := by
      rw [← h.enclosing, henclosing]
      rfl
    have hmem : g.position ∈ (Outline.of chars).enclosing := by
      rw [hshown]
      exact List.mem_cons_self
    obtain ⟨hparen, hplain⟩ := (hplaces.append after).opened _ (hplaces.enclosing _ hmem)
    refine ⟨hparen, hplain, ?_, ?_⟩
    · rwa [Outline.upTo_append]
    · have hdescending := hplaces.descending
      rw [hshown] at hdescending
      rw [Outline.upTo_append, hshown]
      exact List.forall_mem_cons.2
        ⟨Nat.le_refl _, fun m hm => Nat.le_of_lt ((List.pairwise_cons.1 hdescending).1 m hm)⟩

end Traces

/-- **A reading that ends early shows where**: between the anchors of a pattern, it comes to a fault
that is visible, if nothing before the anchor at the end escapes it. -/
theorem Stop.visibleIn_of_readBody {anchor : Anchor} {before body after : List Char} {s : Stop}
    (hwidth : before.length = anchor.width) (hbefore : before = [] ∨ before = ['^'])
    (hafter : after = [] ∨ (Outline.of (before ++ body)).escaped = false)
    (h : Pattern.readBody anchor body = .error s) :
    s.VisibleIn (before ++ body ++ after) before.length (before ++ body).length := by
  have hread := (Traces.empty hbefore).foldlM_read hafter
  rw [Pattern.readBody, ← hwidth] at h
  rcases Except.bind_eq_error h with hstopped | ⟨last, hlast, h⟩
  · rwa [hstopped] at hread
  · rw [hlast] at hread
    rcases Except.bind_eq_error h with hfinish | ⟨choice, _, h⟩
    · exact hread.visibleIn_finish hfinish after
    · cases h

end Reading

/-- What a rejection says is visible in the pattern. -/
theorem Pattern.visibleAt_of_parse {source : String} {r : Rejection}
    (h : Pattern.parse source = .error r) :
    r.fault.VisibleAt source.toList (Anchor.strip source.toList).1.width
      ((Anchor.strip source.toList).1.width + (Anchor.strip source.toList).2.length)
      r.position := by
  obtain ⟨before, after, hchars, hwidth, hbefore, hafter⟩ := Anchor.eq_append_strip source.toList
  have hescaped := hafter.imp_right fun hend => (Outline.escaped_of hbefore _).trans hend.2
  obtain ⟨s, hread, rfl⟩ := Except.mapError_eq_error h
  have hvisible := (Reading.Stop.visibleIn_of_readBody hwidth hbefore hescaped hread).visibleAt
    source.toList.length
  rwa [← hchars, List.length_append, hwidth] at hvisible

/-- **Every rejection points at its culprit**, and never is anything unexpected. -/
theorem Pattern.visible_of_parse {source : String} {r : Rejection}
    (h : Pattern.parse source = .error r) :
    r.position < source.toList.length ∧
      (∀ c, r.fault ≠ .unexpected c) ∧ r.fault ≠ .unexpectedEnd ∧
      r.fault.VisibleAt source.toList (Anchor.strip source.toList).1.width
        ((Anchor.strip source.toList).1.width + (Anchor.strip source.toList).2.length)
        r.position := by
  have hvisible := visibleAt_of_parse h
  refine ⟨hvisible.lt_length, fun c hfault => ?_, fun hfault => ?_, hvisible⟩
  · rwa [hfault] at hvisible
  · rwa [hfault] at hvisible

/-- In the first pattern, the second group is open where it is named, and the first parenthesis in
sight opens none. In the second one, a `+` is left over that begins a branch of an inner group. -/
theorem Pattern.visible_of_parse_inner :
    Pattern.parse "^\\((a)(b\\2)" = .error ⟨.invalidBackreference 2, 8⟩ ∧
      Fault.VisibleAt "^\\((a)(b\\2)".toList 1 11 8 (.invalidBackreference 2) ∧
      Pattern.parse "^((a|+b)" = .error ⟨.nothingToRepeat .plus, 5⟩ ∧
      Fault.VisibleAt "^((a|+b)".toList 1 8 5 (.nothingToRepeat .plus) :=
  ⟨rfl, (Pattern.visible_of_parse (r := ⟨.invalidBackreference 2, 8⟩) rfl).2.2.2,
    rfl, (Pattern.visible_of_parse (r := ⟨.nothingToRepeat .plus, 5⟩) rfl).2.2.2⟩

end PatternSearch
