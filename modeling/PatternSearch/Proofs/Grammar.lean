import PatternSearch.Pattern.Reading
import PatternSearch.Proofs.Membership

/-!
# The grammar of patterns

Which characters write which pattern, said without a reader: a relation between stretches of
characters and trees, with a rule for each way of writing something. A group is numbered by the
groups that have been opened before it, and a backreference names one that has been opened and is
not around it; so the rules carry the numbers of the groups that are open around a stretch, and the
number of groups opened before and after it.

Then the lexical half: the scanner cuts characters into lexemes as the rules for matchers spell them
(`Lexeme.scan_spelled`), and whatever it cuts off is spelled so, or is a fault that shows in the
characters alone (`Rejection.Shows`, `Lexeme.scan_cases`). So what is to be said of all characters
can be said lexeme by lexeme (`Lexeme.scan_induction`).
-/

namespace PatternSearch

/-- The characters that stand for something other than themselves, outside of sets. -/
def specials : List Char :=
  ['(', ')', '[', '|', '\\', '.', '?', '+', '*']

/-- A character that can be written bare in a set. -/
def BareInSet (c : Char) : Prop :=
  c ≠ ']' ∧ c ≠ '\\'

/-- `chars` are items of a set with the given members. A character is written bare only where no
range begins with it. -/
inductive Items : List Char → List Char → Prop
  | nil : Items [] []
  | shorthand (s : Shorthand) {chars members : List Char} (rest : Items chars members) :
      Items ('\\' :: s.letter :: chars) (s.members ++ members)
  | escaped {c : Char} {chars members : List Char} (hc : ∀ s : Shorthand, c ≠ s.letter)
      (rest : Items chars members) : Items ('\\' :: c :: chars) (c :: members)
  | range {low high : Char} {chars members : List Char} (hlow : BareInSet low)
      (hhigh : BareInSet high) (hle : low ≤ high) (rest : Items chars members) :
      Items (low :: '-' :: high :: chars) (Text.interval low high ++ members)
  | single {c : Char} {chars members : List Char} (hc : BareInSet c)
      (hrange : ∀ high after, chars = '-' :: high :: after → ¬ BareInSet high)
      (rest : Items chars members) : Items (c :: chars) (c :: members)

/-- `chars` spell a matcher. -/
inductive Matcher.Spelled : List Char → Matcher → Prop
  | any : Spelled ['.'] .any
  | literal {c : Char} (hc : c ∉ specials) : Spelled [c] (.literal c)
  | shorthand (s : Shorthand) : Spelled ['\\', s.letter] (.shorthand s)
  | escaped {c : Char} (hc : ∀ s : Shorthand, c ≠ s.letter) (hdigit : ¬ ('1' ≤ c ∧ c ≤ '9')) :
      Spelled ['\\', c] (.literal c)
  | backref {c : Char} {group : Nat} (hdigit : '1' ≤ c ∧ c ≤ '9')
      (hgroup : c.toNat = '1'.toNat + group) : Spelled ['\\', c] (.backref group)
  | set {chars members : List Char} (items : Items chars members) (hne : chars ≠ [])
      (hcaret : chars.head? ≠ some '^') :
      Spelled ('[' :: chars ++ [']']) (.set (.ofList false members))
  | negatedSet {chars members : List Char} (items : Items chars members) (hne : chars ≠ []) :
      Spelled ('[' :: '^' :: chars ++ [']']) (.set (.ofList true members))

/-- A backreference can stand where its group has been opened and is not open any more. -/
def Matcher.CanStand (m : Matcher) (enclosing : List Nat) (opened : Nat) : Prop :=
  ∀ group, m = .backref group → group < opened ∧ group ∉ enclosing

mutual

/-- `chars` write a term where the groups `enclosing` are open, `opened` groups have been opened
before it, and `opened'` after it. -/
inductive Term.Written : List Nat → Nat → List Char → Term → Nat → Prop
  | atom {enclosing : List Nat} {opened : Nat} {chars : List Char} {m : Matcher}
      (h : m.Spelled chars) (hstand : m.CanStand enclosing opened) :
      Term.Written enclosing opened chars (.atom m) opened
  | group {enclosing : List Nat} {opened opened' : Nat} {chars : List Char} {body : Choice}
      (h : Choice.Written (opened :: enclosing) (opened + 1) chars body opened') :
      Term.Written enclosing opened ('(' :: chars ++ [')']) (.group opened body) opened'
  | quantified {enclosing : List Nat} {opened opened' : Nat} {chars : List Char} {t : Term}
      (q : Quantifier) (h : Term.Written enclosing opened chars t opened') :
      Term.Written enclosing opened (chars ++ [q.symbol]) (.quantified q t) opened'

/-- `chars` write the terms of a branch one after the other. No term begins with a quantifier, so
that the quantifiers after a term all belong to it. -/
inductive Branch.Written : List Nat → Nat → List Char → Branch → Nat → Prop
  | nil {enclosing : List Nat} {opened : Nat} : Branch.Written enclosing opened [] .nil opened
  | cons {enclosing : List Nat} {opened opened' opened'' : Nat} {chars chars' : List Char}
      {t : Term} {rest : Branch} (ht : Term.Written enclosing opened chars t opened')
      (hrest : Branch.Written enclosing opened' chars' rest opened'') :
      Branch.Written enclosing opened (chars ++ chars') (.cons t rest) opened''

/-- `chars` write the branches of a choice with bars between them. -/
inductive Choice.Written : List Nat → Nat → List Char → Choice → Nat → Prop
  | only {enclosing : List Nat} {opened opened' : Nat} {chars : List Char} {b : Branch}
      (h : Branch.Written enclosing opened chars b opened') :
      Choice.Written enclosing opened chars (.only b) opened'
  | or {enclosing : List Nat} {opened opened' opened'' : Nat} {chars chars' : List Char}
      {b : Branch} {rest : Choice} (hb : Branch.Written enclosing opened chars b opened')
      (hrest : Choice.Written enclosing opened' chars' rest opened'') :
      Choice.Written enclosing opened (chars ++ '|' :: chars') (.or b rest) opened''

end

/-! ## Sets -/

theorem Shorthand.members_ne_nil (s : Shorthand) : s.members ≠ [] :=
  List.ne_nil_of_mem (a := '0') (Shorthand.mem_members_iff.2 (by cases s <;> decide))

/-- The lexeme that reports a fault. -/
def Rejection.lexeme (r : Rejection) : Lexeme :=
  ⟨r.position, .invalid r.fault⟩

/-- `chars`, which stand at `position` in a set that has the given members so far and whose bracket
stands at `opened`, are items up to a fault. -/
inductive Rejection.InSet (opened : Nat) (members : List Char) (position : Nat) :
    List Char → Rejection → Prop
  | unclosed {items added : List Char} (h : Items items added) :
      InSet opened members position items ⟨.unclosedSet, opened⟩
  | unclosedEscape {items added : List Char} (h : Items items added) :
      InSet opened members position (items ++ ['\\']) ⟨.unclosedSet, opened⟩
  | empty (hmembers : members = []) (rest : List Char) :
      InSet opened members position (']' :: rest) ⟨.emptySet, opened⟩
  | range {items added : List Char} {low high : Char} (h : Items items added)
      (hlow : BareInSet low) (hhigh : BareInSet high) (hlt : high < low) (rest : List Char) :
      InSet opened members position (items ++ low :: '-' :: high :: rest)
        ⟨.invalidRange low high, position + items.length⟩

theorem Shorthand.letter_ne_of_digit {c : Char} (h : '1' ≤ c ∧ c ≤ '9') (s : Shorthand) :
    c ≠ s.letter := by
  rintro rfl
  cases s <;> revert h <;> decide

namespace Lexeme

theorem mem_endsItem {c : Char} : endsItem c = false ↔ BareInSet c := by
  simp [endsItem, BareInSet]

theorem escapedMembers_letter (s : Shorthand) : escapedMembers s.letter = s.members := by
  simp [escapedMembers]

theorem ofLetter?_eq_none {c : Char} (h : ∀ s : Shorthand, c ≠ s.letter) :
    Shorthand.ofLetter? c = none := by
  cases hs : Shorthand.ofLetter? c with
  | none => rfl
  | some s => exact absurd (Shorthand.ofLetter?_eq_some_iff.1 hs) (h s)

theorem escapedMembers_of_ne {c : Char} (h : ∀ s : Shorthand, c ≠ s.letter) :
    escapedMembers c = [c] := by
  simp [escapedMembers, ofLetter?_eq_none h]

section ScanSet

variable {opened position : Nat} {negated : Bool} {members chars rest : List Char}
  {c low high : Char}

theorem scanSet_single (hc : BareInSet c)
    (hrange : ∀ high after, rest = '-' :: high :: after → ¬ BareInSet high) :
    scanSet opened negated members position (c :: rest) =
      scanSet opened negated (c :: members) (position + 1) rest := by
  by_cases hdash : ∃ high after, rest = '-' :: high :: after
  · obtain ⟨high, after, rfl⟩ := hdash
    have hends : endsItem high = true := by
      have := hrange high after rfl
      rwa [← mem_endsItem, Bool.not_eq_false] at this
    rw [scanSet.eq_5 _ _ _ _ _ _ _ hc.1 hc.2, if_pos hends]
  · rw [scanSet.eq_6]
    · exact fun h _ => hc.2 h
    · exact hc.1
    · exact fun _ _ h _ => hc.2 h
    · exact fun high after h => hdash ⟨high, after, h⟩

theorem scanSet_range (hlow : BareInSet low) (hhigh : BareInSet high) (hle : low ≤ high) :
    scanSet opened negated members position (low :: '-' :: high :: rest) =
      scanSet opened negated (Text.interval low high ++ members) (position + 3) rest := by
  have hends : ¬ endsItem high = true := by
    rw [mem_endsItem.2 hhigh]
    exact Bool.false_ne_true
  rw [scanSet.eq_5 _ _ _ _ _ _ _ hlow.1 hlow.2, if_neg hends, if_pos hle]

/-- Scanning items adds their members to the set. -/
theorem scanSet_items {added : List Char} (h : Items chars added) (rest : List Char)
    {l : List Char} :
    ∀ {members : List Char} {position : Nat}, (chars = [] → members ≠ []) →
      (∀ c, c ∈ l ↔ c ∈ added ∨ c ∈ members) →
      scanSet opened negated members position (chars ++ ']' :: rest) =
        ⟨opened, .single (.set (.ofList negated l))⟩ ::
          scan (position + (chars.length + 1)) rest := by
  induction h with
  | nil =>
    intro members position hne hl
    have hne : ¬ members.isEmpty = true := by simpa using hne
    have hset : CharSet.ofList negated members = .ofList negated l :=
      CharSet.ofList_congr fun c => by simp [hl c]
    rw [List.nil_append, scanSet.eq_3, if_neg hne, hset]
    rfl
  | @shorthand s chars added _ ih =>
    intro members position _ hl
    simp only [List.cons_append, scanSet.eq_4, escapedMembers_letter]
    rw [ih (fun _ => by simp [s.members_ne_nil]) fun c => by grind]
    grind
  | @escaped c chars added hc _ ih =>
    intro members position _ hl
    simp only [List.cons_append, scanSet.eq_4, escapedMembers_of_ne hc]
    rw [ih (fun _ => List.cons_ne_nil _ _) fun c => by grind]
    grind
  | @range low high chars added hlow hhigh hle _ ih =>
    intro members position _ hl
    have hne : Text.interval low high ++ members ≠ [] :=
      List.ne_nil_of_mem (List.mem_append_left _ (Text.mem_interval.2 ⟨Char.le_refl low, hle⟩))
    simp only [List.cons_append, scanSet_range hlow hhigh hle]
    rw [ih (fun _ => hne) fun c => by grind]
    grind
  | @single c chars added hc hrange _ ih =>
    intro members position _ hl
    have hrange' : ∀ high after, chars ++ ']' :: rest = '-' :: high :: after →
        ¬ BareInSet high := by
      intro high after heq
      match chars, hrange, heq with
      | [], _, heq => cases heq
      | [_], _, heq =>
        cases heq
        exact fun hbare => hbare.1 rfl
      | _ :: _ :: _, hrange, heq =>
        cases heq
        exact hrange _ _ rfl
    rw [List.cons_append, scanSet_single hc hrange']
    rw [ih (fun _ => List.cons_ne_nil _ _) fun c => by grind]
    grind

theorem scanSet_of_items {added : List Char} (h : Items chars added) (hne : chars ≠ [])
    (rest : List Char) :
    scanSet opened negated [] position (chars ++ ']' :: rest) =
      ⟨opened, .single (.set (.ofList negated added))⟩ ::
        scan (position + (chars.length + 1)) rest :=
  scanSet_items h rest (fun hnil => absurd hnil hne) fun c => by simp

/-- `item` is an item that adds `new` to a set, where `rest` comes after it. -/
structure ItemBefore (rest item new : List Char) : Prop where
  ne_nil : item ≠ []
  adds : new ≠ []
  scan_eq : ∀ opened negated members position,
    scanSet opened negated members position (item ++ rest) =
      scanSet opened negated (new ++ members) (position + item.length) rest
  cons : ∀ {items added : List Char}, items <+: rest → Items items added →
    Items (item ++ items) (new ++ added)

theorem ItemBefore.escape (c : Char) : ItemBefore rest ['\\', c] (escapedMembers c) where
  ne_nil := List.cons_ne_nil _ _
  adds := by
    unfold escapedMembers
    split
    · exact Shorthand.members_ne_nil _
    · exact List.cons_ne_nil _ _
  scan_eq _ _ _ _ := scanSet.eq_4 _ _ _ _ _ _
  cons := by
    intro items added _ hitems
    by_cases hletter : ∃ s : Shorthand, c = s.letter
    · obtain ⟨s, rfl⟩ := hletter
      rw [escapedMembers_letter]
      exact .shorthand s hitems
    · have hletter : ∀ s : Shorthand, c ≠ s.letter := not_exists.1 hletter
      rw [escapedMembers_of_ne hletter]
      exact .escaped hletter hitems

theorem ItemBefore.range (hlow : BareInSet low) (hhigh : BareInSet high) (hle : low ≤ high) :
    ItemBefore rest [low, '-', high] (Text.interval low high) where
  ne_nil := List.cons_ne_nil _ _
  adds := List.ne_nil_of_mem (Text.mem_interval.2 ⟨Char.le_refl low, hle⟩)
  scan_eq _ _ _ _ := scanSet_range hlow hhigh hle
  cons _ hitems := .range hlow hhigh hle hitems

theorem ItemBefore.single (hc : BareInSet c)
    (hrange : ∀ high after, rest = '-' :: high :: after → ¬ BareInSet high) :
    ItemBefore rest [c] [c] where
  ne_nil := List.cons_ne_nil _ _
  adds := List.cons_ne_nil _ _
  scan_eq _ _ _ _ := scanSet_single hc hrange
  cons := by
    rintro items added ⟨more, rfl⟩ hitems
    refine .single hc (fun high after heq => ?_) hitems
    exact hrange high (after ++ more) (congrArg (· ++ more) heq)

/-- An item before a fault does not hide it. -/
theorem ItemBefore.inSet {item new : List Char} {r : Rejection} (h : ItemBefore rest item new)
    (hr : Rejection.InSet opened (new ++ members) (position + item.length) rest r) :
    Rejection.InSet opened members position (item ++ rest) r := by
  cases hr with
  | unclosed hitems => exact .unclosed (h.cons (List.prefix_refl _) hitems)
  | unclosedEscape hitems =>
    rw [← List.append_assoc]
    exact .unclosedEscape (h.cons (List.prefix_append _ _) hitems)
  | empty hmembers => exact absurd (List.append_eq_nil_iff.1 hmembers).1 h.adds
  | range hitems hlow hhigh hlt after =>
    rw [← List.append_assoc, Nat.add_assoc, ← List.length_append]
    exact .range (h.cons (List.prefix_append _ _) hitems) hlow hhigh hlt after

/-- What the scanner finds in a set: a fault, the end of the set, or an item. -/
theorem scanSet_cases (opened : Nat) (negated : Bool) (members : List Char) (position : Nat)
    (chars : List Char) :
    (∃ r, Rejection.InSet opened members position chars r ∧
      scanSet opened negated members position chars = [r.lexeme]) ∨
    (∃ rest, chars = ']' :: rest ∧ members ≠ []) ∨
    ∃ item new rest, chars = item ++ rest ∧ ItemBefore rest item new := by
  match chars with
  | [] => exact .inl ⟨_, .unclosed .nil, scanSet.eq_1 _ _ _ _⟩
  | c :: rest =>
    by_cases hclose : c = ']'
    · subst hclose
      by_cases hmembers : members.isEmpty = true
      · have hempty : members = [] := List.isEmpty_iff.1 hmembers
        refine .inl ⟨_, .empty hempty rest, ?_⟩
        rw [scanSet.eq_3, if_pos hmembers]
        rfl
      · exact .inr (.inl ⟨rest, rfl, by simpa using hmembers⟩)
    by_cases hescape : c = '\\'
    · subst hescape
      match rest with
      | [] => exact .inl ⟨_, .unclosedEscape .nil, scanSet.eq_2 _ _ _ _⟩
      | c :: rest => exact .inr (.inr ⟨_, _, rest, rfl, .escape c⟩)
    have hbare : BareInSet c := ⟨hclose, hescape⟩
    by_cases hrange : ∃ high after, rest = '-' :: high :: after ∧ BareInSet high
    · obtain ⟨high, after, rfl, hhigh⟩ := hrange
      by_cases hle : c ≤ high
      · exact .inr (.inr ⟨_, _, after, rfl, .range hbare hhigh hle⟩)
      · refine .inl ⟨_, .range .nil hbare hhigh (Char.not_le.1 hle) after, ?_⟩
        have hends : ¬ endsItem high = true := by
          rw [mem_endsItem.2 hhigh]
          exact Bool.false_ne_true
        rw [scanSet.eq_5 _ _ _ _ _ _ _ hclose hescape, if_neg hends, if_neg hle]
        rfl
    · exact .inr (.inr ⟨_, _, rest, rfl, .single hbare fun high after heq hhigh =>
        hrange ⟨high, after, heq, hhigh⟩⟩)

/-- The characters in a set are items up to the end of the set, unless there is a fault in them. -/
theorem items_or_fault (opened : Nat) (negated : Bool) (members : List Char) (position : Nat)
    (chars : List Char) :
    (∃ r, Rejection.InSet opened members position chars r ∧
      scanSet opened negated members position chars = [r.lexeme]) ∨
    ∃ items added rest, Items items added ∧ chars = items ++ ']' :: rest ∧
      (items = [] → members ≠ []) := by
  induction hlength : chars.length using Nat.strong_induction_on
    generalizing members position chars with
  | h length ih =>
    rcases scanSet_cases opened negated members position chars with hfault |
      ⟨rest, rfl, hne⟩ | ⟨item, new, rest, rfl, hitem⟩
    · exact .inl hfault
    · exact .inr ⟨[], [], rest, .nil, rfl, fun _ => hne⟩
    · have hshorter : rest.length < length := by
        have hpos : 0 < item.length := List.length_pos_iff.2 hitem.ne_nil
        rw [List.length_append] at hlength
        omega
      rcases ih _ hshorter (new ++ members) (position + item.length) rest rfl with
        ⟨r, hr, hscan⟩ | ⟨items, added, after, hitems, rfl, -⟩
      · exact .inl ⟨r, hitem.inSet hr, (hitem.scan_eq _ _ _ _).trans hscan⟩
      · refine .inr ⟨item ++ items, new ++ added, after,
          hitem.cons (List.prefix_append _ _) hitems, (List.append_assoc _ _ _).symm, ?_⟩
        exact fun h => absurd (List.append_eq_nil_iff.1 h).1 hitem.ne_nil

end ScanSet

end Lexeme

/-! ## Lexemes -/

/-- The lexeme of a matcher. A backreference names its group as it is written, from 1. -/
def Matcher.token : Matcher → Token
  | .backref group => .backreference (group + 1)
  | m => .single m

/-- `chars` spell a lexeme. -/
inductive Token.Spelled : List Char → Token → Prop
  | matcher {chars : List Char} {m : Matcher} (h : m.Spelled chars) : Spelled chars m.token
  | openGroup : Spelled ['('] .openGroup
  | closeGroup : Spelled [')'] .closeGroup
  | bar : Spelled ['|'] .bar
  | quantifier (q : Quantifier) : Spelled [q.symbol] (.quantifier q)

/-- `chars`, which stand at `position`, begin with a fault that shows in them alone, whatever has
been read before them. -/
inductive Rejection.Shows (position : Nat) : List Char → Rejection → Prop
  | trailingBackslash : Shows position ['\\'] ⟨.trailingBackslash, position⟩
  | set {chars : List Char} {r : Rejection} (h : InSet position [] (position + 1) chars r)
      (hcaret : chars.head? ≠ some '^') : Shows position ('[' :: chars) r
  | negatedSet {chars : List Char} {r : Rejection} (h : InSet position [] (position + 2) chars r) :
      Shows position ('[' :: '^' :: chars) r

namespace Token

theorem plain_symbol (q : Quantifier) : plain q.symbol = .quantifier q := by
  simp [plain]

theorem plain_of_notMem {c : Char} (h : c ∉ specials) : plain c = .single (.literal c) := by
  have hq : Quantifier.ofSymbol? c = none := by
    cases hq : Quantifier.ofSymbol? c with
    | none => rfl
    | some q =>
      rw [Quantifier.ofSymbol?_eq_some_iff.1 hq] at h
      cases q <;> simp [specials, Quantifier.symbol] at h
  simp only [specials, List.mem_cons, not_or] at h
  simp [plain, hq, h]

theorem escaped_letter (s : Shorthand) : escaped s.letter = .single (.shorthand s) := by
  simp [escaped]

theorem escaped_of_ne {c : Char} (hc : ∀ s : Shorthand, c ≠ s.letter) :
    escaped c = if '1' ≤ c ∧ c ≤ '9' then .backreference (c.toNat - '0'.toNat)
      else .single (.literal c) := by
  simp [escaped, Lexeme.ofLetter?_eq_none hc]

end Token

namespace Lexeme

theorem scan_plain {c : Char} (hescape : c ≠ '\\') (hopen : c ≠ '[') (position : Nat)
    (rest : List Char) :
    scan position (c :: rest) = ⟨position, .plain c⟩ :: scan (position + 1) rest := by
  rw [scan.eq_6]
  · exact fun h _ => hescape h
  · exact fun _ _ h _ => hescape h
  · exact fun _ h _ => hopen h
  · exact hopen

theorem scan_set {rest : List Char} (hcaret : rest.head? ≠ some '^') (position : Nat) :
    scan position ('[' :: rest) = scanSet position false [] (position + 1) rest := by
  rw [scan.eq_5]
  rintro after rfl
  exact hcaret rfl

/-- **The scanner cuts lexemes off as they are spelled.** -/
theorem scan_spelled {chars : List Char} {token : Token} (h : token.Spelled chars) (position : Nat)
    (rest : List Char) :
    scan position (chars ++ rest) = ⟨position, token⟩ :: scan (position + chars.length) rest := by
  cases h with
  | matcher h =>
    cases h with
    | any => exact scan_plain (by decide) (by decide) position rest
    | @literal c hc =>
      have hescape : c ≠ '\\' := fun h => hc (by simp [h, specials])
      have hopen : c ≠ '[' := fun h => hc (by simp [h, specials])
      rw [List.singleton_append, scan_plain hescape hopen, Token.plain_of_notMem hc]
      rfl
    | shorthand s =>
      simp only [List.cons_append, List.nil_append, scan.eq_3, Token.escaped_letter]
      rfl
    | escaped hc hdigit =>
      simp only [List.cons_append, List.nil_append, scan.eq_3, Token.escaped_of_ne hc,
        if_neg hdigit]
      rfl
    | @backref c group hdigit hgroup =>
      have hnumber : c.toNat - '0'.toNat = group + 1 := by
        rw [hgroup, show '1'.toNat = '0'.toNat + 1 from rfl]
        omega
      simp only [List.cons_append, List.nil_append, scan.eq_3, if_pos hdigit, hnumber,
        Token.escaped_of_ne (Shorthand.letter_ne_of_digit hdigit)]
      rfl
    | @set chars members items hne hcaret =>
      have hcaret' : (chars ++ ']' :: rest).head? ≠ some '^' := by
        rwa [List.head?_append_of_ne_nil _ hne]
      have hlength : position + ('[' :: chars ++ [']']).length =
          position + 1 + (chars.length + 1) := by
        simp only [List.cons_append, List.length_cons, List.length_append, List.length_nil]
        omega
      rw [List.append_assoc, hlength]
      exact (scan_set hcaret' position).trans (scanSet_of_items items hne rest)
    | @negatedSet chars members items hne =>
      have hlength : position + ('[' :: '^' :: chars ++ [']']).length =
          position + 2 + (chars.length + 1) := by
        simp only [List.cons_append, List.length_cons, List.length_append, List.length_nil]
        omega
      rw [List.append_assoc, hlength]
      exact (scan.eq_4 position _).trans (scanSet_of_items items hne rest)
  | openGroup => exact scan_plain (by decide) (by decide) position rest
  | closeGroup => exact scan_plain (by decide) (by decide) position rest
  | bar => exact scan_plain (by decide) (by decide) position rest
  | quantifier q =>
    rw [List.singleton_append, scan_plain, Token.plain_symbol]
    · rfl
    · cases q <;> decide
    · cases q <;> decide

/-- What a plain character says is spelled so, wherever it is no beginning of something longer. -/
theorem spelled_plain {c : Char} (hescape : c ≠ '\\') (hopen : c ≠ '[') :
    (Token.plain c).Spelled [c] := by
  by_cases hspecial : c ∈ specials
  · simp only [specials, List.mem_cons, List.not_mem_nil, or_false] at hspecial
    rcases hspecial with rfl | rfl | rfl | rfl | rfl | rfl | rfl | rfl | rfl
    · exact .openGroup
    · exact .closeGroup
    · exact absurd rfl hopen
    · exact .bar
    · exact absurd rfl hescape
    · exact .matcher .any
    · exact .quantifier .optional
    · exact .quantifier .plus
    · exact .quantifier .star
  · rw [Token.plain_of_notMem hspecial]
    exact .matcher (.literal hspecial)

theorem spelled_escaped (c : Char) : (Token.escaped c).Spelled ['\\', c] := by
  by_cases hletter : ∃ s : Shorthand, c = s.letter
  · obtain ⟨s, rfl⟩ := hletter
    rw [Token.escaped_letter]
    exact .matcher (.shorthand s)
  · have hletter : ∀ s : Shorthand, c ≠ s.letter := not_exists.1 hletter
    rw [Token.escaped_of_ne hletter]
    by_cases hdigit : '1' ≤ c ∧ c ≤ '9'
    · have hle : '1'.toNat ≤ c.toNat := hdigit.1
      have hgroup : c.toNat = '1'.toNat + (c.toNat - '1'.toNat) := by omega
      have htoken : c.toNat - '0'.toNat = c.toNat - '1'.toNat + 1 := by
        rw [show '1'.toNat = '0'.toNat + 1 from rfl] at hle ⊢
        omega
      rw [if_pos hdigit, htoken]
      exact .matcher (.backref hdigit hgroup)
    · rw [if_neg hdigit]
      exact .matcher (.escaped hletter hdigit)

/-- What the scanner finds at a bracket: a set, or a fault. -/
theorem scan_bracket (position : Nat) (rest : List Char) :
    (∃ spelling m after, Matcher.Spelled spelling m ∧ spelling ≠ [] ∧
      '[' :: rest = spelling ++ after) ∨
    ∃ r, Rejection.Shows position ('[' :: rest) r ∧ scan position ('[' :: rest) = [r.lexeme] := by
  by_cases hcaret : rest.head? = some '^'
  · obtain ⟨chars, rfl⟩ := List.head?_eq_some_iff.1 hcaret
    rcases items_or_fault position true [] (position + 2) chars with ⟨r, hr, hscan⟩ | hitems
    · rw [scan.eq_4]
      exact .inr ⟨r, .negatedSet hr, hscan⟩
    · obtain ⟨items, added, after, h, rfl, hne⟩ := hitems
      refine .inl ⟨'[' :: '^' :: items ++ [']'], _, after, .negatedSet h fun hnil => hne hnil rfl,
        List.cons_ne_nil _ _, ?_⟩
      rw [List.append_assoc]
      rfl
  · rcases items_or_fault position false [] (position + 1) rest with ⟨r, hr, hscan⟩ | hitems
    · rw [scan_set hcaret]
      exact .inr ⟨r, .set hr hcaret, hscan⟩
    · obtain ⟨items, added, after, h, rfl, hne⟩ := hitems
      have hne : items ≠ [] := fun hnil => hne hnil rfl
      rw [List.head?_append_of_ne_nil _ hne] at hcaret
      refine .inl ⟨'[' :: items ++ [']'], _, after, .set h hne hcaret, List.cons_ne_nil _ _, ?_⟩
      rw [List.append_assoc]
      rfl

/-- **Whatever the scanner cuts off is spelled so**, or is a fault. -/
theorem scan_cases (position : Nat) (chars : List Char) :
    chars = [] ∨
      (∃ spelling token rest, Token.Spelled spelling token ∧ spelling ≠ [] ∧
        chars = spelling ++ rest) ∨
      ∃ r, Rejection.Shows position chars r ∧ scan position chars = [r.lexeme] := by
  match chars with
  | [] => exact .inl rfl
  | c :: rest =>
    refine .inr ?_
    by_cases hescape : c = '\\'
    · subst hescape
      match rest with
      | [] => exact .inr ⟨_, .trailingBackslash, scan.eq_2 _⟩
      | c :: rest =>
        exact .inl ⟨['\\', c], _, rest, spelled_escaped c, List.cons_ne_nil _ _, rfl⟩
    by_cases hopen : c = '['
    · subst hopen
      refine (scan_bracket position rest).imp_left ?_
      rintro ⟨spelling, m, after, h, hne, heq⟩
      exact ⟨spelling, m.token, after, .matcher h, hne, heq⟩
    exact .inl ⟨[c], _, rest, spelled_plain hescape hopen, List.cons_ne_nil _ _, rfl⟩

/-- Induction over characters as the scanner cuts them: lexeme by lexeme, up to their end or to a
fault. -/
@[elab_as_elim]
theorem scan_induction {motive : Nat → List Char → Prop} (nil : ∀ position, motive position [])
    (lexeme : ∀ position spelling token rest, Token.Spelled spelling token →
      motive (position + spelling.length) rest → motive position (spelling ++ rest))
    (fault : ∀ position chars r, Rejection.Shows position chars r →
      scan position chars = [r.lexeme] → motive position chars)
    (position : Nat) (chars : List Char) : motive position chars := by
  induction hlength : chars.length using Nat.strong_induction_on generalizing position chars with
  | h length ih =>
    rcases scan_cases position chars with rfl | ⟨spelling, token, rest, hspelled, hne, rfl⟩ |
      ⟨r, hr, hscan⟩
    · exact nil position
    · have hshorter : rest.length < length := by
        have hpos : 0 < spelling.length := List.length_pos_iff.2 hne
        rw [List.length_append] at hlength
        omega
      exact lexeme position spelling token rest hspelled (ih _ hshorter _ rest rfl)
    · exact fault position chars r hr hscan

end Lexeme

end PatternSearch
