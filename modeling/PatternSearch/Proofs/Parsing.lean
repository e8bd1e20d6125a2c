import PatternSearch.Proofs.Grammar
import PatternSearch.Proofs.Numbering

/-!
# The reader and the grammar

A pattern is read exactly when the grammar writes it, and what is read is the tree that the grammar
writes (`Pattern.parse_eq_ok_iff`); so the grammar writes at most one.

That the reader takes what is written goes by the tree: reading the characters of a term, in
whatever comes after them, adds the term to the level (`Term.Written.leads`). That what the reader
takes is written goes by the lexemes. What has been read is then a written beginning of a choice in
each group that is open (`Level.Begun`, `Enclosed`), every lexeme makes a longer beginning of it
(`Reading.Begun.read`), and at the end it is a written choice.
-/

namespace PatternSearch

/-! ## A quantifier belongs to the term before it -/

theorem Quantifier.symbol_mem_specials (q : Quantifier) : q.symbol ∈ specials := by
  cases q <;> decide

/-- No matcher begins with a quantifier. -/
theorem Matcher.Spelled.head_ne_symbol {chars : List Char} {m : Matcher} (h : m.Spelled chars) :
    ∃ c rest, chars = c :: rest ∧ ∀ q : Quantifier, c ≠ q.symbol := by
  have hne : ∀ c ∈ ['.', '\\', '['], ∀ q : Quantifier, c ≠ q.symbol := by
    intro c hc q
    simp only [List.mem_cons, List.not_mem_nil, or_false] at hc
    rcases hc with rfl | rfl | rfl <;> cases q <;> decide
  cases h with
  | any => exact ⟨_, _, rfl, hne _ (by simp)⟩
  | literal hc => exact ⟨_, _, rfl, fun q heq => hc (heq ▸ q.symbol_mem_specials)⟩
  | shorthand s => exact ⟨_, _, rfl, hne _ (by simp)⟩
  | escaped => exact ⟨_, _, rfl, hne _ (by simp)⟩
  | backref => exact ⟨_, _, rfl, hne _ (by simp)⟩
  | set => exact ⟨_, _, rfl, hne _ (by simp)⟩
  | negatedSet => exact ⟨_, _, rfl, hne _ (by simp)⟩

theorem Term.Written.head_ne_symbol {enclosing : List Nat} {opened opened' : Nat}
    {chars : List Char} : {t : Term} → Term.Written enclosing opened chars t opened' →
      ∃ c rest, chars = c :: rest ∧ ∀ q : Quantifier, c ≠ q.symbol
  | .atom _, .atom h _ => h.head_ne_symbol
  | .group _ _, .group _ => ⟨_, _, rfl, fun q => by cases q <;> decide⟩
  | .quantified _ _, .quantified q h => by
    obtain ⟨c, rest, rfl, hne⟩ := h.head_ne_symbol
    exact ⟨c, rest ++ [q.symbol], rfl, hne⟩

/-- **The quantifiers after a term are all its own**: none of them begins what is written after it
in its branch. -/
theorem Branch.Written.head_ne_symbol {enclosing : List Nat} {opened opened' : Nat}
    {chars : List Char} {b : Branch} (h : Branch.Written enclosing opened chars b opened')
    (q : Quantifier) : chars.head? ≠ some q.symbol := by
  cases h with
  | nil => exact fun h => nomatch h
  | cons ht hrest =>
    obtain ⟨c, rest, rfl, hne⟩ := ht.head_ne_symbol
    exact fun h => hne q (Option.some.inj h)

/-! ## A level and what follows it -/

/-- A choice with one more term at the very front. -/
def Choice.prepend (c : Choice) (t : Term) : Choice :=
  match c with
  | .only b => .only (.cons t b)
  | .or b rest => .or (.cons t b) rest

theorem Choice.Written.prepend {enclosing : List Nat} {opened opened' opened'' : Nat}
    {chars chars' : List Char} {t : Term} {c : Choice}
    (ht : Term.Written enclosing opened chars t opened')
    (hc : Choice.Written enclosing opened' chars' c opened'') :
    Choice.Written enclosing opened (chars ++ chars') (c.prepend t) opened'' := by
  cases hc with
  | only hb => exact .only (.cons ht hb)
  | or hb hrest =>
    rw [← List.append_assoc]
    exact .or (.cons ht hb) hrest

namespace Level

/-- What has been read of a choice, with the rest of it after that. The first branch of the rest
goes on with the branch that is being read. -/
def before (level : Level) (c : Choice) : Choice :=
  level.branches.foldl (fun c b => Choice.or b c) (level.terms.foldl Choice.prepend c)

theorem foldl_prepend_only (terms : List Term) (b : Branch) :
    terms.foldl Choice.prepend (.only b) = .only (terms.foldl (fun b t => Branch.cons t b) b) := by
  induction terms generalizing b with
  | nil => rfl
  | cons t terms ih => exact ih (.cons t b)

theorem foldl_prepend_or (terms : List Term) (b : Branch) (rest : Choice) :
    terms.foldl Choice.prepend (.or b rest) =
      .or (terms.foldl (fun b t => Branch.cons t b) b) rest := by
  induction terms generalizing b with
  | nil => rfl
  | cons t terms ih => exact ih (.cons t b)

theorem branch_eq_foldl (level : Level) :
    level.branch = level.terms.foldl (fun b t => Branch.cons t b) .nil := by
  have hofList : ∀ l, Branch.ofList l = l.foldr Branch.cons .nil := by
    intro l
    induction l with
    | nil => rfl
    | cons t l ih => rw [Branch.ofList, ih, List.foldr_cons]
  rw [branch, hofList, List.foldr_reverse]

/-- A choice has been read when nothing comes after what has been read of it. -/
theorem before_nil (level : Level) : level.before (.only .nil) = level.choice := by
  rw [before, foldl_prepend_only, ← branch_eq_foldl, choice, Choice.ofList, List.foldr_reverse]

theorem before_push (level : Level) (t : Term) (c : Choice) :
    (level.push t).before c = level.before (c.prepend t) := rfl

theorem before_bar (level : Level) (c : Choice) :
    level.bar.before c = level.before (.or .nil c) := by
  rw [before, before, foldl_prepend_or, ← branch_eq_foldl]
  rfl

/-- The terms of a branch, read one after the other. -/
def pushAll (level : Level) : Branch → Level
  | .nil => level
  | .cons t rest => (level.push t).pushAll rest

/-- The rest of a choice, read to its end. -/
def readOn (level : Level) : Choice → Level
  | .only b => level.pushAll b
  | .or b rest => (level.pushAll b).bar.readOn rest

theorem before_pushAll (around : Branch → Choice)
    (h : ∀ b t, (around b).prepend t = around (.cons t b)) (level : Level) (b : Branch) :
    (level.pushAll b).before (around .nil) = level.before (around b) := by
  cases b with
  | nil => rfl
  | cons t b =>
    calc ((level.push t).pushAll b).before (around .nil)
        = (level.push t).before (around b) := before_pushAll around h _ b
      _ = level.before ((around b).prepend t) := before_push level t _
      _ = level.before (around (.cons t b)) := by rw [h]

theorem choice_readOn (level : Level) (c : Choice) :
    (level.readOn c).choice = level.before c := by
  cases c with
  | only b =>
    rw [readOn, ← before_nil]
    exact before_pushAll .only (fun _ _ => rfl) level b
  | or b rest =>
    rw [readOn, choice_readOn _ rest, before_bar]
    exact before_pushAll (.or · rest) (fun _ _ => rfl) level b

end Level

/-! ## Reading what is written -/

namespace Reading

theorem isClosed_iff {r : Reading} {group : Nat} :
    r.isClosed group = true ↔ group < r.groups ∧ group ∉ r.enclosing.map (·.index) := by
  have hall : r.enclosing.all (·.index != group) = true ↔ group ∉ r.enclosing.map (·.index) := by
    rw [List.all_eq_true, List.mem_map, not_exists]
    exact forall_congr' fun g => by rw [bne_iff_ne, ne_eq, not_and]
  rw [isClosed, Bool.and_eq_true, decide_eq_true_iff, hall]

/-- A matcher is read wherever it can stand. -/
theorem read_token {r next : Reading} {m : Matcher} {position : Nat} :
    r.read ⟨position, m.token⟩ = .ok next ↔
      m.CanStand (r.enclosing.map (·.index)) r.groups ∧ r.push (.atom m) = next := by
  cases m with
  | backref group =>
    have hstand : (Matcher.backref group).CanStand (r.enclosing.map (·.index)) r.groups ↔
        r.isClosed group = true := by
      rw [isClosed_iff]
      refine ⟨fun h => h group rfl, fun h group' heq => ?_⟩
      cases heq
      exact h
    rw [hstand]
    simp only [Matcher.token, read, Nat.add_sub_cancel]
    by_cases hclosed : r.isClosed group = true
    · rw [if_pos hclosed, Except.ok.injEq, and_iff_right hclosed]
    · rw [if_neg hclosed]
      exact ⟨fun h => (nomatch h), fun h => absurd h.1 hclosed⟩
  | _ =>
    refine ⟨fun h => ⟨fun _ heq => (nomatch heq), Except.ok.inj h⟩, fun h => ?_⟩
    rw [← h.2]
    rfl

/-- A parenthesis that is read closes the innermost group. -/
theorem read_closeGroup {r next : Reading} {position : Nat}
    (h : r.read ⟨position, .closeGroup⟩ = .ok next) :
    ∃ g rest, r.enclosing = g :: rest ∧
      { r with level := g.outer.push (.group g.index r.level.choice), enclosing := rest } =
        next := by
  simp only [read, closeGroup?] at h
  cases henclosing : r.enclosing with
  | nil =>
    rw [henclosing] at h
    cases h
  | cons g rest =>
    rw [henclosing] at h
    exact ⟨g, rest, rfl, Except.ok.inj h⟩

/-- A quantifier that is read repeats the last term. -/
theorem read_quantifier {r next : Reading} {q : Quantifier} {position : Nat}
    (h : r.read ⟨position, .quantifier q⟩ = .ok next) :
    ∃ level, r.level.quantify? q = some level ∧ { r with level } = next := by
  simp only [read] at h
  cases hquantify : r.level.quantify? q with
  | none =>
    rw [hquantify] at h
    cases h
  | some level =>
    rw [hquantify] at h
    exact ⟨level, rfl, Except.ok.inj h⟩

/-- Reading `chars` at `position` leads from one reading to another, whatever comes after them. -/
def Leads (position : Nat) (chars : List Char) (r next : Reading) : Prop :=
  ∀ rest, (Lexeme.scan position (chars ++ rest)).foldlM read r =
    (Lexeme.scan (position + chars.length) rest).foldlM read next

namespace Leads

variable {r next last : Reading} {position : Nat} {chars chars' : List Char}

theorem refl (position : Nat) (r : Reading) : Leads position [] r r := fun _ => rfl

theorem trans (h : Leads position chars r next)
    (h' : Leads (position + chars.length) chars' next last) :
    Leads position (chars ++ chars') r last := by
  intro rest
  rw [List.append_assoc, h, h', List.length_append, Nat.add_assoc]

theorem of_spelled {token : Token} (h : token.Spelled chars)
    (hread : r.read ⟨position, token⟩ = .ok next) : Leads position chars r next := by
  intro rest
  rw [Lexeme.scan_spelled h, List.foldlM_cons, hread]
  rfl

end Leads

end Reading

mutual

/-- **A written term is read**, into whatever has been read before it. -/
theorem Term.Written.leads {enclosing : List Nat} {opened opened' : Nat} {chars : List Char}
    {t : Term} (h : Term.Written enclosing opened chars t opened') {r : Reading}
    (henclosing : r.enclosing.map (·.index) = enclosing) (hgroups : r.groups = opened)
    (position : Nat) :
    Reading.Leads position chars r { r with groups := opened', level := r.level.push t } := by
  match h with
  | .atom hspelled hstand =>
    subst henclosing hgroups
    exact .of_spelled (.matcher hspelled) (Reading.read_token.2 ⟨hstand, rfl⟩)
  | @Term.Written.group _ _ _ _ body hbody =>
    have hopen : Reading.Leads position ['('] r (r.openGroup position) := .of_spelled .openGroup rfl
    have hread := hbody.leads (r := r.openGroup position)
      (by rw [← henclosing, ← hgroups]; rfl) (by rw [← hgroups]; rfl) (position + 1)
    refine (hopen.trans hread).trans (.of_spelled .closeGroup ?_)
    have hchoice : (({} : Level).readOn body).choice = body := Level.choice_readOn {} body
    simp only [Reading.read, Reading.closeGroup?, Reading.openGroup, hchoice, hgroups]
  | .quantified q ht =>
    exact (ht.leads henclosing hgroups position).trans (.of_spelled (.quantifier q) rfl)

theorem Branch.Written.leads {enclosing : List Nat} {opened opened' : Nat} {chars : List Char}
    {b : Branch} (h : Branch.Written enclosing opened chars b opened') {r : Reading}
    (henclosing : r.enclosing.map (·.index) = enclosing) (hgroups : r.groups = opened)
    (position : Nat) :
    Reading.Leads position chars r { r with groups := opened', level := r.level.pushAll b } := by
  match h with
  | .nil =>
    subst hgroups
    exact .refl position r
  | .cons ht hrest =>
    refine (ht.leads henclosing hgroups position).trans (hrest.leads ?_ rfl _)
    exact henclosing

theorem Choice.Written.leads {enclosing : List Nat} {opened opened' : Nat} {chars : List Char}
    {c : Choice} (h : Choice.Written enclosing opened chars c opened') {r : Reading}
    (henclosing : r.enclosing.map (·.index) = enclosing) (hgroups : r.groups = opened)
    (position : Nat) :
    Reading.Leads position chars r { r with groups := opened', level := r.level.readOn c } := by
  match h with
  | .only hb => exact hb.leads henclosing hgroups position
  | .or hb hrest =>
    have hbar := (hb.leads henclosing hgroups position).trans (.of_spelled .bar rfl)
    rw [List.append_cons]
    refine hbar.trans (hrest.leads ?_ rfl _)
    exact henclosing

end

/-! ## What has been read is written -/

/-- `chars` are the beginning of a choice that has been read as far as the level says, where the
groups `enclosing` are open, `opened` groups have been opened before it and `opened'` so far. -/
inductive Level.Begun (enclosing : List Nat) (opened : Nat) : List Char → Level → Nat → Prop
  | empty : Begun enclosing opened [] {} opened
  | push {opened' opened'' : Nat} {chars chars' : List Char} {level : Level} {t : Term}
      (h : Begun enclosing opened chars level opened')
      (ht : Term.Written enclosing opened' chars' t opened'') :
      Begun enclosing opened (chars ++ chars') (level.push t) opened''
  | bar {opened' : Nat} {chars : List Char} {level : Level}
      (h : Begun enclosing opened chars level opened') :
      Begun enclosing opened (chars ++ ['|']) level.bar opened'

namespace Level.Begun

variable {enclosing : List Nat} {opened opened' opened'' : Nat} {chars chars' : List Char}
  {level : Level}

theorem quantify (h : Begun enclosing opened chars level opened') {q : Quantifier} {next : Level}
    (hnext : level.quantify? q = some next) :
    Begun enclosing opened (chars ++ [q.symbol]) next opened' := by
  cases h with
  | empty => cases hnext
  | bar => cases hnext
  | push h ht =>
    cases hnext
    rw [List.append_assoc]
    exact .push h (.quantified q ht)

/-- A beginning of a choice and a rest of it make a choice. -/
theorem written (h : Begun enclosing opened chars level opened') {c : Choice}
    (hc : Choice.Written enclosing opened' chars' c opened'') :
    Choice.Written enclosing opened (chars ++ chars') (level.before c) opened'' := by
  induction h generalizing c chars' with
  | empty => exact hc
  | push h ht ih =>
    rw [List.append_assoc]
    exact ih (hc.prepend ht)
  | bar h ih =>
    rw [List.append_assoc, Level.before_bar]
    exact ih (.or .nil hc)

theorem written_choice (h : Begun enclosing opened chars level opened') :
    Choice.Written enclosing opened chars level.choice opened' := by
  rw [← Level.before_nil, ← List.append_nil chars]
  exact h.written (.only .nil)

end Level.Begun

/-- `chars` lead into the groups that are open, as far as the last parenthesis of them. -/
inductive Enclosed : List OpenGroup → List Char → Nat → Prop
  | nil : Enclosed [] [] 0
  | cons {g : OpenGroup} {rest : List OpenGroup} {chars chars' : List Char} {opened : Nat}
      (h : Enclosed rest chars opened)
      (houter : g.outer.Begun (rest.map (·.index)) opened chars' g.index) :
      Enclosed (g :: rest) (chars ++ chars' ++ ['(']) (g.index + 1)

namespace Reading

/-- `chars` are the beginning of a pattern that has been read so far. -/
def Begun (r : Reading) (chars : List Char) : Prop :=
  ∃ before own opened, chars = before ++ own ∧ Enclosed r.enclosing before opened ∧
    r.level.Begun (r.enclosing.map (·.index)) opened own r.groups

/-- **Reading a lexeme makes a longer beginning.** -/
theorem Begun.read {r next : Reading} {chars spelling : List Char} {token : Token} {position : Nat}
    (h : r.Begun chars) (hspelled : token.Spelled spelling)
    (hread : r.read ⟨position, token⟩ = .ok next) : next.Begun (chars ++ spelling) := by
  obtain ⟨before, own, opened, rfl, hbefore, hown⟩ := h
  cases hspelled with
  | matcher hm =>
    obtain ⟨hstand, rfl⟩ := read_token.1 hread
    exact ⟨before, _, opened, List.append_assoc _ _ _, hbefore, hown.push (.atom hm hstand)⟩
  | openGroup =>
    cases hread
    exact ⟨_, [], _, (List.append_nil _).symm, hbefore.cons hown, .empty⟩
  | closeGroup =>
    obtain ⟨g, rest, henclosing, rfl⟩ := read_closeGroup hread
    rw [henclosing] at hbefore hown
    cases hbefore with
    | cons hbefore houter =>
      refine ⟨_, _, _, ?_, hbefore, houter.push (.group hown.written_choice)⟩
      simp only [List.append_assoc, List.cons_append, List.nil_append]
  | bar =>
    cases hread
    exact ⟨before, _, opened, List.append_assoc _ _ _, hbefore, hown.bar⟩
  | quantifier q =>
    obtain ⟨level, hquantify, rfl⟩ := read_quantifier hread
    exact ⟨before, _, opened, List.append_assoc _ _ _, hbefore, hown.quantify hquantify⟩

/-- **What has been read to its end is the beginning of a pattern.** -/
theorem Begun.foldlM_read {r last : Reading} {before chars : List Char} {position : Nat}
    (h : r.Begun before) (hread : (Lexeme.scan position chars).foldlM Reading.read r = .ok last) :
    last.Begun (before ++ chars) := by
  induction position, chars using Lexeme.scan_induction generalizing r before with
  | nil position =>
    cases hread
    rwa [List.append_nil]
  | lexeme position spelling token rest hspelled ih =>
    rw [Lexeme.scan_spelled hspelled, List.foldlM_cons] at hread
    obtain ⟨next, hnext, hread⟩ := Except.bind_eq_ok hread
    rw [← List.append_assoc]
    exact ih (h.read hspelled hnext) hread
  | fault position chars rejection _ hscan =>
    rw [hscan] at hread
    cases hread

end Reading

/-- What is read, the grammar writes. -/
theorem Pattern.written_of_parse {source : String} {p : Pattern}
    (h : Pattern.parse source = .ok p) :
    p.anchor = (Anchor.strip source.toList).1 ∧
      Choice.Written [] 0 (Anchor.strip source.toList).2 p.body p.groupCount := by
  obtain ⟨r, hread, hanchor, henclosing, hbody, hcount⟩ := reading_of_parse h
  have hempty : Reading.Begun {} [] := ⟨[], [], 0, rfl, .nil, .empty⟩
  obtain ⟨before, own, opened, heq, hbefore, hown⟩ := hempty.foldlM_read hread
  rw [henclosing] at hbefore hown
  cases hbefore
  rw [List.nil_append, List.nil_append] at heq
  rw [heq, hbody, hcount]
  exact ⟨hanchor, hown.written_choice⟩

/-- What the grammar writes is read. -/
theorem Pattern.parse_of_written {source : String} {p : Pattern}
    (hanchor : p.anchor = (Anchor.strip source.toList).1)
    (hwritten : Choice.Written [] 0 (Anchor.strip source.toList).2 p.body p.groupCount) :
    Pattern.parse source = .ok p := by
  have hleads := hwritten.leads (r := {}) rfl rfl (Anchor.strip source.toList).1.width []
  rw [List.append_nil, Lexeme.scan, List.foldlM_nil] at hleads
  have hchoice : (({} : Level).readOn p.body).choice = p.body := Level.choice_readOn {} p.body
  simp only [parse, readBody, hleads]
  calc (Except.ok ⟨(Anchor.strip source.toList).1, (({} : Level).readOn p.body).choice,
          p.groupCount⟩ : Except Rejection Pattern)
      = .ok p := by rw [hchoice, ← hanchor]

/-- **A pattern is read exactly when the grammar writes it**, and it is read as the tree and the
number of groups that the grammar gives it, with the anchors that stand at its ends. -/
theorem Pattern.parse_eq_ok_iff (source : String) (p : Pattern) :
    Pattern.parse source = .ok p ↔
      p.anchor = (Anchor.strip source.toList).1 ∧
        Choice.Written [] 0 (Anchor.strip source.toList).2 p.body p.groupCount :=
  ⟨written_of_parse, fun ⟨hanchor, hwritten⟩ => parse_of_written hanchor hwritten⟩

end PatternSearch
