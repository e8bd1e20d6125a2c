import PatternSearch.Automaton.Listing
import PatternSearch.Proofs.RoundTrip
import PatternSearch.Regex

/-!
# What can be read off a listing

A listing says everything about an automaton: its states in order, what reaching them means, and
their edges in order (`Automaton.listing_eq_iff`). It can be taken apart again as no line contains a
line feed, only the lines of edges are indented, and the last `s` of such a line belongs to the name
of a state.

Of a matcher there is only the spelling. Spelled characters can be read back one after the other
(`Text.unescape_escape`), so a spelling stands for one matcher only, but for one thing: the caret
that says that a set is a complement looks like a caret that is a member
(`Matcher.display_eq_iff`). Automata without a set that begins with a caret and has other members
are told apart by their listings (`Regex.listing_legible`).
-/

namespace PatternSearch

/-! ## Cutting lists at an element -/

section Cut

variable {α : Type} {a : α} {l l' r r' : List α}

/-- Lists that are cut at the first `a` have the same parts if they are the same. -/
theorem append_cons_inj_of_first (hl : a ∉ l) (hl' : a ∉ l') (h : l ++ a :: r = l' ++ a :: r') :
    l = l' ∧ r = r' := by
  induction l generalizing l' with
  | nil =>
    cases l' with
    | nil => exact ⟨rfl, (List.cons.inj h).2⟩
    | cons b l' => exact absurd ((List.cons.inj h).1 ▸ List.mem_cons_self) hl'
  | cons b l ih =>
    cases l' with
    | nil => exact absurd ((List.cons.inj h).1 ▸ List.mem_cons_self) hl
    | cons b' l' =>
      obtain ⟨rfl, htail⟩ := List.cons.inj h
      obtain ⟨rfl, hr⟩ := ih (fun ha => hl (List.mem_cons_of_mem _ ha))
        (fun ha => hl' (List.mem_cons_of_mem _ ha)) htail
      exact ⟨rfl, hr⟩

/-- Lists that are cut at the last `a` have the same parts if they are the same. -/
theorem append_cons_inj_of_last (hr : a ∉ r) (hr' : a ∉ r') (h : l ++ a :: r = l' ++ a :: r') :
    l = l' ∧ r = r' := by
  have hreverse : r.reverse ++ a :: l.reverse = r'.reverse ++ a :: l'.reverse := by
    simpa using congrArg List.reverse h
  obtain ⟨hr, hl⟩ := append_cons_inj_of_first (by simpa using hr) (by simpa using hr') hreverse
  exact ⟨List.reverse_injective hl, List.reverse_injective hr⟩

end Cut

/-- Lists with the same images are the same if their elements can be told apart by their images. -/
theorem eq_of_map_eq {α β : Type} {f : α → β} {l l' : List α}
    (hinj : ∀ a ∈ l, ∀ b ∈ l', f a = f b → a = b) (h : l.map f = l'.map f) : l = l' := by
  induction l generalizing l' with
  | nil => exact (List.map_eq_nil_iff.1 h.symm).symm
  | cons a l ih =>
    cases l' with
    | nil => cases h
    | cons b l' =>
      obtain ⟨hhead, htail⟩ := List.cons.inj h
      have htails : ∀ c ∈ l, ∀ d ∈ l', f c = f d → c = d :=
        fun c hc d hd => hinj c (List.mem_cons_of_mem _ hc) d (List.mem_cons_of_mem _ hd)
      rw [hinj a List.mem_cons_self b List.mem_cons_self hhead, ih htails htail]

/-! ## Numbers -/

theorem toDigits_inj {m n : Nat} : Nat.toDigits 10 m = Nat.toDigits 10 n ↔ m = n := by
  refine ⟨fun h => ?_, congrArg (Nat.toDigits 10)⟩
  rw [← @Nat.ofDigitChars_ten_toDigits m, h, Nat.ofDigitChars_ten_toDigits]

theorem not_mem_toDigits {n : Nat} {c : Char} (hc : c.isDigit = false) :
    c ∉ Nat.toDigits 10 n := by
  intro h
  have hdigit := Nat.isDigit_of_mem_toDigits (by decide) (by decide) h
  rw [hc] at hdigit
  cases hdigit

namespace Text

/-- What a hexadecimal digit in lower case stands for. -/
def hexValue (c : Char) : Nat :=
  if c.isDigit then c.toNat - '0'.toNat else c.toNat - 'a'.toNat + 10

/-- The number that hexadecimal digits stand for. -/
def ofHex (digits : List Char) : Nat :=
  digits.foldl (fun n c => 16 * n + hexValue c) 0

theorem hexValue_digitChar {d : Nat} (h : d < 16) : hexValue d.digitChar = d := by
  have hall : ∀ d < 16, hexValue (Nat.digitChar d) = d := by decide
  exact hall d h

/-- Hexadecimal digits can be read back. -/
theorem ofHex_toDigits (n : Nat) : ofHex (Nat.toDigits 16 n) = n := by
  induction n using Nat.base_induction 16 (by decide) with
  | single d hd => simp [Nat.toDigits_of_lt_base hd, ofHex, hexValue_digitChar hd]
  | digit n d hd hn ih =>
    rw [← Nat.toDigits_append_toDigits (by decide) hn hd, Nat.toDigits_of_lt_base hd, ofHex,
      List.foldl_append, ← ofHex, ih]
    simp [hexValue_digitChar hd]

/-- A character that is not a digit does not occur among the digits of a number. -/
theorem ne_of_mem_toDigits {n : Nat} {c d : Char} (hc : ∀ k, Nat.digitChar k ≠ c)
    (h : d ∈ Nat.toDigits 16 n) : d ≠ c := by
  induction n using Nat.base_induction 16 (by decide) with
  | single k hk =>
    rw [Nat.toDigits_of_lt_base hk, List.mem_singleton] at h
    exact h ▸ hc k
  | digit n k hk hn ih =>
    rw [← Nat.toDigits_append_toDigits (by decide) hn hk, Nat.toDigits_of_lt_base hk,
      List.mem_append, List.mem_singleton] at h
    exact h.elim ih fun hd => hd ▸ hc k

/-! ## Spelled characters -/

/-- What a backslash and the characters after it stand for, and what is left of them. -/
def readEscape : List Char → Option (Char × List Char)
  | [] => none
  | '0' :: rest => some ('\x00', rest)
  | 't' :: rest => some ('\t', rest)
  | 'n' :: rest => some ('\n', rest)
  | 'r' :: rest => some ('\r', rest)
  | 'u' :: '\x7b' :: rest =>
    some (.ofNat (ofHex (rest.takeWhile (· != '\x7d'))), (rest.dropWhile (· != '\x7d')).tail)
  | c :: rest => some (c, rest)

/-- The character that a text begins with the spelling of, and what comes after it. -/
def unescape : List Char → Option (Char × List Char)
  | [] => none
  | c :: rest => if c = '\\' then readEscape rest else some (c, rest)

section Escape

variable {quotes : List Char} (hquotes : ∀ c ∈ quotes, c = singleQuote ∨ c = doubleQuote)

include hquotes

/-- **A spelled character can be read back**, whatever comes after it. -/
theorem unescape_escape (c : Char) (rest : List Char) :
    unescape (escape quotes c ++ rest) = some (c, rest) := by
  fun_cases escape quotes c with
  | case1 | case2 | case3 | case4 | case5 => rfl
  | case6 c _ _ _ _ _ hquote =>
    rcases hquotes c hquote with rfl | rfl <;> rfl
  | case7 c _ _ _ _ hbackslash _ _ => exact if_neg hbackslash
  | case8 c =>
    have hdigits : ∀ d ∈ Nat.toDigits 16 c.toNat, (d != '\x7d') = true :=
      fun d hd => bne_iff_ne.2 (ne_of_mem_toDigits (fun k => Nat.digitChar_ne _ rfl) hd)
    simp [unescape, readEscape, List.takeWhile_append_of_pos hdigits,
      List.dropWhile_append_of_pos hdigits, ofHex_toDigits]

theorem feed_not_mem_escape (c : Char) : '\n' ∉ escape quotes c := by
  fun_cases escape quotes c with
  | case1 | case2 | case3 | case4 | case5 => decide
  | case6 c _ _ _ _ _ hquote => rcases hquotes c hquote with rfl | rfl <;> decide
  | case7 c _ _ hfeed => simpa using fun h => hfeed h.symm
  | case8 c =>
    have hdigits : '\n' ∉ Nat.toDigits 16 c.toNat := fun h =>
      ne_of_mem_toDigits (fun k => Nat.digitChar_ne _ rfl) h rfl
    simpa using hdigits

theorem flatMap_escape_inj {l l' : List Char}
    (h : l.flatMap (escape quotes) = l'.flatMap (escape quotes)) : l = l' := by
  have hread (c : Char) (l : List Char) :
      unescape ((c :: l).flatMap (escape quotes)) = some (c, l.flatMap (escape quotes)) := by
    rw [List.flatMap_cons, unescape_escape hquotes]
  induction l generalizing l' with
  | nil =>
    cases l' with
    | nil => rfl
    | cons c l' =>
      have hnone := hread c l'
      rw [← h] at hnone
      cases hnone
  | cons c l ih =>
    have hfirst := hread c l
    rw [h] at hfirst
    cases l' with
    | nil => cases hfirst
    | cons c' l' =>
      rw [hread, Option.some.injEq, Prod.mk.injEq] at hfirst
      rw [hfirst.1, ih hfirst.2.symm]

end Escape

theorem mem_singleQuote : ∀ c ∈ [singleQuote], c = singleQuote ∨ c = doubleQuote :=
  List.forall_mem_singleton.2 (.inl rfl)

theorem mem_quotes : ∀ c ∈ [singleQuote, doubleQuote], c = singleQuote ∨ c = doubleQuote :=
  List.forall_mem_cons.2 ⟨.inl rfl, List.forall_mem_singleton.2 (.inr rfl)⟩

/-- A caret is spelled as it is. -/
theorem bareChar_caret : bareChar '^' = ['^'] := by
  decide +kernel

end Text

/-! ## Matchers -/

/-- What a set is spelled as between the brackets: its members, after a caret if it is a complement.
-/
def CharSet.inscription (s : CharSet) : List Char :=
  if s.negated then '^' :: s.members.toList else s.members.toList

/-- A set whose first member is a caret, and the complement of the set of the other members. -/
inductive Matcher.MistakenFor : Matcher → Matcher → Prop
  | caret {s s' : CharSet} (hs : s.negated = false) (hs' : s'.negated = true)
      (hmembers : s.members.toList = '^' :: s'.members.toList) :
      Matcher.MistakenFor (.set s) (.set s')

namespace CharSet

theorem eq_of_members {s s' : CharSet} (hnegated : s.negated = s'.negated)
    (hmembers : s.members.toList = s'.members.toList) : s = s' := by
  cases s
  cases s'
  simp only [mk.injEq]
  exact ⟨hnegated, Array.toList_inj.1 hmembers⟩

/-- The set of the members of another, in whatever order and however often they are there. -/
theorem ofList_eq {s : CharSet} {l : List Char} (h : ∀ c, c ∈ l ↔ c ∈ s.members.toList) :
    ofList s.negated l = s :=
  (ofList_congr h).trans (ofList_members s)

/-- What stands between the brackets tells sets apart, unless it begins with a caret. -/
theorem mistaken_of_inscription_eq {s s' : CharSet} (h : s.inscription = s'.inscription) :
    s = s' ∨ (Matcher.set s).MistakenFor (.set s') ∨ (Matcher.set s').MistakenFor (.set s) := by
  unfold inscription at h
  cases hs : s.negated <;> cases hs' : s'.negated <;> rw [hs, hs'] at h
  case false.false | true.true =>
    exact .inl (eq_of_members (hs.trans hs'.symm) (by simpa using h))
  case false.true => exact .inr (.inl (.caret hs hs' h))
  case true.false => exact .inr (.inr (.caret hs' hs h.symm))

end CharSet

namespace Matcher

theorem toList_display_set (s : CharSet) :
    (set s).display.toList = '[' :: (s.inscription.flatMap Text.bareChar ++ [']']) := by
  cases hs : s.negated <;>
    simp [display, CharSet.inscription, hs, Text.bareChar_caret]

theorem toList_display_backref (group : Nat) :
    (backref group).display.toList = '\\' :: Nat.toDigits 10 (group + 1) := by
  simp [display]

/-- The character by which the kind of a matcher is known, all but a shorthand from a backreference.
-/
def mark : Matcher → Char
  | literal _ => Text.singleQuote
  | shorthand _ | backref _ => '\\'
  | any => '.'
  | set _ => '['

theorem head?_display (m : Matcher) : m.display.toList.head? = some m.mark := by
  cases m with
  | literal c => simp [display, Text.quotedChar, mark]
  | shorthand s => simp [display, mark]
  | any => rfl
  | set s => simp [toList_display_set, mark]
  | backref group => simp [toList_display_backref, mark]

theorem mark_eq_of_display_eq {m m' : Matcher} (h : m.display = m'.display) : m.mark = m'.mark := by
  rw [← Option.some_inj, ← head?_display, h, head?_display]

/-- A number does not begin with the letter of a shorthand. -/
theorem display_shorthand_ne_backref (s : Shorthand) (group : Nat) :
    (shorthand s).display ≠ (backref group).display := by
  intro h
  have hdigits : Nat.toDigits 10 (group + 1) = [s.letter] := by
    have hdisplay := congrArg String.toList h
    rw [toList_display_backref, display, String.toList_ofList] at hdisplay
    exact (List.cons.inj hdisplay).2.symm
  have hletter : s.letter.isDigit = false := by
    cases s <;> rfl
  exact not_mem_toDigits hletter (hdigits ▸ List.mem_singleton_self s.letter)

theorem display_literal_inj {c c' : Char} (h : (literal c).display = (literal c').display) :
    c = c' := by
  have hread (c : Char) : Text.unescape (literal c).display.toList.tail =
      some (c, [Text.singleQuote]) := by
    rw [display, String.toList_ofList]
    exact Text.unescape_escape Text.mem_singleQuote c _
  have hpair := hread c
  rw [h, hread, Option.some.injEq, Prod.mk.injEq] at hpair
  exact hpair.1.symm

theorem display_set_eq_iff {s s' : CharSet} :
    (set s).display = (set s').display ↔ s.inscription = s'.inscription := by
  rw [← String.toList_inj, toList_display_set, toList_display_set, List.cons_inj_right,
    List.append_cancel_right_eq]
  exact ⟨Text.flatMap_escape_inj Text.mem_quotes, congrArg (List.flatMap Text.bareChar)⟩

theorem MistakenFor.display_eq {m m' : Matcher} (h : m.MistakenFor m') :
    m.display = m'.display := by
  obtain @⟨s, s', hs, hs', hmembers⟩ := h
  rw [display_set_eq_iff, CharSet.inscription, CharSet.inscription, hs, hs', hmembers]
  rfl

/-- **Matchers with the same spelling** are the same, or one is a set that begins with a caret and
the other the complement without it. -/
theorem display_eq_iff {m m' : Matcher} :
    m.display = m'.display ↔ m = m' ∨ m.MistakenFor m' ∨ m'.MistakenFor m := by
  constructor
  · intro h
    have hmark := mark_eq_of_display_eq h
    cases m <;> cases m'
    case literal.literal c c' => exact .inl (congrArg literal (display_literal_inj h))
    case shorthand.shorthand s s' =>
      cases s <;> cases s' <;> first | exact .inl rfl | exact absurd h (by decide)
    case any.any => exact .inl rfl
    case set.set s s' =>
      exact (CharSet.mistaken_of_inscription_eq (display_set_eq_iff.1 h)).imp_left (congrArg set)
    case backref.backref group group' =>
      have hlist := congrArg String.toList h
      rw [toList_display_backref, toList_display_backref] at hlist
      have hnumber := toDigits_inj.1 (List.cons.inj hlist).2
      exact .inl (congrArg backref (Nat.succ.inj hnumber))
    case shorthand.backref s group => exact absurd h (display_shorthand_ne_backref s group)
    case backref.shorthand group s => exact absurd h.symm (display_shorthand_ne_backref s group)
    -- in the other cases the kinds are told apart by how the spelling begins
    all_goals simp [mark, Text.singleQuote] at hmark
  · rintro (rfl | hmistaken | hmistaken)
    · rfl
    · exact hmistaken.display_eq
    · exact hmistaken.display_eq.symm

theorem feed_not_mem_display (m : Matcher) : '\n' ∉ m.display.toList := by
  cases m with
  | literal c =>
    have hescape := Text.feed_not_mem_escape Text.mem_singleQuote c
    simpa [display, Text.quotedChar, Text.singleQuote] using hescape
  | shorthand s => cases s <;> decide
  | any => decide
  | set s =>
    have hescape : ∀ c ∈ s.inscription, '\n' ∉ Text.bareChar c :=
      fun c _ => Text.feed_not_mem_escape Text.mem_quotes c
    simpa [toList_display_set] using hescape
  | backref group =>
    have hdigits : '\n' ∉ Nat.toDigits 10 (group + 1) := not_mem_toDigits rfl
    simpa [toList_display_backref] using hdigits

end Matcher

/-! ## Lines -/

/-- What a listing tells of an edge. -/
def Edge.shown (e : Edge) : Option String × Nat :=
  (e.matcher?.map Matcher.display, e.target)

/-- What a listing tells of a state. -/
def State.shown (s : State) : Marker × List (Option String × Nat) :=
  (s.marker, s.edges.map Edge.shown)

theorem Marker.display_inj {m m' : Marker} (h : m.display = m'.display) : m = m' := by
  have hlist := congrArg String.toList h
  cases m <;> cases m' <;> simp [display, toDigits_inj] at hlist ⊢
  all_goals exact hlist

namespace Edge

/-- The line of an edge up to the name of its target. -/
def lead : Option String → String
  | none => "    -> "
  | some spelling => "    " ++ spelling ++ " -> "

/-- The line of an edge, from what it tells. -/
def lineOf (shown : Option String × Nat) : String :=
  lead shown.1 ++ stateName shown.2

theorem line_eq (e : Edge) : e.line = lineOf e.shown := by
  unfold line shown
  cases e.matcher? <;> rfl

theorem lead_inj {o o' : Option String} (h : lead o = lead o') : o = o' := by
  have hlength := congrArg String.length h
  match o, o' with
  | none, none => rfl
  | some spelling, some spelling' => simpa [lead] using h
  | none, some spelling =>
    simp only [lead, String.length_append] at hlength
    have : 7 = 4 + spelling.length + 4 := hlength
    omega
  | some spelling, none =>
    simp only [lead, String.length_append] at hlength
    have : 4 + spelling.length + 4 = 7 := hlength
    omega

/-- **The line of an edge** tells how its matcher is spelled, and its target. -/
theorem lineOf_injective : Function.Injective lineOf := by
  intro shown shown' h
  have hlist (shown : Option String × Nat) :
      (lineOf shown).toList = (lead shown.1).toList ++ 's' :: Nat.toDigits 10 shown.2 := by
    simp [lineOf, stateName]
  have heq := congrArg String.toList h
  rw [hlist, hlist] at heq
  -- there is no `s` in the number of the target, so the last one is the one before it
  obtain ⟨hlead, htarget⟩ :=
    append_cons_inj_of_last (not_mem_toDigits rfl) (not_mem_toDigits rfl) heq
  exact Prod.ext (lead_inj (String.toList_inj.1 hlead)) (toDigits_inj.1 htarget)

theorem map_line_eq_iff {edges edges' : List Edge} :
    edges.map line = edges'.map line ↔ edges.map shown = edges'.map shown := by
  have hline : line = lineOf ∘ shown := funext line_eq
  rw [hline, ← List.map_map, ← List.map_map]
  exact (List.map_injective_iff.2 lineOf_injective).eq_iff

theorem feed_not_mem_line (e : Edge) : '\n' ∉ e.line.toList := by
  have hdigits : '\n' ∉ Nat.toDigits 10 e.target := not_mem_toDigits rfl
  unfold line stateName
  cases e.matcher? with
  | none => simpa using hdigits
  | some m => simpa using ⟨m.feed_not_mem_display, hdigits⟩

end Edge

/-- Whether a line is indented, as the lines of edges are and those of states are not. -/
def indented (line : String) : Bool :=
  line.toList.head? == some ' '

theorem Edge.indented_line (e : Edge) : indented e.line = true := by
  unfold Edge.line indented
  cases e.matcher? <;> simp

namespace State

/-- The line of a state before those of its edges. -/
def header (s : State) (number : Nat) : String :=
  stateName number ++ s.marker.display

theorem indented_header (s : State) (number : Nat) : indented (s.header number) = false := by
  simp [indented, header, stateName]

theorem feed_not_mem_header (s : State) (number : Nat) : '\n' ∉ (s.header number).toList := by
  have hdigits (n : Nat) : '\n' ∉ Nat.toDigits 10 n := not_mem_toDigits rfl
  cases hmarker : s.marker <;> simp [header, stateName, Marker.display, hmarker, hdigits]

theorem indented_lines (s : State) : ∀ line ∈ s.edges.map Edge.line, indented line = true := by
  simpa using fun e _ => e.indented_line

end State

namespace Automaton

/-- The lines of states do not begin with that of an edge. -/
theorem takeWhile_indented_linesFrom (number : Nat) (states : List State) :
    (linesFrom number states).takeWhile indented = [] := by
  cases states with
  | nil => rfl
  | cons s rest =>
    exact List.takeWhile_cons_of_neg (ne_true_of_eq_false (s.indented_header number))

theorem linesFrom_cons (number : Nat) (s : State) (rest : List State) :
    linesFrom number (s :: rest) =
      s.header number :: (s.edges.map Edge.line ++ linesFrom (number + 1) rest) :=
  rfl

theorem header_inj {s s' : State} {number : Nat} (h : s.header number = s'.header number) :
    s.marker = s'.marker := by
  rw [State.header, State.header, String.append_right_inj] at h
  exact Marker.display_inj h

/-- **The lines of states** tell what there is to tell of each of them. -/
theorem linesFrom_eq_iff {states states' : List State} (number : Nat) :
    linesFrom number states = linesFrom number states' ↔
      states.map State.shown = states'.map State.shown := by
  induction states generalizing states' number with
  | nil => cases states' <;> simp [linesFrom, State.lines]
  | cons s rest ih =>
    cases states' with
    | nil => simp [linesFrom, State.lines]
    | cons s' rest' =>
      rw [List.map_cons, List.map_cons, List.cons.injEq, ← ih (number + 1), State.shown,
        State.shown, Prod.mk.injEq, ← Edge.map_line_eq_iff, linesFrom_cons, linesFrom_cons,
        List.cons.injEq]
      constructor
      · rintro ⟨hheader, hlines⟩
        have hedges := congrArg (List.takeWhile indented) hlines
        rw [List.takeWhile_append_of_pos s.indented_lines,
          List.takeWhile_append_of_pos s'.indented_lines, takeWhile_indented_linesFrom,
          takeWhile_indented_linesFrom, List.append_nil, List.append_nil] at hedges
        rw [hedges] at hlines
        exact ⟨⟨header_inj hheader, hedges⟩, List.append_cancel_left hlines⟩
      · rintro ⟨⟨hmarker, hedges⟩, hrest⟩
        rw [hedges, hrest, State.header, State.header, hmarker]
        exact ⟨rfl, rfl⟩

theorem feed_not_mem_linesFrom (number : Nat) (states : List State) :
    ∀ line ∈ linesFrom number states, '\n' ∉ line.toList := by
  induction states generalizing number with
  | nil => nofun
  | cons s rest ih =>
    rw [linesFrom_cons]
    refine List.forall_mem_cons.2 ⟨s.feed_not_mem_header number,
      List.forall_mem_append.2 ⟨?edges, ih (number + 1)⟩⟩
    case edges => simpa using fun e _ => e.feed_not_mem_line

/-- Lines can be told apart in a text in which the end of each is marked. -/
theorem join_lines_inj {lines lines' : List String} (h : ∀ line ∈ lines, '\n' ∉ line.toList)
    (h' : ∀ line ∈ lines', '\n' ∉ line.toList)
    (heq : String.join (lines.map (· ++ "\n")) = String.join (lines'.map (· ++ "\n"))) :
    lines = lines' := by
  have hcons (line : String) (rest : List String) :
      (String.join ((line :: rest).map (· ++ "\n"))).toList =
        line.toList ++ '\n' :: (String.join (rest.map (· ++ "\n"))).toList := by
    simp
  have hlist := congrArg String.toList heq
  induction lines generalizing lines' with
  | nil =>
    cases lines' with
    | nil => rfl
    | cons line' rest' =>
      rw [hcons] at hlist
      simp at hlist
  | cons line rest ih =>
    cases lines' with
    | nil =>
      rw [hcons] at hlist
      simp at hlist
    | cons line' rest' =>
      obtain ⟨hline, hrest⟩ := List.forall_mem_cons.1 h
      obtain ⟨hline', hrest'⟩ := List.forall_mem_cons.1 h'
      rw [hcons, hcons] at hlist
      obtain ⟨hfirst, htail⟩ := append_cons_inj_of_first hline hline' hlist
      rw [String.toList_inj.1 hfirst, ih hrest hrest' (String.toList_inj.1 htail) htail]

variable {a b : Automaton}

/-- **A listing** tells what there is to tell of each state, and nothing else. -/
theorem listing_eq_iff :
    a.listing = b.listing ↔ a.states.map State.shown = b.states.map State.shown := by
  have hlines : a.lines = b.lines ↔ a.states.map State.shown = b.states.map State.shown := by
    rw [lines, lines, linesFrom_eq_iff, ← Array.toList_map, ← Array.toList_map, Array.toList_inj]
  rw [← hlines]
  refine ⟨fun h => ?_, fun h => ?_⟩
  · exact join_lines_inj (feed_not_mem_linesFrom 0 _) (feed_not_mem_linesFrom 0 _) h
  · rw [listing, listing, h]

/-- Whether a matcher is on an edge. -/
def Uses (a : Automaton) (m : Matcher) : Prop :=
  ∃ s ∈ a.states, ∃ e ∈ s.edges, e.matcher? = some m

/-- Automata whose matchers can be told apart by their spellings can be told apart by their
listings. -/
theorem eq_of_listing_eq
    (hinj : ∀ m m', a.Uses m → b.Uses m' → m.display = m'.display → m = m')
    (h : a.listing = b.listing) : a = b := by
  have hstates : a.states.toList.map State.shown = b.states.toList.map State.shown := by
    rw [← Array.toList_map, ← Array.toList_map, listing_eq_iff.1 h]
  refine congrArg Automaton.mk (Array.toList_inj.1 (eq_of_map_eq ?state hstates))
  rintro ⟨marker, edges⟩ hs ⟨marker', edges'⟩ hs' hshown
  obtain ⟨hmarker, hedges⟩ := Prod.mk.inj hshown
  refine congrArg₂ State.mk hmarker (eq_of_map_eq ?edge hedges)
  rintro ⟨m?, target⟩ he ⟨m?', target'⟩ he' hshown
  obtain ⟨hdisplay, htarget⟩ := Prod.mk.inj hshown
  refine congrArg₂ Edge.mk ?_ htarget
  match m?, m?' with
  | none, none => rfl
  | some m, some m' =>
    have hm : a.Uses m := ⟨_, Array.mem_toList_iff.1 hs, _, he, rfl⟩
    have hm' : b.Uses m' := ⟨_, Array.mem_toList_iff.1 hs', _, he', rfl⟩
    exact congrArg some (hinj m m' hm hm' (Option.some.inj hdisplay))

theorem uses_ofChoice {body : Choice} {m : Matcher} (h : (ofChoice body).Uses m) :
    m ∈ body.matchers := by
  obtain ⟨s, hs, e, he, hm⟩ := h
  obtain ⟨n, hn⟩ := Array.mem_iff_getElem?.1 hs
  rcases inner_ofChoice body hn with ⟨-, rfl⟩ | hinner
  · cases he
  · exact (hinner.fits e he).mem_matchers m hm

end Automaton

/-- A set that begins with a caret and has other members. -/
def Matcher.StartsWithCaret (m : Matcher) : Prop :=
  ∃ s c more, m = .set s ∧ s.negated = false ∧ s.members.toList = '^' :: c :: more

theorem Matcher.MistakenFor.startsWithCaret {m m' : Matcher} (h : m.MistakenFor m')
    (hwritable : m'.Writable) : m.StartsWithCaret := by
  obtain @⟨s, s', hs, -, hmembers⟩ := h
  cases hrest : s'.members.toList with
  | nil => exact absurd (Array.toList_eq_nil_iff.1 hrest) hwritable
  | cons c more => exact ⟨s, c, more, rfl, hs, hrest ▸ hmembers⟩

/-- The pattern that is a single set. -/
def Pattern.ofSet (s : CharSet) : Pattern where
  anchor := ⟨false, false⟩
  body := .only (.cons (.atom (.set s)) .nil)
  groupCount := 0

namespace Regex

variable {source source' : String} {r r' : Regex}

theorem writable_of_uses (h : compile source = .ok r) {m : Matcher} (hm : r.automaton.Uses m) :
    m.Writable := by
  unfold compile at h
  cases hparse : Pattern.parse source with
  | error e =>
    rw [hparse] at h
    cases h
  | ok p =>
    rw [hparse] at h
    cases h
    exact (Pattern.wellFormed_of_parse hparse).writable m (Automaton.uses_ofChoice hm)

/-- **What the listings of compiled patterns tell.** They are the same if and only if the automata
have as many states, with the same markers, and as many edges in the same order to the same targets,
with matchers that are spelled the same. Matchers are spelled the same only if they are the same or
differ in whether a caret is the first member or says that the set is a complement. So the automata
are the same if their listings are and neither has a set that begins with a caret and has other
members. -/
theorem listing_legible (h : compile source = .ok r) (h' : compile source' = .ok r') :
    (r.automaton.listing = r'.automaton.listing ↔
      r.automaton.states.map State.shown = r'.automaton.states.map State.shown) ∧
    (∀ m m', r.automaton.Uses m → r'.automaton.Uses m' →
      (m.display = m'.display ↔ m = m' ∨ m.MistakenFor m' ∨ m'.MistakenFor m)) ∧
    ((∀ m, r.automaton.Uses m ∨ r'.automaton.Uses m → ¬ m.StartsWithCaret) →
      (r.automaton.listing = r'.automaton.listing ↔ r.automaton = r'.automaton)) := by
  refine ⟨Automaton.listing_eq_iff, fun m m' _ _ => Matcher.display_eq_iff, fun hcaret => ?_⟩
  refine ⟨Automaton.eq_of_listing_eq fun m m' hm hm' hdisplay => ?_, congrArg _⟩
  rcases Matcher.display_eq_iff.1 hdisplay with heq | hmistaken | hmistaken
  · exact heq
  · exact absurd (hmistaken.startsWithCaret (writable_of_uses h' hm')) (hcaret m (.inl hm))
  · exact absurd (hmistaken.startsWithCaret (writable_of_uses h hm)) (hcaret m' (.inr hm'))

/-- A pattern of a single set is compiled to that set, in whatever order its members are written. -/
theorem compile_set {s : CharSet} {l : List Char} (hl : ∀ c, c ∈ l ↔ c ∈ s.members.toList)
    (hparse : Pattern.parse source = .ok (.ofSet (.ofList s.negated l))) :
    compile source = .ok (ofPattern source (.ofSet s)) := by
  rw [CharSet.ofList_eq hl] at hparse
  rw [compile, hparse]
  rfl

/-- A set with nothing but a caret, and a complement. -/
theorem listing_legible_caret :
    ∃ r r', compile "[\\^]" = .ok r ∧ compile "[^a]" = .ok r' ∧
      (∀ m, r.automaton.Uses m ∨ r'.automaton.Uses m → ¬ m.StartsWithCaret) ∧
      r.automaton ≠ r'.automaton ∧ r.automaton.listing ≠ r'.automaton.listing := by
  let s : CharSet := ⟨false, #['^'], by decide⟩
  let s' : CharSet := ⟨true, #['a'], by decide⟩
  have h : compile "[\\^]" = .ok (ofPattern "[\\^]" (.ofSet s)) :=
    compile_set (l := ['^']) (by simp [s]) rfl
  have h' : compile "[^a]" = .ok (ofPattern "[^a]" (.ofSet s')) :=
    compile_set (l := ['a']) (by simp [s']) rfl
  have hcaret : ∀ m, (Automaton.ofChoice (Pattern.ofSet s).body).Uses m ∨
      (Automaton.ofChoice (Pattern.ofSet s').body).Uses m → ¬ m.StartsWithCaret := by
    rintro m hm ⟨set, c, more, rfl, hnegated, hmembers⟩
    rcases hm with hm | hm
    · cases List.mem_singleton.1 (Automaton.uses_ofChoice hm)
      cases hmembers
    · cases List.mem_singleton.1 (Automaton.uses_ofChoice hm)
      cases hnegated
  have hne : Automaton.ofChoice (Pattern.ofSet s).body ≠
      Automaton.ofChoice (Pattern.ofSet s').body := by
    decide +kernel
  exact ⟨_, _, h, h', hcaret, hne, fun heq => hne (((listing_legible h h').2.2 hcaret).1 heq)⟩

/-- A set and the complement of another, whose automata have the same listing. -/
theorem exists_listing_eq :
    ∃ r r', compile "[\\^a]" = .ok r ∧ compile "[^a]" = .ok r' ∧
      r.automaton.listing = r'.automaton.listing ∧ r.automaton ≠ r'.automaton ∧
      r.isMatch "a" = true ∧ r'.isMatch "a" = false := by
  let s : CharSet := ⟨false, #['^', 'a'], by decide⟩
  let s' : CharSet := ⟨true, #['a'], by decide⟩
  have h : compile "[\\^a]" = .ok (ofPattern "[\\^a]" (.ofSet s)) :=
    compile_set (l := ['a', '^']) (by simp [s, or_comm]) rfl
  have h' : compile "[^a]" = .ok (ofPattern "[^a]" (.ofSet s')) :=
    compile_set (l := ['a']) (by simp [s']) rfl
  exact ⟨_, _, h, h', by decide +kernel⟩

end Regex

end PatternSearch
