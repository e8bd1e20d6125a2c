import Mathlib.Data.List.Sort
import PatternSearch.Matcher

/-!
# Membership in sets

The members of a set stand in increasing order, so that bisection finds every one of them
(`CharSet.holds_iff`), and a set made of a list of characters allows just these, or all but these
(`CharSet.allows_ofList`). There is only one way to list them so: sets that allow the same, or all
but the same, are one value (`CharSet.canonical_ofList`).

What a matcher of single characters takes can therefore be written as a set as well
(`Matcher.asSet`).
-/

namespace PatternSearch

namespace CharSet

variable {s : CharSet} {c m : Char}

/-- The order of members is that of their places. -/
theorem lt_iff_of_getElem? {i j : Nat} (hc : s.members[i]? = some c) (hm : s.members[j]? = some m) :
    i < j ↔ c < m := by
  have hincreasing : ∀ {i j : Nat} {c m : Char}, s.members[i]? = some c →
      s.members[j]? = some m → i < j → c < m := by
    intro i j c m hc hm hij
    obtain ⟨hi, rfl⟩ := Array.getElem?_eq_some_iff.1 hc
    obtain ⟨hj, rfl⟩ := Array.getElem?_eq_some_iff.1 hm
    exact List.pairwise_iff_getElem.1 s.increasing i j (by simpa using hi) (by simpa using hj) hij
  refine ⟨hincreasing hc hm, fun hlt => ?_⟩
  rcases Nat.lt_trichotomy i j with hij | rfl | hji
  · exact hij
  · rw [hc] at hm
    cases hm
    exact absurd hlt (Char.lt_irrefl c)
  · exact absurd (hincreasing hm hc hji) (Char.lt_asymm hlt)

/-- Bisection finds the members at the places it looks at. -/
theorem holdsWithin_iff {lo hi : Nat} (hhi : hi ≤ s.members.size) :
    s.holdsWithin c lo hi = true ↔ ∃ i, lo ≤ i ∧ i < hi ∧ s.members[i]? = some c := by
  fun_induction s.holdsWithin c lo hi with
  | case1 lo hi hlt mid hnone =>
    have hmid : mid < s.members.size := by omega
    rw [Array.getElem?_eq_getElem hmid] at hnone
    cases hnone
  | case2 lo hi hlt mid hc => exact ⟨fun _ => ⟨mid, by omega, by omega, hc⟩, fun _ => rfl⟩
  | case3 lo hi hlt mid m hm hne hless ih =>
    rw [ih hhi]
    refine exists_congr fun i => ⟨fun ⟨hlo, hi, hc⟩ => ⟨by omega, hi, hc⟩, fun ⟨_, hi, hc⟩ => ?_⟩
    have hafter : mid < i := (lt_iff_of_getElem? hm hc).2 hless
    exact ⟨hafter, hi, hc⟩
  | case4 lo hi hlt mid m hm hne hless ih =>
    rw [ih (by omega)]
    refine exists_congr fun i => ⟨fun ⟨hlo, hi, hc⟩ => ⟨hlo, by omega, hc⟩, fun ⟨hlo, _, hc⟩ => ?_⟩
    have hbefore : i < mid := by
      rcases Nat.lt_trichotomy i mid with hlt | rfl | hgt
      · exact hlt
      · rw [hm] at hc
        cases hc
        exact absurd rfl hne
      · exact absurd ((lt_iff_of_getElem? hm hc).1 hgt) hless
    exact ⟨hlo, hbefore, hc⟩
  | case5 lo hi hle => exact ⟨nofun, fun ⟨i, hlo, hi, _⟩ => absurd (Nat.lt_of_le_of_lt hlo hi) hle⟩

/-- **Bisection finds every member** and nothing else. -/
theorem holds_iff : s.holds c = true ↔ c ∈ s.members.toList := by
  rw [holds, holdsWithin_iff (Nat.le_refl _), Array.mem_toList_iff, Array.mem_iff_getElem?]
  refine exists_congr fun i => ⟨fun ⟨_, _, hc⟩ => hc, fun hc => ?_⟩
  exact ⟨Nat.zero_le i, (Array.getElem?_eq_some_iff.1 hc).1, hc⟩

theorem mem_members_ofList {negated : Bool} {l : List Char} :
    c ∈ (ofList negated l).members.toList ↔ c ∈ l := by
  simp [ofList]

/-- **The set of the characters of a list allows these**, or the others if it is negated. -/
theorem allows_ofList (negated : Bool) (l : List Char) (c : Char) :
    (ofList negated l).allows c = (decide (c ∈ l) != negated) := by
  have hholds : (ofList negated l).holds c = decide (c ∈ l) := by
    rw [Bool.eq_iff_iff, holds_iff, mem_members_ofList, decide_eq_true_iff]
  rw [allows, hholds]
  rfl

/-- A set does not depend on the order of the characters it is made of, nor on how often they are
there. -/
theorem ofList_congr {negated : Bool} {l l' : List Char} (h : ∀ c, c ∈ l ↔ c ∈ l') :
    ofList negated l = ofList negated l' := by
  have hlist : squeeze (l.mergeSort (· ≤ ·)) = squeeze (l'.mergeSort (· ≤ ·)) := by
    refine (ofList negated l).increasing.eq_of_mem_iff (ofList negated l').increasing fun c => ?_
    simp [ofList, h c]
  unfold ofList
  simp only [hlist]

/-- **A set is the canonical form of the characters it is made of**, whatever their order and
however often they are there. Its members are these in increasing order; it allows a character just
if that is one of them, or just if it is not; and it is the same set as any other that is made of
the same characters, and as no other. -/
theorem canonical_ofList (negated : Bool) (l : List Char) :
    (ofList negated l).members.toList.Pairwise (· < ·) ∧
      (∀ c, c ∈ (ofList negated l).members.toList ↔ c ∈ l) ∧
      (∀ c, (ofList negated l).allows c = true ↔ ¬ (c ∈ l ↔ negated = true)) ∧
      ∀ negated' l', ofList negated l = ofList negated' l' ↔
        negated = negated' ∧ ∀ c, c ∈ l ↔ c ∈ l' := by
  refine ⟨(ofList negated l).increasing, fun c => mem_members_ofList, fun c => ?allows,
    fun negated' l' => ⟨fun heq => ⟨congrArg CharSet.negated heq, fun c => ?mem⟩, ?congr⟩⟩
  case allows =>
    rw [allows_ofList]
    cases negated <;> simp
  case mem =>
    calc c ∈ l ↔ c ∈ (ofList negated l).members.toList := mem_members_ofList.symm
      _ ↔ c ∈ (ofList negated' l').members.toList := by rw [heq]
      _ ↔ c ∈ l' := mem_members_ofList
  case congr =>
    rintro ⟨rfl, hmem⟩
    exact ofList_congr hmem

end CharSet

namespace Matcher

/-- The set of the characters that a matcher takes, where it takes single characters. -/
def asSet : Matcher → Matcher
  | literal c => set (.ofList false [c])
  | shorthand s => set (.ofList false s.members)
  | any => set (.ofList true [])
  | set s => set s
  | backref group => backref group

theorem asSet_asSet (m : Matcher) : m.asSet.asSet = m.asSet := by
  cases m <;> rfl

theorem allows_asSet (m : Matcher) (c : Char) : m.asSet.allows c = m.allows c := by
  cases m with
  | literal a =>
    calc (CharSet.ofList false [a]).allows c
        = (decide (c ∈ [a]) != false) := CharSet.allows_ofList false [a] c
      _ = (c == a) := by rw [Bool.bne_false, Bool.eq_iff_iff]; simp
  | shorthand s =>
    calc (CharSet.ofList false s.members).allows c
        = (decide (c ∈ s.members) != false) := CharSet.allows_ofList false s.members c
      _ = s.allows c := by rw [Bool.bne_false, Bool.eq_iff_iff]; simp [Shorthand.mem_members_iff]
  | any => exact CharSet.allows_ofList true [] c
  | set | backref => rfl

/-- **A matcher and its set take the same**, wherever they stand. -/
theorem consume_asSet (m : Matcher) (text : Array Char) (offset : Nat) (captures : Captures) :
    m.asSet.consume text offset captures = m.consume text offset captures := by
  have hallows := m.allows_asSet
  cases m with
  | literal | shorthand | any =>
    simp only [asSet] at hallows
    simp only [consume, asSet, hallows]
  | set | backref => rfl

end Matcher

end PatternSearch
