/-!
# Character sets

`CharSet` is what stands between brackets in a pattern: a finite set of characters, or the
complement of one. The members are kept in strictly increasing order, so that equal sets are equal
values and membership is decided by bisection (`CharSet.holds`). `CharSet.ofList` brings any list of
characters into that form.
-/

namespace PatternSearch

/-! ## Runs of equal characters -/

/-- One character of each run of equal ones. -/
def squeeze (l : List Char) : List Char :=
  l.foldr (fun c rest => if rest.head? = some c then rest else c :: rest) []

@[simp] theorem squeeze_nil : squeeze [] = [] := rfl

theorem squeeze_cons (c : Char) (l : List Char) :
    squeeze (c :: l) = if (squeeze l).head? = some c then squeeze l else c :: squeeze l := rfl

@[simp] theorem mem_squeeze {c : Char} {l : List Char} : c ∈ squeeze l ↔ c ∈ l := by
  induction l with
  | nil => simp
  | cons a l ih =>
    rw [squeeze_cons]
    split
    · next h =>
      have ha : a ∈ squeeze l := List.mem_of_mem_head? (by simp [h])
      rw [List.mem_cons, ← ih]
      exact ⟨Or.inr, fun hc => hc.elim (fun e => e ▸ ha) id⟩
    · rw [List.mem_cons, List.mem_cons, ih]

/-- Squeezing a list in ascending order leaves a strictly increasing one. -/
theorem squeeze_increasing {l : List Char} (h : l.Pairwise (· ≤ ·)) :
    (squeeze l).Pairwise (· < ·) := by
  induction l with
  | nil => exact .nil
  | cons a l ih =>
    obtain ⟨hle, hl⟩ := List.pairwise_cons.1 h
    have hs := ih hl
    rw [squeeze_cons]
    split
    · exact hs
    · next hne =>
      refine List.pairwise_cons.2 ⟨fun b hb => ?_, hs⟩
      have hab : a ≤ b := hle b (mem_squeeze.1 hb)
      cases hq : squeeze l with
      | nil => simp [hq] at hb
      | cons m rest =>
        have ham : a ≤ m := hle m (mem_squeeze.1 (by simp [hq]))
        have hmb : m = b ∨ m < b := by
          rw [hq] at hb hs
          rcases List.mem_cons.1 hb with rfl | hb
          · exact .inl rfl
          · exact .inr ((List.pairwise_cons.1 hs).1 b hb)
        have hneq : a ≠ m := fun e => hne (by simp [hq, e])
        grind

/-! ## Sets -/

/-- A finite set of characters, or the complement of one if `negated`. -/
structure CharSet where
  negated : Bool
  members : Array Char
  increasing : members.toList.Pairwise (· < ·)
deriving DecidableEq, Repr

namespace CharSet

/-- The set of the characters of a list, in whatever order and however often they are there. -/
def ofList (negated : Bool) (l : List Char) : CharSet where
  negated
  members := (squeeze (l.mergeSort (· ≤ ·))).toArray
  increasing := by
    refine squeeze_increasing ((List.pairwise_mergeSort ?_ ?_ l).imp (by simp))
    · intro a b c; simpa using Char.le_trans
    · intro a b; simpa using Char.le_total a b

/-- Whether `c` is one of the members at positions `lo` to `hi`, the latter excluded. -/
def holdsWithin (s : CharSet) (c : Char) (lo hi : Nat) : Bool :=
  if lo < hi then
    let mid := (lo + hi) / 2
    match s.members[mid]? with
    | none => false
    | some m =>
      if m = c then true
      else if m < c then s.holdsWithin c (mid + 1) hi
      else s.holdsWithin c lo mid
  else false
termination_by hi - lo

/-- Whether `c` is one of the members. -/
def holds (s : CharSet) (c : Char) : Bool :=
  s.holdsWithin c 0 s.members.size

/-- Whether the set, complemented if `negated`, contains `c`. -/
def allows (s : CharSet) (c : Char) : Bool :=
  s.holds c != s.negated

end CharSet

end PatternSearch
