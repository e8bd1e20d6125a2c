import Mathlib.Data.List.DropRight
import Mathlib.Data.List.Induction
import PatternSearch.CommandLine

/-!
# What the exit code says

A command fails, with exit code 2, over its arguments or over the first line of its input. If it
does not fail, the exit code says whether there is a match in that line (`Command.exitCode_law`).

The line is cut off as bytes and only then decoded. It could as well be cut off as text, since in
UTF-8 the byte that ends a line is part of no character but the one that ends it
(`mem_utf8EncodeChar`, `Command.firstLine_toUTF8`). What comes after the first line need not be text
at all.
-/

namespace PatternSearch

/-! ## Cutting lists -/

theorem takeWhile_append_cons_of_neg {α : Type} {p : α → Bool} {a : α} (h : p a = false)
    (l r : List α) : (l ++ a :: r).takeWhile p = l.takeWhile p := by
  induction l with
  | nil => simp [h]
  | cons b l ih => rw [List.cons_append, List.takeWhile_cons, List.takeWhile_cons, ih]

theorem rdropWhile_congr {α : Type} {p q : α → Bool} {l : List α} (h : ∀ a ∈ l, p a = q a) :
    l.rdropWhile p = l.rdropWhile q := by
  induction l using List.reverseRecOn with
  | nil => rfl
  | append_singleton l a ih =>
    have hl : l.rdropWhile p = l.rdropWhile q := ih fun b hb => h b (List.mem_append_left _ hb)
    rw [List.rdropWhile_concat, List.rdropWhile_concat, hl, h a (by simp)]

/-! ## Lines in UTF-8 -/

/-- The byte of the line feed belongs to no other character. -/
theorem mem_utf8EncodeChar {c : Char} : 10 ∈ String.utf8EncodeChar c ↔ c = '\n' := by
  have hbyte (n : Nat) : 10 = UInt8.ofNat n ↔ n % 256 = 10 := by
    rw [← UInt8.toNat_inj, UInt8.toNat_ofNat', eq_comm]
    rfl
  have hchar : c = '\n' ↔ c.val.toNat = 10 := by
    rw [← Char.toNat_inj]
    rfl
  rw [hchar]
  -- by the number of bytes: if there are more than one, each of them is 128 or above
  fun_cases String.utf8EncodeChar c <;>
    simp only [List.mem_cons, List.not_mem_nil, or_false, hbyte] <;> omega

/-- **Cutting at the line feed** comes to the same before and after encoding. -/
theorem takeWhile_flatMap_utf8EncodeChar (chars : List Char) :
    (chars.flatMap String.utf8EncodeChar).takeWhile (· != 10) =
      (chars.takeWhile (· != '\n')).flatMap String.utf8EncodeChar := by
  induction chars with
  | nil => rfl
  | cons c chars ih =>
    by_cases hc : c = '\n'
    · subst hc
      rfl
    · have hbytes : ∀ b ∈ String.utf8EncodeChar c, (b != 10) = true := by
        intro b hb
        refine bne_iff_ne.2 fun heq => hc (mem_utf8EncodeChar.1 ?_)
        exact heq ▸ hb
      rw [List.flatMap_cons, List.takeWhile_append_of_pos hbytes, ih,
        List.takeWhile_cons_of_pos (by simpa using hc), List.flatMap_cons]

/-- Bytes are decoded as what encodes to them. -/
theorem fromUTF8?_eq_some_iff {bytes : ByteArray} {text : String} :
    String.fromUTF8? bytes = some text ↔ text.toUTF8 = bytes := by
  unfold String.fromUTF8?
  constructor
  · intro h
    split at h
    · cases h
      rfl
    · cases h
  · rintro rfl
    rw [String.toUTF8_eq_toByteArray, dif_pos text.isValidUTF8]
    rfl

theorem fromUTF8?_eq_none_iff {bytes : ByteArray} :
    String.fromUTF8? bytes = none ↔ ¬ bytes.IsValidUTF8 := by
  unfold String.fromUTF8?
  split <;> simp_all

namespace Command

/-- The bytes of an input up to the end of its first line. -/
def lineBytes (input : ByteArray) : ByteArray :=
  ⟨input.data.takeWhile (· != 10)⟩

/-- A line without the characters that end it. -/
def trimmed (line : String) : String :=
  String.ofList (line.toList.rdropWhile fun c => c == '\n' || c == '\r')

/-- The first line of a text, without the characters that end it. -/
def lineOf (text : String) : String :=
  String.ofList ((text.toList.takeWhile (· != '\n')).rdropWhile (· == '\r'))

section FirstLine

variable {input : ByteArray}

theorem firstLine_eq (input : ByteArray) :
    firstLine input = match String.fromUTF8? (lineBytes input) with
      | none => .error .unreadableInput
      | some line => .ok (trimmed line) := rfl

theorem firstLine_eq_ok_iff {text : String} : firstLine input = .ok text ↔
    ∃ line : String, line.toUTF8 = lineBytes input ∧ trimmed line = text := by
  simp only [← fromUTF8?_eq_some_iff]
  rw [firstLine_eq]
  cases String.fromUTF8? (lineBytes input) <;> simp

theorem firstLine_eq_error_iff : (∃ e, firstLine input = .error e) ↔
    ¬ (lineBytes input).IsValidUTF8 := by
  rw [← fromUTF8?_eq_none_iff, firstLine_eq]
  cases String.fromUTF8? (lineBytes input) <;> simp

theorem firstLine_congr {input' : ByteArray} (h : lineBytes input = lineBytes input') :
    firstLine input = firstLine input' := by
  rw [firstLine_eq, firstLine_eq, h]

/-- What comes after a line feed is not looked at. -/
theorem firstLine_append (input more : ByteArray) :
    firstLine (input ++ [10].toByteArray ++ more) = firstLine input := by
  refine firstLine_congr (ByteArray.ext (Array.toList_inj.1 ?_))
  simp only [lineBytes, Array.toList_takeWhile, ByteArray.data_append, Array.toList_append,
    List.data_toByteArray]
  rw [List.append_assoc]
  exact takeWhile_append_cons_of_neg rfl _ _

theorem lineBytes_toUTF8 (text : String) :
    lineBytes text.toUTF8 = (String.ofList (text.toList.takeWhile (· != '\n'))).toUTF8 := by
  apply ByteArray.ext
  apply Array.toList_inj.1
  rw [String.toUTF8_eq_toByteArray, String.toUTF8_eq_toByteArray, String.toByteArray_ofList,
    ← String.utf8Encode_toList]
  simp only [lineBytes, List.utf8Encode, Array.toList_takeWhile, List.data_toByteArray]
  exact takeWhile_flatMap_utf8EncodeChar text.toList

/-- **The first line of the encoding of a text** is that of the text. -/
theorem firstLine_toUTF8 (text : String) : firstLine text.toUTF8 = .ok (lineOf text) := by
  refine firstLine_eq_ok_iff.2 ⟨_, (lineBytes_toUTF8 text).symm, ?_⟩
  -- there are no line feeds in the line to be taken off its end
  have hends : ∀ c ∈ text.toList.takeWhile (· != '\n'), (c == '\n' || c == '\r') = (c == '\r') := by
    intro c hc
    have hne := List.all_eq_true.1 List.all_takeWhile c hc
    rw [beq_eq_false_iff_ne.2 (bne_iff_ne.1 hne), Bool.false_or]
  rw [trimmed, lineOf, String.toList_ofList, rdropWhile_congr hends]

/-- A line feed at the end of a text does not matter. -/
theorem firstLine_append_feed (text : String) :
    firstLine (text ++ "\n").toUTF8 = firstLine text.toUTF8 := by
  have hbytes : (text ++ "\n").toUTF8 = text.toUTF8 ++ [10].toByteArray ++ ByteArray.empty := by
    rw [ByteArray.append_empty]
    exact String.toByteArray_append
  rw [hbytes, firstLine_append]

/-- A carriage return at the end of a text does not matter. -/
theorem lineOf_append_return (text : String) : lineOf (text ++ "\r") = lineOf text := by
  have hline : ((text.toList ++ ['\r']).takeWhile (· != '\n')).rdropWhile (· == '\r') =
      (text.toList.takeWhile (· != '\n')).rdropWhile (· == '\r') := by
    rw [List.takeWhile_append]
    split
    · next hlength =>
      have hall : text.toList.takeWhile (· != '\n') = text.toList :=
        (List.takeWhile_prefix _).eq_of_length hlength
      rw [hall]
      exact List.rdropWhile_concat_pos _ _ _ rfl
    · rfl
  rw [lineOf, lineOf, String.toList_append, ← hline]
  rfl

end FirstLine

/-! ## Answers -/

section Answers

variable {arguments : List String} {r : Regex}

theorem ofArguments_eq_ok_iff : ofArguments arguments = .ok r ↔
    ∃ source rest, arguments = "-E" :: source :: rest ∧ Regex.compile source = .ok r := by
  constructor
  · intro h
    unfold ofArguments at h
    split at h
    · next source rest =>
      refine ⟨source, rest, rfl, ?_⟩
      cases hcompile : Regex.compile source with
      | error e =>
        rw [hcompile] at h
        cases h
      | ok r' =>
        rw [hcompile] at h
        cases h
        rfl
    · cases h
    · cases h
  · rintro ⟨source, rest, rfl, hcompile⟩
    rw [ofArguments, hcompile]
    rfl

theorem ofArguments_eq_error_iff : (∃ e, ofArguments arguments = .error e) ↔
    arguments.head? ≠ some "-E" ∨ arguments[1]? = none ∨
      ∃ source rejection, arguments[1]? = some source ∧
        Regex.compile source = .error rejection := by
  match arguments with
  | [] => simp [ofArguments]
  | [option] =>
    by_cases h : option = "-E"
    · simp [h, ofArguments]
    · simp [h, ofArguments]
  | option :: source :: rest =>
    by_cases h : option = "-E"
    · subst h
      cases hcompile : Regex.compile source <;> simp [ofArguments, hcompile, Except.mapError]
    · simp [h, ofArguments]

theorem ofArguments_cons_cons (option source : String) (rest : List String) :
    ofArguments (option :: source :: rest) = ofArguments [option, source] := by
  unfold ofArguments
  by_cases h : option = "-E"
  · subst h
    rfl
  · simp [h]

variable {answer : Except CommandError Bool}

theorem exitCode_result_eq_two : (result answer).exitCode = 2 ↔ ∃ e, answer = .error e := by
  match answer with
  | .ok true => simp [result]
  | .ok false => simp [result]
  | .error e => simp [result]

theorem exitCode_result_eq_found (found : Bool) :
    (result answer).exitCode = (if found then 0 else 1) ↔ answer = .ok found := by
  match answer with
  | .ok true => cases found <;> simp [result]
  | .ok false => cases found <;> simp [result]
  | .error e => cases found <;> simp [result]

theorem exitCode_run_eq_two {input : ByteArray} : (run arguments input).exitCode = 2 ↔
    (∃ e, ofArguments arguments = .error e) ∨ ∃ e, firstLine input = .error e := by
  rw [run, exitCode_result_eq_two]
  cases ofArguments arguments with
  | error e => simp [bind, Except.bind]
  | ok r =>
    cases hline : firstLine input <;> simp [bind, Except.bind, matchesInput, hline, Except.map]

theorem exitCode_run_eq_found {input : ByteArray} (found : Bool) :
    (run arguments input).exitCode = (if found then 0 else 1) ↔
      ∃ r line, ofArguments arguments = .ok r ∧ firstLine input = .ok line ∧
        r.isMatch line = found := by
  rw [run, exitCode_result_eq_found]
  cases ofArguments arguments with
  | error e => simp [bind, Except.bind]
  | ok r =>
    cases hline : firstLine input <;> simp [bind, Except.bind, matchesInput, hline, Except.map]

theorem run_congr {input input' : ByteArray} (h : firstLine input = firstLine input') :
    run arguments input = run arguments input' := by
  unfold run matchesInput
  rw [h]

end Answers

/-- **The exit code law.** A command fails over its arguments, whatever the input is, or over a
first line that is not UTF-8. Otherwise the exit code tells whether there is a match in the first
line, less the characters that end it. Neither further arguments nor what comes after the first line
feed matter.

Of an input that encodes a text, the first line is that of the text, less the carriage returns at
its end. So it makes no difference whether a text is followed by nothing, by a line feed, by a
carriage return and a line feed, or by a line feed and any other bytes. -/
theorem exitCode_law (arguments : List String) (input : ByteArray) :
    ((run arguments input).exitCode = 2 ↔
      arguments.head? ≠ some "-E" ∨ arguments[1]? = none ∨
        (∃ source rejection, arguments[1]? = some source ∧
          Regex.compile source = .error rejection) ∨
        ¬ (lineBytes input).IsValidUTF8) ∧
    (∀ found : Bool, (run arguments input).exitCode = (if found then 0 else 1) ↔
      ∃ source rest r line, arguments = "-E" :: source :: rest ∧ Regex.compile source = .ok r ∧
        line.toUTF8 = lineBytes input ∧ r.isMatch (trimmed line) = found) ∧
    (∀ option source more, run (option :: source :: more) input = run [option, source] input) ∧
    (∀ more, run arguments (input ++ [10].toByteArray ++ more) = run arguments input) ∧
    ∀ text : String,
      (∀ found : Bool, (run arguments text.toUTF8).exitCode = (if found then 0 else 1) ↔
        ∃ source rest r, arguments = "-E" :: source :: rest ∧ Regex.compile source = .ok r ∧
          r.isMatch (lineOf text) = found) ∧
      run arguments (text ++ "\n").toUTF8 = run arguments text.toUTF8 ∧
      run arguments (text ++ "\r\n").toUTF8 = run arguments text.toUTF8 ∧
      ∀ more, run arguments (text.toUTF8 ++ [10].toByteArray ++ more) =
        run arguments text.toUTF8 := by
  refine ⟨?failed, fun found => ?found, fun option source more => ?arguments,
    fun more => run_congr (firstLine_append input more), fun text => ⟨fun found => ?text,
      run_congr (firstLine_append_feed text), run_congr ?returned,
      fun more => run_congr (firstLine_append text.toUTF8 more)⟩⟩
  case failed =>
    rw [exitCode_run_eq_two, ofArguments_eq_error_iff, firstLine_eq_error_iff, or_assoc, or_assoc]
  case found =>
    rw [exitCode_run_eq_found]
    simp only [ofArguments_eq_ok_iff, firstLine_eq_ok_iff]
    constructor
    · rintro ⟨r, _, ⟨source, rest, harguments, hcompile⟩, ⟨line, hline, rfl⟩, hmatch⟩
      exact ⟨source, rest, r, line, harguments, hcompile, hline, hmatch⟩
    · rintro ⟨source, rest, r, line, harguments, hcompile, hline, hmatch⟩
      exact ⟨r, _, ⟨source, rest, harguments, hcompile⟩, ⟨line, hline, rfl⟩, hmatch⟩
  case arguments => rw [run, run, ofArguments_cons_cons]
  case text =>
    rw [exitCode_run_eq_found]
    simp only [ofArguments_eq_ok_iff, firstLine_toUTF8]
    constructor
    · rintro ⟨r, _, ⟨source, rest, harguments, hcompile⟩, ⟨⟩, hmatch⟩
      exact ⟨source, rest, r, harguments, hcompile, hmatch⟩
    · rintro ⟨source, rest, r, harguments, hcompile, hmatch⟩
      exact ⟨r, _, ⟨source, rest, harguments, hcompile⟩, rfl, hmatch⟩
  case returned =>
    have happend : text ++ "\r\n" = text ++ "\r" ++ "\n" := by rw [String.append_assoc]; rfl
    rw [happend, firstLine_append_feed, firstLine_toUTF8, lineOf_append_return, firstLine_toUTF8]

end Command

end PatternSearch
