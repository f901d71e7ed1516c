import DeclGen.Diagnostic.Layout
import DeclGen.Proofs.Grammar.Totality
import DeclGen.Proofs.Source.Lines
import DeclGen.Proofs.SourceSet.Entries
import DeclGen.Proofs.Text.Split

/-!
# What is marked of a file that cannot be read

The location of a syntax error ends one byte behind the place where reading stopped. If the
character there is ASCII, this is the next column. Otherwise it is a place inside a character,
whose column is counted in bytes: as many columns further on as the characters before on the line
have bytes beyond their first ones.

## Main definitions

* `Text.markedColumns`: how many columns the location of a syntax error has
* `Diagnostic.syntaxErrorPieces`: a syntax error as it is shown

## Main statements

* `Text.markedColumns_eq_one_iff`: when a single character is marked
* `SourceSet.syntaxError_marks`: the location of every syntax error and what is shown of it
-/

namespace DeclGen

open DeclGen.Text

namespace Text

/-- How many columns it is from a character, with `cur` before it on its line, to the byte behind
its first one. -/
def markedColumns (cur : List Char) (c : Char) : Nat :=
  if isAscii c then 1 else 1 + (size cur - cur.length)

variable {before cur s back : List Char} {c : Char}

theorem size_eq_length_iff : size s = s.length ↔ ∀ c ∈ s, isAscii c = true := by
  induction s with
  | nil => simp
  | cons c s ih =>
    have hpos := c.utf8Size_pos
    have hle := length_le_size s
    rw [List.forall_mem_cons, ← ih, ← utf8Size_eq_one_iff, size_cons, List.length_cons]
    omega

/-- One character is marked unless both it and one before it on the line have several bytes. -/
theorem markedColumns_eq_one_iff :
    markedColumns cur c = 1 ↔ isAscii c = true ∨ ∀ d ∈ cur, isAscii d = true := by
  have hle := length_le_size cur
  rw [← size_eq_length_iff, markedColumns]
  split
  next hc => simp [hc]
  next hc =>
    rw [or_iff_right hc]
    omega

/-- One byte behind the start of a character. -/
theorem lineColumn_succ (hbefore : StartsLine before) (hcur : '\n' ∉ cur) (hc : c ≠ '\n') :
    lineColumn (size (before ++ cur) + 1) (before ++ (cur ++ c :: back)) =
      (1 + before.count '\n', 1 + cur.length + markedColumns cur c) := by
  have hpos := c.utf8Size_pos
  have hle := length_le_size cur
  rw [lineColumn_append hbefore hcur, markedColumns]
  cases hascii : isAscii c with
  | true =>
    have hone : c.utf8Size = 1 := utf8Size_eq_one_iff.mpr hascii
    have hne : ¬(c == '\n') = true := by simpa using hc
    rw [lineColumnFrom_cons (Nat.le_of_eq hone), if_neg hne, hone, Nat.sub_self, lineColumnFrom,
      if_pos rfl, Nat.add_comm cur.length]
  | false =>
    have hmore : c.utf8Size ≠ 1 := fun h => by simp [utf8Size_eq_one_iff.mp h] at hascii
    -- The place is inside the character, so its column is its distance in bytes.
    rw [lineColumnFrom, if_pos (by omega), if_neg Bool.false_ne_true, Prod.mk.injEq]
    exact ⟨rfl, by omega⟩

end Text

namespace SourceFile

variable {f : SourceFile} {before cur back : List Char} {c : Char}

/-- One byte behind the start of a character is inside it, unless the character is ASCII. -/
theorem position_succ (htext : f.text.toList = before ++ (cur ++ c :: back))
    (hbefore : StartsLine before) (hcur : '\n' ∉ cur) (hc : c ≠ '\n') :
    f.position (Text.size (before ++ cur) + 1) =
      ⟨1 + before.count '\n', 1 + cur.length + markedColumns cur c,
        Text.size (before ++ cur) + 1⟩ := by
  have hpos := c.utf8Size_pos
  have hle : Text.size (before ++ cur) + 1 ≤ f.size := by
    rw [size, htext, ← List.append_assoc, size_append _ (c :: back), size_cons]
    omega
  rw [position, lineColumn, htext, lineColumn_succ hbefore hcur hc, Nat.min_eq_left hle]

end SourceFile

namespace Diagnostic

/-- A syntax error as it is shown, with the line that it is on and the carets below it. -/
def syntaxErrorPieces (name expected : String) (start : Position) (line : List Char)
    (carets : Nat) : List Piece :=
  let number := toString start.line
  let margin := Piece.plain (repeated number.length ' ' ++ " ")
  let bar := Piece.painted .brightCyan "|"
  [.painted .red "error[SG0001]", .plain ": ",
    .painted .boldWhite ("syntax error: expected " ++ expected), .plain "\n",
    .plain "  ", .painted .brightCyan "-->", .plain (" " ++ placeText name start ++ "\n"),
    margin, bar, .plain "\n",
    .painted .brightCyan number, .plain " ", bar, .plain (" " ++ String.ofList line ++ "\n"),
    margin, bar, .plain (" " ++ repeated (start.column - 1) ' '),
    .painted .red (repeated carets '^'),
    .plain " ", .painted .red ("expected " ++ expected), .plain "\n",
    .plain "", .painted .blue "note",
    .plain ": the file is skipped by every generator in this run\n"]

theorem layout_syntaxError {at_ : Location} {f : SourceFile} {files : Registry} {line : List Char}
    (expected : String) (hfile : files.file? at_.file = some f)
    (hline : f.line? at_.start.line = some line) : (syntaxError at_ expected).layout files =
      syntaxErrorPieces f.name expected at_.start line (caretCount at_ line) := by
  simp [layout, header, placePieces, excerpt, syntaxError, syntaxErrorPieces, remark, hfile, hline,
    Severity.paint, Severity.text]

theorem caretCount_of_line_eq {location : Location} {line : List Char} {marked : Nat}
    (hline : location.stop.line = location.start.line)
    (hcolumn : location.stop.column = location.start.column + marked) (hpos : 0 < marked) :
    caretCount location line = marked := by
  rw [caretCount, if_pos hline.symm, hcolumn, Nat.add_sub_cancel_left]
  exact Nat.max_eq_left hpos

end Diagnostic

namespace SourceSet

/-- Where reading stops at a character that is no line feed, the location of the syntax error starts
at its line and column and ends on the same line. It has one column, shown by one caret, exactly if
that character or all those before it on the line are ASCII. Otherwise it has one more for each byte
beyond the first of a character before it on the line. -/
theorem syntaxError_marks (set : SourceSet) (path : String) {text : String}
    {e : Grammar.SyntaxError} (h : CompilationUnit.parse text = .error e)
    (hlt : e.offset < size text.toList) :
    ∃ before cur c back, text.toList = before ++ (cur ++ c :: back) ∧
      size (before ++ cur) = e.offset ∧ StartsLine before ∧ '\n' ∉ cur ∧
      (c ≠ '\n' → ∃ line,
        let marked := markedColumns cur c
        let start : Position := ⟨1 + before.count '\n', 1 + cur.length, e.offset⟩
        let stop : Position := ⟨start.line, start.column + marked, e.offset + 1⟩
        let d := Diagnostic.syntaxError ⟨set.registry.nextId, start, stop⟩ e.expected
        let files := set.registry.add ⟨path, text⟩
        set.add path text = (⟨files, set.trees⟩, .error d) ∧
          SourceFile.line? ⟨path, text⟩ start.line = some line ∧
          d.layout files = Diagnostic.syntaxErrorPieces path e.expected start line marked) ∧
      (markedColumns cur c = 1 ↔ isAscii c = true ∨ ∀ d ∈ cur, isAscii d = true) := by
  obtain ⟨before, cur, rest, htext, hsize, hbefore, hcur, -, hstart⟩ :=
    SourceFile.exists_place (f := ⟨path, text⟩) (Grammar.isBoundary_of_parse_eq_error h)
  cases rest with
  | nil =>
    have hend : text.toList = before ++ cur := by simpa using htext
    rw [hend] at hlt
    exact absurd hsize (Nat.ne_of_gt hlt)
  | cons c back =>
    refine ⟨before, cur, c, back, htext, hsize, hbefore, hcur, fun hc => ?_,
      markedColumns_eq_one_iff⟩
    have hline := SourceFile.line?_of_isLine (f := ⟨path, text⟩)
      (htext ▸ hbefore.isLine_takeWhile (cur ++ c :: back))
    have hadd := add_of_error set path text h
    rw [hstart, ← hsize, SourceFile.position_succ htext hbefore hcur hc, hsize] at hadd
    refine ⟨_, hadd, hline, ?_⟩
    rw [Diagnostic.layout_syntaxError (f := ⟨path, text⟩) e.expected
      (by simp [Registry.file?, Registry.add, Registry.nextId]) hline]
    have hmarked : 0 < markedColumns cur c := by
      rw [markedColumns]
      split <;> omega
    rw [Diagnostic.caretCount_of_line_eq rfl rfl hmarked]

/-- An enum whose name has two bytes, and then a character of three bytes in place of the brace. -/
def strayEuro : String := "enum Ä €"

theorem parse_strayEuro : ∃ e, CompilationUnit.parse strayEuro = .error e ∧ e.offset = 8 ∧
    e.expected = "'\x7b' opening the enum body" := by
  have herror : (match CompilationUnit.parse strayEuro with
      | .error e => decide (e.offset = 8 ∧ e.expected = "'\x7b' opening the enum body")
      | .ok _ => false) = true := by decide +kernel
  cases hparse : CompilationUnit.parse strayEuro with
  | ok u => simp [hparse] at herror
  | error e =>
    rw [hparse] at herror
    exact ⟨e, rfl, of_decide_eq_true herror⟩

theorem syntaxError_marks_strayEuro :
    ∃ e d line, CompilationUnit.parse strayEuro = .error e ∧ e.offset < size strayEuro.toList ∧
      (empty.add "A.cs" strayEuro).2 = .error d ∧
      d.location.stop.column = d.location.start.column + 2 ∧
      d.layout (empty.add "A.cs" strayEuro).1.registry =
        Diagnostic.syntaxErrorPieces "A.cs" e.expected d.location.start line 2 := by
  obtain ⟨e, hparse, hoffset, -⟩ := parse_strayEuro
  have hlt : e.offset < size strayEuro.toList := by
    rw [hoffset]
    decide +kernel
  obtain ⟨before, cur, c, back, htext, hsize, hbefore, hcur, hmarks, -⟩ :=
    syntaxError_marks empty "A.cs" hparse hlt
  have hplace : "enum Ä ".toList ++ ['€'] = (before ++ cur) ++ c :: back := by
    rw [List.append_assoc, ← htext]
    decide +kernel
  have hsize : size "enum Ä ".toList = size (before ++ cur) := by
    rw [hsize, hoffset]
    decide +kernel
  obtain ⟨hfront, hrest⟩ := append_inj_of_size hplace hsize
  obtain rfl : before = [] := by
    rcases hbefore.eq_or with rfl | ⟨x, rfl⟩
    · rfl
    · have hmem : '\n' ∈ "enum Ä ".toList := by simp [hfront]
      exact absurd hmem (by decide +kernel)
  rw [List.nil_append] at hfront
  subst hfront
  obtain ⟨rfl, rfl⟩ := List.cons_eq_cons.mp hrest
  have hmarked : markedColumns "enum Ä ".toList '€' = 2 := by decide +kernel
  obtain ⟨line, hadd, -, hlayout⟩ := hmarks (by decide)
  rw [hmarked] at hadd hlayout
  exact ⟨e, _, line, hparse, hlt, congrArg (·.2) hadd, rfl, by rw [hadd]; exact hlayout⟩

/-- Two carets are drawn although reading stopped at a single character. -/
theorem exists_two_carets :
    ∃ e d, CompilationUnit.parse strayEuro = .error e ∧ e.offset = 8 ∧
      strayEuro.toList = "enum Ä ".toList ++ ['€'] ∧ size "enum Ä ".toList = 8 ∧
      (empty.add "A.cs" strayEuro).2 = .error d ∧
      d.location = ⟨⟨0⟩, ⟨1, 8, 8⟩, ⟨1, 10, 9⟩⟩ ∧
      d.render false (empty.add "A.cs" strayEuro).1.registry =
        "error[SG0001]: syntax error: expected '\x7b' opening the enum body\n" ++
        "  --> A.cs:1:8\n" ++
        "  |\n" ++
        "1 | enum Ä €\n" ++
        "  |        ^^ expected '\x7b' opening the enum body\n" ++
        "note: the file is skipped by every generator in this run\n" := by
  obtain ⟨e, hparse, hoffset, hexpected⟩ := parse_strayEuro
  have hadd := add_of_error empty "A.cs" strayEuro hparse
  rw [hoffset, hexpected] at hadd
  refine ⟨e, _, hparse, hoffset, by decide +kernel, by decide +kernel, congrArg (·.2) hadd,
    by decide +kernel, ?_⟩
  rw [hadd]
  decide +kernel

end SourceSet

end DeclGen
