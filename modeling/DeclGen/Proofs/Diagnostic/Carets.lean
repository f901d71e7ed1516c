import DeclGen.Proofs.Diagnostic.Colours
import DeclGen.Proofs.Source.Lines
import DeclGen.Proofs.Text.Bytes

/-!
# Carets

The excerpt of a diagnostic has the line that it starts on in one row and carets in the row below.
Both rows start with a gutter of the width of the line's number. So the first caret stands below the
character at the start of the location, and the carets reach as far as the location does, or to the
end of the line.

## Main definitions

* `Diagnostic.sourceRow`, `Diagnostic.caretRow`: the two rows
* `Diagnostic.Shows`: an output has one row right above another
* `SourceFile.MarkedAt`: a marked part starts in what is shown of a line

## Main statements

* `Diagnostic.shows_render`: the rows of every diagnostic
* `SourceFile.exists_shown`: a place in what is shown of its line
* `Diagnostic.carets_below_location`: what stands above the carets
-/

namespace DeclGen

open DeclGen.Text

/-! ## Rows -/

namespace Diagnostic

/-- What stands before a line of a file in its row. -/
def gutter (number : Nat) : List Char := (toString number).toList ++ " | ".toList

def emptyGutter (number : Nat) : List Char :=
  List.replicate (toString number).length ' ' ++ " | ".toList

def sourceRow (number : Nat) (line : List Char) : List Char := gutter number ++ line

/-- The row of carets below a line, with as many characters of the line before them. -/
def caretRow (number before carets : Nat) : List Char :=
  emptyGutter number ++ (List.replicate before ' ' ++ List.replicate carets '^')

/-- One row of the output is right above another one, which at most a blank and a label follow. -/
def Shows (output upper lower : List Char) : Prop :=
  ∃ front back, output = front ++ '\n' :: (upper ++ '\n' :: (lower ++ back)) ∧ '\n' ∉ upper ∧
    (back.head? = some '\n' ∨ back.head? = some ' ')

variable {d : Diagnostic} {files : Registry} {f : SourceFile} {line : List Char}

theorem length_emptyGutter (number : Nat) :
    (emptyGutter number).length = (gutter number).length := by
  simp [emptyGutter, gutter, ← String.length_toList]

theorem lineFeed_notMem_gutter (number : Nat) : '\n' ∉ gutter number := by
  simp [gutter, notMem_toDigits]

/-- The first caret is behind the gutter and as many columns as the row leaves out. -/
theorem idxOf_caretRow (number before : Nat) {carets : Nat} (hpos : 0 < carets) :
    (caretRow number before carets).idxOf '^' = (gutter number).length + before := by
  obtain ⟨n, rfl⟩ : ∃ n, carets = n + 1 := ⟨carets - 1, by omega⟩
  have hgutter : '^' ∉ emptyGutter number := by simp [emptyGutter]
  rw [caretRow, List.idxOf_append_of_notMem hgutter, List.idxOf_append_of_notMem (by simp),
    List.replicate_succ, List.idxOf_cons_self, length_emptyGutter, List.length_replicate,
    Nat.add_zero]

theorem drop_sourceRow (number n : Nat) (line : List Char) :
    (sourceRow number line).drop ((gutter number).length + n) = line.drop n := by
  rw [sourceRow, List.drop_append]
  simp

/-- The excerpt of a diagnostic as it is written without colours. -/
theorem text_excerpt (d : Diagnostic) (line : List Char) :
    ∃ front back, (d.excerpt line).flatMap (·.text.toList) =
        front ++ '\n' :: (sourceRow d.location.start.line line ++
          '\n' :: (caretRow d.location.start.line (d.location.start.column - 1)
            (caretCount d.location line) ++ back)) ∧
      (back.head? = some '\n' ∨ back.head? = some ' ') := by
  cases hlabel : d.labels.find? (·.isPrimary) with
  | none =>
    refine ⟨List.replicate (toString d.location.start.line).length ' ' ++ " |".toList, ['\n'], ?_,
      .inl rfl⟩
    simp [excerpt, hlabel, Piece.plain, Piece.painted, repeated, sourceRow, caretRow, gutter,
      emptyGutter]
  | some l =>
    refine ⟨List.replicate (toString d.location.start.line).length ' ' ++ " |".toList,
      ' ' :: (l.message.toList ++ ['\n']), ?_, .inr rfl⟩
    simp [excerpt, hlabel, Piece.plain, Piece.painted, repeated, sourceRow, caretRow, gutter,
      emptyGutter]

theorem exists_layout (hfile : files.file? d.location.file = some f)
    (hline : f.line? d.location.start.line = some line) :
    ∃ front back, d.layout files = front ++ (d.excerpt line ++ back) :=
  ⟨d.header ++ [.plain "  ", .painted .brightCyan "-->",
      .plain (" " ++ placeText f.name d.location.start ++ "\n")], _, by
    simp only [layout, placePieces, hfile, hline, List.append_assoc]
    rfl⟩

/-- Every diagnostic of a known file and line shows that line and its carets. -/
theorem shows_render (hfile : files.file? d.location.file = some f)
    (hline : f.line? d.location.start.line = some line) :
    Shows (d.render false files).toList (sourceRow d.location.start.line line)
      (caretRow d.location.start.line (d.location.start.column - 1)
        (caretCount d.location line)) := by
  obtain ⟨above, below, hlayout⟩ := exists_layout hfile hline
  obtain ⟨front, back, hexcerpt, hback⟩ := text_excerpt d line
  obtain ⟨returns, ⟨-, -, -, hpiece, -⟩, -⟩ := SourceFile.line?_eq_some_iff.mp hline
  refine ⟨above.flatMap (·.text.toList) ++ front, back ++ below.flatMap (·.text.toList), ?_, ?_, ?_⟩
  · rw [render, Piece.toList_renderAll_false, hlayout, List.flatMap_append, List.flatMap_append,
      hexcerpt]
    simp only [List.append_assoc, List.cons_append]
  · rw [sourceRow, List.mem_append, not_or]
    exact ⟨lineFeed_notMem_gutter _, fun h => hpiece (List.mem_append_left returns h)⟩
  · cases back with
    | nil => simp at hback
    | cons c back => exact hback

end Diagnostic

/-! ## Places in what is shown -/

namespace SourceFile

variable {f : SourceFile} {s e : Nat} {shown : List Char}

/-- A place in what is shown of its line, or at the end of that: what is shown before and behind
it. -/
theorem exists_shown {number column : Nat} (hs : IsBoundary f.text.toList s)
    (hstart : f.lineColumn s = (number, column)) (hshown : f.line? number = some shown)
    (hinside : column ≤ shown.length + 1) :
    ∃ before cur ahead back, f.text.toList = before ++ cur ++ (ahead ++ back) ∧
      Text.size (before ++ cur) = s ∧ StartsLine before ∧ '\n' ∉ cur ∧ shown = cur ++ ahead ∧
      number = 1 + before.count '\n' ∧ column = 1 + cur.length := by
  obtain ⟨before, cur, rest, htext, hsize, hbefore, hcur, hplace, -⟩ := exists_place hs
  rw [hstart, Prod.mk.injEq] at hplace
  obtain ⟨rfl, rfl⟩ := hplace
  obtain ⟨returns, hpiece, -⟩ := line?_eq_some_iff.mp hshown
  have hline := hbefore.isLine_takeWhile (cur ++ rest)
  rw [← htext, takeWhile_append_of_notMem hcur] at hline
  have hpieces := hpiece.unique hline
  have hle : cur.length ≤ shown.length := by omega
  -- The line starts with `cur` and with what is shown, which is not shorter.
  obtain ⟨ahead, rfl, hahead⟩ : ∃ ahead, shown = cur ++ ahead ∧
      ahead ++ returns = rest.takeWhile (· != '\n') := by
    obtain ⟨ahead, rfl⟩ := List.prefix_of_prefix_length_le (List.prefix_append cur _)
      (hpieces ▸ List.prefix_append shown returns) hle
    rw [List.append_assoc] at hpieces
    exact ⟨ahead, rfl, List.append_cancel_left hpieces⟩
  refine ⟨before, cur, ahead, returns ++ rest.dropWhile (· != '\n'), ?_, hsize, hbefore, hcur, rfl,
    rfl, rfl⟩
  rw [← List.append_assoc ahead, hahead, List.takeWhile_append_dropWhile, htext, List.append_assoc]

end SourceFile

/-! ## What stands above the carets -/

/-- A part of a file is marked that starts in what is shown of a line: `cur` is shown before it,
and `ahead` from its start on. -/
structure SourceFile.MarkedAt (f : SourceFile) (before cur ahead marked : List Char) : Prop where
  shown : ∃ back, f.text.toList = before ++ cur ++ (ahead ++ back)
  marks : ∃ back, f.text.toList = before ++ cur ++ (marked ++ back)
  startsLine : StartsLine before
  inLine : '\n' ∉ cur

namespace SourceFile.MarkedAt

variable {f : SourceFile} {before cur ahead marked : List Char} {id : FileId}

theorem position_start (h : f.MarkedAt before cur ahead marked) :
    f.position (Text.size (before ++ cur)) =
      ⟨1 + before.count '\n', 1 + cur.length, Text.size (before ++ cur)⟩ := by
  obtain ⟨back, htext⟩ := h.shown
  rw [SourceFile.position_eq htext, ← line_behind h.inLine, ← column_behind h.startsLine h.inLine]
  rfl

theorem lineColumn_stop (h : f.MarkedAt before cur ahead marked) :
    f.lineColumn (Text.size (before ++ cur ++ marked)) =
      ((Position.behind (before ++ cur ++ marked)).line,
        (Position.behind (before ++ cur ++ marked)).column) := by
  obtain ⟨back, htext⟩ := h.marks
  exact SourceFile.lineColumn_behind (htext.trans (List.append_assoc ..).symm)

/-- The marked part ends as many lines further down as it has line feeds. -/
theorem line_stop (h : f.MarkedAt before cur ahead marked) :
    (f.lineColumn (Text.size (before ++ cur ++ marked))).1 =
      1 + before.count '\n' + marked.count '\n' := by
  rw [h.lineColumn_stop]
  simp [Position.behind, List.count_eq_zero_of_not_mem h.inLine, Nat.add_assoc]

theorem column_stop (h : f.MarkedAt before cur ahead marked) (hfeed : '\n' ∉ marked) :
    (f.lineColumn (Text.size (before ++ cur ++ marked))).2 = 1 + cur.length + marked.length := by
  rw [h.lineColumn_stop]
  dsimp only
  rw [List.append_assoc, column_behind h.startsLine (by simp [h.inLine, hfeed]),
    List.length_append, Nat.add_assoc]

/-- A marked part that is no longer than what is shown is the front part of that. -/
theorem take_ahead (h : f.MarkedAt before cur ahead marked)
    (hle : marked.length ≤ ahead.length) : ahead.take marked.length = marked := by
  obtain ⟨back, hshown⟩ := h.shown
  obtain ⟨rest, hmarks⟩ := h.marks
  have htake := congrArg (List.take marked.length)
    (List.append_cancel_left (hshown.symm.trans hmarks))
  rwa [List.take_append_of_le_length hle, List.take_left] at htake

/-- The number of carets, by what is marked and by what is shown from the start of it on. -/
theorem caretCount_eq (h : f.MarkedAt before cur ahead marked) :
    Diagnostic.caretCount ⟨id, f.position (Text.size (before ++ cur)),
          f.position (Text.size (before ++ cur ++ marked))⟩
        (cur ++ ahead) = max (if '\n' ∈ marked then ahead.length else marked.length) 1 := by
  obtain ⟨back, htext⟩ := h.marks
  have hstop : f.text.toList = before ++ cur ++ marked ++ back := by simp [htext]
  rw [SourceFile.position_eq htext, SourceFile.position_eq hstop]
  by_cases hfeed : '\n' ∈ marked
  · have hcount := List.count_pos_iff.mpr hfeed
    have hlines : ¬(Position.behind (before ++ cur)).line =
        (Position.behind (before ++ cur ++ marked)).line := by
      simp only [Position.behind, List.count_append]
      omega
    rw [Diagnostic.caretCount, if_neg hlines, if_pos hfeed, column_behind h.startsLine h.inLine]
    simp
  · have hcur' : '\n' ∉ cur ++ marked := by simp [h.inLine, hfeed]
    rw [Diagnostic.caretCount, if_neg hfeed]
    simp only [List.append_assoc]
    rw [if_pos (by rw [line_behind h.inLine, line_behind hcur']),
      column_behind h.startsLine h.inLine, column_behind h.startsLine hcur', List.length_append]
    congr 1
    omega

end SourceFile.MarkedAt

/-- Two places of a file, of which the first is in what is shown of its line, mark a part of it. -/
theorem SourceFile.exists_markedAt {f : SourceFile} {s e number column : Nat} {shown : List Char}
    (hs : IsBoundary f.text.toList s) (he : IsBoundary f.text.toList e) (hle : s ≤ e)
    (hstart : f.lineColumn s = (number, column)) (hshown : f.line? number = some shown)
    (hinside : column ≤ shown.length + 1) :
    ∃ before cur ahead marked, f.MarkedAt before cur ahead marked ∧ s = Text.size (before ++ cur) ∧
      e = Text.size (before ++ cur ++ marked) ∧ shown = cur ++ ahead ∧
      number = 1 + before.count '\n' ∧ column = 1 + cur.length := by
  obtain ⟨before, cur, ahead, back, htext, rfl, hbefore, hcur, hsplit, hnumber, hcolumn⟩ :=
    exists_shown hs hstart hshown hinside
  obtain ⟨_, rest, htext', rfl⟩ := he
  obtain ⟨marked, rfl, hmarked⟩ := exists_append_of_size_le (htext.symm.trans htext') hle
  exact ⟨before, cur, ahead, marked,
    ⟨⟨back, htext⟩, ⟨rest, htext'.trans (List.append_assoc ..)⟩, hbefore, hcur⟩,
    rfl, rfl, hsplit, hnumber, hcolumn⟩

/-- The location of two places in order has their positions. -/
theorem Registry.eq_of_locate? {files : Registry} {id : FileId} {f : SourceFile} {s e : Nat}
    {l : Location} (hfile : files.file? id = some f) (hle : s ≤ e)
    (hlocation : files.locate? id s e = some l) : l = ⟨id, f.position s, f.position e⟩ := by
  simp only [Registry.locate?, hfile, Option.map_some, Nat.max_eq_left hle] at hlocation
  exact (Option.some.inj hlocation).symm

namespace Diagnostic

variable {files : Registry} {id : FileId} {f : SourceFile} {s e : Nat} {shown : List Char}
  {d : Diagnostic}

/-- The output for a location that starts in what is shown of a line, or at the end of that, has a
row with the line and right below it a row of carets, with gutters of the same width. The first
caret is in the column of the character at the start of the location. If the location is empty there
is one caret. If it ends in what is shown of the line, the characters above the carets are the text
of the location. If it ends on a later line, the carets reach to the end of what is shown, and there
is one if nothing is shown there. -/
theorem carets_below_location {number column lastNumber lastColumn : Nat}
    (hfile : files.file? id = some f) (hs : IsBoundary f.text.toList s)
    (he : IsBoundary f.text.toList e) (hle : s ≤ e)
    (hlocation : files.locate? id s e = some d.location)
    (hstart : f.lineColumn s = (number, column))
    (hstop : f.lineColumn e = (lastNumber, lastColumn))
    (hshown : f.line? number = some shown) (hinside : column ≤ shown.length + 1) :
    let upper := sourceRow number shown
    let first := (gutter number).length + (column - 1)
    ∃ carets marked, between? s e f.text.toList = some marked ∧
      Shows (d.render false files).toList upper (caretRow number (column - 1) carets) ∧
      (emptyGutter number).length = (gutter number).length ∧
      (caretRow number (column - 1) carets).idxOf '^' = first ∧
      (column ≤ shown.length → ∃ front c back, f.text.toList = front ++ c :: back ∧
        size front = s ∧ upper[first]? = some c) ∧
      (s = e → carets = 1) ∧
      (s < e → lastNumber = number → lastColumn ≤ shown.length + 1 →
        (upper.drop first).take carets = marked ∧ carets = marked.length) ∧
      (number < lastNumber → carets = max (upper.drop first).length 1) := by
  intro upper first
  obtain ⟨before, cur, ahead, marked, hat, rfl, rfl, rfl, rfl, rfl⟩ :=
    SourceFile.exists_markedAt hs he hle hstart hshown hinside
  have hlast := hat.line_stop
  have hlocated := Registry.eq_of_locate? hfile hle hlocation
  have hposition : d.location.start =
      ⟨1 + before.count '\n', 1 + cur.length, size (before ++ cur)⟩ := by
    rw [hlocated, hat.position_start]
  have hcarets : caretCount d.location (cur ++ ahead) =
      max (if '\n' ∈ marked then ahead.length else marked.length) 1 := by
    rw [hlocated, hat.caretCount_eq]
  have hknown : files.file? d.location.file = some f := by rw [hlocated, hfile]
  have hshows := shows_render hknown (by rw [hposition, hshown])
  rw [hposition] at hshows
  have hpos : 0 < caretCount d.location (cur ++ ahead) := by omega
  have hahead : upper.drop first = ahead := by
    rw [drop_sourceRow, Nat.add_sub_cancel_left, List.drop_left]
  refine ⟨_, marked, ?_, hshows, length_emptyGutter _, idxOf_caretRow _ _ hpos, fun hcolumn => ?_,
    fun hempty => ?_, fun hsome hline hend => ?_, fun hlater => ?_⟩
  · obtain ⟨rest, htext⟩ := hat.marks
    rw [htext, size_append _ marked]
    exact between?_append _ marked rest
  · obtain ⟨back, htext⟩ := hat.shown
    obtain ⟨c, ahead, rfl⟩ : ∃ c ahead', ahead = c :: ahead' := by
      refine List.exists_cons_of_ne_nil fun hnil => ?_
      simp only [hnil, List.append_nil] at hcolumn
      omega
    refine ⟨before ++ cur, c, ahead ++ back, htext, rfl, ?_⟩
    rw [← List.head?_drop, hahead]
    rfl
  · have hlength := length_le_size marked
    obtain rfl : marked = [] := by
      rw [size_append _ marked] at hempty
      exact List.eq_nil_of_length_eq_zero (by omega)
    simp [hcarets]
  · -- The location ends in the line, so it is the front part of what is shown from its start on.
    rw [hstop] at hlast
    have hfeed : '\n' ∉ marked := fun h => by
      have hcount := List.count_pos_iff.mpr h
      omega
    have hmore : marked ≠ [] := by
      rintro rfl
      simp at hsome
    have hlastColumn := hat.column_stop hfeed
    rw [hstop] at hlastColumn
    rw [List.length_append] at hend
    have hcount : caretCount d.location (cur ++ ahead) = marked.length := by
      have := List.length_pos_iff.mpr hmore
      rw [hcarets, if_neg hfeed]
      omega
    rw [hahead, hcount]
    exact ⟨hat.take_ahead (by omega), rfl⟩
  · rw [hstop] at hlast
    have hfeed : '\n' ∈ marked := List.count_pos_iff.mp (by omega)
    rw [hcarets, if_pos hfeed, hahead]

/-- A file whose tenth line has characters of one, two and three bytes and a carriage return. -/
def tenthLine : SourceFile := ⟨"B.cs", "\n\n\n\n\n\n\n\n\n Ä€ = é;\r\n"⟩

/-- A warning about a character of three bytes and what follows it. -/
def tenthLineWarning : Diagnostic where
  severity := .warning
  message := "not a constant"
  location := ⟨⟨1⟩, ⟨10, 3, 12⟩, ⟨10, 6, 17⟩⟩
  labels := [⟨⟨⟨1⟩, ⟨10, 3, 12⟩, ⟨10, 6, 17⟩⟩, "here", true⟩]

theorem carets_below_location_tenthLine :
    IsBoundary tenthLine.text.toList 12 ∧ IsBoundary tenthLine.text.toList 17 ∧
      Registry.locate? ⟨[⟨"A.cs", ""⟩, tenthLine]⟩ ⟨1⟩ 12 17 = some tenthLineWarning.location ∧
      Shows (tenthLineWarning.render false ⟨[⟨"A.cs", ""⟩, tenthLine]⟩).toList
        "10 |  Ä€ = é;".toList "   |   ^^^".toList ∧
      ("10 |  Ä€ = é;".toList.drop 7).take 3 = "€ =".toList := by
  have hs : IsBoundary tenthLine.text.toList 12 :=
    ⟨"\n\n\n\n\n\n\n\n\n Ä".toList, "€ = é;\r\n".toList, by decide +kernel, by decide +kernel⟩
  have he : IsBoundary tenthLine.text.toList 17 :=
    ⟨"\n\n\n\n\n\n\n\n\n Ä€ =".toList, " é;\r\n".toList, by decide +kernel, by decide +kernel⟩
  have hlocation : Registry.locate? ⟨[⟨"A.cs", ""⟩, tenthLine]⟩ ⟨1⟩ 12 17 =
      some tenthLineWarning.location := by decide +kernel
  have hbetween : between? 12 17 tenthLine.text.toList = some "€ =".toList := by decide +kernel
  have hshown : tenthLine.line? 10 = some " Ä€ = é;".toList := by decide +kernel
  have hstart : tenthLine.lineColumn 12 = (10, 3) := by decide +kernel
  have hstop : tenthLine.lineColumn 17 = (10, 6) := by decide +kernel
  obtain ⟨carets, marked, hmarked, hshows, -, -, -, -, hline, -⟩ :=
    carets_below_location (by rfl) hs he (by decide) hlocation hstart hstop hshown (by decide)
  obtain rfl : "€ =".toList = marked := Option.some.inj (hbetween.symm.trans hmarked)
  obtain ⟨habove, rfl⟩ := hline (by decide) rfl (by decide)
  exact ⟨hs, he, hlocation, hshows, habove⟩

end Diagnostic

end DeclGen
