import DeclGen.Proofs.Grammar.CutUnit
import DeclGen.Proofs.Source.LineStarts
import DeclGen.SourceSet

/-!
# Every cut is in range

A file is read, registered and located by cutting its text at byte offsets, which it cannot bear
outside of the text or inside a character. No text makes such a cut, whatever stands in it: each
offset is the size of a front part.

## Main definitions

* `Grammar.Cutting.position?`: the offset of what is left of a text, as a difference
* `SourceSet.cutAdd`: reads a file by cutting

## Main statements

* `every_cut_in_range`: all cuts have an outcome, which is that of the parsers on characters
-/

namespace DeclGen

open DeclGen.Grammar DeclGen.Text

namespace Grammar.Cutting

/-- The offset of what is left of a text: the difference of their numbers of bytes. -/
def position? (text rest : List Char) : Option Nat :=
  if size rest ≤ size text then some (size text - size rest) else none

theorem position?_eq {text rest : List Char} {o : Nat} (h : Rest text o rest) :
    position? text rest = some o := by
  obtain ⟨front, rfl, rfl⟩ := h
  rw [position?, size_append, if_pos (Nat.le_add_left ..), Nat.add_sub_cancel]

/-- An error with its offset found from what is left of the text. -/
def locateError (text : List Char) (e : SyntaxError) : Option SyntaxError :=
  ((dropBytes? e.offset text).bind (position? text)).map fun o => { e with offset := o }

/-- The tree of a text, or the error that stops it from being read. -/
def parse (text : String) : Option (Except SyntaxError CompilationUnit) :=
  match compilationUnit (.ofString text) with
  | none => none
  | some (.ok (u, _)) => some (.ok u)
  | some (.error e) => (locateError text.toList e).map .error

theorem locateError_eq {text : List Char} {e : SyntaxError} (h : IsBoundary text e.offset) :
    locateError text e = some e := by
  obtain ⟨front, back, rfl, hfront⟩ := h
  have hdrop := dropBytes?_size_append front back
  rw [hfront] at hdrop
  rw [locateError, hdrop, Option.bind_some, position?_eq ⟨front, rfl, hfront⟩]
  rfl

theorem parse_eq (text : String) : parse text = some (CompilationUnit.parse text) := by
  have hunit : compilationUnit (.ofString text) =
      some (Grammar.compilationUnit (.ofString text)) := congrFun compilationUnit_eq _
  rw [parse, hunit]
  cases hread : Grammar.compilationUnit (.ofString text) with
  | ok r => rw [CompilationUnit.parse, hread]; rfl
  | error e =>
    have hparse : CompilationUnit.parse text = .error e := by
      rw [CompilationUnit.parse, hread]
      rfl
    rw [hparse]
    exact congrArg (Option.map Except.error) (locateError_eq (isBoundary_of_parse_eq_error hparse))

end Grammar.Cutting

def SourceFile.cutPosition? (f : SourceFile) (offset : Nat) : Option Position :=
  (cutLineColumn? offset f.text.toList).map fun (line, column) =>
    ⟨line, column, min offset f.size⟩

theorem SourceFile.cutPosition?_eq (f : SourceFile) (offset : Nat) :
    f.cutPosition? offset = some (f.position offset) := by
  rw [cutPosition?, cutLineColumn?_eq]
  rfl

namespace SourceSet

def cutLocate (set : SourceSet) (file : FileId) (span : Span) : Option Location :=
  match set.registry.file? file with
  | none => some (.origin file)
  | some f => do
    let start ← f.cutPosition? span.start
    let stop ← f.cutPosition? (max span.stop span.start)
    return ⟨file, start, stop⟩

/-- Registers and reads a file. If it cannot be read, the diagnostic says where. -/
def cutAdd (set : SourceSet) (path text : String) :
    Option (SourceSet × Except Diagnostic FileId) := do
  let file := set.registry.nextId
  let registered := { set with registry := set.registry.add ⟨path, text⟩ }
  match ← Cutting.parse text with
  | .ok root => return ({ registered with trees := set.trees ++ [⟨file, path, root⟩] }, .ok file)
  | .error e =>
    let place ← registered.cutLocate file ⟨e.offset, e.offset + 1⟩
    return (registered, .error (.syntaxError place e.expected))

theorem cutLocate_eq (set : SourceSet) (file : FileId) (span : Span) :
    set.cutLocate file span = some (set.locate file span) := by
  rw [cutLocate, locate, Registry.locate?]
  cases set.registry.file? file with
  | none => rfl
  | some f =>
    simp only [SourceFile.cutPosition?_eq]
    rfl

theorem cutAdd_eq (set : SourceSet) (path text : String) :
    set.cutAdd path text = some (set.add path text) := by
  rw [cutAdd, Cutting.parse_eq, add]
  cases CompilationUnit.parse text with
  | ok root => rfl
  | error e =>
    simp only [cutLocate_eq]
    rfl

end SourceSet

namespace Grammar

/-- A search through bytes ends before a character of the text. -/
theorem ByteScan.exists_of_scanDepth {front s : List Char} {stop : Char → Bool} {depth i : Nat}
    (hstop : OnlyAscii stop)
    (h : index? (scanDepth (bytes (front ++ s)) stop depth (size front)) = some i) :
    ∃ x c t, s = x ++ c :: t ∧ i = size (front ++ x) ∧ stop c = true := by
  rw [scanDepth_eq hstop (.of_append front s) depth] at h
  obtain ⟨n, hn, rfl⟩ := Option.map_eq_some_iff.mp h
  obtain ⟨c, t, hdrop, hc⟩ := exists_of_scan hn
  refine ⟨s.take n, c, t, ?_, (size_append ..).symm, hc⟩
  rw [← hdrop, List.take_append_drop]

/-- A literal ends behind a character of the text. -/
theorem ByteScan.exists_of_literalEnd {front s : List Char} {c : Char} {i : Nat}
    (h : index? (literalEnd (bytes (front ++ c :: s)) (size front)) = some i) :
    ∃ x t, s = x ++ t ∧ i = size (front ++ c :: x) := by
  rw [literalEnd_eq (.of_append front (c :: s))] at h
  obtain ⟨n, hn, rfl⟩ := Option.map_eq_some_iff.mp h
  obtain ⟨m, -, rfl⟩ := Option.map_eq_some_iff.mp hn
  exact ⟨s.take m, s.drop m, (List.take_append_drop m s).symm, (size_append ..).symm⟩

/-- Whatever is read, what is left is an end part of the text, and so is the place of an error. -/
theorem Production.rest {α : Type} {p : Parser α} (hp : Production p) {text : List Char}
    {c : Cursor} (hc : Rest text c.offset c.rest) :
    (∀ a c', p c = .ok (a, c') → Rest text c'.offset c'.rest) ∧
      ∀ e, p c = .error e → ∃ rest, Rest text e.offset rest := by
  have hout := (hp.moves text c.offset c.rest hc).2
  change Outcome text c.offset _ (p c) at hout
  refine ⟨fun a c' h => ?_, fun e h => ?_⟩ <;> rw [h] at hout
  · exact hout.1
  · obtain ⟨front, back, htext, hfront⟩ := hout
    exact ⟨back, front, htext, hfront⟩

end Grammar

/-- No text is cut outside of its bounds or inside a character. -/
theorem every_cut_in_range :
    -- The search through bytes gives offsets between characters of the text.
    (∀ front s stop depth i, OnlyAscii stop →
      ByteScan.index? (ByteScan.scanDepth (bytes (front ++ s)) stop depth (size front)) = some i →
      ∃ x c t, s = x ++ c :: t ∧ i = size (front ++ x) ∧ stop c = true) ∧
    (∀ front c s i,
      ByteScan.index? (ByteScan.literalEnd (bytes (front ++ c :: s)) (size front)) = some i →
      ∃ x t, s = x ++ t ∧ i = size (front ++ c :: x)) ∧
    -- The cuts that are made at these offsets, at those of escape sequences and operators, at the
    -- brackets of a region and between two places all have an outcome.
    (∀ c, Cutting.compilationUnit c = some (compilationUnit c)) ∧
    (∀ s, Cutting.splitCommas s = some (splitCommas s)) ∧
    -- What is left of a text is no longer than the text, and the difference is its offset.
    (∀ {α : Type} (p : Parser α), Production p → ∀ text c, Rest text c.offset c.rest →
      Cutting.position? text c.rest = some c.offset ∧
      (∀ a c', p c = .ok (a, c') →
        Rest text c'.offset c'.rest ∧ Cutting.position? text c'.rest = some c'.offset) ∧
      ∀ e, p c = .error e →
        ∃ rest, Rest text e.offset rest ∧ Cutting.position? text rest = some e.offset) ∧
    -- Lines, and the line and column of any offset, are found between starts of lines.
    (∀ (f : SourceFile) number, cutLine? number f.text.toList = some (f.line? number)) ∧
    (∀ (f : SourceFile) offset,
      cutLineColumn? offset f.text.toList = some (f.lineColumn offset)) ∧
    -- So any file is read, registered and located.
    ∀ (set : SourceSet) path text, set.cutAdd path text = some (set.add path text) := by
  refine ⟨fun _ _ _ _ _ => ByteScan.exists_of_scanDepth,
    fun _ _ _ _ => ByteScan.exists_of_literalEnd, congrFun Cutting.compilationUnit_eq,
    Cutting.splitCommas_eq, fun p hp text c hc => ?_, cutLine?_eq,
    fun f offset => cutLineColumn?_eq offset _, SourceSet.cutAdd_eq⟩
  obtain ⟨hok, herror⟩ := hp.rest hc
  refine ⟨Cutting.position?_eq hc, fun a c' h => ?_, fun e h => ?_⟩
  · exact ⟨hok a c' h, Cutting.position?_eq (hok a c' h)⟩
  · obtain ⟨rest, hrest⟩ := herror e h
    exact ⟨rest, hrest, Cutting.position?_eq hrest⟩

/-- Characters of two bytes behind a backslash, which a search through bytes jumps into: in a
string, in a region and in an enum that is not closed. -/
theorem every_cut_in_range_backslash :
    (∃ x c t, "\"\\é\x7d\" \x7d".toList = x ++ c :: t ∧ 8 = size ("\x7b".toList ++ x) ∧
      (c == '}') = true) ∧
    (∃ x t, "\\é\" \x7d".toList = x ++ t ∧ 5 = size ([] ++ '"' :: x)) ∧
    Cutting.position? "\x7b\"\\é\" \x7d é".toList " é".toList = some 8 ∧
    SourceSet.empty.cutAdd "A.cs" "enum é \x7b A = '\\é" =
      some (SourceSet.empty.add "A.cs" "enum é \x7b A = '\\é") := by
  obtain ⟨hscan, hliteral, -, -, hposition, -, -, hadd⟩ := every_cut_in_range
  refine ⟨hscan _ _ (· == '}') 0 8 (.beq (by decide)) ?_, hliteral [] '"' _ 5 ?_, ?_, hadd _ _ _⟩
  · rw [ByteScan.scanDepth_eq (.beq (by decide)) (.of_append ..)]
    decide +kernel
  · rw [ByteScan.literalEnd_eq (.of_append ..)]
    decide +kernel
  · have hread : (delimited '{' '}' ⟨0, "\x7b\"\\é\" \x7d é".toList⟩).toOption =
        some ("\x7b\"\\é\" \x7d".toList, ⟨8, " é".toList⟩) := by decide +kernel
    cases h : delimited '{' '}' ⟨0, "\x7b\"\\é\" \x7d é".toList⟩ with
    | error e =>
      rw [h] at hread
      cases hread
    | ok r =>
      rw [h] at hread
      cases hread
      exact ((hposition _ (.lexical (.delimited '{' '}')) _
        ⟨0, "\x7b\"\\é\" \x7d é".toList⟩ ⟨[], rfl, rfl⟩).2.1 _ _ h).2

end DeclGen
