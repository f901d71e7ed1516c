import DeclGen.Diagnostic.Layout
import DeclGen.Proofs.Source.Lines

/-!
# Colours

A terminal takes an escape character, a bracket, parameters and an `m` for a change of colour and
shows everything else. Without these sequences the coloured output is the plain one, if no text that
is shown has an escape character of its own.

## Main definitions

* `Text.withoutColours`: a text without its colour sequences
* `Diagnostic.texts`, `Registry.texts`: what diagnostics and files contribute to the output

## Main statements

* `Piece.withoutColours_renderAll`: colours taken off a list of pieces
* `Diagnostic.renderAll_colours`: colours taken off the output for any diagnostics
-/

namespace DeclGen

namespace Text

/-- Whether the character may stand in the parameters of a colour sequence. -/
def isColourParameter (c : Char) : Bool := c.isDigit || c == ';'

def afterColour? : List Char → Option (List Char)
  | '[' :: s =>
    match s.dropWhile isColourParameter with
    | 'm' :: t => some t
    | _ => none
  | _ => none

theorem length_lt_of_afterColour? {s t : List Char} (h : afterColour? s = some t) :
    t.length < s.length := by
  unfold afterColour? at h
  split at h
  · next s =>
    split at h
    · next u hdrop =>
      obtain rfl := Option.some.inj h
      have hle := (s.dropWhile_suffix isColourParameter).length_le
      rw [hdrop] at hle
      simp only [List.length_cons] at hle ⊢
      omega
    · cases h
  · cases h

def withoutColours : List Char → List Char
  | [] => []
  | c :: s =>
    if c = '\x1b' then
      match h : afterColour? s with
      | some t =>
        have := length_lt_of_afterColour? h
        withoutColours t
      | none => c :: withoutColours s
    else c :: withoutColours s
termination_by s => s.length
decreasing_by all_goals simp only [List.length_cons]; omega

variable {s t ps : List Char} {c : Char}

/-- A number is written in digits only. -/
theorem notMem_toDigits (hc : c.isDigit = false) (n : Nat) : c ∉ Nat.toDigits 10 n := by
  intro h
  have hdigit := Nat.isDigit_of_mem_toDigits (by decide) (by decide) h
  exact absurd hdigit (by simp [hc])

theorem withoutColours_cons (hc : c ≠ '\x1b') (s : List Char) :
    withoutColours (c :: s) = c :: withoutColours s := by
  rw [withoutColours, if_neg hc]

/-- What has no escape characters stays. -/
theorem withoutColours_append (hs : '\x1b' ∉ s) (t : List Char) :
    withoutColours (s ++ t) = s ++ withoutColours t := by
  induction s with
  | nil => rfl
  | cons c s ih =>
    rw [List.mem_cons, not_or] at hs
    obtain ⟨hc, hs⟩ := hs
    rw [List.cons_append, withoutColours_cons (Ne.symm hc), ih hs, List.cons_append]

/-- A colour sequence is left out. -/
theorem withoutColours_sequence (hps : ∀ c ∈ ps, isColourParameter c = true) (t : List Char) :
    withoutColours ('\x1b' :: '[' :: (ps ++ 'm' :: t)) = withoutColours t := by
  have hdrop : (ps ++ 'm' :: t).dropWhile isColourParameter = 'm' :: t := by
    rw [List.dropWhile_append_of_pos hps]
    rfl
  have hafter : afterColour? ('[' :: (ps ++ 'm' :: t)) = some t := by
    simp only [afterColour?, hdrop]
  rw [withoutColours, if_pos rfl]
  split
  · next u hu =>
    obtain rfl : u = t := Option.some.inj (hu.symm.trans hafter)
    rfl
  · next hnone => cases hnone.symm.trans hafter

example : withoutColours "\x1b[38;5;208mé\x1b[0m \x1b[2K".toList = "é \x1b[2K".toList := by
  decide +kernel

end Text

open DeclGen.Text

def Unescaped (s : String) : Prop := '\x1b' ∉ s.toList

instance : DecidablePred Unescaped := fun s => inferInstanceAs (Decidable ('\x1b' ∉ s.toList))

theorem Paint.isColourParameter_parameters (p : Paint) :
    ∀ c ∈ p.parameters.toList, isColourParameter c = true := by
  cases p <;> simp [parameters, isColourParameter]

/-! ## Colours of pieces -/

namespace Piece

/-- The output of some pieces, character by character. -/
theorem toList_renderAll (inColor : Bool) (ps : List Piece) :
    (renderAll inColor ps).toList = ps.flatMap fun p => (p.render inColor).toList := by
  rw [renderAll, String.toList_join, List.flatMap_map]

@[simp] theorem render_false (p : Piece) : p.render false = p.text := by
  rw [render]
  split <;> rfl

theorem toList_renderAll_false (ps : List Piece) :
    (renderAll false ps).toList = ps.flatMap (·.text.toList) := by
  simp [toList_renderAll]

/-- Both colour sequences of a piece are taken away, and nothing of its text. -/
theorem withoutColours_render {p : Piece} (hp : Unescaped p.text) (t : List Char) :
    withoutColours ((p.render true).toList ++ t) = p.text.toList ++ withoutColours t := by
  cases hpaint : p.paint with
  | none =>
    rw [render, hpaint]
    exact withoutColours_append hp t
  | some paint =>
    have hrender : (p.render true).toList ++ t =
        '\x1b' :: '[' :: (paint.parameters.toList ++
          'm' :: (p.text.toList ++ '\x1b' :: '[' :: (['0'] ++ 'm' :: t))) := by
      simp [render, hpaint]
    rw [hrender, withoutColours_sequence paint.isColourParameter_parameters,
      withoutColours_append hp, withoutColours_sequence (by simp [isColourParameter])]

/-- Colours taken off the output of some pieces. -/
theorem withoutColours_renderAll {ps : List Piece} (hps : ∀ p ∈ ps, Unescaped p.text)
    (t : List Char) :
    withoutColours ((renderAll true ps).toList ++ t) =
      (renderAll false ps).toList ++ withoutColours t := by
  rw [toList_renderAll, toList_renderAll_false]
  induction ps with
  | nil => rfl
  | cons p ps ih =>
    obtain ⟨hp, hps⟩ := List.forall_mem_cons.mp hps
    rw [List.flatMap_cons, List.flatMap_cons, List.append_assoc, List.append_assoc,
      withoutColours_render hp, ih hps]

end Piece

/-! ## Pieces of diagnostics -/

def Registry.texts (files : Registry) : List String := files.files.flatMap fun f => [f.name, f.text]

theorem Registry.forall_texts {files : Registry} {p : String → Prop} :
    (∀ s ∈ files.texts, p s) ↔ ∀ f ∈ files.files, p f.name ∧ p f.text := by
  simp only [texts, List.forall_mem_flatMap, List.forall_mem_cons, List.not_mem_nil,
    false_implies, implies_true, and_true]

theorem SourceFile.mem_text_of_mem_line? {f : SourceFile} {number : Nat} {line : List Char}
    {c : Char} (h : f.line? number = some line) (hc : c ∈ line) : c ∈ f.text.toList := by
  obtain ⟨returns, ⟨before, after, htext, -⟩, -⟩ := line?_eq_some_iff.mp h
  simp [htext, hc]

namespace Diagnostic

def texts (d : Diagnostic) : List String :=
  d.code.toList ++ d.message :: (d.labels.map (·.message) ++
    (d.suggestions.flatMap fun s => [s.message, s.replacement]) ++ d.notes ++ d.help)

variable {d : Diagnostic} {files : Registry} {name : String}

theorem forall_texts {p : String → Prop} : (∀ s ∈ d.texts, p s) ↔
    (∀ code ∈ d.code, p code) ∧ p d.message ∧ (∀ l ∈ d.labels, p l.message) ∧
      (∀ s ∈ d.suggestions, p s.message ∧ p s.replacement) ∧ (∀ note ∈ d.notes, p note) ∧
      ∀ help ∈ d.help, p help := by
  simp only [texts, List.forall_mem_append, List.forall_mem_flatMap, List.forall_mem_map,
    List.forall_mem_cons, List.not_mem_nil, false_implies, implies_true, and_true, and_assoc,
    Option.mem_toList, Option.mem_def]

@[simp] theorem escape_notMem_toDigits (n : Nat) : '\x1b' ∉ Nat.toDigits 10 n :=
  notMem_toDigits rfl n

theorem unescaped_header (hcode : ∀ code ∈ d.code, Unescaped code)
    (hmessage : Unescaped d.message) : ∀ p ∈ d.header, Unescaped p.text := by
  have hseverity : Unescaped d.severity.text := by
    unfold Unescaped
    cases d.severity <;> decide
  unfold Unescaped at *
  cases h : d.code with
  | none => simp [header, Piece.plain, Piece.painted, h, hmessage, hseverity]
  | some code =>
    have hcode := hcode code h
    simp [header, Piece.plain, Piece.painted, h, hmessage, hseverity, hcode]

theorem unescaped_excerpt {line : List Char} (hline : '\x1b' ∉ line)
    (hlabels : ∀ l ∈ d.labels, Unescaped l.message) : ∀ p ∈ d.excerpt line, Unescaped p.text := by
  unfold Unescaped at *
  cases h : d.labels.find? (·.isPrimary) with
  | none => simp [excerpt, Piece.plain, Piece.painted, repeated, h, hline]
  | some l =>
    have hlabel := hlabels l (List.mem_of_find?_eq_some h)
    simp [excerpt, Piece.plain, Piece.painted, repeated, h, hline, hlabel]

theorem unescaped_placePieces (hlabels : ∀ l ∈ d.labels, Unescaped l.message)
    (hfiles : ∀ f ∈ files.files, Unescaped f.name ∧ Unescaped f.text) :
    ∀ p ∈ d.placePieces files, Unescaped p.text := by
  unfold placePieces
  split
  · simp
  · next f hf =>
    obtain ⟨hname, htext⟩ := hfiles f (List.mem_of_getElem? hf)
    rw [List.forall_mem_append]
    refine ⟨?_, ?_⟩
    · unfold Unescaped at *
      simp [Piece.plain, Piece.painted, placeText, hname]
    · split
      · next line hline =>
        exact unescaped_excerpt (fun h => htext (f.mem_text_of_mem_line? hline h)) hlabels
      · simp

theorem unescaped_furtherPlace {l : Label} (hl : Unescaped l.message)
    (hfiles : ∀ f ∈ files.files, Unescaped f.name ∧ Unescaped f.text) :
    ∀ p ∈ furtherPlace files l, Unescaped p.text := by
  unfold furtherPlace
  split
  · next f hf =>
    have hname := (hfiles f (List.mem_of_getElem? hf)).1
    unfold Unescaped at *
    simp [Piece.plain, Piece.painted, placeText, hname, hl]
  · simp

theorem unescaped_remark {indent word message : String} (paint : Paint)
    (hword : Unescaped (indent ++ word)) (hmessage : Unescaped message) :
    ∀ p ∈ remark indent paint word message, Unescaped p.text := by
  simp only [Unescaped, String.toList_append, List.mem_append, not_or] at *
  simp [remark, Piece.plain, Piece.painted, hword, hmessage]

/-- The pieces of a diagnostic have no escape character if its texts and those of the files have
none. -/
theorem unescaped_layout (hd : ∀ s ∈ d.texts, Unescaped s)
    (hfiles : ∀ s ∈ files.texts, Unescaped s) : ∀ p ∈ d.layout files, Unescaped p.text := by
  rw [forall_texts] at hd
  rw [Registry.forall_texts] at hfiles
  obtain ⟨hcode, hmessage, hlabels, hsuggestions, hnotes, hhelp⟩ := hd
  intro p hp
  simp only [layout, List.mem_append, List.mem_flatMap, List.mem_filter] at hp
  obtain ((((hp | hp) | ⟨l, ⟨hl, -⟩, hp⟩) | ⟨s, hs, hp⟩) | ⟨help, hh, hp⟩) | ⟨note, hn, hp⟩ := hp
  · exact unescaped_header hcode hmessage p hp
  · exact unescaped_placePieces hlabels hfiles p hp
  · exact unescaped_furtherPlace (hlabels l hl) hfiles p hp
  · exact unescaped_remark .orange (by decide) (hsuggestions s hs).1 p hp
  · exact unescaped_remark .green (by decide) (hhelp help hh) p hp
  · exact unescaped_remark .blue (by decide) (hnotes note hn) p hp

theorem unescaped_render (hd : ∀ s ∈ d.texts, Unescaped s)
    (hfiles : ∀ s ∈ files.texts, Unescaped s) : Unescaped (d.render false files) := by
  intro h
  rw [render, Piece.toList_renderAll_false, List.mem_flatMap] at h
  obtain ⟨p, hp, hescape⟩ := h
  exact unescaped_layout hd hfiles p hp hescape

/-- Without its colour sequences the coloured output for any diagnostics is the plain one, and that
has no escape character, if the texts of the diagnostics and the names and texts of the files have
none. -/
theorem renderAll_colours {ds : List Diagnostic} {files : Registry}
    (hds : ∀ d ∈ ds, ∀ s ∈ d.texts, Unescaped s) (hfiles : ∀ s ∈ files.texts, Unescaped s) :
    withoutColours (renderAll true ds files).toList = (renderAll false ds files).toList ∧
      Unescaped (renderAll false ds files) := by
  unfold renderAll
  induction ds with
  | nil => simp [withoutColours, Unescaped]
  | cons d ds ih =>
    obtain ⟨hd, hds⟩ := List.forall_mem_cons.mp hds
    obtain ⟨ihcolours, ihplain⟩ := ih hds
    have hplain := unescaped_render hd hfiles
    have hcolours (t : List Char) : withoutColours ((d.render true files).toList ++ t) =
        (d.render false files).toList ++ withoutColours t :=
      Piece.withoutColours_renderAll (unescaped_layout hd hfiles) t
    cases ds with
    | nil =>
      have hend := hcolours []
      simp only [withoutColours, List.append_nil] at hend
      simpa using ⟨hend, hplain⟩
    | cons d' ds =>
      simp only [List.map_cons, String.intercalate_cons_cons, String.toList_append,
        List.append_assoc, Unescaped, List.mem_append, not_or] at *
      rw [hcolours, withoutColours_append (by decide), ihcolours]
      exact ⟨rfl, hplain, by decide, ihplain⟩

/-- An error with a code and remarks of every kind, about a class that stands in two files, and a
hint about a file that is not known. -/
def twoPlaces : List Diagnostic :=
  [{ severity := .error, code := some "SG2001", message := "class 'Ä' is not partial",
     location := ⟨⟨0⟩, ⟨1, 7, 6⟩, ⟨1, 8, 8⟩⟩,
     labels := [⟨⟨⟨1⟩, ⟨2, 15, 16⟩, ⟨2, 16, 18⟩⟩, "partial here", false⟩,
       ⟨⟨⟨0⟩, ⟨1, 7, 6⟩, ⟨1, 8, 8⟩⟩, "not here", true⟩],
     suggestions := [⟨"declare the class partial", ⟨⟨0⟩, ⟨1, 1, 0⟩, ⟨1, 1, 0⟩⟩, "partial "⟩],
     notes := ["both parts are one class"], help := ["or rename one of them"] },
   { severity := .hint, message := "this file is gone", location := .origin ⟨2⟩ }]

def partFiles : Registry := ⟨[⟨"A.cs", "class Ä { }"⟩, ⟨"B.cs", "\r\npartial class Ä { }\r\n"⟩]⟩

theorem renderAll_colours_twoPlaces :
    (∀ d ∈ twoPlaces, ∀ s ∈ d.texts, Unescaped s) ∧ (∀ s ∈ partFiles.texts, Unescaped s) ∧
      ¬Unescaped (renderAll true twoPlaces partFiles) ∧
      withoutColours (renderAll true twoPlaces partFiles).toList =
        (renderAll false twoPlaces partFiles).toList ∧
      Unescaped (renderAll false twoPlaces partFiles) := by
  have hds : ∀ d ∈ twoPlaces, ∀ s ∈ d.texts, Unescaped s := by decide +kernel
  have hfiles : ∀ s ∈ partFiles.texts, Unescaped s := by decide +kernel
  have hcoloured : ¬Unescaped (renderAll true twoPlaces partFiles) := by
    simp [Unescaped, renderAll, twoPlaces, String.intercalate_cons_cons, render,
      Piece.toList_renderAll, layout, header, Piece.painted, Piece.render]
  exact ⟨hds, hfiles, hcoloured, renderAll_colours hds hfiles⟩

end Diagnostic

end DeclGen
