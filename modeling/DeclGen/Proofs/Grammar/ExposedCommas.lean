import DeclGen.Proofs.Grammar.CutCommas
import DeclGen.Proofs.Grammar.Gaps
import DeclGen.Proofs.Grammar.TypeText

/-!
# Commas in the text of a type

A list is cut into parts without reading the types in it. Brackets are stepped over, but an angle
bracket opens a list of type arguments only right behind an ASCII letter, a digit or an underscore.
So a comma between type arguments separates parts of the list if the name in front of them ends in
another character, and also behind such arguments, where one bracket has been closed too many.

## Main definitions

* `Tally`: the angle brackets that are open and the commas that have separated
* `TypeExpr.tally`: what a type does to a tally, read off its tree
* `Counts`: a text that does as much where a list is cut
* `TypeExpr.exposedCommas`: the commas in a type that separate parts

## Main statements

* `TypeExpr.Readable.counts`: cutting follows the tree
-/

namespace DeclGen

open Grammar Text
open Grammar.Cutting (commaParts_ne_nil)

/-- Where a list has been cut so far. -/
structure Tally where
  /-- The angle brackets that are open. -/
  depth : Nat
  /-- The commas that separated. -/
  commas : Nat

namespace Tally

def comma (a : Tally) : Tally := if a.depth = 0 then { a with commas := a.commas + 1 } else a

/-- Behind an opening angle bracket, which counts behind an ASCII word. -/
def opened (afterWord : Bool) (a : Tally) : Tally :=
  if afterWord then { a with depth := a.depth + 1 } else a

def closed (a : Tally) : Tally := { a with depth := a.depth - 1 }

def more (n : Nat) (a : Tally) : Tally := { a with commas := a.commas + n }

end Tally

/-- The last character of a text is one of an ASCII word; `before` tells it of an empty text. -/
def endsInAscii (before : Bool) (x : List Char) : Bool :=
  (x.getLast?.map isAsciiWordPart).getD before

mutual

def TypeExpr.tally : TypeExpr → Tally → Tally
  | .predefined _ _, a | .tuple _ _, a => a
  | .named _ gs _, a => segmentsTally gs a
  | .nullable t _, a | .array t _ _, a | .pointer t _, a => t.tally a

def segmentTally : NameSegment → Tally → Tally
  | .mk _ [], a => a
  | .mk i (t :: ts), a =>
    (typesTally ts (t.tally (a.opened (endsInAscii false i.text.toList)))).closed

def segmentsTally : List NameSegment → Tally → Tally
  | [], a => a
  | g :: gs, a => segmentsTally gs (segmentTally g a)

/-- What types with a comma in front of each do to a tally. -/
def typesTally : List TypeExpr → Tally → Tally
  | [], a => a
  | t :: ts, a => typesTally ts (t.tally a.comma)

end

/-- The commas in a type at which a list that it stands in is cut. -/
def TypeExpr.exposedCommas (t : TypeExpr) : Nat := (t.tally ⟨0, 0⟩).commas

/-! ## Tallies -/

/-- What is done to a tally leaves no more brackets open and depends on no earlier commas. -/
structure Tame (f : Tally → Tally) : Prop where
  depth_le : ∀ a, (f a).depth ≤ a.depth
  more : ∀ a n, f (a.more n) = (f a).more n

namespace Tame

variable {f g : Tally → Tally}

theorem id : Tame fun a => a := ⟨fun _ => Nat.le_refl _, fun _ _ => rfl⟩

theorem comp (hf : Tame f) (hg : Tame g) : Tame fun a => g (f a) where
  depth_le a := Nat.le_trans (hg.depth_le _) (hf.depth_le a)
  more a n := by rw [hf.more, hg.more]

theorem comma : Tame Tally.comma where
  depth_le a := by
    rw [Tally.comma]
    split <;> exact Nat.le_refl _
  more a n := by
    obtain ⟨depth, commas⟩ := a
    cases depth with
    | zero => simp [Tally.comma, Tally.more, Nat.add_right_comm]
    | succ depth => rfl

/-- Type arguments in angle brackets, whether or not these count. -/
theorem brackets (b : Bool) (hf : Tame f) : Tame fun a => (f (a.opened b)).closed where
  depth_le a := by
    have h := hf.depth_le (a.opened b)
    have hopened : (a.opened b).depth ≤ a.depth + 1 := by
      rw [Tally.opened]
      split
      · exact Nat.le_refl _
      · exact Nat.le_succ _
    simp only [Tally.closed]
    omega
  more a n := by
    have hopened : (a.more n).opened b = (a.opened b).more n := by cases b <;> rfl
    rw [hopened, hf.more]
    rfl

/-- Outside angle brackets, commas are added up. -/
theorem apply_zero (hf : Tame f) (n : Nat) : f ⟨0, n⟩ = ⟨0, n + (f ⟨0, 0⟩).commas⟩ := by
  have hmore := hf.more ⟨0, 0⟩ n
  have hdepth : (f ⟨0, 0⟩).depth = 0 := Nat.le_zero.mp (hf.depth_le _)
  have hstart : Tally.more n ⟨0, 0⟩ = ⟨0, n⟩ := by simp [Tally.more]
  rw [hstart] at hmore
  rw [hmore, Tally.more, hdepth, Nat.add_comm]

end Tame

mutual

theorem TypeExpr.tame_tally : ∀ t : TypeExpr, Tame t.tally
  | .predefined _ _ | .tuple _ _ => .id
  | .named _ gs _ => tame_segmentsTally gs
  | .nullable t _ | .array t _ _ | .pointer t _ => t.tame_tally

theorem tame_segmentTally : ∀ g : NameSegment, Tame (segmentTally g)
  | .mk _ [] => .id
  | .mk _ (t :: ts) => .brackets _ (t.tame_tally.comp (tame_typesTally ts))

theorem tame_segmentsTally : ∀ gs : List NameSegment, Tame (segmentsTally gs)
  | [] => .id
  | g :: gs => (tame_segmentTally g).comp (tame_segmentsTally gs)

theorem tame_typesTally : ∀ ts : List TypeExpr, Tame (typesTally ts)
  | [] => .id
  | t :: ts => Tame.comma.comp (t.tame_tally.comp (tame_typesTally ts))

end

namespace Grammar

variable {c : Char} {x y : List Char} {f g : Tally → Tally} {w w' w'' : Bool}

/-! ## Texts where a list is cut -/

/-- Cutting a list steps over the text as the tally says. The first flag tells whether the
character in front of the text is one of an ASCII word, the second one whether the last one is. -/
def Splits (w : Bool) (x : List Char) (f : Tally → Tally) (w' : Bool) : Prop :=
  ∀ a s, (commaParts a.depth w (x ++ s)).length + a.commas =
    (commaParts (f a).depth w' s).length + (f a).commas

/-- Cutting a list steps over the text as the tally says, whatever stands in front of it. -/
def Counts (x : List Char) (f : Tally → Tally) : Prop := ∀ w, ∃ w', Splits w x f w'

theorem length_prependPart {parts : List (List Char)} (h : parts ≠ []) :
    (prependPart x parts).length = parts.length := by
  cases parts with
  | nil => exact absurd rfl h
  | cons part parts => rfl

theorem length_prependPart_commaParts (x : List Char) (angles : Nat) (w : Bool) (s : List Char) :
    (prependPart x (commaParts angles w s)).length = (commaParts angles w s).length :=
  length_prependPart (commaParts_ne_nil angles w s)

namespace Splits

theorem nil : Splits w [] (fun a => a) w := fun _ _ => rfl

theorem append (hx : Splits w x f w') (hy : Splits w' y g w'') :
    Splits w (x ++ y) (fun a => g (f a)) w'' := by
  intro a s
  rw [List.append_assoc, hx a (y ++ s), hy (f a) s]

/-- A character that means nothing where a list is cut. -/
theorem plain (hc : isPlain c = true) (hangle : c ≠ '<' ∧ c ≠ '>' ∧ c ≠ ',') :
    Splits w [c] (fun a => a) (isAsciiWordPart c) := by
  intro a s
  simp only [isPlain, Bool.and_eq_true, Bool.not_eq_true', bne_iff_ne] at hc
  obtain ⟨⟨⟨⟨⟨⟨hopen, -⟩, hslash⟩, hquote⟩, hstring⟩, hat⟩, hdollar⟩ := hc
  have htail := literalTail_eq_none ⟨hslash, hquote, hstring, hat, hdollar⟩ s
  rw [List.singleton_append, commaParts]
  simp only [beq_eq_false_iff_ne.mpr hangle.1, beq_eq_false_iff_ne.mpr hangle.2.1,
    beq_eq_false_iff_ne.mpr hangle.2.2, Bool.false_and, hopen, htail]
  exact congrArg (· + a.commas) (length_prependPart_commaParts _ _ _ _)

/-- An `@` in front of a plain character. -/
theorem verbatim (hc : isPlain c = true) (hx : Splits false (c :: x) f w') :
    Splits w ('@' :: c :: x) f w' := by
  intro a s
  simp only [isPlain, Bool.and_eq_true, Bool.not_eq_true', bne_iff_ne] at hc
  obtain ⟨⟨⟨⟨⟨⟨hopen, hclose⟩, hslash⟩, hquote⟩, hstring⟩, hat⟩, hdollar⟩ := hc
  have htail : literalTail '@' (c :: x ++ s) = none := by
    simp [literalTail, hat, hdollar, hstring]
  rw [List.cons_append, commaParts, htail, ← hx a s]
  exact congrArg (· + a.commas) (length_prependPart_commaParts _ _ _ _)

theorem opening : Splits w ['<'] (Tally.opened w) false := by
  intro a s
  have htail : literalTail '<' s = none := literalTail_eq_none (by decide) s
  rw [List.singleton_append, commaParts, htail]
  cases w <;> exact congrArg (· + a.commas) (length_prependPart_commaParts _ _ _ _)

theorem closing : Splits w ['>'] Tally.closed false := by
  rintro ⟨depth, commas⟩ s
  have htail : literalTail '>' s = none := literalTail_eq_none (by decide) s
  rw [List.singleton_append, commaParts, htail]
  cases depth <;> exact congrArg (· + commas) (length_prependPart_commaParts _ _ _ _)

theorem comma : Splits w [','] Tally.comma false := by
  rintro ⟨depth, commas⟩ s
  have htail : literalTail ',' s = none := literalTail_eq_none (by decide) s
  rw [List.singleton_append, commaParts, htail]
  cases depth with
  | zero =>
    change (commaParts 0 false s).length + 1 + commas =
      (commaParts 0 false s).length + (commas + 1)
    omega
  | succ depth => exact congrArg (· + commas) (length_prependPart_commaParts _ _ _ _)

/-- A region in brackets. -/
theorem region (b : Brackets) (hx : Balanced x) :
    Splits w (b.opening :: (x ++ [b.closing])) (fun a => a) false := by
  intro a s
  have hclosing : closingOf b.opening = b.closing := by cases b <;> rfl
  have hscan : scan (· == closingOf b.opening) 0 0 (x ++ b.closing :: s) = some x.length := by
    rw [hclosing]
    exact hx.scan_closing (by cases b <;> rfl)
  have hdrop : (x ++ b.closing :: s).drop (x.length + 1) = s := by simp [List.drop_append]
  rw [List.cons_append, List.append_assoc, List.singleton_append, commaParts, hscan]
  simp only [hdrop]
  cases b <;> exact congrArg (· + a.commas) (length_prependPart_commaParts _ _ _ _)

/-- A comment. -/
theorem comment (h : ∀ s, commentTail (x ++ s) = some x.length) :
    Splits w ('/' :: x) (fun a => a) false := by
  intro a s
  have htail : literalTail '/' (x ++ s) = some x.length := by simp [literalTail, h s]
  rw [List.cons_append, commaParts, htail]
  simp only [List.drop_left]
  exact congrArg (· + a.commas) (length_prependPart_commaParts _ _ _ _)

end Splits

/-- Characters that mean nothing where a list is cut. -/
theorem Splits.run (hx : ∀ c ∈ x, isPlain c = true ∧ c ≠ '<' ∧ c ≠ '>' ∧ c ≠ ',') :
    Splits w x (fun a => a) (endsInAscii w x) := by
  induction x generalizing w with
  | nil => exact .nil
  | cons c x ih =>
    rw [List.forall_mem_cons] at hx
    have hrest := (Splits.plain hx.1.1 hx.1.2 (w := w)).append (ih hx.2)
    have hlast : endsInAscii (isAsciiWordPart c) x = endsInAscii w (c :: x) := by
      rw [endsInAscii, endsInAscii, List.getLast?_cons]
      cases x.getLast? <;> rfl
    rwa [hlast] at hrest

theorem Splits.of_isWord (hx : IsWord x) : Splits w x (fun a => a) (endsInAscii w x) := by
  refine .run fun c hc => ⟨isPlain_of_isWordPart (hx.forall_isWordPart c hc), ?_⟩
  have hne (d : Char) (hd : isWordPart d = false) := ne_of_isWordPart (hx.forall_isWordPart c hc) hd
  exact ⟨hne '<' (by decide), hne '>' (by decide), hne ',' (by decide)⟩

/-- An identifier has no comma and opens nothing; only its last character bears on what follows. -/
theorem Splits.of_isIdentifier (hx : IsIdentifier x) :
    Splits w x (fun a => a) (endsInAscii false x) := by
  have hword {x : List Char} {w : Bool} (hx : IsWord x) :
      Splits w x (fun a => a) (endsInAscii false x) := by
    have hlast : endsInAscii false x = endsInAscii w x := by
      cases x with
      | nil => exact hx.elim
      | cons c x => simp [endsInAscii, List.getLast?_cons]
    rw [hlast]
    exact .of_isWord hx
  rcases hx with ⟨hx, -⟩ | ⟨y, rfl, hy⟩
  · exact hword hx
  · cases y with
    | nil => exact hy.elim
    | cons c y =>
      have hplain := isPlain_of_isWordPart (hy.forall_isWordPart c List.mem_cons_self)
      exact .verbatim hplain (hword hy)

namespace Counts

theorem of_splits (h : ∀ w, Splits w x f w') : Counts x f := fun w => ⟨w', h w⟩

theorem nil : Counts [] fun a => a := fun w => ⟨w, .nil⟩

theorem append (hx : Counts x f) (hy : Counts y g) : Counts (x ++ y) fun a => g (f a) := by
  intro w
  obtain ⟨w', hx⟩ := hx w
  obtain ⟨w'', hy⟩ := hy w'
  exact ⟨w'', hx.append hy⟩

/-- A text that separates nothing, in front of another. -/
theorem cons_plain (hc : isPlain c = true) (hangle : c ≠ '<' ∧ c ≠ '>' ∧ c ≠ ',')
    (hx : Counts x f) : Counts (c :: x) f :=
  append (of_splits fun _ => .plain hc hangle) hx

theorem of_isIdentifier (hx : IsIdentifier x) : Counts x fun a => a :=
  of_splits fun _ => .of_isIdentifier hx

theorem comma (hx : Counts x f) : Counts (',' :: x) fun a => f a.comma :=
  append (of_splits fun _ => .comma) hx

/-- Blanks and comments separate nothing. -/
theorem of_isGap (hx : IsGap x) : Counts x fun a => a := by
  induction hx with
  | nil => exact nil
  | blank hc _ ih =>
    have hne (d : Char) (hd : isBlank d = false) := ne_of_isBlank hc hd
    exact ih.cons_plain (isPlain_of_isBlank hc)
      ⟨hne '<' (by decide), hne '>' (by decide), hne ',' (by decide)⟩
  | blockComment hy _ ih =>
    exact append (of_splits fun _ => .comment (commentTail_block hy)) ih
  | lineComment hy _ ih =>
    exact append (of_splits fun _ => .comment (commentTail_line hy)) ih

/-! ### Types -/

theorem commaTypes {ts : List TypeExpr} (h : ∀ t ∈ ts, Counts t.text.toList t.tally) :
    Counts (commaTypes ts) (typesTally ts) := by
  induction ts with
  | nil => exact nil
  | cons t ts ih =>
    rw [List.forall_mem_cons] at h
    exact (h.1.cons_plain (c := ' ') (by decide) (by decide)).comma.append (ih h.2)

/-- A name with type arguments: only the character in front of the angle bracket matters. -/
theorem segment {g : NameSegment} (hname : IsIdentifier g.identifier.text.toList)
    (h : ∀ t ∈ g.arguments, Counts t.text.toList t.tally) :
    Counts (g.identifier.text.toList ++ argumentsText g.arguments) (segmentTally g) := by
  obtain ⟨i, ts⟩ := g
  cases ts with
  | nil =>
    rw [NameSegment.arguments, argumentsText, List.append_nil]
    exact of_isIdentifier hname
  | cons t ts =>
    intro w
    rw [NameSegment.arguments, List.forall_mem_cons] at h
    obtain ⟨w', hlist⟩ := (h.1.append (commaTypes h.2)) false
    have hopen := (Splits.of_isIdentifier (w := w) hname).append .opening
    have hall := (hopen.append hlist).append .closing
    refine ⟨false, ?_⟩
    simpa [argumentsText, NameSegment.identifier, NameSegment.arguments, segmentTally] using hall

theorem dotSegments {gs : List NameSegment}
    (hnames : ∀ g ∈ gs, IsIdentifier g.identifier.text.toList)
    (h : ∀ g ∈ gs, ∀ t ∈ g.arguments, Counts t.text.toList t.tally) :
    Counts (dotSegments gs) (segmentsTally gs) := by
  induction gs with
  | nil => exact nil
  | cons g gs ih =>
    rw [List.forall_mem_cons] at hnames h
    have hfirst := (segment hnames.1 h.1).cons_plain (c := '.') (by decide) (by decide)
    exact hfirst.append (ih hnames.2 h.2)

/-- The commas that show in a named type are those in the arguments of its segments. -/
theorem named {qualifier : Option Identifier} {g : NameSegment} {gs : List NameSegment}
    (hqualifier : ∀ a ∈ qualifier, IsIdentifier a.text.toList)
    (hnames : ∀ h ∈ g :: gs, IsIdentifier h.identifier.text.toList)
    (h : ∀ k ∈ g :: gs, ∀ t ∈ k.arguments, Counts t.text.toList t.tally) :
    Counts (namedText qualifier g gs) (segmentsTally (g :: gs)) := by
  rw [List.forall_mem_cons] at hnames h
  have hsegments := (segment hnames.1 h.1).append (dotSegments hnames.2 h.2)
  rw [List.append_assoc] at hsegments
  cases qualifier with
  | none => exact hsegments
  | some a =>
    have hcolons := (hsegments.cons_plain (c := ':') (by decide) (by decide)).cons_plain
      (c := ':') (by decide) (by decide)
    have hall := (of_isIdentifier (hqualifier a rfl)).append hcolons
    rw [namedText, List.append_assoc]
    exact hall

end Counts

/-! ## Types -/

theorem balanced_commas (n : Nat) : Balanced (List.replicate n ',') := by
  refine .of_all (List.all_eq_true.mpr fun c hc => ?_)
  rw [List.eq_of_mem_replicate hc]
  decide

theorem balanced_typeList {t : TypeExpr} {ts : List TypeExpr}
    (h : ∀ u ∈ t :: ts, Balanced u.text.toList) : Balanced (t.text.toList ++ commaTypes ts) := by
  rw [List.forall_mem_cons] at h
  refine h.1.append (.flatMap fun u hu => ?_)
  exact .plain (by decide) (.plain (by decide) (h.2 u hu))

theorem balanced_argumentsText {ts : List TypeExpr} (h : ∀ t ∈ ts, Balanced t.text.toList) :
    Balanced (argumentsText ts) := by
  cases ts with
  | nil => exact .nil
  | cons t ts =>
    have hclosing : Balanced ['>'] := .of_all (by decide)
    have hlist := (balanced_typeList h).append hclosing
    rw [List.append_assoc] at hlist
    exact .plain (by decide) hlist

end Grammar

namespace TypeExpr.Readable

open Grammar

variable {t : TypeExpr}

/-- A search steps over the text of a type. -/
theorem balanced (ht : t.Readable) : Balanced t.text.toList := by
  induction ht with
  | predefined hname => exact (isWord_of_isPredefinedType hname).balanced
  | @named qualifier g gs span hqualifier hnames _ _ ih =>
    rw [List.forall_mem_cons] at hnames ih
    have htail : Balanced (dotSegments gs) := .flatMap fun h hh =>
      .plain (by decide) ((hnames.2 h hh).balanced.append (balanced_argumentsText (ih.2 h hh)))
    have hsegments := hnames.1.balanced.append ((balanced_argumentsText ih.1).append htail)
    rw [toList_text_named]
    cases qualifier with
    | none => exact hsegments
    | some a =>
      have hcolons : Balanced "::".toList := .of_all (by decide)
      exact ((hqualifier a rfl).balanced.append hcolons).append hsegments
  | nullable _ ih | pointer _ ih =>
    rw [TypeExpr.text, String.toList_append]
    exact ih.append (.of_all (by decide))
  | array _ _ ih =>
    rw [toList_text_array]
    exact ih.append (.bracket (by decide) (by decide) (balanced_commas _) .nil)
  | @tuple elements _ hlength _ ih =>
    cases elements with
    | nil => simp at hlength
    | cons t ts =>
      rw [TypeExpr.text, String.toList_append, String.toList_append, toList_typeList]
      exact .bracket (by decide) (by decide) (balanced_typeList ih) .nil

/-- Where a list with a type in it is cut, the tree of the type tells. -/
theorem counts (ht : t.Readable) : Counts t.text.toList t.tally := by
  induction ht with
  | predefined hname => exact fun w => ⟨_, .of_isWord (isWord_of_isPredefinedType hname)⟩
  | @named qualifier g gs span hqualifier hnames _ _ ih =>
    rw [toList_text_named]
    exact .named hqualifier hnames ih
  | nullable _ ih =>
    rw [TypeExpr.text, String.toList_append]
    exact ih.append (Counts.nil.cons_plain (c := '?') (by decide) (by decide))
  | array _ _ ih =>
    rw [toList_text_array]
    exact ih.append (.of_splits fun _ => .region .square (balanced_commas _))
  | pointer _ ih =>
    rw [TypeExpr.text, String.toList_append]
    exact ih.append (Counts.nil.cons_plain (c := '*') (by decide) (by decide))
  | @tuple elements _ hlength helements _ =>
    cases elements with
    | nil => simp at hlength
    | cons t ts =>
      have hlist := balanced_typeList fun u hu => (helements u hu).balanced
      rw [TypeExpr.text, String.toList_append, String.toList_append, toList_typeList]
      exact .of_splits fun _ => .region .round hlist

end TypeExpr.Readable

end DeclGen
