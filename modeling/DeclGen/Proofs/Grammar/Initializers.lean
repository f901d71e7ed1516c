import DeclGen.Proofs.Grammar.ItemRegions
import DeclGen.Proofs.Grammar.Places
import DeclGen.Proofs.Text.Split

/-!
# Where the initializer of a field ends

An initializer is not parsed. A comma ends it if a word that is not reserved follows, and behind the
word `=`, `,` or `;`, which is what the next variable of the field looks like. But an argument
between two others of a generic type looks the same.

## Main definitions

* `EndsInitializer`, `ExtendsInitializer`: the texts in front of which an initializer ends, and
  those that it goes on in
* `argumentsEnd`: type arguments and the call behind them

## Main statements

* `fieldInitializer_eq`, `ends_of_fieldInitializer`: an initializer that constructs a generic type
  ends in front of a text exactly if the text closes it and its inner arguments are reserved words
-/

namespace DeclGen.Grammar

open DeclGen.Grammar.Parser DeclGen.Text

variable {c : Char} {s t v w x y : List Char} {o o' : Nat}

/-! ## What looks like a variable -/

def bareWord : List Char → List Char
  | '@' :: x => x
  | x => x

/-- Apart from an `@` in front of it the text is a reserved word. -/
def IsReserved (x : List Char) : Prop := isKeyword (String.ofList (bareWord x)) = true

instance : DecidablePred IsReserved := fun _ => inferInstanceAs (Decidable (_ = true))

/-- The text is an identifier or the word of a built-in type. -/
def IsTypeWord (x : List Char) : Prop :=
  IsIdentifier x ∨ isPredefinedType (String.ofList x) = true

/-- A word, with or without `@`. -/
theorem IsTypeWord.exists_word (hx : IsTypeWord x) :
    ∃ y, bareWord x = y ∧ IsWord y ∧ (x = y ∨ x = '@' :: y) := by
  have hword (hx : IsWord x) : bareWord x = x := by
    rw [bareWord]
    rintro y rfl
    exact absurd rfl (hx.head?_ne (t := []) (c := '@') (by decide))
  rcases hx with (⟨hx, -⟩ | ⟨y, rfl, hy⟩) | hpre
  · exact ⟨x, hword hx, hx, .inl rfl⟩
  · exact ⟨y, rfl, hy, .inr rfl⟩
  · have hx := isWord_of_isPredefinedType hpre
    rw [String.toList_ofList] at hx
    exact ⟨x, hword hx, hx, .inl rfl⟩

theorem IsTypeWord.stops (hx : IsTypeWord x) : Stops (x ++ t) := by
  obtain ⟨y, -, hy, rfl | rfl⟩ := hx.exists_word
  · exact hy.stops
  · exact .cons (by decide)

def followsVariable : List Char → Bool
  | ';' :: _ => true
  | ',' :: _ => true
  | '=' :: '=' :: _ => false
  | '=' :: '>' :: _ => false
  | '=' :: _ => true
  | _ => false

/-- What a variable is recognised by. -/
theorem declaratorStart_eq (hw : Trivia w) (hx : IsTypeWord x) (hv : Trivia v) (hs : Stops s)
    (hends : WordEnds (v ++ s)) (o : Nat) :
    ∃ o', declaratorStart ⟨o, w ++ (x ++ (v ++ s))⟩ =
      if !decide (IsReserved x) && followsVariable s then .ok ((), ⟨o', s⟩)
      else .error ⟨o', []⟩ := by
  have hstops : Stops (x ++ (v ++ s)) := hx.stops
  obtain ⟨y, hbare, hy, hform⟩ := hx.exists_word
  obtain ⟨isVerbatim, o₁, hat⟩ : ∃ isVerbatim o₁, acceptHere "@" ⟨o + size w, x ++ (v ++ s)⟩ =
      .ok (isVerbatim, ⟨o₁, y ++ (v ++ s)⟩) := by
    rcases hform with rfl | rfl
    · obtain ⟨_, o₁, h, -⟩ := reads_acceptHere_false (hy.not_isPrefixOf_at (t := v ++ s))
        (o + size w)
      exact ⟨_, o₁, h⟩
    · obtain ⟨_, o₁, h, -⟩ := reads_acceptHere "@" (y ++ (v ++ s)) (o + size w)
      exact ⟨_, o₁, h⟩
  refine ⟨o₁ + size y + size v, ?_⟩
  refine (bind_of_eq_ok (trivia_eq hw hstops o)).trans ?_
  refine (bind_of_eq_ok (p := acceptHere "@") hat).trans ?_
  refine (bind_of_eq_ok (p := word) (word_eq hy hends o₁)).trans ?_
  refine (bind_of_eq_ok (p := trivia) (trivia_eq hv hs _)).trans ?_
  refine (bind_of_eq_ok (p := ahead) rfl).trans ?_
  have hreserved : decide (IsReserved x) = isKeyword (String.ofList y) := by
    simp [IsReserved, hbare]
  rw [hreserved]
  cases isKeyword (String.ofList y) with
  | true => rfl
  | false =>
    unfold followsVariable
    split <;> simp_all <;> rfl

/-! ## Pieces of an initializer -/

/-- The characters that a piece of an initializer ends in front of. -/
def endsPiece (c : Char) : Bool := c == ',' || c == ';'

theorem stopping_endsPiece : Stopping endsPiece := by
  intro c hc
  simp only [endsPiece, Bool.or_eq_true, beq_iff_eq] at hc
  rcases hc with rfl | rfl <;> decide

/-- A text without commas and semicolons outside brackets and literals. -/
abbrev IsPiece (x : List Char) : Prop := Steps endsPiece 0 x

theorem endsPiece_of_isWordPart (h : isWordPart c = true) : endsPiece c = false := by
  simp [endsPiece, ne_of_isWordPart h (d := ',') (by decide),
    ne_of_isWordPart h (d := ';') (by decide)]

theorem isPiece_of_isWord (hx : IsWord x) : IsPiece x :=
  .run (fun c hc => isPlain_of_isWordPart (hx.forall_isWordPart c hc))
    fun _ c hc => endsPiece_of_isWordPart (hx.forall_isWordPart c hc)

/-- An `@` in front of a word opens nothing. -/
theorem isPiece_at_cons (hx : IsWord x) : IsPiece ('@' :: x) := by
  intro seen t ht
  have htail : literalTail '@' (x ++ t) = none := by
    cases x with
    | nil => exact hx.elim
    | cons d x =>
      have hne (k : Char) (hk : isWordStart k = false) : d ≠ k := fun heq =>
        hx.head?_ne (t := t) hk (by rw [heq]; rfl)
      simp [literalTail, hne '@' (by decide), hne '$' (by decide), hne '"' (by decide)]
  rw [List.cons_append, scan_plain _ (fun _ => by decide) (by decide) (by decide) htail,
    isPiece_of_isWord hx _ _ ht, List.length_cons]
  congr 1
  omega

theorem IsTypeWord.isPiece (hx : IsTypeWord x) : IsPiece x := by
  obtain ⟨y, -, hy, rfl | rfl⟩ := hx.exists_word
  · exact isPiece_of_isWord hy
  · exact isPiece_at_cons hy

theorem IsTypeWord.head?_ne (hx : IsTypeWord x) (hc : isWordStart c = false) (hat : c ≠ '@') :
    (x ++ t).head? ≠ some c := by
  obtain ⟨y, -, hy, rfl | rfl⟩ := hx.exists_word
  · exact hy.head?_ne hc
  · simpa using hat.symm

theorem IsTypeWord.append_isPiece (hx : IsPiece x) (hy : IsTypeWord y) : IsPiece (x ++ y) :=
  .append hx hy.isPiece fun _ _ => hy.head?_ne (by decide) (by decide)

theorem IsDottedName.isPiece (hx : IsDottedName x) : IsPiece x := by
  obtain ⟨y, ys, rfl, hy, hys⟩ := hx
  have hdots : IsPiece (dottedTailText ys) := by
    induction ys with
    | nil => exact .nil
    | cons z zs ih =>
      rw [List.forall_mem_cons] at hys
      refine .append (.plain (fun _ => by decide) (by decide)
        (IsTypeWord.isPiece (.inl hys.1))) (ih hys.2) fun t ht => ?_
      cases zs with
      | nil => exact ht
      | cons z' zs => simp
  refine .append (IsTypeWord.isPiece (.inl hy)) hdots fun t ht => ?_
  cases ys with
  | nil => exact ht
  | cons z zs => simp [dottedTailText]

def EndsInitializer (t : List Char) : Prop :=
  ∀ x o, IsPiece x → initializerPiece ⟨o, x ++ t⟩ = .ok (.last (), ⟨o + size x, t⟩)

/-- The text starts with a comma that an initializer goes on behind. -/
def ExtendsInitializer (t : List Char) : Prop :=
  ∃ u, t = ',' :: u ∧ ∀ x o, IsPiece x →
    initializerPiece ⟨o, x ++ t⟩ = .ok (.more (), ⟨o + size x + 1, u⟩)

theorem piece_eq (hc : endsPiece c = true) (hx : IsPiece x) (o : Nat) :
    label "field initializer" (takeUntil endsPiece) ⟨o, x ++ c :: t⟩ =
      .ok (x, ⟨o + size x, c :: t⟩) :=
  label_of_eq_ok (takeUntil_of_steps hx hc (stopping_endsPiece c hc).2.2.1 o t)

/-- The piece in front of such a text, and what is left to read. -/
theorem ExtendsInitializer.piece (h : ExtendsInitializer (',' :: t)) (hx : IsPiece x) (o : Nat) :
    initializerPiece ⟨o, x ++ ',' :: t⟩ = .ok (.more (), ⟨o + size x + 1, t⟩) := by
  obtain ⟨u, hu, hpiece⟩ := h
  cases hu
  exact hpiece x o hx

theorem endsInitializer_semicolon : EndsInitializer (';' :: t) := fun x o hx =>
  bind_of_eq_ok (piece_eq (by decide) hx o)

/-- A comma is a separator if a variable seems to follow it. -/
theorem ends_or_extends (hw : Trivia w) (hx : IsTypeWord x) (hv : Trivia v) (hs : Stops s)
    (hends : WordEnds (v ++ s)) :
    if IsReserved x ∨ followsVariable s = false then
      ExtendsInitializer (',' :: (w ++ (x ++ (v ++ s))))
    else EndsInitializer (',' :: (w ++ (x ++ (v ++ s)))) := by
  have hlook (o : Nat) :
      lookahead (do let _ ← take 1; declaratorStart) ⟨o, ',' :: (w ++ (x ++ (v ++ s)))⟩ =
        .ok (if IsReserved x ∨ followsVariable s = false then none else some (),
          ⟨o, ',' :: (w ++ (x ++ (v ++ s)))⟩) := by
    obtain ⟨o', hstart⟩ := declaratorStart_eq hw hx hv hs hends (o + 1)
    have htake : (do let _ ← take 1; declaratorStart : Parser Unit)
        ⟨o, ',' :: (w ++ (x ++ (v ++ s)))⟩ = declaratorStart ⟨o + 1, w ++ (x ++ (v ++ s))⟩ := rfl
    rw [lookahead, htake, hstart]
    by_cases hreserved : IsReserved x <;> cases followsVariable s <;> simp [hreserved]
  have hpiece (y : List Char) (o : Nat) (hy : IsPiece y) :
      initializerPiece ⟨o, y ++ ',' :: (w ++ (x ++ (v ++ s)))⟩ =
        if IsReserved x ∨ followsVariable s = false then
          .ok (.more (), ⟨o + size y + 1, w ++ (x ++ (v ++ s))⟩)
        else .ok (.last (), ⟨o + size y, ',' :: (w ++ (x ++ (v ++ s)))⟩) := by
    refine (bind_of_eq_ok (piece_eq (by decide) hy o)).trans ?_
    refine (bind_of_eq_ok (p := nextIs ',') (nextIs_of_head? rfl)).trans ?_
    refine (bind_of_eq_ok (hlook _)).trans ?_
    split <;> rfl
  split
  next hgoes => exact ⟨_, rfl, fun y o hy => by rw [hpiece y o hy, if_pos hgoes]⟩
  next hstops => exact fun y o hy => by rw [hpiece y o hy, if_neg hstops]

/-! ## Type arguments -/

/-- Further type arguments, and the empty argument list of the constructor behind them. -/
def argumentsEnd (as : List (List Char)) : List Char :=
  as.flatMap (fun a => [',', ' '] ++ a) ++ ['>', '(', ')']

variable {as : List (List Char)} {us : List Unit}

theorem isPiece_argumentsEnd (hx : IsPiece x) : IsPiece (x ++ argumentsEnd []) := by
  have hcall : IsPiece ['(', ')'] := Steps.group stopping_endsPiece .round .nil
  exact hx.append (.plain (fun _ => by decide) (by decide) hcall) fun _ _ => by simp [argumentsEnd]

theorem isPiece_argument (hx : IsTypeWord x) : IsPiece ([' '] ++ x) :=
  IsTypeWord.append_isPiece (.plain (c := ' ') (fun _ => by decide) (by decide) .nil) hx

theorem argumentsEnd_cons (b : List Char) : argumentsEnd (b :: as) ++ t =
    ',' :: ([' '] ++ b ++ (argumentsEnd as ++ t)) := by
  simp [argumentsEnd]

/-- An argument in front of another one looks like a variable unless it is a reserved word. The last
one does not. -/
theorem ends_or_extends_argumentsEnd (as : List (List Char)) {b : List Char} (hb : IsTypeWord b) :
    if IsReserved b ∨ as = [] then ExtendsInitializer (argumentsEnd (b :: as) ++ t)
    else EndsInitializer (argumentsEnd (b :: as) ++ t) := by
  have hfollows : followsVariable (argumentsEnd as ++ t) = false ↔ as = [] := by
    cases as with
    | nil => simp [argumentsEnd, followsVariable]
    | cons c as => simp [argumentsEnd, followsVariable]
  have hstops : Stops (argumentsEnd as ++ t) ∧ WordEnds (argumentsEnd as ++ t) := by
    cases as with
    | nil => exact ⟨.cons (by decide), .cons (by decide)⟩
    | cons c as => exact ⟨.cons (by decide), .cons (by decide)⟩
  have h := ends_or_extends trivia_blank hb .nil hstops.1 hstops.2
  rw [argumentsEnd_cons, List.append_assoc]
  simpa only [hfollows, List.nil_append] using h

/-- A name with a comma behind it would pass for a variable, so all arguments but the last are
reserved. -/
theorem rounds_argumentsEnd (hx : IsPiece x) (has : ∀ a ∈ as, IsTypeWord a)
    (hreserved : ∀ a ∈ as.dropLast, IsReserved a) (ht : EndsInitializer t) (o : Nat) :
    ∃ us, rounds initializerPiece ⟨o, x ++ (argumentsEnd as ++ t)⟩ =
      .ok (us, ⟨o + size (x ++ argumentsEnd as), t⟩) := by
  induction as generalizing x o with
  | nil =>
    have hpiece := ht _ o (isPiece_argumentsEnd hx)
    rw [List.append_assoc] at hpiece
    exact ⟨_, Loop.initializerPieces.rounds_last hpiece⟩
  | cons a as ih =>
    rw [List.forall_mem_cons] at has
    have hgoes : IsReserved a ∨ as = [] := by
      cases as with
      | nil => exact .inr rfl
      | cons b as => exact .inl (hreserved a (by simp))
    have hnext := ends_or_extends_argumentsEnd as (t := t) has.1
    rw [if_pos hgoes, argumentsEnd_cons] at hnext
    have htail : ∀ b ∈ as.dropLast, IsReserved b := by
      cases as with
      | nil => simp
      | cons b as => exact fun c hc => hreserved c (by simp [hc])
    obtain ⟨us, hus⟩ := ih (isPiece_argument has.1) has.2 htail (o + size x + 1)
    refine ⟨() :: us, ?_⟩
    rw [argumentsEnd_cons]
    refine (Loop.initializerPieces.rounds_more (hnext.piece hx o)).trans ?_
    refine (bind_of_eq_ok hus).trans ?_
    have hsize : o + size x + 1 + size ([' '] ++ a ++ argumentsEnd as) =
        o + size (x ++ argumentsEnd (a :: as)) := by
      simp only [argumentsEnd, List.flatMap_cons, size_append, size_cons, size_nil]
      have : Char.utf8Size ',' = 1 := rfl
      omega
    rw [hsize]
    rfl

theorem moves_initializerPieces (text : List Char) (o : Nat) :
    Moves text o (rounds initializerPiece) fun _ _ => True :=
  .rounds fun o₁ _ => Loop.initializerPieces.moves text o₁

/-- What is left behind an initializer is no longer than what was left before it. -/
theorem length_le_of_rounds {c c' : Cursor} (h : rounds initializerPiece c = .ok (us, c')) :
    c'.rest.length ≤ c.rest.length := by
  obtain ⟨⟨y, hy, -⟩, -⟩ := Moves.exists_between (R := fun _ _ _ => True) moves_initializerPieces h
  rw [hy, List.length_append]
  omega

/-- If an initializer ends in front of the text, no comma in it is taken for a separator and the one
in front of the text is. -/
theorem ends_of_rounds (hx : IsPiece x) (has : ∀ a ∈ as, IsTypeWord a)
    (ht : EndsInitializer t ∨ ExtendsInitializer t)
    (h : rounds initializerPiece ⟨o, x ++ (argumentsEnd as ++ t)⟩ = .ok (us, ⟨o', t⟩)) :
    (∀ a ∈ as.dropLast, IsReserved a) ∧ EndsInitializer t := by
  induction as generalizing x o us with
  | nil =>
    refine ⟨by simp, ht.resolve_right ?_⟩
    rintro ⟨u, rfl, hpiece⟩
    have hmore := hpiece _ o (isPiece_argumentsEnd hx)
    rw [List.append_assoc] at hmore
    rw [Loop.initializerPieces.rounds_more hmore] at h
    obtain ⟨vs, c, hvs, hpure⟩ := exists_of_bind_eq_ok h
    cases hpure
    have hle := length_le_of_rounds hvs
    simp only [List.length_cons] at hle
    omega
  | cons a as ih =>
    rw [List.forall_mem_cons] at has
    have hnext := ends_or_extends_argumentsEnd as (t := t) has.1
    split at hnext
    next hgoes =>
      rw [argumentsEnd_cons] at hnext h
      rw [Loop.initializerPieces.rounds_more (hnext.piece hx o)] at h
      obtain ⟨vs, c, hvs, hpure⟩ := exists_of_bind_eq_ok h
      cases hpure
      have hrest := ih (isPiece_argument has.1) has.2 hvs
      refine ⟨?_, hrest.2⟩
      cases as with
      | nil => simp
      | cons b as =>
        rw [List.dropLast_cons_cons, List.forall_mem_cons]
        exact ⟨hgoes.resolve_right (List.cons_ne_nil b as), hrest.1⟩
    next =>
      rw [Loop.initializerPieces.rounds_last (hnext x o hx)] at h
      have hrest := congrArg (·.2.rest.length) (Except.ok.inj h)
      simp only [argumentsEnd_cons, List.length_cons, List.length_append] at hrest
      omega

/-! ## Initializers -/

section

variable (hw : Trivia w) (hstops : ∀ s, Stops (x ++ s)) (hx : IsPiece x)
  (has : ∀ a ∈ as, IsTypeWord a)

include hw hstops hx has

/-- An initializer that constructs a generic type ends in front of a text that closes it, if its
inner arguments are reserved words. -/
theorem fieldInitializer_eq (hreserved : ∀ a ∈ as.dropLast, IsReserved a) (ht : EndsInitializer t)
    (o : Nat) :
    let stop := o + size w + size (x ++ argumentsEnd as)
    fieldInitializer ⟨o, w ++ (x ++ argumentsEnd as ++ t)⟩ =
      .ok (⟨o + size w, stop⟩, ⟨stop, t⟩) := by
  intro stop
  obtain ⟨us, hrounds⟩ := rounds_argumentsEnd hx has hreserved ht (o + size w)
  rw [← List.append_assoc] at hrounds
  have hend : x ++ argumentsEnd as =
      x ++ as.flatMap (fun a => [',', ' '] ++ a) ++ ['>', '('] ++ [')'] := by
    simp [argumentsEnd]
  have htrim : trimEnd (x ++ argumentsEnd as) = x ++ argumentsEnd as := by
    rw [hend]
    exact trimEnd_concat (by decide)
  have hkeeps : ¬ (trim (x ++ argumentsEnd as)).isEmpty = true := by
    rw [trim_isEmpty_iff]
    intro hall
    exact absurd (hall ')' (by simp [hend])) (by decide)
  have hskip : Stops (x ++ argumentsEnd as ++ t) := by
    rw [List.append_assoc]
    exact hstops _
  refine (bind_of_eq_ok (trivia_eq hw hskip o)).trans ?_
  refine (bind_of_eq_ok (p := offset) rfl).trans ?_
  refine (bind_of_eq_ok (withText_eq hrounds)).trans ?_
  dsimp only
  rw [if_neg hkeeps, htrim]
  rfl

/-- If the initializer is taken to end where it does, what follows closes it and its inner arguments
are reserved words. -/
theorem ends_of_fieldInitializer {c : Cursor} (ht : EndsInitializer t ∨ ExtendsInitializer t)
    (hblank : ∀ c, t.head? = some c → isBlank c = false)
    (h : fieldInitializer ⟨o, w ++ (x ++ argumentsEnd as ++ t)⟩ =
      .ok (⟨o + size w, o + size w + size (x ++ argumentsEnd as)⟩, c)) :
    (∀ a ∈ as.dropLast, IsReserved a) ∧ EndsInitializer t ∧
      c = ⟨o + size w + size (x ++ argumentsEnd as), t⟩ := by
  have hskip : Stops (x ++ argumentsEnd as ++ t) := by
    rw [List.append_assoc]
    exact hstops _
  rw [fieldInitializer, bind_of_eq_ok (trivia_eq hw hskip o),
    bind_of_eq_ok (p := offset) rfl] at h
  obtain ⟨r, c₁, hread, hpure⟩ := exists_of_bind_eq_ok h
  obtain ⟨hrounds, htext⟩ :=
    exists_of_withText (R := fun _ _ _ => True) moves_initializerPieces hread
  dsimp only at hpure
  split at hpure
  next => cases hpure
  next =>
    obtain ⟨hspan, rfl⟩ := Prod.mk.inj (Except.ok.inj hpure)
    have hsize : size (trimEnd r.2) = size (x ++ argumentsEnd as) :=
      Nat.add_left_cancel (congrArg Span.stop hspan)
    obtain ⟨-, hrest⟩ := eq_of_size_trimEnd htext hblank hsize
    obtain ⟨us, z⟩ := r
    obtain ⟨o', s⟩ := c₁
    obtain rfl : s = t := hrest
    obtain rfl := offset_of_eq_ok (R := fun _ _ _ => True) moves_initializerPieces hrounds
    rw [List.append_assoc] at hrounds
    obtain ⟨hreserved, hends⟩ := ends_of_rounds hx has ht hrounds
    exact ⟨hreserved, hends, rfl⟩

end

end DeclGen.Grammar
