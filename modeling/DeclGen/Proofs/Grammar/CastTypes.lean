import DeclGen.Proofs.Grammar.Operands
import DeclGen.Proofs.Grammar.ParsedTypes

/-!
# Casts and parentheses

An opening parenthesis starts a cast if a type, a closing parenthesis and an operand come behind it.
An expression may start as a type does: with a name, or with a name and a `*`. Unless it is a name
and nothing else, what is left of it behind the type does not start with a closing parenthesis, so
an expression in parentheses is not read as the type of a cast.

## Main definitions

* `Adrift`: neither a closing parenthesis nor a further element of a tuple comes next

## Main statements

* `gives_typeExpr`: what is read as a type where an expression stands
* `fails_castType`: an expression in parentheses is not the type of a cast
* `reads_castType`: the type of a cast
-/

namespace DeclGen.Grammar

open DeclGen.Grammar.Parser DeclGen.Text

variable {c : Char} {r s t w : List Char} {e inner : Expr} {self : Parser TypeExpr}
  {type : TypeExpr}

/-- Behind a type, the text goes on with neither a closing parenthesis nor a comma, which may have
the name of a tuple element before it. -/
structure Adrift (s : List Char) : Prop where
  close : Fails (symbol ")") s
  comma : Gives (attempt identifier) s fun _ t => Fails (symbol ",") t

theorem adrift_of_head (hw : Trivia w) (hstops : Stops (c :: t)) (hc : isWordStart c = false)
    (hmarks : c ∉ ['@', ')', ',']) : Adrift (w ++ c :: t) := by
  simp only [List.mem_cons, List.not_mem_nil, or_false, not_or] at hmarks
  obtain ⟨hat, hclose, hcomma⟩ := hmarks
  refine ⟨fails_symbol_of_head hw hstops rfl hclose, ?_⟩
  exact gives_attempt_identifier (fails_identifier_of_head hw hstops hc hat)
    (fails_symbol_of_head hw hstops rfl hcomma)

theorem Leads.adrift (h : Leads s) (hw : Trivia w) : Adrift (w ++ s) :=
  ⟨h.fails_symbol hw rfl (by decide) (by decide), h.gives_identifier hw⟩

theorem adrift_operator (op : BinaryOperator) (t : List Char) :
    Adrift ([' '] ++ (op.symbol.toList ++ ([' '] ++ t))) := by
  obtain ⟨c, u, hsplit, hstops, hc, -⟩ := exists_symbol_eq_cons op t
  have hall : ∀ c ∈ operatorMarks, isWordStart c = false ∧ c ∉ ['@', ')', ','] :=
    List.all_iff_forall_prop.mp (by decide)
  rw [hsplit]
  exact adrift_of_head trivia_blank hstops (hall c hc).1 (hall c hc).2

/-! ## Types where expressions stand -/

/-- What is read as the suffixes of a type behind an expression: nothing, or the `*` of a
product. -/
theorem gives_typeSuffixes (hs : Behind s) :
    Gives (many (attempt typeSuffix)) s fun as u => Adrift u ∨ (as = [] ∧ u = s) := by
  have hnone (hfails : Fails typeSuffix s) :
      Gives (many (attempt typeSuffix)) s fun as u => Adrift u ∨ (as = [] ∧ u = s) :=
    .of_reads (Reads.many_nil (.attempt_none hfails)) fun as has => .inr ⟨has, rfl⟩
  cases hs with
  | nil => exact hnone (.of_stops .nil (.ahead_bind .fail))
  | close t => exact hnone (fails_typeSuffix_of_head .nil (.cons (by decide)) (by decide))
  | @operator op e s he hs =>
    have hlead := Expr.leads_text he hs
    by_cases hop : op = .multiply
    · subst hop
      have hstar : Reads typeSuffix
          ([' '] ++ (TypeSuffix.pointer.text ++ ([' '] ++ (e.text.toList ++ s))))
            ([' '] ++ (e.text.toList ++ s)) (·.1 = .pointer) :=
        .skip trivia_blank (reads_typeSuffix trivial)
      have hrest := Reads.many_nil (.attempt_none (hlead.fails_typeSuffix trivia_blank))
      refine .of_reads (Reads.many_cons hstar.attempt ?_ hrest) fun _ _ => .inl ?_
      · simp only [List.length_append, List.length_cons, List.length_nil]
        omega
      · exact hlead.adrift trivia_blank
    · obtain ⟨c, u, hsplit, hstops, hc, hhead⟩ :=
        exists_symbol_eq_cons op (e.text.toList ++ s)
      have hall : ∀ c ∈ operatorMarks, c ∈ ['?', '*', '['] → c = '*' :=
        List.all_iff_forall_prop.mp (by decide)
      rw [hsplit] at hnone ⊢
      refine hnone (fails_typeSuffix_of_head trivia_blank hstops fun hmem => ?_)
      obtain rfl := hall c hc hmem
      exact hop (eq_multiply_of_head? hhead)

/-- What is left behind what is read as a type, which is a built-in one only if the expression is a
built-in type word. -/
def TypeRead (e : Expr) (s : List Char) (type : TypeExpr) (u : List Char) : Prop :=
  Adrift u ∨ (u = s ∧ (type.isPredefined = true →
    ∃ i span, e = .name [i] span ∧ isPredefinedType i.text = true))

theorem fails_typeExpr (hstops : Stops s) (hopen : s.head? ≠ some '(')
    (hpredefined : Fails predefinedType s) (hid : Fails identifier s) : Fails typeExpr s := by
  refine (Gives.fix (Gives.of_stops hstops (.offset_bind fun start => ?_))).fails
  refine .of_fails (.bind_left (.bind_eq (reads_nextIs '(' s) ?_))
  rw [beq_eq_false_iff_ne.mpr hopen, if_neg (by decide)]
  refine .bind_eq (Reads.attempt_none hpredefined) ?_
  have hlabel : Fails (label "a type" identifier) s := by
    intro o
    obtain ⟨err, herr⟩ := hid o
    exact ⟨_, by rw [label, herr]⟩
  exact .bind (reads_trivia .nil hstops) fun _ _ => .offset_bind fun _ => .bind_left hlabel

/-- A tuple has at least two elements. -/
theorem fails_tupleType (h : Gives self t fun _ u => u.head? = some ')' ∨ Adrift u) :
    Fails (tupleType self) ('(' :: t) := by
  have helement : Gives (tupleElement self) t fun _ u => Reads (accept ",") u u (· = false) := by
    refine h.bind fun type u hu => ?_
    have hname : Gives (attempt identifier) u fun _ v => Fails (symbol ",") v := by
      rcases hu with hu | hu
      · obtain ⟨v, rfl⟩ := List.head?_eq_some_iff.mp hu
        exact gives_attempt_identifier
          (fails_identifier_of_head .nil (.cons (by decide)) (by decide) (by decide))
          (fails_symbol_of_head .nil (.cons (by decide)) rfl (by decide))
      · exact hu.comma
    exact hname.bind fun _ v hv => .pure (reads_accept_of_fails hv)
  refine (Gives.offset_bind fun start => ?_).fails
  refine .bind_reads (reads_symbol (x := "(") .nil (.cons (by decide))) fun _ _ => ?_
  refine .offset_bind fun first => (Gives.sepBy_one helement).bind ?_
  rintro _ u ⟨type, rfl⟩
  refine Gives.bind (P := fun _ _ => True) (fun _ _ _ _ => trivial) fun _ v _ => ?_
  exact .of_fails (.failAt first _)

/-! ### Names -/

theorem fails_sepBy {α : Type} {p : Parser α} {sep : Parser Bool} (h : Fails p s) :
    Fails (sepBy p sep) s := by
  have hround : Fails (sepByRound p sep) s := .bind_left h
  intro o
  obtain ⟨err, herr⟩ := hround o
  exact ⟨err, by rw [sepBy, rounds, herr]⟩

/-- What comes behind a segment of a name: further segments, and what is behind the name. -/
def SegmentEnds (r : List Char) : Prop := ∃ xs s, r = dottedTailText xs ++ s ∧ Behind s

/-- A `<` behind a name belongs to a shift, so no type arguments come next. -/
theorem reads_optionalTypeArguments_nil (hself : ∀ t, Fails self ('<' :: t)) (hr : SegmentEnds r) :
    Reads (optionalTypeArguments self) r r (· = []) := by
  have hfails : Fails (typeArgumentsOf self) r := by
    obtain ⟨xs, s, rfl, hs⟩ := hr
    cases xs with
    | cons x xs =>
      exact .bind_left (fails_symbol_of_head (k := "<") .nil (.cons (by decide)) rfl (by decide))
    | nil =>
      cases hs with
      | nil => exact .bind_left (fails_symbol (x := "<") .nil .nil rfl)
      | close t => exact .bind_left (fails_symbol_of_head .nil (.cons (by decide)) rfl (by decide))
      | @operator op e s he hs =>
        by_cases hop : op = .shiftLeft
        · subst hop
          refine .bind (reads_symbol (x := "<") (t := '<' :: ([' '] ++ (e.text.toList ++ s)))
            trivia_blank (.cons (by decide))) fun _ _ => .bind_left (fails_sepBy (hself _))
        · exact .bind_left (fails_symbol_operator rfl (mt eq_shiftLeft_of_head? hop) _)
  exact (Reads.attempt_none hfails).bind_eq (.pure rfl)

theorem SegmentEnds.wordEnds (hr : SegmentEnds r) : WordEnds r := by
  obtain ⟨xs, s, rfl, hs⟩ := hr
  exact (dottedTail_cases hs xs).1

theorem SegmentEnds.reads_accept_false (hr : SegmentEnds r) :
    Reads (accept "::") r r (· = false) := by
  obtain ⟨xs, s, rfl, hs⟩ := hr
  cases xs with
  | nil => exact hs.reads_accept_false rfl (by decide)
  | cons x xs =>
    have hfails : Fails (symbol "::") (dottedTailText (x :: xs) ++ s) :=
      fails_symbol_of_head .nil (.cons (by decide)) rfl (by decide)
    exact reads_accept_of_fails hfails

/-- Segments without type arguments, up to what is behind the name. -/
theorem reads_plainSegments {xs : List (List Char)} (hself : ∀ t, Fails self ('<' :: t))
    (hxs : ∀ x ∈ xs, IsIdentifier x) (hs : Behind s) :
    Reads (segmentTail self) (dottedTailText xs ++ s) s fun _ => True := by
  induction xs with
  | nil =>
    have hnone : Fails dottedIdentifier s :=
      .bind_left (hs.fails_symbol rfl (by decide))
    refine (Reads.many_nil ((Reads.attempt_none hnone).bind_eq ?_)).mono fun _ _ => trivial
    exact .pure rfl
  | cons x xs ih =>
    have hends : SegmentEnds (dottedTailText xs ++ s) := ⟨xs, s, rfl, hs⟩
    have hdotted : Reads dottedIdentifier (dottedTailText (x :: xs) ++ s) (dottedTailText xs ++ s)
        fun _ => True := by
      have hdot := reads_symbol (x := ".") (t := x ++ (dottedTailText xs ++ s)) .nil
        (.cons (by decide))
      have hname := reads_identifier .nil (hxs x List.mem_cons_self) hends.wordEnds
      have hsplit : dottedTailText (x :: xs) ++ s =
          ".".toList ++ (x ++ (dottedTailText xs ++ s)) := by
        simp [dottedTailText]
      rw [hsplit]
      exact hdot.bind fun _ _ => hname.mono fun _ _ => trivial
    have hsegment : Reads (segment? self) (dottedTailText (x :: xs) ++ s) (dottedTailText xs ++ s)
        fun r => ∃ g, r = some g ∧ True := by
      refine hdotted.attempt.bind ?_
      rintro _ ⟨i, rfl, -⟩
      exact (reads_optionalTypeArguments_nil hself hends).bind_eq (.pure ⟨_, rfl, trivial⟩)
    refine (Reads.many_cons hsegment ?_ (ih fun y hy => hxs y (List.mem_cons_of_mem x hy))).mono
      fun _ _ => trivial
    simp only [dottedTailText, List.flatMap_cons, List.length_append, List.length_cons]
    omega

/-- A name is read whole as a named type. -/
theorem reads_plainName {x : List Char} {xs : List (List Char)}
    (hself : ∀ t, Fails self ('<' :: t)) (hx : IsIdentifier x) (hxs : ∀ y ∈ xs, IsIdentifier y)
    (hs : Behind s) :
    Reads (namedTypeOf self) (x ++ (dottedTailText xs ++ s)) s (·.isPredefined = false) := by
  have hends : SegmentEnds (dottedTailText xs ++ s) := ⟨xs, s, rfl, hs⟩
  have hfirst := reads_identifier .nil hx hends.wordEnds
  refine .of_stops hx.stops (.offset_bind fun start => hfirst.label.bind fun i _ => ?_)
  refine hends.reads_accept_false.bind_eq ?_
  rw [if_neg (by decide)]
  refine .pure_bind ((reads_optionalTypeArguments_nil hself hends).bind_eq ?_)
  refine (reads_plainSegments hself hxs hs).bind fun others _ => ?_
  exact (reads_spanFrom start s).bind fun _ _ => .pure rfl

/-- No type starts with `<`. -/
theorem fails_typeExpr_less (t : List Char) : Fails typeExpr ('<' :: t) :=
  fails_typeExpr (.cons (by decide)) (by simp)
    (.offset_bind fun _ => .bind_left (fails_word (.cons (by decide))))
    (fails_identifier_of_head .nil (.cons (by decide)) (by decide) (by decide))

/-- A type with the suffixes that are read behind it. -/
theorem gives_typeExpr_of_core {x : List Char} {P : TypeExpr → Prop} {S : List Char → Prop}
    (hx : Stops (x ++ r))
    (hcore : ∀ n, Reads (coreType (selfBelow (fun self _ => suffixedType (self ())) n ())) (x ++ r)
      r P)
    (hsuffixes : Gives (many (attempt typeSuffix)) r fun as u => Adrift u ∨ (as = [] ∧ S u)) :
    Gives typeExpr (x ++ r) fun type u => Adrift u ∨ (S u ∧ P type) := by
  refine .fix (.of_stops hx (.offset_bind fun start => .bind_reads (hcore _) fun type htype => ?_))
  refine hsuffixes.bind fun as u hu => .pure ?_
  rcases hu with hu | ⟨rfl, hu⟩
  · exact .inl hu
  · exact .inr ⟨hu, htype⟩

/-- Where further segments come, there is no suffix. -/
theorem gives_typeSuffixes_dottedTail (hs : Behind s) (xs : List (List Char)) :
    Gives (many (attempt typeSuffix)) (dottedTailText xs ++ s) fun as u =>
      Adrift u ∨ (as = [] ∧ u = s ∧ xs = []) := by
  cases xs with
  | nil => exact (gives_typeSuffixes hs).mono fun as u hu => hu.imp_right fun h => ⟨h.1, h.2, rfl⟩
  | cons x xs =>
    have hdot : Stops ('.' :: (x ++ (dottedTailText xs ++ s))) := .cons (by decide)
    have hsplit : dottedTailText (x :: xs) ++ s = [] ++ '.' :: (x ++ (dottedTailText xs ++ s)) := by
      simp [dottedTailText]
    have hfails := fails_typeSuffix_of_head .nil hdot (by decide)
    rw [hsplit]
    refine .of_reads (Reads.many_nil (.attempt_none hfails)) fun as _ => .inl ?_
    exact adrift_of_head .nil hdot (by decide) (by decide)

/-- A name that starts with a built-in type word is read as the type, up to the first dot. -/
theorem gives_typeExpr_predefined {first : Identifier} {others : List Identifier} {span : Span}
    (hfirst : isPredefinedType first.text = true) (hs : Behind s) :
    Gives typeExpr ((Expr.name (first :: others) span).text.toList ++ s)
      (TypeRead (.name (first :: others) span) s) := by
  have hends := (dottedTail_cases hs (others.map (·.text.toList))).1
  have hword := isWord_of_isPredefinedType hfirst
  have hread := gives_typeExpr_of_core (P := fun _ => True) hword.stops
    (fun n => (reads_coreType_predefined hfirst hends).mono fun _ _ => trivial)
    (gives_typeSuffixes_dottedTail hs _)
  rw [toList_text_name, List.append_assoc]
  refine hread.mono fun type u hu => hu.imp_right fun ⟨⟨hu, hnil⟩, _⟩ => ⟨hu, fun _ => ?_⟩
  exact ⟨first, span, by rw [List.map_eq_nil_iff.mp hnil], hfirst⟩

/-- Any other name is read whole as a named type. -/
theorem gives_typeExpr_named {first : Identifier} {others : List Identifier} {span : Span}
    (hfirst : IsIdentifier first.text.toList) (hplain : isPredefinedType first.text = false)
    (hothers : ∀ i ∈ others, IsIdentifier i.text.toList) (hs : Behind s) :
    Gives typeExpr ((Expr.name (first :: others) span).text.toList ++ s)
      (TypeRead (.name (first :: others) span) s) := by
  have hends := (dottedTail_cases hs (others.map (·.text.toList))).1
  have hcore (n : Nat) : Reads
      (coreType (selfBelow (fun self _ => suffixedType (self ())) n ()))
      (first.text.toList ++ dottedTailText (others.map (·.text.toList)) ++ s) s
      (·.isPredefined = false) := by
    have hless (t : List Char) :
        Fails (selfBelow (fun self _ => suffixedType (self ())) n ()) ('<' :: t) :=
      (Gives.selfBelow (.of_fails (fails_typeExpr_less t))).fails
    have hname : isPredefinedType (String.ofList first.text.toList) = false := by
      rwa [String.ofList_toList]
    rw [List.append_assoc]
    refine (reads_nextIs '(' _).bind_eq ?_
    rw [beq_eq_false_iff_ne.mpr (hfirst.head?_ne (by decide) (by decide)), if_neg (by decide)]
    refine (Reads.attempt_none (fails_predefinedType hfirst hname hends)).bind_eq ?_
    exact reads_plainName hless hfirst (List.forall_mem_map.mpr hothers) hs
  have hstops : Stops (first.text.toList ++ dottedTailText (others.map (·.text.toList)) ++ s) := by
    rw [List.append_assoc]
    exact hfirst.stops
  rw [toList_text_name]
  refine (gives_typeExpr_of_core hstops hcore (gives_typeSuffixes hs)).mono fun type u hu => ?_
  refine hu.imp_right fun ⟨hu, htype⟩ => ⟨hu, fun htrue => ?_⟩
  rw [htype] at htrue
  cases htrue

/-! ### Other expressions -/

/-- An opening parenthesis starts a tuple, and the only element is not followed by a comma. -/
theorem fails_typeExpr_parenthesis
    (h : Gives typeExpr t fun _ u => u.head? = some ')' ∨ Adrift u) :
    Fails typeExpr ('(' :: t) := by
  refine (Gives.fix (Gives.of_stops (.cons (by decide)) (.offset_bind fun start => ?_))).fails
  refine .of_fails (.bind_left (.bind_eq (reads_nextIs '(' _) ?_))
  exact fails_tupleType (.selfBelow h)

theorem fails_typeExpr_of_head (hstops : Stops (c :: t)) (hc : isWordStart c = false)
    (hmarks : c ∉ ['(', '@']) : Fails typeExpr (c :: t) := by
  simp only [List.mem_cons, List.not_mem_nil, or_false, not_or] at hmarks
  refine fails_typeExpr hstops (by simpa using hmarks.1) ?_ ?_
  · exact .offset_bind fun _ => .bind_left (fails_word (.cons hc))
  · exact fails_identifier_of_head .nil hstops hc hmarks.2

/-- A reserved word that names no built-in type does not start a type. -/
theorem fails_typeExpr_keyword {k : String} (hk : IsWord k.toList) (hkey : isKeyword k = true)
    (htype : isPredefinedType k = false) (ht : WordEnds t) : Fails typeExpr (k.toList ++ t) := by
  have hkey' : isKeyword (String.ofList k.toList) = true := by rwa [String.ofList_toList]
  have hid : Fails identifier (k.toList ++ t) := fails_identifier (w := []) .nil hk hkey' ht
  refine fails_typeExpr hk.stops (hk.head?_ne (by decide)) ?_ hid
  refine .offset_bind fun start => .bind_eq (reads_word hk ht) ?_
  rw [String.ofList_toList, htype]
  exact .failAt start _

/-- What is read as a type where an expression stands. -/
theorem gives_typeExpr (he : e.Every Expr.Writable) (hs : Behind s) :
    Gives typeExpr (e.text.toList ++ s) (TypeRead e s) := by
  induction e generalizing s with
  | integer text span =>
    obtain ⟨c, c', hread⟩ := he.self
    obtain ⟨d, x, hx, hd⟩ := (yields_integerLiteral _ _ _ hread).exists_eq_cons
    have hstops : Stops (d :: (x ++ s)) :=
      .cons (opensTrivia_of_isWordPart (isWordPart_of_isDigit hd))
    have hmarks : d ∉ ['(', '@'] := notMem_of_kind hd (by decide)
    rw [Expr.text, hx]
    exact .of_fails (fails_typeExpr_of_head hstops (isWordStart_of_isDigit hd) hmarks)
  | character | unsupported => exact he.self.elim
  | name segments span =>
    obtain ⟨first, others, rfl, hfirst, hothers⟩ := he.self
    cases hpredefined : isPredefinedType first.text with
    | true => exact gives_typeExpr_predefined hpredefined hs
    | false =>
      have hid := hfirst.resolve_right (by simp [hpredefined])
      exact gives_typeExpr_named hid hpredefined hothers hs
  | unary op operand span ih =>
    cases op with
    | plus | minus | complement =>
      simp only [Expr.text, String.toList_append]
      exact .of_fails (fails_typeExpr_of_head (.cons (by decide)) (by decide) (by decide))
  | binary op left right span ihl ihr =>
    obtain ⟨-, hleft, hright⟩ := Expr.Every.binary_iff.mp he
    rw [Expr.toList_text_binary]
    refine (ihl hleft (.operator op hright hs)).mono ?_
    rintro type u (hu | ⟨rfl, -⟩)
    · exact .inl hu
    · exact .inl (adrift_operator op _)
  | parenthesized inner span ih =>
    have hsplit : (Expr.parenthesized inner span).text.toList ++ s =
        '(' :: (inner.text.toList ++ ')' :: s) := by
      simp [Expr.text]
    have hinner := (Expr.Every.parenthesized_iff.mp he).2
    rw [hsplit]
    refine .of_fails (fails_typeExpr_parenthesis ((ih hinner (.close s)).mono ?_))
    rintro type u (hu | ⟨rfl, -⟩)
    · exact .inr hu
    · exact .inl rfl
  | cast type operand span ih =>
    obtain ⟨⟨c, c', hread⟩, -⟩ := he.self
    have hsplit : (Expr.cast type operand span).text.toList ++ s =
        '(' :: (type.text.toList ++ ')' :: (operand.text.toList ++ s)) := by
      simp [Expr.text]
    rw [hsplit]
    refine .of_fails (fails_typeExpr_parenthesis (.of_reads (reads_text_of_typeExpr hread .nil
      (.cons (by decide))) fun _ _ => .inl rfl))
  | overflowContext isChecked inner span ih =>
    cases isChecked with
    | true =>
      have h := fails_typeExpr_keyword (k := "checked")
        (t := '(' :: (inner.text.toList ++ ')' :: s)) (by decide) (by decide) (by decide)
        (.cons (by decide))
      exact .of_fails (by simpa [Expr.text] using h)
    | false =>
      have h := fails_typeExpr_keyword (k := "unchecked")
        (t := '(' :: (inner.text.toList ++ ')' :: s)) (by decide) (by decide) (by decide)
        (.cons (by decide))
      exact .of_fails (by simpa [Expr.text] using h)

/-! ## Types of casts -/

/-- What comes next behind trivia. -/
theorem reads_triviaAhead (hw : Trivia w) (hs : Stops s) :
    Reads (do trivia; ahead) (w ++ s) s (· = s) :=
  .skip hw (.of_stops hs fun o => ⟨s, o, rfl, rfl⟩)

/-- No operand comes behind an expression, where a sign is no operand. -/
theorem fails_operand (hs : Behind s) (htype : type.isPredefined = false) :
    Fails (do
      let operand ← lookahead (do trivia; ahead)
      if castOperandFollows type (operand.getD []) then return type else fail) s := by
  have hnone {w t : List Char} (hw : Trivia w) (hstops : Stops t)
      (hfollows : castOperandFollows type t = false) : Fails (do
        let operand ← lookahead (do trivia; ahead)
        if castOperandFollows type (operand.getD []) then return type else fail) (w ++ t) := by
    refine .bind (reads_triviaAhead hw hstops).lookahead ?_
    rintro _ ⟨_, rfl, rfl⟩
    rw [Option.getD_some, hfollows]
    exact .fail
  cases hs with
  | nil => exact hnone .nil .nil rfl
  | close t => exact hnone .nil (.cons (by decide)) (by simp [castOperandFollows, htype]; decide)
  | operator op he hs =>
    obtain ⟨c, u, hsplit, hstops, hc, -⟩ := exists_symbol_eq_cons op _
    have hall : ∀ c ∈ operatorMarks, (isAlphanumeric c || c == '_' || c == '@' || c == '(' ||
      c == '\'' || c == '~') = false := List.all_iff_forall_prop.mp (by decide)
    rw [hsplit]
    refine hnone trivia_blank hstops ?_
    rw [castOperandFollows, hall c hc, htype, Bool.and_false, Bool.or_false]

/-- An expression in parentheses is not read as the type of a cast. -/
theorem fails_castType (he : inner.Every Expr.Writable)
    (hlone : ∀ i span, inner = .name [i] span → isPredefinedType i.text = false)
    (hs : Behind s) : Fails castType ('(' :: (inner.text.toList ++ ')' :: s)) := by
  refine Gives.fails ?_
  refine .bind_reads (reads_symbol (x := "(") .nil (.cons (by decide))) fun _ _ => ?_
  refine (gives_typeExpr he (.close s)).bind ?_
  rintro type u (hu | ⟨rfl, htype⟩)
  · exact .of_fails (.bind_left hu.close)
  · have hplain : type.isPredefined = false := by
      refine Bool.eq_false_iff.mpr fun htrue => ?_
      obtain ⟨i, span, hname, hword⟩ := htype htrue
      rw [hlone i span hname] at hword
      cases hword
    refine .bind_reads (reads_symbol (x := ")") .nil (.cons (by decide))) fun _ _ => ?_
    exact .of_fails (fails_operand hs hplain)

theorem isPredefined_bare (type : TypeExpr) : type.bare.isPredefined = type.isPredefined := by
  cases type <;> rfl

/-- Where an expression starts, an operand of a cast does, unless it starts with a sign. -/
theorem Leads.castOperandFollows (h : Leads s)
    (hsign : type.isPredefined = false → ∀ c ∈ s.head?, c ≠ '+' ∧ c ≠ '-') :
    castOperandFollows type s = true := by
  obtain ⟨c, t, rfl, -, hc⟩ := h.exists_eq_cons
  rcases hc with hc | hc
  · have hword : (isAlphanumeric c || c == '_') = true := hc
    simp only [Grammar.castOperandFollows, hword, Bool.true_or]
  · cases htype : type.isPredefined with
    | true =>
      have hall : ∀ c ∈ ['+', '-', '~', '(', '@'], (isAlphanumeric c || c == '_' || c == '@' ||
        c == '(' || c == '\'' || c == '~' || ((c == '+' || c == '-') && true)) = true :=
        List.all_iff_forall_prop.mp (by decide)
      rw [Grammar.castOperandFollows, htype]
      exact hall c hc
    | false =>
      obtain ⟨hplus, hminus⟩ := hsign htype c rfl
      have hall : ∀ c ∈ ['+', '-', '~', '(', '@'], c ≠ '+' → c ≠ '-' →
        (isAlphanumeric c || c == '_' || c == '@' || c == '(' || c == '\'' || c == '~') = true :=
        List.all_iff_forall_prop.mp (by decide)
      rw [Grammar.castOperandFollows, hall c hc hplus hminus, Bool.true_or]

/-- The type of a cast is read if its operand comes behind it. -/
theorem reads_castType (htype : ∃ c c', typeExpr c = .ok (type, c')) (ht : Leads t)
    (hsign : type.isPredefined = false → ∀ c ∈ t.head?, c ≠ '+' ∧ c ≠ '-') :
    Reads castType ('(' :: (type.text.toList ++ ')' :: t)) t (·.bare = type.bare) := by
  obtain ⟨c, c', hread⟩ := htype
  refine (reads_symbol (x := "(") .nil (.cons (by decide))).bind fun _ _ => ?_
  refine (reads_text_of_typeExpr hread .nil (.cons (by decide))).bind fun u hu => ?_
  refine (reads_symbol (x := ")") .nil (.cons (by decide))).bind fun _ _ => ?_
  refine (reads_triviaAhead .nil ht.stops).lookahead.bind ?_
  rintro _ ⟨_, rfl, rfl⟩
  have hsame : u.isPredefined = type.isPredefined := by
    rw [← isPredefined_bare, hu, isPredefined_bare]
  rw [Option.getD_some, ht.castOperandFollows fun h => hsign (hsame ▸ h), if_pos rfl]
  exact .pure hu

end DeclGen.Grammar
