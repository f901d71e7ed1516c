import DeclGen.Proofs.Grammar.MemberSpans
import DeclGen.Proofs.Grammar.Moves
import DeclGen.Proofs.Grammar.Tokens

/-!
# Where spans start and end

The span of a name, an expression or an attribute list starts behind the trivia before it and ends
where reading it ended, so no trivia at its two ends belongs to it.

## Main definitions

* `BehindTrivia`: the place behind all trivia at a place

## Main statements

* `tracks_identifier`, `tracks_constantExpr`, `tracks_initializerExpr`: where their spans are
-/

namespace DeclGen.Grammar

open DeclGen.Grammar.Parser DeclGen.Text

variable {text : List Char} {o o' : Nat}

/-! ## Trivia -/

def BehindTrivia (text : List Char) (o o' : Nat) : Prop :=
  ∃ s, Rest text o s ∧ o' = o + size (s.take (triviaLength s))

namespace BehindTrivia

/-- There is one place behind the trivia. -/
theorem unique {o₁ o₂ : Nat} (h₁ : BehindTrivia text o o₁) (h₂ : BehindTrivia text o o₂) :
    o₁ = o₂ := by
  obtain ⟨s, hs, rfl⟩ := h₁
  obtain ⟨t, ht, rfl⟩ := h₂
  rw [hs.eq_of_eq ht]

/-- Behind the trivia, there is none. -/
theorem again (h : BehindTrivia text o o') : BehindTrivia text o' o' := by
  obtain ⟨s, hs, rfl⟩ := h
  exact ⟨_, hs.take _, by rw [triviaLength_drop]; simp⟩

end BehindTrivia

theorem Tracks.trivia_bind {β : Type} {f : Unit → Parser β} {S : β → Nat → Prop}
    (h : ∀ o', o ≤ o' → BehindTrivia text o o' → Tracks text o' (f ()) S) :
    Tracks text o (trivia >>= f) S := by
  intro s hs b c' hb
  have hle : o ≤ o + size (s.take (triviaLength s)) := Nat.le_add_right ..
  obtain ⟨hrest, hle', hS⟩ := h _ hle ⟨s, hs, rfl⟩ _ (hs.take _) b c' hb
  exact ⟨hrest, Nat.le_trans hle hle', hS⟩

theorem Tracks.boundary {α : Type} {p : Parser α} {R : α → Nat → Prop} (h : Tracks text o p R) :
    Tracks text o p fun a o' => R a o' ∧ IsBoundary text o' := by
  intro s hs a c' hp
  obtain ⟨hrest, hle, ha⟩ := h s hs a c' hp
  exact ⟨hrest, hle, ha, hrest.isBoundary⟩

/-! ## Tokens -/

theorem tracks_identifier : Tracks text o identifier fun i o' =>
    BehindTrivia text o i.span.start ∧ i.span.stop = o' := by
  refine .trivia_bind fun start _ hstart => .offset_bind fun _ => ?_
  refine .skip (advances_acceptHere "@") fun isVerbatim o₁ _ => ?_
  refine .skip advances_word fun found o₂ _ => ?_
  split
  next => exact .failAt _ _
  next => exact .spanFrom_bind fun _ => .pure ⟨hstart, rfl⟩

theorem tracks_symbol (s : String) : Tracks text o (symbol s) fun _ o' =>
    ∃ start, BehindTrivia text o start ∧ Spells text start o' s.toList :=
  .trivia_bind fun start _ hstart => (tracks_literal s).mono fun _ _ _ hs => ⟨start, hstart, hs⟩

/-- A given text behind trivia, if it was found, and nothing else. -/
theorem tracks_accept (s : String) : Tracks text o (accept s) fun found o' =>
    if found then ∃ start, BehindTrivia text o start ∧ Spells text start o' s.toList
    else o' = o := by
  refine (tracks_symbol s).attempt.bind fun r o' _ hr => .pure ?_
  cases r with
  | none => exact hr
  | some u => exact hr

theorem Tracks.nextIs_bind {β : Type} {f : Bool → Parser β} {S : β → Nat → Prop} {c : Char}
    (h : ∀ isNext, Tracks text o (f isNext) S) : Tracks text o (nextIs c >>= f) S :=
  fun s hs => h (s.head? == some c) s hs

/-- The first of some attribute lists is what comes first; if there is none, only trivia is read. -/
theorem tracks_attributeLists : Tracks text o attributeLists fun as o' =>
    BehindTrivia text o ((as.head?.map (·.span.start)).getD o') := by
  have hround (o : Nat) : Tracks text o attributeList? (Tracks.OfElement
      (fun o as o' => BehindTrivia text o ((as.head?.map (·.span.start)).getD o')) o) := by
    refine .trivia_bind fun start _ hstart => .nextIs_bind fun isBracket => ?_
    split
    next =>
      refine .offset_bind fun _ => .skip (advances_delimited _ _).label fun x o₁ _ => ?_
      exact .spanFrom_bind fun _ => .pure fun as o' _ _ => hstart
    next => exact .pure hstart
  exact Tracks.many hround o

/-! ## Expressions -/

section

variable {expr : Parser Expr} (hexpr : ∀ o, Tracks text o expr fun _ _ => True)

include hexpr

theorem tracks_inParentheses : Tracks text o (inParentheses expr) fun _ _ => True := by
  refine .skip (advances_symbol "(") fun _ o₁ _ => (hexpr o₁).bind fun inner o₂ _ _ => ?_
  exact .skip (advances_symbol ")").label fun _ o₃ _ => .pure trivial

end

theorem tracks_nameExpr : Tracks text o nameExpr fun e o' => e.span = ⟨o, o'⟩ := by
  have hidentifier : Advances identifier := .of_tracks fun _ => spans_identifier
  have hpart : Advances namePart? := by
    refine .bind (advances_accept ".") fun isDot => ?_
    split
    next => exact .bind hidentifier.label fun _ => .pure _
    next => exact .pure _
  have hrest (head : Identifier) (o₁ : Nat) : Tracks text o₁ (do
      let others ← many namePart?
      return Expr.name (head :: others) (← spanFrom o)) fun e o' => e.span = ⟨o, o'⟩ :=
    .skip hpart.many fun others o₂ _ => .spanFrom_bind fun _ => .pure rfl
  refine .offset_bind fun _ => .skip (.of_tracks fun _ => spans_nameHead) fun first o₁ _ => ?_
  refine .skip (advances_accept "::") fun isAliased o₂ _ => ?_
  cases isAliased with
  | false => exact hrest first o₂
  | true => exact .skip hidentifier.label fun head o₃ _ => hrest head o₃

section

variable {expr : Parser Expr} (hexpr : ∀ o, Tracks text o expr fun _ _ => True)

include hexpr

theorem tracks_primaryExpr : Tracks text o (primaryExpr expr) fun e o' => e.span = ⟨o, o'⟩ := by
  have hchecked (isChecked : Bool) : Tracks text o (do
      let _ ← word
      return Expr.overflowContext isChecked (← inParentheses expr) (← spanFrom o))
      fun e o' => e.span = ⟨o, o'⟩ := by
    refine .skip advances_word fun _ o₁ _ => (tracks_inParentheses hexpr).bind fun _ o₂ _ _ => ?_
    exact .spanFrom_bind fun _ => .pure rfl
  refine .offset_bind fun _ => .ahead_bind fun s _ => ?_
  split
  next =>
    exact .skip advances_characterLiteral.label fun _ o₁ _ => .spanFrom_bind fun _ => .pure rfl
  next c s =>
    split
    next =>
      exact tracks_integerLiteral.label.bind fun _ o₁ _ _ => .spanFrom_bind fun _ => .pure rfl
    next =>
      refine (Tracks.lookahead word).bind fun next o₁ _ hsame => ?_
      obtain rfl : o₁ = o := hsame
      split
      next => exact hchecked true
      next => exact hchecked false
      next => exact tracks_nameExpr
  next => exact tracks_nameExpr

theorem tracks_castExpr : Tracks text o (castExpr expr) fun e o' => e.span = ⟨o, o'⟩ := by
  refine .offset_bind fun _ => .skip (.of_tracks fun _ => spans_castType) fun t o₁ _ => ?_
  exact (hexpr o₁).bind fun operand o₂ _ _ => .spanFrom_bind fun _ => .pure rfl

/-- The expression starts behind the trivia ahead and ends where reading it ends. -/
theorem tracks_unaryExprOf {self : Parser Expr} (hself : ∀ o, Tracks text o self fun _ _ => True) :
    Tracks text o (unaryExprOf expr self) fun e o' =>
      BehindTrivia text o e.span.start ∧ e.span.stop = o' := by
  have hends {start : Nat} (hstart : BehindTrivia text o start) {p : Parser Expr}
      (hp : Tracks text start p fun e o' => e.span = ⟨start, o'⟩) : Tracks text start p fun e o' =>
        BehindTrivia text o e.span.start ∧ e.span.stop = o' :=
    hp.mono fun e o' _ he => ⟨he ▸ hstart, he ▸ rfl⟩
  refine .trivia_bind fun start _ hstart => .offset_bind fun _ => .ahead_bind fun s _ => ?_
  split
  next op _ =>
    refine hends hstart (.skip (.take 1) fun _ o₁ _ => (hself o₁).bind fun operand o₂ _ _ => ?_)
    exact .spanFrom_bind fun _ => .pure rfl
  next =>
    split
    next =>
      refine hends hstart ((tracks_castExpr hself).attempt.bind fun r o₁ _ hr => ?_)
      cases r with
      | some e => exact .pure hr
      | none =>
        refine (tracks_inParentheses hexpr).bind fun inner o₂ _ _ => ?_
        exact .spanFrom_bind fun _ => .pure rfl
    next => exact hends hstart (tracks_primaryExpr hexpr)

theorem tracks_unaryExpr : Tracks text o (unaryExpr expr) fun e o' =>
    BehindTrivia text o e.span.start ∧ e.span.stop = o' := by
  have hstep (self : Unit → Parser Expr) (hself : ∀ i o, Tracks text o (self i) fun e o' =>
      BehindTrivia text o e.span.start ∧ e.span.stop = o') (_ : Unit) (o : Nat) :
      Tracks text o (unaryExprOf expr (self ())) fun e o' =>
        BehindTrivia text o e.span.start ∧ e.span.stop = o' :=
    tracks_unaryExprOf hexpr fun o => (hself () o).mono fun _ _ _ _ => trivial
  exact Tracks.fix hstep () o

end

/-- Where the last of some operands ends, where `stop` is the end of what is before them. -/
def stopBehind (stop : Nat) (others : List (BinaryOperator × Expr)) : Nat :=
  others.foldl (fun _ r => r.2.span.stop) stop

/-- The combined expression starts with the first operand and ends with the last one. -/
theorem span_foldl_combine (e : Expr) (others : List (BinaryOperator × Expr)) :
    (others.foldl Expr.combine e).span = ⟨e.span.start, stopBehind e.span.stop others⟩ := by
  induction others generalizing e with
  | nil => rfl
  | cons r others ih => exact ih (Grammar.Expr.combine e r)

/-- An operation starts where its left operand does and ends where its right one does. -/
theorem tracks_binaryExprOf {self : Nat → Parser Expr}
    (hself : ∀ least o, Tracks text o (self least) fun e o' =>
      BehindTrivia text o e.span.start ∧ e.span.stop = o') (least : Nat) :
    Tracks text o (binaryExprOf self least) fun e o' =>
      BehindTrivia text o e.span.start ∧ e.span.stop = o' := by
  have hround (o : Nat) : Tracks text o (operation? self least)
      (Tracks.OfElement (fun o rs o' => o' = stopBehind o rs) o) := by
    refine (advances_operatorFrom least text o).attempt.bind fun op? o₁ _ hop => ?_
    cases op? with
    | none => exact .pure hop
    | some op =>
      refine (hself _ o₁).bind fun right o₂ _ hright => .pure fun rs o' _ hrs => ?_
      rw [hrs, ← hright.2]
      rfl
  refine (tracks_unaryExpr fun o => (hself 0 o).mono fun _ _ _ _ => trivial).bind
    fun first o₁ _ hfirst => (Tracks.many hround o₁).bind fun others o₂ _ hothers => .pure ?_
  rw [span_foldl_combine]
  exact ⟨hfirst.1, by rw [hothers, hfirst.2]⟩

theorem tracks_constantExpr : Tracks text o constantExpr fun e o' =>
    BehindTrivia text o e.span.start ∧ e.span.stop = o' :=
  Tracks.fix (fun _ hself least _ => tracks_binaryExprOf hself least) 0 o

/-! ## Initializers -/

theorem tracks_closedExpr : Tracks text o closedExpr fun e o' =>
    BehindTrivia text o e.span.start ∧ e.span.stop = o' := by
  refine tracks_constantExpr.bind fun e o₁ _ he => ?_
  refine (Tracks.lookahead _).bind fun next o₂ _ hsame => ?_
  obtain rfl : o₂ = o₁ := hsame
  split
  next => exact .pure he
  next => exact .pure he
  next => exact .fail

/-- What trimming leaves out stands behind what it leaves. -/
theorem exists_blanks_of_trimEnd {x : List Char} (h : Spells text o o' x) :
    ∃ blanks, Spells text (o + size (trimEnd x)) o' blanks ∧ ∀ c ∈ blanks, isBlank c = true := by
  obtain ⟨blanks, hx, hblanks⟩ := dropTrailing_append isBlank x
  obtain ⟨front, back, htext, rfl, rfl⟩ := h
  change x = trimEnd x ++ blanks at hx
  refine ⟨blanks, ⟨front ++ trimEnd x, back, ?_, size_append .., ?_⟩, hblanks⟩
  · rw [htext, List.append_assoc front (trimEnd x), ← hx]
  · have hsize := congrArg size hx
    rw [size_append] at hsize
    omega

/-- An initializer starts behind the trivia ahead, and at most blanks are read behind it. -/
theorem tracks_initializerExpr : Tracks text o initializerExpr fun e o' =>
    BehindTrivia text o e.span.start ∧
      ∃ blanks, Spells text e.span.stop o' blanks ∧ ∀ c ∈ blanks, isBlank c = true := by
  refine (Tracks.attempt tracks_closedExpr.boundary).bind fun r o₁ _ hr => ?_
  cases r with
  | some e =>
    obtain ⟨⟨hstart, rfl⟩, front, back, htext, hfront⟩ := hr
    exact .pure ⟨hstart, [], ⟨front, back, by simpa using htext, hfront, rfl⟩, by simp⟩
  | none =>
    obtain rfl : o₁ = o := hr
    refine .trivia_bind fun start _ hstart => .offset_bind fun _ => ?_
    refine (tracks_takeUntil _).label.bind fun x o₂ _ hx => ?_
    dsimp only
    split
    next => exact .failAt _ _
    next => exact .pure ⟨hstart, exists_blanks_of_trimEnd hx⟩

end DeclGen.Grammar
