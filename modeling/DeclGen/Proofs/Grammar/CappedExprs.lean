import DeclGen.Proofs.Grammar.CappedTypes
import DeclGen.Proofs.Grammar.CutExprs
import DeclGen.Proofs.Grammar.ExprMoves
import DeclGen.Proofs.Grammar.Yields
import Mathlib.Data.List.Find

/-!
# Constant expressions in front of a closing brace

Constant expressions are read in both texts or in none, and are the same but for their places.

## Main statements

* `alike_unaryExprOf`, `alike_binaryExprOf`: what the parsers of expressions do between calls of
  themselves
* `alike_constantExpr`: constant expressions
-/

namespace DeclGen.Grammar

open DeclGen.Grammar.Parser DeclGen.Text

variable {α β : Type} {lax : Prop} {s t : List Char} {n : Nat}

/-! ## Integer literals -/

theorem takeWhile_capped {p : Char → Bool} (hfeed : p '\n' = false) (hbrace : p '}' = false)
    (hst : Capped s t) : t.takeWhile p = s.takeWhile p := by
  cases hst with
  | inside s => exact takeWhile_cap hfeed s
  | atEnd => simp [hbrace]

/-- The characters that satisfy `p` are read in both texts. -/
theorem alike_takeWhile {p : Char → Bool} (hfeed : p '\n' = false) (hbrace : p '}' = false) :
    Alike lax (do let _ ← take ((← ahead).takeWhile p).length)
      (do let _ ← take ((← ahead).takeWhile p).length) fun _ _ => True := by
  refine .ahead_bind fun s t hst => ?_
  rw [takeWhile_capped hfeed hbrace hst]
  exact .take_bind hst (List.takeWhile_sublist _).length_le (.pure trivial)

theorem alike_digitsAfter {lower upper : String} {p : Char → Bool}
    (hlower : ClearOfCap lower.toList) (hupper : ClearOfCap upper.toList)
    (hfeed : p '\n' = false) (hbrace : p '}' = false) :
    Alike lax (digitsAfter lower upper p) (digitsAfter lower upper p) fun _ _ => True := by
  refine ((alike_literal hlower).orElse (alike_literal hupper)).bind fun _ _ _ => ?_
  refine .ahead_bind fun s t hst => ?_
  rw [takeWhile_capped hfeed hbrace hst]
  have hle := (List.takeWhile_sublist (l := s) p).length_le
  generalize (s.takeWhile p).length = k at hle
  cases k with
  | zero => exact .fail
  | succ k => exact .take_bind hst hle (.pure trivial)

theorem alike_decimalDigits : Alike lax decimalDigits decimalDigits fun _ _ => True := by
  refine .ahead_bind fun s t hst => ?_
  rcases hst.cases_head with ⟨c, u, rfl, rfl⟩ | ⟨rfl, rfl | rfl⟩
  · dsimp only
    rw [takeWhile_cap (by decide)]
    split
    · refine .take_bind hst ?_ (.pure trivial)
      exact Nat.succ_le_succ (List.takeWhile_sublist _).length_le
    · exact .fail
  · exact .fail
  · exact .fail

theorem alike_integerToken : Alike lax integerToken integerToken fun _ _ => True := by
  refine Alike.bind (V := fun _ _ => True) ?_ fun _ _ _ => alike_takeWhile (by decide) (by decide)
  refine (alike_digitsAfter (by decide) (by decide) (by decide) (by decide)).orElse ?_
  exact (alike_digitsAfter (by decide) (by decide) (by decide) (by decide)).orElse
    alike_decimalDigits

/-- From `s` the parser reads no line feed. -/
def InLineAt (s : List Char) (p : Parser α) : Prop :=
  ∀ o a c, p ⟨o, s⟩ = .ok (a, c) → ∃ x, s = x ++ c.rest ∧ '\n' ∉ x

def InLine (p : Parser α) : Prop := ∀ s, InLineAt s p

namespace InLine

variable {p q : Parser α} {f : α → Parser β}

theorem pure (a : α) : InLine (pure a) := by
  rintro s o _ _ ⟨⟩
  exact ⟨[], rfl, List.not_mem_nil⟩

theorem bind (hp : InLine p) (hf : ∀ a, InLine (f a)) : InLine (p >>= f) := by
  intro s o b c' h
  rw [bind_apply] at h
  split at h
  next a c hpc =>
    obtain ⟨x, hx, hfeed⟩ := hp s o a c hpc
    obtain ⟨y, hy, hfeed'⟩ := hf a c.rest c.offset b c' h
    refine ⟨x ++ y, by rw [hx, hy, List.append_assoc], ?_⟩
    rw [List.mem_append, not_or]
    exact ⟨hfeed, hfeed'⟩
  next => cases h

theorem orElse (hp : InLine p) (hq : InLine q) : InLine (orElse p q) := by
  intro s o a c' h
  rw [Parser.orElse] at h
  split at h
  next r hr =>
    cases h
    exact hp s o a c' hr
  next =>
    split at h
    next r hr =>
      cases h
      exact hq s o a c' hr
    next => cases h

theorem ahead_bind {f : List Char → Parser β} (h : ∀ s, InLineAt s (f s)) :
    InLine (ahead >>= f) :=
  fun s o => h s o

theorem startsWith_bind {f : Bool → Parser β} {x : String}
    (h : ∀ s, InLineAt s (f (x.toList.isPrefixOf s))) : InLine (startsWith x >>= f) :=
  fun s o => h s o

/-- Reading characters among which there is no line feed. -/
theorem take_bind {f : List Char → Parser β} (hn : '\n' ∉ s.take n) (hf : ∀ x, InLine (f x)) :
    InLineAt s (take n >>= f) := by
  intro o b c h
  obtain ⟨y, hy, hfeed⟩ := hf _ _ _ _ _ h
  refine ⟨s.take n ++ y, ?_, ?_⟩
  · rw [List.append_assoc, ← hy]
    exact (List.take_append_drop n s).symm
  · rw [List.mem_append, not_or]
    exact ⟨hn, hfeed⟩

theorem failAt : InLineAt s (fail : Parser α) := by
  rintro _ _ _ ⟨⟩

theorem not_mem_takeWhile {p : Char → Bool} (hfeed : p '\n' = false) (s : List Char) :
    '\n' ∉ s.takeWhile p := by
  intro hmem
  rw [List.all_eq_true.mp List.all_takeWhile _ hmem] at hfeed
  cases hfeed

theorem literal {x : String} (hx : ClearOfCap x.toList) : InLine (literal x) := by
  refine startsWith_bind fun s => ?_
  split
  next hfound =>
    refine take_bind ?_ fun _ => pure ()
    rw [← String.length_toList,
      ← List.prefix_iff_eq_take.mp (List.isPrefixOf_iff_prefix.mp hfound)]
    exact fun hfeed => (hx _ hfeed).1 rfl
  next => exact failAt

theorem digitsAfter {lower upper : String} {p : Char → Bool} (hlower : ClearOfCap lower.toList)
    (hupper : ClearOfCap upper.toList) (hfeed : p '\n' = false) :
    InLine (digitsAfter lower upper p) := by
  refine ((literal hlower).orElse (literal hupper)).bind fun _ => ahead_bind fun s => ?_
  split
  next => exact failAt
  next n hn =>
    refine take_bind ?_ fun _ => pure ()
    rw [← Nat.succ_eq_add_one, ← hn, ← List.prefix_iff_eq_take.mp (List.takeWhile_prefix p)]
    exact not_mem_takeWhile hfeed _

theorem decimalDigits : InLine decimalDigits := by
  refine ahead_bind fun s => ?_
  split
  next d s =>
    split
    next hdigit =>
      refine take_bind ?_ fun _ => pure ()
      rw [List.take_succ_cons, ← List.prefix_iff_eq_take.mp (List.takeWhile_prefix _)]
      rintro (_ | ⟨_, hfeed⟩)
      · cases hdigit
      · exact not_mem_takeWhile (by decide) _ hfeed
    next => exact failAt
  next => exact failAt

theorem integerToken : InLine integerToken := by
  refine bind ?_ fun _ => ahead_bind fun s => take_bind ?_ fun _ => pure ()
  · exact (digitsAfter (by decide) (by decide) (by decide)).orElse
      ((digitsAfter (by decide) (by decide) (by decide)).orElse decimalDigits)
  · rw [← List.prefix_iff_eq_take.mp (List.takeWhile_prefix _)]
    exact not_mem_takeWhile (by decide) _

/-- There is no line feed in the text that is read. -/
theorem not_mem_withText (hp : InLine p) {c c' : Cursor} {r : α × List Char}
    (h : withText p c = .ok (r, c')) : '\n' ∉ r.2 := by
  rw [Parser.withText] at h
  split at h
  next a c₁ ha =>
    cases h
    obtain ⟨x, hx, hfeed⟩ := hp _ _ _ _ ha
    simp only [hx, List.length_append, Nat.add_sub_cancel, List.take_left]
    exact hfeed
  next => cases h

end InLine

/-- Where no line feed is read, the characters read are the same. -/
theorem Alike.withText_inLine {p q : Parser α} {V : α → α → Prop} (h : Alike lax p q V)
    (hq : InLine q) :
    Alike lax (Parser.withText p) (Parser.withText q) fun a b => V a.1 b.1 ∧ a.2 = b.2 := by
  intro s t hst o o'
  have hpq := h.withText s t hst o o'
  generalize Parser.withText p ⟨o, s⟩ = r at hpq ⊢
  generalize hr' : Parser.withText q ⟨o', t⟩ = r' at hpq ⊢
  cases hpq with
  | error => exact .error
  | late h => exact .late h
  | ok h hcd =>
    refine .ok ⟨h.1, ?_⟩ hcd
    rcases h.2 with htext | htext
    · exact htext.symm
    · refine absurd ?_ (hq.not_mem_withText hr')
      simp [htext]

theorem alike_integerLiteral : Alike lax integerLiteral integerLiteral (· = ·) := by
  refine .place_bind fun c d => (alike_integerToken.withText_inLine .integerToken).bind ?_
  rintro ⟨-, x⟩ ⟨-, -⟩ ⟨-, rfl⟩
  refine .ahead_bind fun s t hst => ?_
  rcases hst.cases_head with ⟨e, u, rfl, rfl⟩ | ⟨rfl, rfl | rfl⟩
  · dsimp only
    cases isAlphanumeric e || e == '_' || e == '.' with
    | true => exact fun _ _ => .error
    | false => exact .pure hst rfl
  · exact .pure hst rfl
  · exact .pure hst rfl

/-! ## Character literals -/

/-- The line feed ends the run at the latest, and so does the end of the text. -/
theorem takeWhile_take_cap {p : Char → Bool} (hfeed : p '\n' = false) (m : Nat) (s : List Char) :
    ((s ++ ['\n', '}']).take m).takeWhile p = (s.take m).takeWhile p := by
  induction s generalizing m with
  | nil => cases m <;> simp [hfeed]
  | cons c s ih =>
    cases m with
    | zero => rfl
    | succ m =>
      rw [List.cons_append, List.take_succ_cons, List.take_succ_cons, List.takeWhile_cons,
        List.takeWhile_cons, ih]

theorem escapeSequence_cap (s : List Char) :
    escapeSequence (s ++ ['\n', '}']) = escapeSequence s := by
  cases s with
  | nil => rfl
  | cons c s =>
    simp only [List.cons_append, escapeSequence,
      takeWhile_take_cap (show isHexDigit '\n' = false by decide)]

theorem le_of_escapeSequence {value : Char} (h : escapeSequence s = some (value, n)) :
    n ≤ s.length := by
  cases s with
  | nil => cases h
  | cons c s =>
    have hhex (most : Nat) : ((s.take most).takeWhile isHexDigit).length ≤ s.length :=
      ((List.takeWhile_sublist _).trans (List.take_sublist _ _)).length_le
    rw [List.length_cons]
    simp only [escapeSequence] at h
    split at h
    case h_15 => cases h
    case h_12 | h_13 | h_14 =>
      split at h
      · cases h
      · obtain ⟨_, -, h⟩ := Option.map_eq_some_iff.mp h
        cases h
        exact Nat.succ_le_succ (hhex _)
    all_goals
      cases h
      omega

theorem characterBody_cap (s : List Char) :
    characterBody (s ++ ['\n', '}']) = characterBody s := by
  cases s with
  | nil => rfl
  | cons c s => rw [List.cons_append, characterBody, characterBody, escapeSequence_cap]

theorem le_of_characterBody {value : Char} (h : characterBody s = some (value, n)) :
    n ≤ s.length := by
  cases s with
  | nil => cases h
  | cons c s =>
    rw [characterBody] at h
    split at h
    · obtain ⟨⟨value', m⟩, hm, h⟩ := Option.map_eq_some_iff.mp h
      cases h
      exact Nat.succ_le_succ (le_of_escapeSequence hm)
    split at h
    · cases h
    · cases h
      simp

theorem alike_characterLiteral : Alike lax characterLiteral characterLiteral (· = ·) := by
  refine .ahead_bind fun s t hst => ?_
  rcases hst.cases_head with ⟨c, u, rfl, rfl⟩ | ⟨rfl, rfl | rfl⟩
  · by_cases hquote : c = '\''
    · subst hquote
      simp only [characterBody_cap]
      cases hbody : characterBody u with
      | none => exact .fail
      | some found =>
        obtain ⟨value, n⟩ := found
        have hle := le_of_characterBody hbody
        simp only [head?_drop_cap_beq (show '\'' ≠ '\n' by decide) hle]
        cases hclosed : (u.drop n).head? == some '\'' with
        | false => exact .fail
        | true =>
          have hlt := lt_of_head?_drop (eq_of_beq hclosed)
          exact .take_bind hst (Nat.succ_le_succ hlt) (.pure rfl)
    · simpa [hquote] using .fail
  · exact .fail
  · exact .fail

/-! ## Operators -/

/-- Signs are told by two characters. -/
theorem unaryOperator?_pair (c d : Char) (s : List Char) :
    unaryOperator? (c :: d :: s) = unaryOperator? [c, d] := by
  by_cases hplus : c = '+'
  · subst hplus
    by_cases hd : d = '+'
    · subst hd
      rfl
    · simp [unaryOperator?, hd]
  by_cases hminus : c = '-'
  · subst hminus
    by_cases hd : d = '-'
    · subst hd
      rfl
    · simp [unaryOperator?, hd]
  by_cases htilde : c = '~'
  · subst htilde
    rfl
  · simp [unaryOperator?, hplus, hminus, htilde]

theorem unaryOperator?_capped (hst : Capped s t) : unaryOperator? t = unaryOperator? s := by
  rcases hst.cases_head with ⟨c, u, rfl, rfl⟩ | ⟨rfl, rfl | rfl⟩
  · cases u with
    | nil =>
      unfold unaryOperator?
      split <;> simp_all
    | cons d u => rw [List.cons_append, unaryOperator?_pair, ← unaryOperator?_pair c d u]
  · rfl
  · rfl

theorem isPrefixOf_operator (hst : Capped s t) {o : List Char × BinaryOperator}
    (ho : o ∈ Cutting.operatorSymbols) : o.1.isPrefixOf t = o.1.isPrefixOf s := by
  have hclear : ∀ o ∈ Cutting.operatorSymbols, ClearOfCap o.1 := by decide
  exact isPrefixOf_capped (hclear o ho) hst

/-- The operator at the start of the second text is that at the start of the first, and lies in
it. -/
theorem binaryOperator?_capped (hst : Capped s t) :
    binaryOperator? t = binaryOperator? s ∧
      ∀ op, binaryOperator? s = some (op, n) → n ≤ s.length := by
  have hlogical : (['&', '&'].isPrefixOf t || ['|', '|'].isPrefixOf t) =
      (['&', '&'].isPrefixOf s || ['|', '|'].isPrefixOf s) := by
    rw [isPrefixOf_capped (by decide) hst, isPrefixOf_capped (by decide) hst]
  cases h : ['&', '&'].isPrefixOf s || ['|', '|'].isPrefixOf s with
  | true =>
    rw [Cutting.binaryOperator?_of_logical h, Cutting.binaryOperator?_of_logical (hlogical.trans h)]
    exact ⟨rfl, by simp⟩
  | false =>
    rw [Cutting.binaryOperator?_eq_find? h, Cutting.binaryOperator?_eq_find? (hlogical.trans h)]
    have hfind : (Cutting.operatorSymbols.find? fun o => o.1.isPrefixOf t) =
        Cutting.operatorSymbols.find? fun o => o.1.isPrefixOf s :=
      List.find?_congr fun o ho => isPrefixOf_operator hst ho
    rw [hfind]
    cases hfound : Cutting.operatorSymbols.find? fun o => o.1.isPrefixOf s with
    | none => exact ⟨rfl, by simp⟩
    | some o =>
      have hfits :=
        List.find?_some (p := fun o : List Char × BinaryOperator => o.1.isPrefixOf s) hfound
      have hle := (List.isPrefixOf_iff_prefix.mp hfits).length_le
      have hhead := (hst.drop _ hle).head?_beq (c := '=') (by decide) (by decide)
      simp only [Option.map_some, Option.filter, bne, hhead]
      refine ⟨trivial, fun op h => ?_⟩
      split at h
      · cases h
        exact hle
      · cases h

/-! ## Names -/

theorem alike_nameHead : Alike lax nameHead nameHead (·.bare = ·.bare) := by
  refine alike_identifier.attempt.bind ?_
  rintro _ _ (h | _)
  · exact .pure h
  refine .offset_bind fun o o' => alike_word.attempt.bind ?_
  rintro _ _ (@⟨found, _, rfl⟩ | _)
  · exact .ite (fun _ => alike_spanFrom.bind fun _ _ _ => .pure rfl) fun _ => .failAt
  · exact .failAt

theorem alike_namePart? : Alike lax namePart? namePart? (Option.Rel (·.bare = ·.bare)) := by
  refine (alike_accept (by decide)).bind ?_
  rintro isDot _ rfl
  exact .ite (fun _ => alike_identifier.label.bind fun _ _ h => .pure (.some h)) fun _ =>
    .pure .none

theorem alike_nameExpr : Alike lax nameExpr nameExpr (·.bare = ·.bare) := by
  refine .offset_bind fun o o' => alike_nameHead.bind fun first first' hfirst => ?_
  refine (alike_accept (by decide)).bind ?_
  rintro isAliased _ rfl
  have hhead : Alike lax (if isAliased then label "a name" identifier else pure first)
      (if isAliased then label "a name" identifier else pure first') (·.bare = ·.bare) :=
    .ite (fun _ => alike_identifier.label) fun _ => .pure hfirst
  refine hhead.ite_bind fun head head' hhead' => ?_
  refine (Alike.many alike_namePart? fun _ => not_some_at_end fun _ _ _ => moves_namePart?).bind
    fun others others' hothers => alike_spanFrom.bind fun _ _ _ => .pure ?_
  simp only [Expr.bare, List.map_cons, hhead', map_eq_of_forall₂ hothers]

/-! ## Operands -/

theorem TypeExpr.isPredefined_bare (type : TypeExpr) :
    type.bare.isPredefined = type.isPredefined := by
  cases type <;> rfl

theorem castOperandFollows_capped {type type' : TypeExpr} (htype : type.bare = type'.bare)
    (hst : Capped s t) : castOperandFollows type' t = castOperandFollows type s := by
  have hpredefined : type'.isPredefined = type.isPredefined := by
    rw [← TypeExpr.isPredefined_bare, ← htype, TypeExpr.isPredefined_bare]
  rcases hst.cases_head with ⟨c, u, rfl, rfl⟩ | ⟨rfl, rfl | rfl⟩
  · rw [castOperandFollows, castOperandFollows, hpredefined]
  · rfl
  · rfl

theorem alike_castType : Alike lax castType castType (·.bare = ·.bare) := by
  refine (alike_symbol (by decide)).bind fun _ _ _ => alike_typeExpr.bind fun type type' h => ?_
  refine (alike_symbol (by decide)).bind fun _ _ _ => ?_
  refine (Alike.lookahead (alike_trivia.bind fun _ _ _ => Alike.ahead)).bind ?_
  rintro _ _ (@⟨s, t, hst⟩ | _)
  · simp only [Option.getD_some, castOperandFollows_capped h hst]
    exact .ite (fun _ => .pure h) fun _ => .fail
  · exact .fail

section

variable {expr expr' self self' : Parser Expr} (hexpr : Alike False expr expr' (·.bare = ·.bare))
  (hself : Alike False self self' (·.bare = ·.bare))

include hexpr in
theorem alike_inParentheses :
    Alike False (inParentheses expr) (inParentheses expr') (·.bare = ·.bare) :=
  (alike_symbol (by decide)).bind fun _ _ _ => hexpr.bind fun _ _ h =>
    (alike_symbol (by decide)).label.bind fun _ _ _ => .pure h

include hself in
theorem alike_castExpr : Alike False (castExpr self) (castExpr self') (·.bare = ·.bare) := by
  refine .offset_bind fun o o' => alike_castType.bind fun type type' htype => ?_
  refine hself.bind fun operand operand' h => alike_spanFrom.bind fun _ _ _ => .pure ?_
  simp only [Expr.bare, htype, h]

include hexpr in
theorem alike_primaryExpr :
    Alike False (primaryExpr expr) (primaryExpr expr') (·.bare = ·.bare) := by
  refine .offset_bind fun o o' => .ahead_bind fun s t hst => ?_
  rcases hst.cases_head with ⟨c, u, rfl, rfl⟩ | ⟨rfl, hend⟩
  · by_cases hquote : c = '\''
    · subst hquote
      have hliteral : Alike False
          (do return Expr.character (← label "character literal" characterLiteral) (← spanFrom o))
          (do return Expr.character (← label "character literal" characterLiteral) (← spanFrom o'))
          (·.bare = ·.bare) := by
        refine alike_characterLiteral.label.bind ?_
        rintro value _ rfl
        exact alike_spanFrom.bind fun _ _ _ => .pure rfl
      exact hliteral _ _ hst
    simp only
    refine Alike.ite (fun _ => ?_) (fun _ => alike_word.lookahead.bind ?_) _ _ hst
    · refine alike_integerLiteral.label.bind ?_
      rintro text _ rfl
      exact alike_spanFrom.bind fun _ _ _ => .pure rfl
    · have hchecked (isChecked : Bool) : Alike False
          (do
            let _ ← word
            return Expr.overflowContext isChecked (← inParentheses expr) (← spanFrom o))
          (do
            let _ ← word
            return Expr.overflowContext isChecked (← inParentheses expr') (← spanFrom o'))
          (·.bare = ·.bare) :=
        alike_word.bind fun _ _ _ => (alike_inParentheses hexpr).bind fun _ _ h =>
          alike_spanFrom.bind fun _ _ _ => .pure (by simp only [Expr.bare, h])
      rintro _ _ (@⟨found, _, rfl⟩ | _)
      · split
        next h =>
          cases h
          exact hchecked true
        next h =>
          cases h
          exact hchecked false
        next => exact alike_nameExpr
      · exact alike_nameExpr
  · rcases hend with rfl | rfl <;> exact alike_nameExpr _ _ hst

include hexpr hself in
theorem alike_unaryExprOf :
    Alike False (unaryExprOf expr self) (unaryExprOf expr' self') (·.bare = ·.bare) := by
  refine alike_trivia.bind fun _ _ _ => .offset_bind fun o o' => .ahead_bind fun s t hst => ?_
  rw [unaryOperator?_capped hst, hst.head?_beq (c := '(') (by decide) (by decide)]
  cases hop : unaryOperator? s with
  | some op =>
    have hpos : 1 ≤ s.length := by
      cases s with
      | nil => cases hop
      | cons c s => simp
    refine .take_bind hst hpos (hself.bind fun _ _ h => alike_spanFrom.bind fun _ _ _ => .pure ?_)
    simp only [Expr.bare, h]
  | none =>
    refine Alike.ite (fun _ => (alike_castExpr hself).attempt.bind ?_)
      (fun _ => alike_primaryExpr hexpr) _ _ hst
    rintro _ _ (h | _)
    · exact .pure h
    · refine (alike_inParentheses hexpr).bind fun _ _ h => alike_spanFrom.bind fun _ _ _ => .pure ?_
      simp only [Expr.bare, h]

/-- An expression without binary operators outside brackets. -/
theorem unaryExpr_ne_ok_at_end (expr : Parser Expr) (o : Nat) (r : Expr × Cursor) :
    unaryExpr expr ⟨o, []⟩ ≠ .ok r :=
  not_ok_at_end (fun _ _ h => agree_unaryExpr (further_at_end h)) o r

include hexpr in
theorem alike_unaryExpr :
    Alike False (unaryExpr expr) (unaryExpr expr') (·.bare = ·.bare) :=
  .fix (V := fun (_ : Unit) (a b : Expr) => a.bare = b.bare)
    (fun _ _ hself _ _ => alike_unaryExprOf hexpr (hself ()))
    (fun _ _ => unaryExpr_ne_ok_at_end expr) ()

end

/-! ## Operations -/

theorem alike_operatorFrom (least : Nat) :
    Alike lax (operatorFrom least) (operatorFrom least) (· = ·) := by
  refine alike_trivia.bind fun _ _ _ => .ahead_bind fun s t hst => ?_
  rw [(binaryOperator?_capped (n := 0) hst).1]
  cases hop : binaryOperator? s with
  | none => exact .fail
  | some found =>
    obtain ⟨op, n⟩ := found
    have hle := (binaryOperator?_capped hst).2 op hop
    by_cases hlow : op.precedence < least
    · simp only [if_pos hlow]
      exact .fail
    · simp only [if_neg hlow]
      exact .take_bind hst hle (.pure rfl)

def SameOperation (x y : BinaryOperator × Expr) : Prop := x.1 = y.1 ∧ x.2.bare = y.2.bare

theorem bare_foldl_combine {left left' : Expr} {xs ys : List (BinaryOperator × Expr)}
    (h : left.bare = left'.bare) (hxs : List.Forall₂ SameOperation xs ys) :
    (xs.foldl Expr.combine left).bare = (ys.foldl Expr.combine left').bare := by
  induction hxs generalizing left left' with
  | nil => exact h
  | @cons x y xs ys hxy _ ih =>
    obtain ⟨op, right⟩ := x
    obtain ⟨op', right'⟩ := y
    obtain ⟨rfl, hright⟩ := hxy
    refine ih ?_
    simp only [Expr.combine, Expr.bare, h, hright]

section

variable {self self' : Nat → Parser Expr}
  (hself : ∀ least, Alike False (self least) (self' least) (·.bare = ·.bare))

include hself

theorem alike_operation? (least : Nat) :
    Alike False (operation? self least) (operation? self' least) (Option.Rel SameOperation) := by
  refine (alike_operatorFrom least).attempt.bind ?_
  rintro _ _ (@⟨op, _, rfl⟩ | _)
  · exact (hself _).bind fun _ _ h => .pure (.some ⟨rfl, h⟩)
  · exact .pure .none

theorem alike_binaryExprOf (least : Nat) :
    Alike False (binaryExprOf self least) (binaryExprOf self' least) (·.bare = ·.bare) := by
  refine (alike_unaryExpr (hself 0)).bind fun first first' hfirst => ?_
  refine (Alike.many (alike_operation? hself least) fun _ => not_some_at_end fun _ _ h =>
    agree_operation? (fun _ => further_at_end h) least).bind fun _ _ h => .pure ?_
  exact bare_foldl_combine hfirst h

end

theorem alike_constantExpr : Alike lax constantExpr constantExpr (·.bare = ·.bare) := by
  have hfirm : Alike False constantExpr constantExpr (·.bare = ·.bare) :=
    .fix (V := fun (_ : Nat) (a b : Expr) => a.bare = b.bare)
      (fun _ _ hself _ least => alike_binaryExprOf hself least)
      (fun _ least => not_ok_at_end fun _ _ _ => moves_binaryExpr least) 0
  exact hfirm.loosen

end DeclGen.Grammar
