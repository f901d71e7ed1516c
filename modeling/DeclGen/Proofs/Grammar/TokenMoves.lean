import DeclGen.Grammar.Header
import DeclGen.Proofs.Grammar.Moves

/-!
# Tokens and headers go forward

Words, fixed texts and regions take at least one character. So do the further rounds of what stands
before declarations: a dot, an opening bracket, a modifier or the word `using` is read in each.

## Main statements

* `moves_word`, `moves_literal`, `moves_identifier`, `moves_delimited`: tokens and regions
* `moves_attributeList?`, `moves_modifier?`, `moves_usingDirective?`: rounds of headers
-/

namespace DeclGen.Grammar

open DeclGen.Grammar.Parser DeclGen.Text

variable {β : Type} {text : List Char} {o : Nat} {S : β → Nat → Prop}

/-! ## Looking ahead -/

/-- Where a character is found to come next, it is left. -/
theorem Agree.nextIs_bind {f g : Bool → Parser β} (c : Char)
    (h : ∀ b, (b = true → ∃ s, Rest text o (c :: s)) → Agree text o (f b) (g b) S) :
    Agree text o (nextIs c >>= f) (nextIs c >>= g) S := by
  intro s hs
  refine h (s.head? == some c) (fun hb => ?_) s hs
  obtain ⟨t, rfl⟩ := List.head?_eq_some_iff.mp (eq_of_beq hb)
  exact ⟨t, hs⟩

/-- Where a text is found to come next, it is left. -/
theorem Agree.startsWith_bind {f g : Bool → Parser β} (x : String)
    (h : ∀ b, (b = true → ∃ s, Rest text o (x.toList ++ s)) → Agree text o (f b) (g b) S) :
    Agree text o (startsWith x >>= f) (startsWith x >>= g) S := by
  intro s hs
  refine h (x.toList.isPrefixOf s) (fun hb => ?_) s hs
  obtain ⟨t, rfl⟩ := List.isPrefixOf_iff_prefix.mp hb
  exact ⟨t, hs⟩

theorem moves_spanFrom (start : Nat) : Moves text o (spanFrom start) fun _ o' => o' = o :=
  fun _ hs => ⟨rfl, hs, Nat.le_refl _, rfl⟩

/-! ## Tokens -/

theorem moves_trivia : Moves text o trivia fun _ _ => True :=
  .ahead_bind fun _ _ => (Moves.take _).bind fun _ _ _ _ => .pure True.intro

theorem moves_word : Moves text o word fun _ o' => o < o' := by
  refine .ahead_bind fun s hs => ?_
  cases s with
  | nil => exact .fail
  | cons c s =>
    split
    next => exact .fail
    next n _ => exact (Moves.take_succ hs n).bind fun _ _ _ hlt => .pure hlt

theorem moves_peekWord : Moves text o peekWord fun _ o' => o' = o :=
  .lookahead (moves_trivia.bind fun _ _ _ _ => moves_word.trivial)

theorem moves_keyword (kw : String) : Moves text o (keyword kw) fun _ o' => o < o' := by
  refine moves_trivia.bind fun _ o₁ hle _ => .offset_bind fun hstart => ?_
  refine moves_word.bind fun found o₂ _ hlt => ?_
  split
  next => exact .pure (Nat.lt_of_le_of_lt hle hlt)
  next => exact .failAt hstart kw

theorem moves_acceptKeyword (kw : String) :
    Moves text o (acceptKeyword kw) fun b o' => b = true → o < o' := by
  refine (moves_keyword kw).attempt.bind fun r o₁ _ hr => .pure fun hb => ?_
  obtain ⟨u, rfl⟩ := Option.isSome_iff_exists.mp hb
  exact hr u rfl

theorem moves_literal {s : String} (hs : s ≠ "") : Moves text o (literal s) fun _ o' => o < o' := by
  refine .startsWith_bind s fun b hb => ?_
  split
  next hfound =>
    obtain ⟨t, hrest⟩ := hb hfound
    obtain ⟨c, u, hu⟩ :=
      List.exists_cons_of_ne_nil fun hnil => hs (String.toList_eq_nil_iff.mp hnil)
    rw [hu, List.cons_append] at hrest
    have hlength : s.length = u.length + 1 := by rw [← String.length_toList, hu, List.length_cons]
    rw [hlength]
    exact (Moves.take_succ hrest u.length).bind fun _ _ _ hlt => .pure hlt
  next => exact .fail

theorem moves_symbol {s : String} (hs : s ≠ "") : Moves text o (symbol s) fun _ o' => o < o' :=
  moves_trivia.bind fun _ _ hle _ =>
    (moves_literal hs).mono fun _ _ _ hlt => Nat.lt_of_le_of_lt hle hlt

theorem moves_accept {s : String} (hs : s ≠ "") :
    Moves text o (accept s) fun b o' => b = true → o < o' := by
  refine (moves_symbol hs).attempt.bind fun r o₁ _ hr => .pure fun hb => ?_
  obtain ⟨u, rfl⟩ := Option.isSome_iff_exists.mp hb
  exact hr u rfl

theorem moves_acceptHere {s : String} (hs : s ≠ "") :
    Moves text o (acceptHere s) fun b o' => b = true → o < o' := by
  refine (moves_literal hs).attempt.bind fun r o₁ _ hr => .pure fun hb => ?_
  obtain ⟨u, rfl⟩ := Option.isSome_iff_exists.mp hb
  exact hr u rfl

theorem moves_identifier : Moves text o identifier fun _ o' => o < o' := by
  refine moves_trivia.bind fun _ o₁ hle₁ _ => .offset_bind fun hstart => ?_
  refine (moves_acceptHere (by decide)).bind fun isVerbatim o₂ hle₂ _ => ?_
  refine moves_word.bind fun found o₃ _ hlt => ?_
  split
  next => exact .failAt hstart _
  next =>
    refine (moves_spanFrom _).bind fun span o₄ hle₄ _ => .pure ?_
    exact Nat.lt_of_le_of_lt (Nat.le_trans hle₁ hle₂) (Nat.lt_of_lt_of_le hlt hle₄)

/-! ## Regions -/

theorem moves_delimited (opening closing : Char) :
    Moves text o (delimited opening closing) fun _ o' => o < o' := by
  refine .ahead_bind fun s hs => ?_
  split
  next => exact .fail
  next c s =>
    split
    next =>
      split
      next n _ => exact Moves.take_succ hs (n + 1)
      next => exact .fail
    next => exact .fail

theorem moves_takeUntil (stop : Char → Bool) : Moves text o (takeUntil stop) fun _ _ => True := by
  refine .ahead_bind fun s _ => ?_
  split
  next n _ => exact Moves.take n
  next => exact .fail

/-! ## Names -/

theorem moves_dottedPart? : Moves text o dottedPart? fun r o' => ∀ i, r = some i → o < o' := by
  refine (moves_accept (by decide)).bind fun isDot o₁ _ hdot => ?_
  split
  next hb =>
    refine moves_identifier.bind fun i o₂ _ hlt => .pure fun _ _ => ?_
    exact Nat.lt_trans (hdot hb) hlt
  next => exact .pure fun _ h => nomatch h

theorem moves_dottedTail : Moves text o dottedTail fun _ _ => True :=
  .many fun _ _ => moves_dottedPart?

theorem moves_dottedName : Moves text o dottedName fun _ o' => o < o' :=
  moves_identifier.bind fun _ _ _ hlt =>
    moves_dottedTail.bind fun _ _ hle _ => .pure (Nat.lt_of_lt_of_le hlt hle)

/-! ## What stands before declarations -/

theorem moves_attributeList? :
    Moves text o attributeList? fun r o' => ∀ a, r = some a → o < o' := by
  refine moves_trivia.bind fun _ o₁ hle₁ _ => .nextIs_bind '[' fun b _ => ?_
  split
  next =>
    refine .offset_bind fun _ => (moves_delimited '[' ']').label.bind fun x o₂ _ hlt => ?_
    refine (moves_spanFrom _).bind fun span o₃ hle₃ _ => .pure fun _ _ => ?_
    exact Nat.lt_of_le_of_lt hle₁ (Nat.lt_of_lt_of_le hlt hle₃)
  next => exact .pure fun _ h => nomatch h

theorem moves_attributeLists : Moves text o attributeLists fun _ _ => True :=
  .many fun _ _ => moves_attributeList?

theorem moves_modifier : Moves text o modifier fun _ o' => o < o' := by
  refine .offset_bind fun _ => moves_word.bind fun w o₁ _ hlt => ?_
  split
  next => exact .fail
  next kind _ =>
    refine moves_peekWord.bind fun next o₂ hle _ => ?_
    split
    next => exact .fail
    next =>
      refine (moves_spanFrom _).bind fun span o₃ hle' _ => .pure ?_
      exact Nat.lt_of_lt_of_le hlt (Nat.le_trans hle hle')

theorem moves_modifier? : Moves text o modifier? fun r o' => ∀ m, r = some m → o < o' :=
  moves_trivia.bind fun _ _ hle _ =>
    moves_modifier.attempt.mono fun _ _ _ hr m hm => Nat.lt_of_le_of_lt hle (hr m hm)

theorem moves_modifiers : Moves text o modifiers fun _ _ => True :=
  .many fun _ _ => moves_modifier?

theorem moves_usingOpening : Moves text o usingOpening fun _ o' => o < o' := by
  refine (moves_acceptKeyword "global").bind fun isGlobal o₁ hle _ => ?_
  exact (moves_keyword "using").bind fun _ o₂ _ hlt => .pure (Nat.lt_of_le_of_lt hle hlt)

theorem moves_usingAlias : Moves text o usingAlias fun _ o' => o < o' := by
  refine moves_identifier.bind fun name o₁ _ hlt => ?_
  exact (moves_symbol (by decide)).bind fun _ o₂ hle _ => .pure (Nat.lt_of_lt_of_le hlt hle)

theorem moves_usingDirective? :
    Moves text o usingDirective? fun r o' => ∀ u, r = some u → o < o' := by
  refine moves_trivia.bind fun _ o₁ hle₁ _ => .offset_bind fun _ => ?_
  refine moves_usingOpening.attempt.bind fun opening o₂ _ hopening => ?_
  cases opening with
  | none => exact .pure fun _ h => nomatch h
  | some isGlobal =>
    have hlt := Nat.lt_of_le_of_lt hle₁ (hopening isGlobal rfl)
    refine (moves_acceptKeyword "static").bind fun isStatic o₃ hle₃ _ => ?_
    refine moves_usingAlias.attempt.bind fun aliasName o₄ hle₄ _ => ?_
    refine moves_trivia.bind fun _ o₅ hle₅ _ => ?_
    refine (moves_takeUntil _).label.bind fun name o₆ hle₆ _ => ?_
    refine (moves_symbol (by decide)).bind fun _ o₇ hle₇ _ => ?_
    refine (moves_spanFrom _).bind fun span o₈ hle₈ _ => .pure fun _ _ => ?_
    omega

theorem moves_usingDirectives : Moves text o usingDirectives fun _ _ => True :=
  .many fun _ _ => moves_usingDirective?

end DeclGen.Grammar
