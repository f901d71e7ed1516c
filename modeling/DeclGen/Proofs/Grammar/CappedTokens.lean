import DeclGen.Grammar.Header
import DeclGen.Proofs.Grammar.CappedRegions
import DeclGen.Proofs.Grammar.TokenMoves
import DeclGen.Proofs.Syntax.Bare

/-!
# Tokens in front of a closing brace

Words, identifiers and symbols other than the closing brace are read in both texts or in none, and
say the same. So do names, attribute lists, modifiers and using directives.

## Main statements

* `alike_word`, `alike_identifier`, `alike_symbol`: tokens
* `alike_attributeLists`, `alike_modifiers`, `alike_usingDirectives`: what stands before and between
  declarations
-/

namespace DeclGen.Grammar

open DeclGen.Grammar.Parser DeclGen.Text

variable {α β : Type} {lax : Prop} {p q : Parser α} {V : α → α → Prop}

/-! ## The end of the text -/

/-- A parser that goes forward stays at the end of a text. -/
theorem holds_at_end {R : α → Nat → Prop} {o : Nat} {a : α} {c : Cursor}
    (h : ∀ text, size text = o → Moves text o p R) (hp : p ⟨o, []⟩ = .ok (a, c)) :
    c.rest = [] ∧ R a o := by
  have hsize (n : Nat) : size (List.replicate n 'a') = n := by
    induction n with
    | zero => rfl
    | succ n ih =>
      rw [List.replicate_succ, size_cons, ih, Nat.add_comm]
      rfl
  have hrest : Rest (List.replicate o 'a') o [] := ⟨List.replicate o 'a', by simp, hsize o⟩
  obtain ⟨-, hout⟩ := h _ (hsize o) [] hrest
  rw [hp] at hout
  obtain ⟨hc, hle, hR⟩ := hout
  have hend := hc.isBoundary.le_size
  rw [hsize] at hend
  have heq : c.offset = o := Nat.le_antisymm hend hle
  rw [heq] at hc hR
  exact ⟨hc.eq_of_eq hrest, hR⟩

/-- A parser that goes further does not succeed at the end of a text. -/
theorem not_ok_at_end (h : ∀ text o, size text = o → Moves text o p fun _ o' => o < o') (o : Nat)
    (r : α × Cursor) : p ⟨o, []⟩ ≠ .ok r := by
  intro hp
  exact Nat.lt_irrefl o (holds_at_end (a := r.1) (c := r.2) (fun text => h text o) hp).2

/-- A parser that goes further where it gives an element gives none at the end of a text. -/
theorem not_some_at_end {p : Parser (Option α)}
    (h : ∀ text o, size text = o → Moves text o p fun r o' => ∀ a, r = some a → o < o') (o : Nat)
    (a : α) (c : Cursor) : p ⟨o, []⟩ ≠ .ok (some a, c) :=
  fun hp => Nat.lt_irrefl o ((holds_at_end (fun text => h text o) hp).2 a rfl)

theorem bind_ne_ok_at_end {f : α → Parser β} (h : ∀ o r, p ⟨o, []⟩ ≠ .ok r) (o : Nat)
    (r : β × Cursor) : (p >>= f) ⟨o, []⟩ ≠ .ok r := by
  rw [bind_apply]
  cases hp : p ⟨o, []⟩ with
  | error e => exact nofun
  | ok r' => exact absurd hp (h o r')

/-- Behind the end of a text nothing is said. -/
theorem further_at_end {text : List Char} {o : Nat} (h : size text = o) : Further text o p q := by
  intro o₁ hlt s hs
  have := hs.isBoundary.le_size
  omega

/-! ## Looking ahead -/

theorem eq_of_rel_eq {r r' : Option α} (h : Option.Rel (· = ·) r r') : r = r' := by
  cases h with
  | some h => rw [h]
  | none => rfl

theorem isSome_eq {r r' : Option α} (h : Option.Rel V r r') : r.isSome = r'.isSome := by
  cases h <;> rfl

theorem alike_isSome (h : Alike False p q V) :
    Alike lax (do return (← attempt p).isSome) (do return (← attempt q).isSome) (· = ·) :=
  h.attempt.bind fun _ _ hr => .pure (isSome_eq hr)

theorem alike_nextIs {c : Char} (hc : c ≠ '\n' ∧ c ≠ '}') :
    Alike lax (nextIs c) (nextIs c) (· = ·) :=
  Alike.ahead.bind fun _ _ hst => .pure (hst.head?_beq hc.1 hc.2).symm

/-- Where a character comes next in the first text, it does in the second. -/
theorem Alike.nextIs_bind {f g : Bool → Parser β} {W : β → β → Prop} {c : Char}
    (hc : c ≠ '\n' ∧ c ≠ '}')
    (h : ∀ b s t, Capped s t → (b = true → ∃ u, s = c :: u) → AlikeAt lax s t (f b) (g b) W) :
    Alike lax (nextIs c >>= f) (nextIs c >>= g) W := by
  intro s t hst
  have hat := h (s.head? == some c) s t hst fun hb => List.head?_eq_some_iff.mp (eq_of_beq hb)
  change AlikeAt lax s t (f (s.head? == some c)) (g (t.head? == some c)) W
  rwa [hst.head?_beq hc.1 hc.2]

/-- Neither the line feed nor the brace is a character of the text. -/
def ClearOfCap (x : List Char) : Prop := ∀ c ∈ x, c ≠ '\n' ∧ c ≠ '}'

instance (x : List Char) : Decidable (ClearOfCap x) := List.decidableBAll _ x

theorem isPrefixOf_capped {x s t : List Char} (hx : ClearOfCap x)
    (hst : Capped s t) : x.isPrefixOf t = x.isPrefixOf s := by
  induction x generalizing s t with
  | nil => cases s <;> cases t <;> rfl
  | cons c x ih =>
    obtain ⟨⟨hfeed, hbrace⟩, hx⟩ := List.forall_mem_cons.mp hx
    rcases hst.cases_head with ⟨d, u, rfl, rfl⟩ | ⟨rfl, rfl | rfl⟩
    · rw [List.isPrefixOf_cons_cons, List.isPrefixOf_cons_cons, ih hx (.inside u)]
    · simp [List.isPrefixOf, hfeed]
    · simp [List.isPrefixOf, hbrace]

theorem alike_startsWith {x : String} (hx : ClearOfCap x.toList) :
    Alike lax (startsWith x) (startsWith x) (· = ·) :=
  Alike.ahead.bind fun _ _ hst => .pure (isPrefixOf_capped hx hst).symm

/-! ## Tokens -/

theorem alike_spanFrom {start start' : Nat} :
    Alike lax (spanFrom start) (spanFrom start') fun _ _ => True :=
  .offset_bind fun _ _ => .pure trivial

theorem wordLength_capped {s t : List Char} (hst : Capped s t) : wordLength t = wordLength s := by
  rcases hst.cases_head with ⟨c, u, rfl, rfl⟩ | ⟨rfl, rfl | rfl⟩
  · rw [wordLength, wordLength, takeWhile_cap (by decide)]
  · rfl
  · rfl

theorem wordLength_le (s : List Char) : wordLength s ≤ s.length := by
  cases s with
  | nil => exact Nat.le_refl 0
  | cons c s =>
    rw [wordLength]
    split
    · exact Nat.succ_le_succ (List.takeWhile_sublist _).length_le
    · exact Nat.zero_le _

theorem alike_word : Alike lax word word (· = ·) := by
  refine .ahead_bind fun s t hst => ?_
  rw [wordLength_capped hst]
  have hle := wordLength_le s
  cases hn : wordLength s with
  | zero => exact .fail
  | succ n => exact .take_bind hst (hn ▸ hle) (.pure rfl)

theorem alike_peekWord : Alike lax peekWord peekWord (· = ·) :=
  (Alike.lookahead (alike_trivia.bind fun _ _ _ => alike_word)).mono fun _ _ => eq_of_rel_eq

theorem alike_keyword (kw : String) : Alike lax (keyword kw) (keyword kw) fun _ _ => True := by
  refine alike_trivia.bind fun _ _ _ => .offset_bind fun o o' => alike_word.bind ?_
  rintro found _ rfl
  exact .ite (fun _ => .pure trivial) fun _ => .failAt

theorem alike_acceptKeyword (kw : String) :
    Alike lax (acceptKeyword kw) (acceptKeyword kw) (· = ·) :=
  alike_isSome (alike_keyword kw)

theorem Alike.startsWith_bind {f g : Bool → Parser β} {W : β → β → Prop} {x : String}
    (h : ∀ s t, Capped s t →
      AlikeAt lax s t (f (x.toList.isPrefixOf s)) (g (x.toList.isPrefixOf t)) W) :
    Alike lax (startsWith x >>= f) (startsWith x >>= g) W :=
  fun s t hst o o' => h s t hst o o'

theorem alike_literal {x : String} (hx : ClearOfCap x.toList) :
    Alike lax (literal x) (literal x) fun _ _ => True := by
  refine .startsWith_bind fun s t hst => ?_
  rw [isPrefixOf_capped hx hst]
  cases hfound : x.toList.isPrefixOf s with
  | false => exact .fail
  | true =>
    have hle := (List.isPrefixOf_iff_prefix.mp hfound).length_le
    rw [String.length_toList] at hle
    exact .take_bind hst hle (.pure trivial)

/-- Any text that is found in the first text is found in the second. -/
theorem alike_literal_lax (x : String) :
    Alike True (literal x) (literal x) fun _ _ => True := by
  refine .startsWith_bind fun s t hst => ?_
  cases hfound : x.toList.isPrefixOf s with
  | false => exact fun _ _ => .of_error trivial
  | true =>
    have hle := (List.isPrefixOf_iff_prefix.mp hfound).length_le
    have hfound' : x.toList.isPrefixOf t = true := by
      rw [List.isPrefixOf_iff_prefix, List.prefix_iff_eq_take, hst.take _ hle]
      exact List.prefix_iff_eq_take.mp (List.isPrefixOf_iff_prefix.mp hfound)
    rw [String.length_toList] at hle
    rw [hfound']
    exact .take_bind hst hle (.pure trivial)

theorem alike_symbol_lax (x : String) : Alike True (symbol x) (symbol x) fun _ _ => True :=
  alike_trivia.bind fun _ _ _ => alike_literal_lax x

theorem alike_symbol {x : String} (hx : ClearOfCap x.toList) :
    Alike lax (symbol x) (symbol x) fun _ _ => True :=
  alike_trivia.bind fun _ _ _ => alike_literal hx

theorem alike_accept {x : String} (hx : ClearOfCap x.toList) :
    Alike lax (accept x) (accept x) (· = ·) :=
  alike_isSome (alike_symbol hx)

theorem alike_acceptHere {x : String} (hx : ClearOfCap x.toList) :
    Alike lax (acceptHere x) (acceptHere x) (· = ·) :=
  alike_isSome (alike_literal hx)

theorem alike_identifier : Alike lax identifier identifier (·.bare = ·.bare) := by
  refine alike_trivia.bind fun _ _ _ => .offset_bind fun o o' => ?_
  refine (alike_acceptHere (by decide)).bind ?_
  rintro isVerbatim _ rfl
  refine alike_word.bind ?_
  rintro found _ rfl
  refine .ite (fun _ => .failAt) fun _ => alike_spanFrom.bind fun _ _ _ => .pure ?_
  rfl

/-! ## Names -/

theorem map_eq_of_forall₂ {γ : Type} {key : α → γ} {as bs : List α}
    (h : List.Forall₂ (fun a b => key a = key b) as bs) : as.map key = bs.map key := by
  induction h with
  | nil => rfl
  | cons hab _ ih => rw [List.map_cons, List.map_cons, hab, ih]

theorem map_eq_of_rel {γ : Type} {key : α → γ} {r r' : Option α}
    (h : Option.Rel (fun a b => key a = key b) r r') : r.map key = r'.map key := by
  cases h with
  | some h => rw [Option.map_some, Option.map_some, h]
  | none => rfl

theorem alike_dottedPart? :
    Alike lax dottedPart? dottedPart? (Option.Rel (·.bare = ·.bare)) := by
  refine (alike_accept (by decide)).bind ?_
  rintro isDot _ rfl
  exact .ite (fun _ => alike_identifier.bind fun _ _ h => .pure (.some h)) fun _ => .pure .none

theorem alike_dottedTail :
    Alike lax dottedTail dottedTail fun as bs => as.map (·.bare) = bs.map (·.bare) :=
  (Alike.many alike_dottedPart? fun _ => not_some_at_end fun _ _ _ => moves_dottedPart?).mono
    fun _ _ => map_eq_of_forall₂

theorem alike_dottedName : Alike lax dottedName dottedName (·.bare = ·.bare) := by
  refine alike_identifier.bind fun a b hab => alike_dottedTail.bind fun as bs h => .pure ?_
  rw [DottedName.bare, DottedName.bare]
  simp only [List.map_cons, hab, h]

/-! ## What stands before declarations -/

theorem alike_attributeList? :
    Alike lax attributeList? attributeList? (Option.Rel (·.bare = ·.bare)) := by
  refine alike_trivia.bind fun _ _ _ => (alike_nextIs (by decide)).bind ?_
  rintro isOpen _ rfl
  refine .ite (fun _ => .offset_bind fun o o' => alike_bracketed.label.bind ?_) fun _ => .pure .none
  rintro list _ rfl
  exact alike_spanFrom.bind fun _ _ _ => .pure (.some rfl)

theorem alike_attributeLists :
    Alike lax attributeLists attributeLists fun as bs => as.map (·.bare) = bs.map (·.bare) :=
  (Alike.many alike_attributeList? fun _ => not_some_at_end fun _ _ _ => moves_attributeList?).mono
    fun _ _ => map_eq_of_forall₂

theorem alike_modifier : Alike lax modifier modifier (·.bare = ·.bare) := by
  refine .offset_bind fun o o' => alike_word.bind ?_
  rintro found _ rfl
  cases ModifierKind.ofText? found with
  | none => exact .fail
  | some kind =>
    refine alike_peekWord.bind ?_
    rintro next _ rfl
    exact .ite (fun _ => .fail) fun _ => alike_spanFrom.bind fun _ _ _ => .pure rfl

theorem alike_modifier? : Alike lax modifier? modifier? (Option.Rel (·.bare = ·.bare)) :=
  alike_trivia.bind fun _ _ _ => alike_modifier.attempt

theorem alike_modifiers :
    Alike lax modifiers modifiers fun as bs => as.map (·.bare) = bs.map (·.bare) :=
  (Alike.many alike_modifier? fun _ => not_some_at_end fun _ _ _ => moves_modifier?).mono
    fun _ _ => map_eq_of_forall₂

theorem alike_usingOpening : Alike lax usingOpening usingOpening (· = ·) :=
  (alike_acceptKeyword _).bind fun _ _ h => (alike_keyword _).bind fun _ _ _ => .pure h

theorem alike_usingAlias : Alike lax usingAlias usingAlias (·.bare = ·.bare) :=
  alike_identifier.bind fun _ _ h => (alike_symbol (by decide)).bind fun _ _ _ => .pure h

theorem alike_usingDirective? :
    Alike lax usingDirective? usingDirective? (Option.Rel (·.bare = ·.bare)) := by
  refine alike_trivia.bind fun _ _ _ => .offset_bind fun o o' => alike_usingOpening.attempt.bind ?_
  rintro _ _ (@⟨isGlobal, _, rfl⟩ | _)
  · dsimp only
    refine (alike_acceptKeyword _).bind ?_
    rintro isStatic _ rfl
    refine alike_usingAlias.attempt.bind fun name₁ name₂ hname =>
      alike_trivia.bind fun _ _ _ => ?_
    refine (alike_takeUntil (by decide) fun _ => by decide).label.bind ?_
    rintro name _ rfl
    refine (alike_symbol (by decide)).bind fun _ _ _ => alike_spanFrom.bind fun _ _ _ => .pure ?_
    refine .some ?_
    simp only [UsingDirective.bare, map_eq_of_rel hname]
  · exact .pure .none

theorem alike_usingDirectives :
    Alike lax usingDirectives usingDirectives fun as bs =>
      as.map (·.bare) = bs.map (·.bare) := by
  refine (Alike.many alike_usingDirective? fun _ => ?_).mono fun _ _ => map_eq_of_forall₂
  exact not_some_at_end fun _ _ _ => moves_usingDirective?

end DeclGen.Grammar
