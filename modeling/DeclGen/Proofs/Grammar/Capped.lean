import DeclGen.Proofs.Grammar.Moves
import Mathlib.Data.List.Forall2
import Mathlib.Data.Option.Defs

/-!
# Reading in front of a closing brace

A text is read twice: as it is, up to its end, and with a line feed and a closing brace behind it.
Most parsers do not notice. Where the first reading finds the end of the text, the second finds a
line feed or, once blanks were skipped, the brace, and neither of them goes on with anything. So
both readings succeed with values that say the same, or both fail.

Parsers of which the failure is caught have to fail together. Others may fail at the end of the text
and succeed at the brace.

## Main definitions

* `Capped`: what is left of the two texts
* `Alike`: two parsers do the same in the two texts

## Main statements

* `Alike.bind`, `Alike.attempt`, `Alike.rounds`, `Alike.fix`: one rule for each way of putting
  parsers together
-/

namespace DeclGen.Grammar

open DeclGen.Grammar.Parser DeclGen.Text

variable {α β ι : Type} {lax : Prop} {s t : List Char}

/-- The second text is the first with a line feed and a closing brace behind it, or the first has
ended and the brace is left of the second. -/
inductive Capped : List Char → List Char → Prop where
  | inside (s : List Char) : Capped s (s ++ ['\n', '}'])
  | atEnd : Capped [] ['}']

namespace Capped

/-- Either a character is left of both texts, or the first has ended. -/
theorem cases_head (h : Capped s t) :
    (∃ c s', s = c :: s' ∧ t = c :: (s' ++ ['\n', '}'])) ∨
      (s = [] ∧ (t = ['\n', '}'] ∨ t = ['}'])) := by
  cases h with
  | inside s =>
    cases s with
    | nil => exact .inr ⟨rfl, .inl rfl⟩
    | cons c s => exact .inl ⟨c, s, rfl, rfl⟩
  | atEnd => exact .inr ⟨rfl, .inr rfl⟩

theorem eq_of_nil (h : Capped [] t) : t = ['\n', '}'] ∨ t = ['}'] := by
  cases h with
  | inside => exact .inl rfl
  | atEnd => exact .inr rfl

/-- Where all that stands behind the first text is left of the second, the first has ended. -/
theorem eq_nil_of_both (h : Capped s ['\n', '}']) : s = [] := by
  generalize ht : ['\n', '}'] = t at h
  cases h with
  | inside s =>
    have hlength := congrArg List.length ht
    rw [List.length_append] at hlength
    exact List.eq_nil_of_length_eq_zero (Nat.right_eq_add.mp hlength)
  | atEnd => rfl

/-- As long as the first text has not ended, less is left of it exactly if less is left of the
second. -/
theorem length_lt_iff (h : Capped s t) (hs : s ≠ []) {s' t' : List Char} (h' : Capped s' t') :
    t'.length < t.length ↔ s'.length < s.length := by
  have hpos := List.length_pos_iff.mpr hs
  cases h with
  | atEnd => exact absurd rfl hs
  | inside s =>
    cases h' with
    | inside s' => simp
    | atEnd => simp [hpos]

/-- Where less is left of the second text though the first had ended, the brace is left. -/
theorem eq_of_length_lt {t' s' : List Char} (h : Capped [] t) (h' : Capped s' t')
    (hlt : t'.length < t.length) : s' = [] := by
  cases h' with
  | atEnd => rfl
  | inside s' =>
    cases h with
    | inside =>
      rw [List.length_append, List.nil_append] at hlt
      exact absurd hlt (Nat.not_lt.mpr (Nat.le_add_left _ _))
    | atEnd => simp at hlt

theorem drop (n : Nat) (h : Capped s t) (hn : n ≤ s.length) : Capped (s.drop n) (t.drop n) := by
  cases h with
  | inside s =>
    rw [List.drop_append_of_le_length hn]
    exact .inside _
  | atEnd =>
    obtain rfl : n = 0 := Nat.le_zero.mp hn
    exact .atEnd

theorem take (n : Nat) (h : Capped s t) (hn : n ≤ s.length) : t.take n = s.take n := by
  cases h with
  | inside s => exact List.take_append_of_le_length hn
  | atEnd =>
    obtain rfl : n = 0 := Nat.le_zero.mp hn
    rfl

end Capped

/-- How the results of the two readings belong together: the values are related by `V`, or there
are none. If `lax`, the second reading may succeed where the first fails. -/
inductive Matches (lax : Prop) (V : α → α → Prop) :
    Except SyntaxError (α × Cursor) → Except SyntaxError (α × Cursor) → Prop where
  | ok {a b : α} {c d : Cursor} (h : V a b) (hcd : Capped c.rest d.rest) :
    Matches lax V (.ok (a, c)) (.ok (b, d))
  | error {e e' : SyntaxError} : Matches lax V (.error e) (.error e')
  | late {e : SyntaxError} {r : α × Cursor} (h : lax) : Matches lax V (.error e) (.ok r)

/-- Where `s` is left of the first text and `t` of the second, the two parsers do the same: they
give values related by `V`, or both fail. If `lax`, the second need not fail. -/
def AlikeAt (lax : Prop) (s t : List Char) (p q : Parser α) (V : α → α → Prop) : Prop :=
  ∀ o o', Matches lax V (p ⟨o, s⟩) (q ⟨o', t⟩)

/-- The two parsers do the same wherever the two texts are read. -/
def Alike (lax : Prop) (p q : Parser α) (V : α → α → Prop) : Prop :=
  ∀ s t, Capped s t → AlikeAt lax s t p q V

/-- The rounds of two repetitions go on in the same way. -/
inductive Round.Rel (V : α → α → Prop) : Round α → Round α → Prop where
  | stop : Rel V .stop .stop
  | last {a b : α} (h : V a b) : Rel V (.last a) (.last b)
  | more {a b : α} (h : V a b) : Rel V (.more a) (.more b)

variable {p q : Parser α} {f g : α → Parser β} {V V' : α → α → Prop} {W : β → β → Prop}

namespace Matches

variable {r r' : Except SyntaxError (α × Cursor)}

theorem mono (h : Matches lax V r r') (hV : ∀ a b, V a b → V' a b) : Matches lax V' r r' := by
  cases h with
  | ok h hcd => exact .ok (hV _ _ h) hcd
  | error => exact .error
  | late h => exact .late h

theorem loosen (h : Matches False V r r') : Matches lax V r r' := by
  cases h with
  | ok h hcd => exact .ok h hcd
  | error => exact .error
  | late h => exact h.elim

theorem of_error {e : SyntaxError} (h : lax) : Matches lax V (.error e) r' := by
  cases r' with
  | error e' => exact .error
  | ok r' => exact .late h

/-- What the first reading gives, the second does too. -/
theorem exists_of_ok {a : α} {c : Cursor} (h : Matches lax V r r') (hr : r = .ok (a, c)) :
    ∃ b d, r' = .ok (b, d) ∧ V a b ∧ Capped c.rest d.rest := by
  subst hr
  cases h with
  | ok h hcd => exact ⟨_, _, rfl, h, hcd⟩

/-- Both readings go on behind what they give. -/
theorem bind {c d : Cursor} (h : Matches lax V (p c) (q d))
    (hf : ∀ a b c' d', p c = .ok (a, c') → V a b → Capped c'.rest d'.rest →
      Matches lax W (f a c') (g b d')) :
    Matches lax W ((p >>= f) c) ((q >>= g) d) := by
  rw [bind_apply, bind_apply]
  generalize p c = r at h hf ⊢
  generalize q d = r' at h ⊢
  cases h with
  | ok h hcd => exact hf _ _ _ _ rfl h hcd
  | error => exact .error
  | late h => exact .of_error h

end Matches

/-! ## Putting parsers together -/

namespace AlikeAt

theorem mono (h : AlikeAt lax s t p q V) (hV : ∀ a b, V a b → V' a b) :
    AlikeAt lax s t p q V' :=
  fun o o' => (h o o').mono hV

theorem pure {a b : α} (hst : Capped s t) (h : V a b) :
    AlikeAt lax s t (pure a) (pure b) V :=
  fun _ _ => .ok h hst

theorem fail : AlikeAt lax s t (fail : Parser α) fail V := fun _ _ => .error

theorem bind (hp : AlikeAt lax s t p q V) (hf : ∀ a b, V a b → Alike lax (f a) (g b) W) :
    AlikeAt lax s t (p >>= f) (q >>= g) W :=
  fun o o' => (hp o o').bind fun a b c d _ h hcd => hf a b h c.rest d.rest hcd c.offset d.offset

/-- Reading as many characters as are left of the first text at least. -/
theorem take (hst : Capped s t) {n : Nat} (hn : n ≤ s.length) :
    AlikeAt lax s t (Parser.take n) (Parser.take n) (· = ·) :=
  fun _ _ => .ok (hst.take n hn).symm (hst.drop n hn)

theorem take_bind {f g : List Char → Parser β} (hst : Capped s t) {n : Nat} (hn : n ≤ s.length)
    (h : Alike lax (f (s.take n)) (g (s.take n)) W) :
    AlikeAt lax s t (Parser.take n >>= f) (Parser.take n >>= g) W := by
  intro o o'
  rw [bind_apply, bind_apply]
  simp only [Parser.take, hst.take n hn]
  exact h _ _ (hst.drop n hn) _ _

theorem attempt (h : AlikeAt False s t p q V) (hst : Capped s t) :
    AlikeAt lax s t (attempt p) (attempt q) (Option.Rel V) := by
  intro o o'
  have hpq := h o o'
  rw [Parser.attempt, Parser.attempt]
  generalize p ⟨o, s⟩ = r at hpq ⊢
  generalize q ⟨o', t⟩ = r' at hpq ⊢
  cases hpq with
  | ok h hcd => exact .ok (.some h) hcd
  | error => exact .ok .none hst
  | late h => exact h.elim

/-- Behind a look ahead the texts are where they were. -/
theorem lookahead_bind {f g : Option α → Parser β} (h : AlikeAt False s t p q V)
    (hf : ∀ r r', Option.Rel V r r' → AlikeAt lax s t (f r) (g r') W) :
    AlikeAt lax s t (lookahead p >>= f) (lookahead q >>= g) W := by
  intro o o'
  have hpq := h o o'
  rw [bind_apply, bind_apply, Parser.lookahead, Parser.lookahead]
  generalize p ⟨o, s⟩ = r at hpq ⊢
  generalize q ⟨o', t⟩ = r' at hpq ⊢
  cases hpq with
  | ok h _ => exact hf _ _ (.some h) o o'
  | error => exact hf _ _ .none o o'
  | late h => exact h.elim

end AlikeAt

/-- Where the parser ends, what is left satisfies `N`. -/
def Leaves (p : Parser α) (N : List Char → Prop) : Prop := ∀ c a c', p c = .ok (a, c') → N c'.rest

theorem Leaves.label {N : List Char → Prop} {what : String} (h : Leaves p N) :
    Leaves (label what p) N := by
  intro c a c' hl
  rw [Parser.label] at hl
  split at hl
  next r hr =>
    cases hl
    exact h c a c' hr
  next => cases hl

/-- A repetition ends where no further element is found. -/
theorem Leaves.many {p : Parser (Option α)} {N : List Char → Prop}
    (h : ∀ c c', p c = .ok (none, c') → N c'.rest) : Leaves (many p) N := by
  have hround (c : Cursor) (r : Round α) (c' : Cursor) (hr : manyRound p c = .ok (r, c')) :
      (r = .stop ∧ N c'.rest) ∨ ∃ a, r = .more a := by
    rw [manyRound, bind_apply] at hr
    split at hr
    next a c₁ ha =>
      cases a with
      | none =>
        cases hr
        exact .inl ⟨rfl, h _ _ ha⟩
      | some a =>
        cases hr
        exact .inr ⟨a, rfl⟩
    next => cases hr
  intro c
  rw [Parser.many]
  fun_induction Parser.rounds (manyRound p) c with
  | case1 => rintro _ _ ⟨⟩
  | case2 c c' hr =>
    rintro as c'' ⟨⟩
    rcases hround _ _ _ hr with ⟨-, hN⟩ | ⟨a, ha⟩
    · exact hN
    · cases ha
  | case3 c a c' hr =>
    rcases hround _ _ _ hr with ⟨ha, -⟩ | ⟨b, hb⟩
    · cases ha
    · cases hb
  | case4 c a c' hr hlt as c'' hrest ih =>
    rintro _ _ ⟨⟩
    exact ih as c'' hrest
  | case5 => rintro _ _ ⟨⟩
  | case6 => rintro _ _ ⟨⟩

namespace Alike

theorem mono (h : Alike lax p q V) (hV : ∀ a b, V a b → V' a b) : Alike lax p q V' :=
  fun s t hst => (h s t hst).mono hV

theorem loosen (h : Alike False p q V) : Alike lax p q V :=
  fun s t hst o o' => (h s t hst o o').loosen

theorem pure {a b : α} (h : V a b) : Alike lax (pure a) (pure b) V :=
  fun _ _ hst => .pure hst h

theorem fail : Alike lax (fail : Parser α) fail V := fun _ _ _ => .fail

theorem failAt {o o' : Nat} {what what' : String} :
    Alike lax (failAt o what : Parser α) (failAt o' what') V :=
  fun _ _ _ _ _ => .error

theorem bind (hp : Alike lax p q V) (hf : ∀ a b, V a b → Alike lax (f a) (g b) W) :
    Alike lax (p >>= f) (q >>= g) W :=
  fun s t hst => (hp s t hst).bind hf

/-- What comes next starts where the first parser leaves a text that satisfies `N`. -/
theorem bind_leaves {N : List Char → Prop} (hp : Alike lax p q V) (hN : Leaves p N)
    (hf : ∀ a b, V a b → ∀ s t, N s → Capped s t → AlikeAt lax s t (f a) (g b) W) :
    Alike lax (p >>= f) (q >>= g) W :=
  fun s t hst o o' => (hp s t hst o o').bind fun a b c d hr h hcd =>
    hf a b h c.rest d.rest (hN _ _ _ hr) hcd c.offset d.offset

theorem offset_bind {f g : Nat → Parser β} (h : ∀ o o', Alike lax (f o) (g o') W) :
    Alike lax (Parser.offset >>= f) (Parser.offset >>= g) W :=
  fun s t hst o o' => h o o' s t hst o o'

theorem place_bind {f g : Cursor → Parser β} (h : ∀ c d, Alike lax (f c) (g d) W) :
    Alike lax (Parser.place >>= f) (Parser.place >>= g) W :=
  fun s t hst o o' => h ⟨o, s⟩ ⟨o', t⟩ s t hst o o'

theorem ahead_bind {f g : List Char → Parser β}
    (h : ∀ s t, Capped s t → AlikeAt lax s t (f s) (g t) W) :
    Alike lax (Parser.ahead >>= f) (Parser.ahead >>= g) W :=
  fun s t hst o o' => h s t hst o o'

theorem ahead : Alike lax ahead ahead Capped := fun _ _ hst _ _ => .ok hst hst

theorem ite {p' q' : Parser α} {b : Bool} (hp : b = true → Alike lax p q V)
    (hp' : b = false → Alike lax p' q' V) :
    Alike lax (if b then p else p') (if b then q else q') V := by
  cases b with
  | true => exact hp rfl
  | false => exact hp' rfl

/-- Two alternatives that go on in the same way. -/
theorem ite_bind {p' q' : Parser α} {b : Bool}
    (h : Alike lax (if b then p else p') (if b then q else q') V)
    (hf : ∀ a b, V a b → Alike lax (f a) (g b) W) :
    Alike lax (if b then p >>= f else p' >>= f) (if b then q >>= g else q' >>= g) W := by
  cases b with
  | false => exact h.bind hf
  | true => exact h.bind hf

theorem label {what what' : String} (h : Alike lax p q V) :
    Alike lax (label what p) (label what' q) V := by
  intro s t hst o o'
  have hpq := h s t hst o o'
  rw [Parser.label, Parser.label]
  generalize p ⟨o, s⟩ = r at hpq ⊢
  generalize q ⟨o', t⟩ = r' at hpq ⊢
  cases hpq with
  | ok h hcd => exact .ok h hcd
  | error => exact .error
  | late h => exact .late h

theorem attempt (h : Alike False p q V) : Alike lax (attempt p) (attempt q) (Option.Rel V) :=
  fun s t hst => (h s t hst).attempt hst

/-- Whether the parser fails shows in the result, so it has to fail on the same texts. -/
theorem lookahead (h : Alike False p q V) :
    Alike lax (lookahead p) (lookahead q) (Option.Rel V) := by
  intro s t hst o o'
  have hpq := h s t hst o o'
  rw [Parser.lookahead, Parser.lookahead]
  generalize p ⟨o, s⟩ = r at hpq ⊢
  generalize q ⟨o', t⟩ = r' at hpq ⊢
  cases hpq with
  | ok h _ => exact .ok (.some h) hst
  | error => exact .ok .none hst
  | late h => exact h.elim

/-- Where the first alternative fails, it fails in both texts, so both go on with the second. -/
theorem orElse {p' q' : Parser α} (hp : Alike False p q V) (hq : Alike lax p' q' V) :
    Alike lax (orElse p p') (orElse q q') V := by
  intro s t hst o o'
  have hpq := hp s t hst o o'
  have hpq' := hq s t hst o o'
  rw [Parser.orElse, Parser.orElse]
  generalize p ⟨o, s⟩ = r at hpq ⊢
  generalize q ⟨o', t⟩ = r' at hpq ⊢
  cases hpq with
  | ok h hcd => exact .ok h hcd
  | late h => exact h.elim
  | error =>
    dsimp only
    generalize p' ⟨o, s⟩ = r at hpq' ⊢
    generalize q' ⟨o', t⟩ = r' at hpq' ⊢
    cases hpq' with
    | ok h hcd => exact .ok h hcd
    | error => exact .error
    | late h => exact .late h

/-- The characters read are the same, but for a line feed at the end of the text. -/
theorem withText (h : Alike lax p q V) : Alike lax (withText p) (withText q) fun a b =>
    V a.1 b.1 ∧ (b.2 = a.2 ∨ b.2 = a.2 ++ ['\n']) := by
  intro s t hst o o'
  have hpq := h s t hst o o'
  rw [Parser.withText, Parser.withText]
  generalize p ⟨o, s⟩ = r at hpq ⊢
  generalize q ⟨o', t⟩ = r' at hpq ⊢
  cases hpq with
  | error => exact .error
  | late h => exact .late h
  | @ok a b c d hV hcd =>
    refine .ok ⟨hV, ?_⟩ hcd
    dsimp only
    generalize c.rest = u at hcd
    generalize d.rest = v at hcd
    cases hst with
    | inside s =>
      cases hcd with
      | inside u =>
        left
        rw [List.length_append, List.length_append, Nat.add_sub_add_right]
        exact List.take_append_of_le_length (Nat.sub_le _ _)
      | atEnd =>
        right
        simp [List.take_append, List.take_of_length_le]
    | atEnd =>
      left
      cases hcd <;> simp

/-! ## Repetition and recursion -/

/-- A repetition, in which no round goes on behind the end of the text if failures have to match. -/
theorem rounds {p q : Parser (Round α)} (h : Alike lax p q (Round.Rel V))
    (hend : ¬ lax → ∀ o a c, p ⟨o, []⟩ ≠ .ok (.more a, c)) :
    Alike lax (rounds p) (rounds q) (List.Forall₂ V) := by
  intro s t hst o o'
  induction hn : s.length using Nat.strongRecOn generalizing s t o o' with
  | ind n ih =>
    have hpq := h s t hst o o'
    rw [Parser.rounds, Parser.rounds]
    generalize hr : p ⟨o, s⟩ = r at hpq ⊢
    generalize q ⟨o', t⟩ = r' at hpq ⊢
    cases hpq with
    | error => exact .error
    | late h => exact .of_error h
    | @ok a b c d hab hcd =>
      cases hab with
      | stop => exact .ok .nil hcd
      | last hab => exact .ok (.cons hab .nil) hcd
      | @more a b hab =>
        by_cases hs : s = []
        · subst hs
          by_cases hlax : lax
          · dsimp only
            simp only [List.length_nil, Nat.not_lt_zero, if_false]
            exact .of_error hlax
          · exact absurd hr (hend hlax o a c)
        dsimp only
        by_cases hlt : c.rest.length < s.length
        · rw [if_pos hlt, if_pos ((hst.length_lt_iff hs hcd).mpr hlt)]
          have hrest := ih c.rest.length (hn ▸ hlt) c.rest d.rest hcd c.offset d.offset rfl
          change Matches lax _ (Parser.rounds p c) (Parser.rounds q d) at hrest
          generalize Parser.rounds p c = r at hrest ⊢
          generalize Parser.rounds q d = r' at hrest ⊢
          cases hrest with
          | ok h hcd => exact .ok (.cons hab h) hcd
          | error => exact .error
          | late h => exact .of_error h
        · rw [if_neg hlt, if_neg fun h => hlt ((hst.length_lt_iff hs hcd).mp h)]
          exact .error

theorem many {p q : Parser (Option α)} (h : Alike lax p q (Option.Rel V))
    (hend : ¬ lax → ∀ o a c, p ⟨o, []⟩ ≠ .ok (some a, c)) :
    Alike lax (many p) (many q) (List.Forall₂ V) := by
  refine rounds (h.bind ?_) fun hlax o a c hround => ?_
  · rintro _ _ (hab | _)
    · exact .pure (.more hab)
    · exact .pure .stop
  · rw [manyRound, bind_apply] at hround
    split at hround
    next r c' hr =>
      cases r with
      | none => cases hround
      | some b =>
        cases hround
        exact hend hlax o a c hr
    next => cases hround

theorem sepBy {sep sep' : Parser Bool} (h : Alike lax p q V) (hsep : Alike lax sep sep' (· = ·))
    (hend : ¬ lax → ∀ o a c, p ⟨o, []⟩ ≠ .ok (a, c)) :
    Alike lax (sepBy p sep) (sepBy q sep') (List.Forall₂ V) := by
  refine rounds (h.bind fun a b hab => hsep.bind ?_) fun hlax o a c hround => ?_
  · rintro isMore _ rfl
    cases isMore with
    | false => exact .pure (.last hab)
    | true => exact .pure (.more hab)
  · rw [sepByRound, bind_apply] at hround
    split at hround
    next b c' hr => exact hend hlax o b c' hr
    next => cases hround

/-- Parsers that call themselves, and fail at the end of the text if failures have to match. -/
theorem fix {step step' : (ι → Parser α) → ι → Parser α} {V : ι → α → α → Prop}
    (h : ∀ self self', (∀ j, Alike lax (self j) (self' j) (V j)) →
      (¬ lax → ∀ j o r, self j ⟨o, []⟩ ≠ .ok r) →
      ∀ i, Alike lax (step self i) (step' self' i) (V i))
    (hend : ¬ lax → ∀ i o r, fix step i ⟨o, []⟩ ≠ .ok r) (i : ι) :
    Alike lax (fix step i) (fix step' i) (V i) := by
  intro s t hst o o'
  induction hn : t.length using Nat.strongRecOn generalizing s t o o' i with
  | ind n ih =>
    rw [Parser.fix, Parser.fix]
    have hselfEnd (hlax : ¬ lax) (j : ι) (o₁ : Nat) (r : α × Cursor) :
        (if ([] : List Char).length < s.length then Parser.fix step j ⟨o₁, []⟩
          else .error ⟨o₁, []⟩) ≠ .ok r := by
      split
      · exact hend hlax j o₁ r
      · rintro ⟨⟩
    refine h _ _ (fun j u v huv o₁ o₂ => ?_) hselfEnd i s t hst o o'
    dsimp only
    by_cases hlt : v.length < t.length
    · rw [if_pos hlt]
      have hinner := ih v.length (hn ▸ hlt) j u v huv o₁ o₂ rfl
      by_cases hlt' : u.length < s.length
      · rw [if_pos hlt']
        exact hinner
      -- The first reading has ended, so what it would find there is an error.
      have hs : s = [] := Decidable.byContradiction fun hs =>
        hlt' ((hst.length_lt_iff hs huv).mp hlt)
      subst hs
      obtain rfl := hst.eq_of_length_lt huv hlt
      rw [if_neg hlt']
      by_cases hlax : lax
      · exact .of_error hlax
      · generalize hr : Parser.fix step j ⟨o₁, []⟩ = r at hinner ⊢
        generalize Parser.fix step' j ⟨o₂, v⟩ = r' at hinner ⊢
        cases hinner with
        | ok => exact absurd hr (hend hlax j o₁ _)
        | error => exact .error
        | late h => exact absurd h hlax
    · rw [if_neg hlt, if_neg]
      · exact .error
      · intro hlt'
        by_cases hs : s = []
        · subst hs
          exact Nat.not_lt_zero _ hlt'
        · exact hlt ((hst.length_lt_iff hs huv).mpr hlt')

end Alike

end DeclGen.Grammar
