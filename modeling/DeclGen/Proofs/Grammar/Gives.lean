import DeclGen.Proofs.Grammar.Tokens
import DeclGen.Proofs.Grammar.Yields

/-!
# What parsers give if they succeed

What a parser does with a text, when it is not known beforehand whether it succeeds: the property it
establishes is one of its value and of the text it leaves together, and a failure establishes any.
So a parser that gives only what is impossible is one that fails.

## Main definitions

* `Gives`: what holds of the value and of what is left, if there is a value
-/

namespace DeclGen.Grammar

open DeclGen.Grammar.Parser

variable {α β ι : Type}

/-- If the parser gives a value on the text `s`, wherever it stands, `Q` holds of the value and of
the text that is left. -/
def Gives (p : Parser α) (s : List Char) (Q : α → List Char → Prop) : Prop :=
  ∀ o a c, p ⟨o, s⟩ = .ok (a, c) → Q a c.rest

namespace Gives

variable {p : Parser α} {f : α → Parser β} {s t : List Char} {P Q : α → List Char → Prop}
  {R : β → List Char → Prop}

theorem mono (h : Gives p s P) (hPQ : ∀ a t, P a t → Q a t) : Gives p s Q :=
  fun o a c hp => hPQ a c.rest (h o a c hp)

theorem of_reads {S : α → Prop} (h : Reads p s t S) (hQ : ∀ a, S a → Q a t) : Gives p s Q := by
  intro o a c hp
  obtain ⟨b, o', hb, hS⟩ := h o
  rw [hb] at hp
  cases hp
  exact hQ _ hS

theorem of_fails (h : Fails p s) : Gives p s Q := by
  intro o a c hp
  obtain ⟨e, he⟩ := h o
  rw [he] at hp
  cases hp

/-- What is impossible is not given. -/
theorem fails (h : Gives p s fun _ _ => False) : Fails p s := by
  intro o
  cases hp : p ⟨o, s⟩ with
  | error e => exact ⟨e, rfl⟩
  | ok r => exact (h o r.1 r.2 hp).elim

theorem of_yields {S : α → Prop} (h : Yields p S) : Gives p s fun a _ => S a :=
  fun o a c hp => h ⟨o, s⟩ a c hp

theorem pure {a : α} (h : Q a s) : Gives (pure a) s Q := by
  rintro o _ _ ⟨⟩
  exact h

theorem bind (hp : Gives p s P) (hf : ∀ a t, P a t → Gives (f a) t R) : Gives (p >>= f) s R := by
  intro o b c h
  rw [bind_apply] at h
  split at h
  next a c₁ hpo => exact hf a c₁.rest (hp o a c₁ hpo) c₁.offset b c h
  next => cases h

/-- A first step that is known to stop at `t`. -/
theorem bind_reads {S : α → Prop} (hp : Reads p s t S) (hf : ∀ a, S a → Gives (f a) t R) :
    Gives (p >>= f) s R := by
  refine (of_reads (Q := fun a u => S a ∧ u = t) hp fun a ha => ⟨ha, rfl⟩).bind ?_
  rintro a u ⟨ha, rfl⟩
  exact hf a ha

theorem offset_bind {f : Nat → Parser β} (hf : ∀ o, Gives (f o) s R) :
    Gives (offset >>= f) s R :=
  fun o => hf o o

theorem ahead_bind {f : List Char → Parser β} (hf : Gives (f s) s R) : Gives (ahead >>= f) s R :=
  fun o => hf o

/-- Whichever alternative gives the value, it started from the same text. -/
theorem orElse {q : Parser α} (hp : Gives p s Q) (hq : Gives q s Q) : Gives (orElse p q) s Q := by
  intro o a c h
  rw [Parser.orElse] at h
  split at h
  next r hr =>
    cases h
    exact hp o a c hr
  next =>
    split at h
    next r hr =>
      cases h
      exact hq o a c hr
    next => cases h

/-- The text that was read comes with the value. -/
theorem withText {S : List Char → Prop} (h : Gives p s fun _ t => ∃ x, s = x ++ t ∧ S x) :
    Gives (withText p) s fun r _ => S r.2 := by
  intro o r c hr
  rw [Parser.withText] at hr
  split at hr
  next a c₁ ha =>
    cases hr
    obtain ⟨x, hx, hS⟩ := h o a c ha
    have htake : s.take (s.length - c.rest.length) = x := by simp [hx]
    simpa only [htake] using hS
  next => cases hr

theorem of_stops {f : Unit → Parser α} (hs : Stops s) (h : Gives (f ()) s Q) :
    Gives (trivia >>= f) s Q :=
  bind_reads (reads_trivia .nil hs) fun _ _ => h

/-! ### Repetition and recursion -/

/-- What a round has to give so that `R` holds of the repetition that it starts. -/
def OfRound (R : List Char → List α → List Char → Prop) (s : List Char) :
    Round α → List Char → Prop
  | .stop, t => R s [] t
  | .last _, _ => False
  | .more a, t => ∀ as u, R t as u → R s (a :: as) u

/-- What one more element has to give so that `R` holds of the repetition. -/
theorem many {p : Parser (Option α)} {R : List Char → List α → List Char → Prop}
    (h : ∀ s, Gives p s fun r t => match r with
      | none => R s [] t
      | some a => ∀ as u, R t as u → R s (a :: as) u) (s : List Char) :
    Gives (many p) s (R s) := by
  have hround (s : List Char) : Gives (manyRound p) s (OfRound R s) := by
    refine (h s).bind fun r t hr => ?_
    cases r with
    | none => exact pure hr
    | some a => exact pure hr
  have hall : ∀ c as c', rounds (manyRound p) c = .ok (as, c') → R c.rest as c'.rest := by
    intro c
    fun_induction rounds (manyRound p) c with
    | case1 c e he =>
      rintro as c' ⟨⟩
    | case2 c c' hstop =>
      rintro as c'' ⟨⟩
      exact hround c.rest c.offset _ _ hstop
    | case3 c a c' hlast => exact (hround c.rest c.offset _ _ hlast).elim
    | case4 c a c' hmore hlt as c'' hrest ih =>
      rintro _ _ ⟨⟩
      exact hround c.rest c.offset _ _ hmore as c''.rest (ih as c'' hrest)
    | case5 c a c' hmore hlt e he ih =>
      rintro as c' ⟨⟩
    | case6 c a c' hmore hlt =>
      rintro as c'' ⟨⟩
  exact fun o as c' hmany => hall ⟨o, s⟩ as c' hmany

/-- No separator comes behind the first element. -/
theorem sepBy_one {sep : Parser Bool} (h : Gives p s fun _ t => Reads sep t t (· = false)) :
    Gives (sepBy p sep) s fun as _ => ∃ a, as = [a] := by
  have hround : Gives (sepByRound p sep) s fun r _ => ∃ a, r = .last a := by
    refine h.bind fun a t hsep => bind_reads hsep ?_
    rintro _ rfl
    exact pure ⟨a, rfl⟩
  intro o as c hs
  rw [sepBy, rounds] at hs
  split at hs
  next => cases hs
  next heq =>
    obtain ⟨a, hr⟩ := hround o _ _ heq
    cases hr
  next =>
    cases hs
    exact ⟨_, rfl⟩
  next heq =>
    obtain ⟨a, hr⟩ := hround o _ _ heq
    cases hr

section

variable {step : (ι → Parser α) → ι → Parser α} {i : ι}

theorem selfBelow {n : Nat} (h : Gives (fix step i) s Q) :
    Gives (Grammar.selfBelow step n i) s Q := by
  intro o a c hp
  rw [Grammar.selfBelow] at hp
  split at hp
  next => exact h o a c hp
  next => cases hp

theorem fix (h : Gives (step (Grammar.selfBelow step s.length) i) s Q) :
    Gives (Parser.fix step i) s Q := by
  intro o a c hp
  rw [Parser.fix] at hp
  exact h o a c hp

/-- A parser that calls itself gives what each of its steps gives if the calls do. -/
theorem fix_of_forall {R : ι → α → List Char → Prop}
    (h : ∀ self, (∀ i s, Gives (self i) s (R i)) → ∀ i s, Gives (step self i) s (R i)) (i : ι)
    (s : List Char) : Gives (Parser.fix step i) s (R i) := by
  have hall : ∀ n i s, s.length < n → Gives (Parser.fix step i) s (R i) := by
    intro n
    induction n with
    | zero =>
      intro i s hn
      omega
    | succ n ih =>
      intro i s hn
      refine fix (h _ (fun j t o a c hp => ?_) i s)
      rw [Grammar.selfBelow] at hp
      split at hp
      next hlt => exact ih j t (Nat.lt_of_lt_of_le hlt (Nat.le_of_lt_succ hn)) o a c hp
      next => cases hp
  exact hall _ i s (Nat.lt_succ_self _)

end

end Gives

/-- What holds of every value wherever the text stands is yielded. -/
theorem Yields.of_gives {p : Parser α} {P : α → Prop} (h : ∀ s, Gives p s fun a _ => P a) :
    Yields p P :=
  fun c a c' hp => h c.rest c.offset a c' hp

end DeclGen.Grammar
