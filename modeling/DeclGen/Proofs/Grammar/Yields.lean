import DeclGen.Grammar.Parser

/-!
# What parsers yield

A property that every value of a parser has, whatever it is read from. There is a rule for each way
of putting parsers together.

## Main definitions

* `Yields`: every value that the parser gives has the property
-/

namespace DeclGen.Grammar

open DeclGen.Grammar.Parser

variable {α β ι : Type}

/-- Every value that the parser gives satisfies `P`. -/
def Yields (p : Parser α) (P : α → Prop) : Prop := ∀ c a c', p c = .ok (a, c') → P a

namespace Yields

variable {p : Parser α} {f : α → Parser β} {P P' : α → Prop} {Q : β → Prop}

theorem of_forall (h : ∀ a, P a) : Yields p P := fun _ a _ _ => h a

theorem mono (hp : Yields p P) (h : ∀ a, P a → P' a) : Yields p P' :=
  fun c a c' hc => h a (hp c a c' hc)

theorem pure {a : α} (h : P a) : Yields (pure a) P := by
  rintro c _ _ ⟨⟩
  exact h

theorem fail : Yields (fail : Parser α) P := by
  rintro c a c' ⟨⟩

theorem failAt (o : Nat) (what : String) : Yields (failAt o what : Parser α) P := by
  rintro c a c' ⟨⟩

theorem bind (hp : Yields p P) (hf : ∀ a, P a → Yields (f a) Q) : Yields (p >>= f) Q := by
  intro c b c' h
  rw [bind_apply] at h
  split at h
  next a c₁ hpc => exact hf a (hp c a c₁ hpc) c₁ b c' h
  next => cases h

/-- What comes first makes no difference. -/
theorem bind_right (hf : ∀ a, Yields (f a) Q) : Yields (p >>= f) Q :=
  bind (P := fun _ => True) (of_forall fun _ => trivial) fun a _ => hf a

theorem label {what : String} (h : Yields p P) : Yields (label what p) P := by
  intro c a c' hl
  rw [Parser.label] at hl
  split at hl
  next r hr =>
    cases hl
    exact h c a c' hr
  next => cases hl

theorem attempt (h : Yields p P) : Yields (attempt p) fun r => ∀ a ∈ r, P a := by
  rintro c r c' hr a rfl
  rw [Parser.attempt] at hr
  split at hr
  next b c₁ hb =>
    cases hr
    exact h c a c' hb
  next => cases hr

theorem withText (h : Yields p P) : Yields (withText p) fun r => P r.1 := by
  intro c r c' hr
  rw [Parser.withText] at hr
  split at hr
  next a c₁ ha =>
    cases hr
    exact h c _ _ ha
  next => cases hr

/-! ### Repetition -/

def OfRound (P : α → Prop) : Round α → Prop
  | .stop => True
  | .last a | .more a => P a

theorem rounds {p : Parser (Round α)} (h : Yields p (OfRound P)) :
    Yields (rounds p) fun as => ∀ a ∈ as, P a := by
  intro c
  fun_induction Parser.rounds p c with
  | case1 c e he =>
    rintro as c' ⟨⟩
  | case2 c c' hstop =>
    rintro as c'' ⟨⟩ a ha
    cases ha
  | case3 c a c' hlast =>
    rintro as c'' ⟨⟩ b hb
    obtain rfl := List.mem_singleton.mp hb
    exact h c _ _ hlast
  | case4 c a c' hmore hlt as c'' hrest ih =>
    rintro _ _ ⟨⟩ b hb
    rcases List.mem_cons.mp hb with rfl | hb
    · exact h c _ _ hmore
    · exact ih as c'' hrest b hb
  | case5 c a c' hmore hlt e he ih =>
    rintro as c'' ⟨⟩
  | case6 c a c' hmore hlt =>
    rintro as c'' ⟨⟩

theorem many {p : Parser (Option α)} (h : Yields p fun r => ∀ a ∈ r, P a) :
    Yields (many p) fun as => ∀ a ∈ as, P a := by
  refine rounds (h.bind fun r hr => ?_)
  cases r with
  | none => exact pure trivial
  | some a => exact pure (hr a rfl)

theorem sepBy {sep : Parser Bool} (h : Yields p P) :
    Yields (sepBy p sep) fun as => ∀ a ∈ as, P a := by
  refine rounds (h.bind fun a ha => bind_right fun b => ?_)
  cases b with
  | false => exact pure ha
  | true => exact pure ha

/-- Where no round stops the repetition without an element, there is at least one. -/
theorem rounds_ne_nil {p : Parser (Round α)} (h : Yields p (· ≠ .stop)) :
    Yields (Parser.rounds p) (· ≠ []) := by
  intro c
  fun_cases Parser.rounds p c with
  | case2 c' hstop => exact absurd rfl (h c _ _ hstop)
  | _ =>
    rintro as c'' ⟨⟩ <;> simp

theorem sepBy_ne_nil {sep : Parser Bool} : Yields (Parser.sepBy p sep) (· ≠ []) := by
  refine rounds_ne_nil (bind_right fun a => bind_right fun b => ?_)
  cases b with
  | false => exact pure (by simp)
  | true => exact pure (by simp)

theorem and (h : Yields p P) (h' : Yields p P') : Yields p fun a => P a ∧ P' a :=
  fun c a c' hp => ⟨h c a c' hp, h' c a c' hp⟩

end Yields

/-- A parser that calls itself yields what each of its steps yields if the calls do. -/
theorem Yields.fix {step : (ι → Parser α) → ι → Parser α} {P : ι → α → Prop}
    (h : ∀ self, (∀ i, Yields (self i) (P i)) → ∀ i, Yields (step self i) (P i)) (i : ι) :
    Yields (Parser.fix step i) (P i) := by
  have hall : ∀ n i c a c', c.rest.length < n → Parser.fix step i c = .ok (a, c') → P i a := by
    intro n
    induction n with
    | zero =>
      intro i c a c' hn
      omega
    | succ n ih =>
      intro i c a c' hn hfix
      rw [Parser.fix] at hfix
      refine h _ (fun j c₁ b c₂ hb => ?_) i c a c' hfix
      split at hb
      next hlt => exact ih j c₁ b c₂ (by omega) hb
      next => cases hb
  exact fun c a c' => hall _ i c a c' (Nat.lt_succ_self _)

end DeclGen.Grammar
