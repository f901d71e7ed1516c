import DeclGen.Proofs.Grammar.Tracks

/-!
# Parsers that go forward

Started anywhere in a text, a parser goes forward if it succeeds and fails at a place of the text
if it does not. A repetition goes on only where something was read and a parser calls itself only
there, so the checks that `rounds` and `fix` make never fail: what they define is the same without
them.

To see the latter, two parsers are compared that differ only in what they call: as long as the
calls agree further on in the text, the parsers agree. There is a rule for each way of putting
parsers together, for a pair of parsers at once; a single parser is compared with itself.

## Main definitions

* `Outcome`: what a parser may give when it is started at an offset of a text
* `Agree`: two parsers give the same, an outcome as described
* `Moves`: a parser gives an outcome as described
* `turn`: a repetition whose further rounds are read by a given parser
* `Further`: two parsers agree and go further behind an offset

## Main statements

* `Agree.bind`, `Agree.rounds`, `Agree.fix`: the rules
* `rounds_eq_turn`, `fix_eq_step`: the definitions without their checks
-/

namespace DeclGen.Grammar

open DeclGen.Grammar.Parser DeclGen.Text

variable {α β ι : Type} {text : List Char} {o o' : Nat}

/-- A value and a place that is not before `o`, of which `R` holds, or an error at a place of the
text. -/
def Outcome (text : List Char) (o : Nat) (R : α → Nat → Prop) :
    Except SyntaxError (α × Cursor) → Prop
  | .ok (a, c) => Rest text c.offset c.rest ∧ o ≤ c.offset ∧ R a c.offset
  | .error e => IsBoundary text e.offset

/-- Started at offset `o` of the text, the two parsers give the same, and it is an outcome of which
`R` holds. -/
def Agree (text : List Char) (o : Nat) (p q : Parser α) (R : α → Nat → Prop) : Prop :=
  ∀ s, Rest text o s → p ⟨o, s⟩ = q ⟨o, s⟩ ∧ Outcome text o R (p ⟨o, s⟩)

/-- Started at offset `o` of the text, the parser gives an outcome of which `R` holds. -/
abbrev Moves (text : List Char) (o : Nat) (p : Parser α) (R : α → Nat → Prop) : Prop :=
  Agree text o p p R

/-! ## Places of a text -/

theorem Rest.eq_of_eq {s t : List Char} (hs : Rest text o s) (ht : Rest text o t) : s = t := by
  obtain ⟨x, rfl, -, -, -, -, hx⟩ := hs.exists_between ht (Nat.le_refl o)
  have hnil : x = [] := List.eq_nil_of_length_eq_zero (by have := length_le_size x; omega)
  rw [hnil, List.nil_append]

/-- Further on, less of the text is left. -/
theorem Rest.length_lt {s s' : List Char} (hs : Rest text o s) (hs' : Rest text o' s')
    (hlt : o < o') : s'.length < s.length := by
  obtain ⟨x, rfl, -, -, -, -, hx⟩ := hs.exists_between hs' (Nat.le_of_lt hlt)
  cases x with
  | nil =>
    rw [size_nil] at hx
    omega
  | cons c x =>
    simp only [List.cons_append, List.length_cons, List.length_append]
    omega

namespace Agree

variable {p q : Parser α} {f g : α → Parser β} {R R' : α → Nat → Prop} {S : β → Nat → Prop}

theorem mono (h : Agree text o p q R) (hR : ∀ a o', o ≤ o' → R a o' → R' a o') :
    Agree text o p q R' := by
  intro s hs
  obtain ⟨hpq, hp⟩ := h s hs
  refine ⟨hpq, ?_⟩
  cases hr : p ⟨o, s⟩ with
  | error e =>
    rw [hr] at hp
    exact hp
  | ok r =>
    rw [hr] at hp
    exact ⟨hp.1, hp.2.1, hR _ _ hp.2.1 hp.2.2⟩

theorem trivial (h : Agree text o p q R) : Agree text o p q fun _ _ => True :=
  h.mono fun _ _ _ _ => True.intro

/-- The first parser with itself. -/
theorem left (h : Agree text o p q R) : Moves text o p R := fun s hs => ⟨rfl, (h s hs).2⟩

theorem pure {a : α} (h : R a o) : Agree text o (pure a) (pure a) R :=
  fun _ hs => ⟨rfl, hs, Nat.le_refl _, h⟩

theorem fail : Agree text o (fail : Parser α) fail R := fun _ hs => ⟨rfl, hs.isBoundary⟩

theorem failAt {i : Nat} (hi : IsBoundary text i) (what : String) :
    Agree text o (failAt i what : Parser α) (failAt i what) R :=
  fun _ _ => ⟨rfl, hi⟩

/-- The second parsers have to agree only where the first ones can end. -/
theorem bind (hp : Agree text o p q R)
    (hf : ∀ a o', o ≤ o' → R a o' → Agree text o' (f a) (g a) S) :
    Agree text o (p >>= f) (q >>= g) S := by
  intro s hs
  obtain ⟨hpq, hout⟩ := hp s hs
  rw [bind_apply, bind_apply, ← hpq]
  cases hr : p ⟨o, s⟩ with
  | error e =>
    rw [hr] at hout
    exact ⟨rfl, hout⟩
  | ok r =>
    rw [hr] at hout
    obtain ⟨hrest, hle, ha⟩ := hout
    obtain ⟨hfg, hout⟩ := hf r.1 r.2.offset hle ha r.2.rest hrest
    refine ⟨hfg, ?_⟩
    dsimp only
    revert hout
    cases f r.1 r.2 with
    | error e => exact id
    | ok r' => exact fun hout => ⟨hout.1, Nat.le_trans hle hout.2.1, hout.2.2⟩

/-- Two alternatives that go on in the same way. -/
theorem ite_bind {p' q' : Parser α} {b : Bool}
    (hp : Agree text o (if b then p else p') (if b then q else q') R)
    (hf : ∀ a o', o ≤ o' → R a o' → Agree text o' (f a) (g a) S) :
    Agree text o (if b then p >>= f else p' >>= f) (if b then q >>= g else q' >>= g) S := by
  cases b with
  | false => exact hp.bind hf
  | true => exact hp.bind hf

theorem offset_bind {f g : Nat → Parser β} (h : IsBoundary text o → Agree text o (f o) (g o) S) :
    Agree text o (Parser.offset >>= f) (Parser.offset >>= g) S :=
  fun s hs => h hs.isBoundary s hs

theorem ahead_bind {f g : List Char → Parser β}
    (h : ∀ s, Rest text o s → Agree text o (f s) (g s) S) :
    Agree text o (Parser.ahead >>= f) (Parser.ahead >>= g) S :=
  fun s hs => h s hs s hs

theorem place_bind {f g : Cursor → Parser β}
    (h : ∀ s, IsBoundary text o → Agree text o (f ⟨o, s⟩) (g ⟨o, s⟩) S) :
    Agree text o (Parser.place >>= f) (Parser.place >>= g) S :=
  fun s hs => h s hs.isBoundary s hs

theorem label {what : String} (h : Agree text o p q R) :
    Agree text o (label what p) (label what q) R := by
  intro s hs
  obtain ⟨hpq, hout⟩ := h s hs
  rw [Parser.label, Parser.label, ← hpq]
  refine ⟨rfl, ?_⟩
  cases hr : p ⟨o, s⟩ with
  | error e =>
    rw [hr] at hout
    exact hout
  | ok r =>
    rw [hr] at hout
    exact hout

/-- The property is that of a value; where the parser fails nothing is read. -/
theorem attempt (h : Agree text o p q R) :
    Agree text o (attempt p) (attempt q) fun r o' => ∀ a, r = some a → R a o' := by
  intro s hs
  obtain ⟨hpq, hout⟩ := h s hs
  rw [Parser.attempt, Parser.attempt, ← hpq]
  refine ⟨rfl, ?_⟩
  cases hr : p ⟨o, s⟩ with
  | error e =>
    refine ⟨hs, Nat.le_refl _, ?_⟩
    rintro a ⟨⟩
  | ok r =>
    rw [hr] at hout
    refine ⟨hout.1, hout.2.1, ?_⟩
    rintro a ⟨⟩
    exact hout.2.2

theorem lookahead (h : Agree text o p q R) :
    Agree text o (lookahead p) (lookahead q) fun _ o' => o' = o := by
  intro s hs
  rw [Parser.lookahead, Parser.lookahead, ← (h s hs).1]
  refine ⟨rfl, ?_⟩
  cases p ⟨o, s⟩ with
  | error e => exact ⟨hs, Nat.le_refl _, rfl⟩
  | ok r => exact ⟨hs, Nat.le_refl _, rfl⟩

end Agree

/-! ## Single parsers -/

namespace Moves

variable {p q : Parser α} {R : α → Nat → Prop}

theorem ahead : Moves text o ahead fun _ o' => o' = o := fun _ hs => ⟨rfl, hs, Nat.le_refl _, rfl⟩

theorem take (n : Nat) : Moves text o (take n) fun _ _ => True :=
  fun _ hs => ⟨rfl, hs.take n, Nat.le_add_right _ _, True.intro⟩

/-- Where a character is left, reading one or more goes further. -/
theorem take_succ {c : Char} {s : List Char} (h : Rest text o (c :: s)) (n : Nat) :
    Moves text o (Parser.take (n + 1)) fun _ o' => o < o' := by
  intro s' hs'
  obtain rfl := h.eq_of_eq hs'
  refine ⟨rfl, hs'.take (n + 1), Nat.le_add_right _ _, ?_⟩
  have := c.utf8Size_pos
  simp only [Cursor.skip, List.take_succ_cons, size_cons]
  omega

/-- Both alternatives start at the same offset. -/
theorem orElse (hp : Moves text o p R) (hq : Moves text o q R) :
    Moves text o (orElse p q) R := by
  intro s hs
  refine ⟨rfl, ?_⟩
  have hp := (hp s hs).2
  have hq := (hq s hs).2
  rw [Parser.orElse]
  cases hr : p ⟨o, s⟩ with
  | ok r =>
    rw [hr] at hp
    exact hp
  | error e =>
    rw [hr] at hp
    cases hr' : q ⟨o, s⟩ with
    | ok r =>
      rw [hr'] at hq
      exact hq
    | error e' =>
      rw [hr'] at hq
      simp only [Outcome, SyntaxError.or]
      split
      · exact hq
      · exact hp

/-- Where characters were read, the place is further on. -/
theorem withText (h : Moves text o p R) :
    Moves text o (withText p) fun r o' => R r.1 o' ∧ (r.2 ≠ [] → o < o') := by
  intro s hs
  refine ⟨rfl, ?_⟩
  have hout := (h s hs).2
  rw [Parser.withText]
  cases hr : p ⟨o, s⟩ with
  | error e =>
    rw [hr] at hout
    exact hout
  | ok r =>
    rw [hr] at hout
    obtain ⟨hrest, hle, hR⟩ := hout
    refine ⟨hrest, hle, hR, fun hne => Nat.lt_of_le_of_ne hle fun heq => hne ?_⟩
    rw [← heq] at hrest
    rw [hs.eq_of_eq hrest, Nat.sub_self, List.take_zero]

end Moves

/-! ## Repetition -/

/-- A repetition of `p` whose rounds behind the first are read by `self`. -/
def turn (p : Parser (Round α)) (self : Parser (List α)) : Parser (List α) := do
  match ← p with
  | .stop => return []
  | .last a => return [a]
  | .more a => return a :: (← self)

namespace Agree

variable {p q : Parser (Round α)}

/-- A repetition goes forward if each round that is followed by another goes further. -/
theorem rounds (h : ∀ o₁, o ≤ o₁ →
      Agree text o₁ p q fun r o₂ => ∀ a, r = .more a → o₁ < o₂) :
    Agree text o (rounds p) (rounds q) fun _ _ => True := by
  intro s hs
  induction hn : s.length using Nat.strongRecOn generalizing s o with
  | ind n ih =>
    obtain ⟨hpq, hout⟩ := h o (Nat.le_refl _) s hs
    rw [Parser.rounds, Parser.rounds, ← hpq]
    match hr : p ⟨o, s⟩ with
    | .error e =>
      rw [hr] at hout
      exact ⟨rfl, hout⟩
    | .ok (.stop, c) =>
      rw [hr] at hout
      exact ⟨rfl, hout.1, hout.2.1, True.intro⟩
    | .ok (.last a, c) =>
      rw [hr] at hout
      exact ⟨rfl, hout.1, hout.2.1, True.intro⟩
    | .ok (.more a, c) =>
      rw [hr] at hout
      obtain ⟨hrest, hle, hlt⟩ := hout
      have hshort := hs.length_lt hrest (hlt a rfl)
      obtain ⟨heq, hout⟩ := ih c.rest.length (hn ▸ hshort)
        (fun o₁ ho₁ => h o₁ (Nat.le_trans hle ho₁)) c.rest hrest rfl
      dsimp only
      rw [if_pos hshort, if_pos hshort, heq]
      refine ⟨rfl, ?_⟩
      rw [← heq]
      revert hout
      cases Parser.rounds p ⟨c.offset, c.rest⟩ with
      | error e => exact id
      | ok r => exact fun hout => ⟨hout.1, Nat.le_trans hle hout.2.1, True.intro⟩

/-- Where a round goes further, nothing is lost if the rounds behind it are read without a check. -/
theorem rounds_eq_turn {s : List Char} {self : Parser (List α)}
    (h : Moves text o p fun r o₁ => ∀ a, r = .more a → o < o₁) (hs : Rest text o s)
    (hself : ∀ c, c.rest.length < s.length → self c = Parser.rounds p c) :
    Parser.rounds p ⟨o, s⟩ = turn p self ⟨o, s⟩ := by
  have hout := (h s hs).2
  rw [Parser.rounds, turn, bind_apply]
  match hr : p ⟨o, s⟩ with
  | .error e => rfl
  | .ok (.stop, c) => rfl
  | .ok (.last a, c) => rfl
  | .ok (.more a, c) =>
    rw [hr] at hout
    have hshort := hs.length_lt hout.1 (hout.2.2 a rfl)
    dsimp only
    rw [if_pos hshort, bind_apply, hself c hshort]
    cases Parser.rounds p c <;> rfl

/-- Of all rounds the first may be known to go further. -/
theorem rounds_of_first (h : ∀ o₁, o ≤ o₁ →
      Agree text o₁ p q fun r o₂ => ∀ a, r = .more a → o₁ < o₂)
    (hfirst : Agree text o p q fun _ o' => o < o') :
    Agree text o (Parser.rounds p) (Parser.rounds q) fun _ o' => o < o' := by
  intro s hs
  have hp := (h o (Nat.le_refl _)).left
  refine ⟨(rounds h s hs).1, ?_⟩
  rw [rounds_eq_turn hp hs fun _ _ => rfl]
  have hturn : Moves text o (turn p (Parser.rounds p)) fun _ o' => o < o' := by
    refine hfirst.left.bind fun r o₁ hle hlt => ?_
    cases r with
    | stop => exact .pure hlt
    | last a => exact .pure hlt
    | more a =>
      have hrest : Moves text o₁ (Parser.rounds p) fun _ _ => True :=
        rounds fun o₂ ho₂ => (h o₂ (Nat.le_trans hle ho₂)).left
      exact hrest.bind fun as o₂ hle' _ => .pure (Nat.lt_of_lt_of_le hlt hle')
  exact (hturn s hs).2

end Agree

namespace Agree

variable {p q : Parser α} {sep sep' : Parser Bool}

theorem manyRound {p q : Parser (Option α)}
    (h : Agree text o p q fun r o' => ∀ a, r = some a → o < o') :
    Agree text o (manyRound p) (manyRound q) fun r o' => ∀ a, r = .more a → o < o' := by
  refine h.bind fun r o₁ _ hr => ?_
  cases r with
  | none => exact .pure fun a ha => nomatch ha
  | some a => exact .pure fun b _ => hr a rfl

theorem many {p q : Parser (Option α)} (h : ∀ o₁, o ≤ o₁ →
      Agree text o₁ p q fun r o₂ => ∀ a, r = some a → o₁ < o₂) :
    Agree text o (many p) (many q) fun _ _ => True :=
  rounds fun o₁ ho₁ => (h o₁ ho₁).manyRound

theorem sepByRound (hp : Agree text o p q fun _ o' => o < o')
    (hsep : ∀ o₁, o ≤ o₁ → Agree text o₁ sep sep' fun _ _ => True) :
    Agree text o (sepByRound p sep) (sepByRound q sep') fun _ o' => o < o' := by
  refine hp.bind fun a o₁ hle hlt => (hsep o₁ hle).bind fun b o₂ hle' _ => ?_
  have hlt' : o < o₂ := Nat.lt_of_lt_of_le hlt hle'
  cases b with
  | false => exact .pure hlt'
  | true => exact .pure hlt'

theorem sepBy (hp : ∀ o₁, o ≤ o₁ → Agree text o₁ p q fun _ o₂ => o₁ < o₂)
    (hsep : ∀ o₁, o ≤ o₁ → Agree text o₁ sep sep' fun _ _ => True) :
    Agree text o (sepBy p sep) (sepBy q sep') fun _ o' => o < o' := by
  have hround (o₁ : Nat) (ho₁ : o ≤ o₁) :
      Agree text o₁ (Parser.sepByRound p sep) (Parser.sepByRound q sep') fun _ o₂ => o₁ < o₂ :=
    (hp o₁ ho₁).sepByRound fun o₂ ho₂ => hsep o₂ (Nat.le_trans ho₁ ho₂)
  refine rounds_of_first (fun o₁ ho₁ => ?_) (hround o (Nat.le_refl _))
  exact (hround o₁ ho₁).mono fun _ _ _ hlt _ _ => hlt

end Agree

/-! ## Recursion -/

/-- Behind offset `o` the two parsers agree and go further. -/
def Further (text : List Char) (o : Nat) (p q : Parser α) : Prop :=
  ∀ o₁, o < o₁ → Agree text o₁ p q fun _ o₂ => o₁ < o₂

theorem Further.mono {p q : Parser α} (h : Further text o p q) (hle : o ≤ o') :
    Further text o' p q :=
  fun o₁ ho₁ => h o₁ (Nat.lt_of_le_of_lt hle ho₁)

section

variable {step step' : (ι → Parser α) → ι → Parser α} {R : ι → Nat → α → Nat → Prop}

/-- Parsers that call themselves agree and go forward if what they do agrees and goes forward as
long as the calls further on do. -/
theorem Agree.fix (h : ∀ o₁, o ≤ o₁ → ∀ self self',
      (∀ j o₂, o₁ < o₂ → Agree text o₂ (self j) (self' j) (R j o₂)) →
      ∀ i, Agree text o₁ (step self i) (step' self' i) (R i o₁)) (i : ι) :
    Agree text o (fix step i) (fix step' i) (R i o) := by
  intro s hs
  induction hn : s.length using Nat.strongRecOn generalizing s o i with
  | ind n ih =>
    rw [Parser.fix, Parser.fix]
    refine h o (Nat.le_refl _) _ _ (fun j o₂ hlt s₂ hs₂ => ?_) i s hs
    have hshort := hs.length_lt hs₂ hlt
    rw [if_pos hshort, if_pos hshort]
    exact ih s₂.length (hn ▸ hshort) (fun o₁ ho₁ => h o₁ (Nat.le_trans (Nat.le_of_lt hlt) ho₁)) j
      s₂ hs₂ rfl

/-- The value of a parser that calls itself is that of its step, whatever the step would find where
nothing was read. -/
theorem fix_eq_step {s : List Char} {self : ι → Parser α}
    (h : ∀ o₁, o ≤ o₁ → ∀ self self',
      (∀ j o₂, o₁ < o₂ → Agree text o₂ (self j) (self' j) (R j o₂)) →
      ∀ i, Agree text o₁ (step self i) (step self' i) (R i o₁)) (hs : Rest text o s)
    (hself : ∀ j c, c.rest.length < s.length → self j c = fix step j c) (i : ι) :
    fix step i ⟨o, s⟩ = step self i ⟨o, s⟩ := by
  rw [Parser.fix]
  refine (h o (Nat.le_refl _) _ _ (fun j o₂ hlt s₂ hs₂ => ?_) i s hs).1
  have hshort := hs.length_lt hs₂ hlt
  rw [if_pos hshort, hself j _ hshort]
  have hfix : Moves text o₂ (Parser.fix step j) (R j o₂) :=
    Agree.fix (fun o₁ ho₁ => h o₁ (Nat.le_trans (Nat.le_of_lt hlt) ho₁)) j
  exact ⟨rfl, (hfix s₂ hs₂).2⟩

end

end DeclGen.Grammar
