import DeclGen.Grammar.Parser

/-!
# What parsers read

A parser is described by the text it starts from, the text it leaves and a property of its value;
where in a file the text stands makes no difference. There is a rule for each way of putting parsers
together.

## Main definitions

* `Reads`, `Fails`: what a parser does with a text
* `selfBelow`: the parser that a recursive parser calls in place of itself
-/

namespace DeclGen.Grammar

open DeclGen.Grammar.Parser

variable {α β ι : Type}

/-- From the text `s`, wherever it stands, the parser reads up to `t` and gives a value of which
`Q` holds. -/
def Reads (p : Parser α) (s t : List Char) (Q : α → Prop) : Prop :=
  ∀ o, ∃ a o', p ⟨o, s⟩ = .ok (a, ⟨o', t⟩) ∧ Q a

/-- The parser fails on the text `s`, wherever it stands. -/
def Fails (p : Parser α) (s : List Char) : Prop := ∀ o, ∃ e, p ⟨o, s⟩ = .error e

namespace Reads

variable {p q : Parser α} {f : α → Parser β} {s t u : List Char} {P Q : α → Prop} {R : β → Prop}

theorem mono (h : Reads p s t P) (hPQ : ∀ a, P a → Q a) : Reads p s t Q := by
  intro o
  obtain ⟨a, o', hp, ha⟩ := h o
  exact ⟨a, o', hp, hPQ a ha⟩

theorem pure {a : α} (h : Q a) : Reads (pure a) s s Q := fun o => ⟨a, o, rfl, h⟩

theorem bind (hp : Reads p s t P) (hf : ∀ a, P a → Reads (f a) t u R) :
    Reads (p >>= f) s u R := by
  intro o
  obtain ⟨a, o', hpo, ha⟩ := hp o
  obtain ⟨b, o'', hfo, hb⟩ := hf a ha o'
  refine ⟨b, o'', ?_, hb⟩
  rw [bind_apply, hpo]
  exact hfo

theorem pure_bind {a : α} (hf : Reads (f a) s t R) : Reads (Pure.pure a >>= f) s t R := hf

/-- Reading a value that is known. -/
theorem bind_eq {a : α} (hp : Reads p s t (· = a)) (hf : Reads (f a) t u R) :
    Reads (p >>= f) s u R :=
  hp.bind fun _ h => h ▸ hf

/-- Asking for the offset. -/
theorem offset_bind {f : Nat → Parser β} (hf : ∀ o, Reads (f o) s u R) :
    Reads (offset >>= f) s u R :=
  fun o => hf o o

theorem ahead_bind {f : List Char → Parser β} (hf : Reads (f s) s u R) :
    Reads (ahead >>= f) s u R :=
  fun o => hf o

theorem take (n : Nat) : Reads (take n) s (s.drop n) (· = s.take n) :=
  fun o => ⟨s.take n, o + Text.size (s.take n), rfl, rfl⟩

theorem take_append (x : List Char) : Reads (Parser.take x.length) (x ++ t) t (· = x) := by
  have h := take (s := x ++ t) x.length
  rwa [List.drop_left, List.take_left] at h

theorem label {what : String} (h : Reads p s t Q) : Reads (label what p) s t Q := by
  intro o
  obtain ⟨a, o', hp, ha⟩ := h o
  refine ⟨a, o', ?_, ha⟩
  rw [Parser.label, hp]

theorem attempt (h : Reads p s t Q) : Reads (attempt p) s t fun r => ∃ a, r = some a ∧ Q a := by
  intro o
  obtain ⟨a, o', hp, ha⟩ := h o
  refine ⟨some a, o', ?_, a, rfl, ha⟩
  rw [Parser.attempt, hp]

theorem attempt_none (h : Fails p s) : Reads (Parser.attempt p) s s (· = none) := by
  intro o
  obtain ⟨e, he⟩ := h o
  refine ⟨none, o, ?_, rfl⟩
  rw [Parser.attempt, he]

theorem lookahead (h : Reads p s t Q) :
    Reads (lookahead p) s s fun r => ∃ a, r = some a ∧ Q a := by
  intro o
  obtain ⟨a, o', hp, ha⟩ := h o
  refine ⟨some a, o, ?_, a, rfl, ha⟩
  rw [Parser.lookahead, hp]

theorem withText (h : Reads p s t Q) : Reads (withText p) s t fun r => Q r.1 := by
  intro o
  obtain ⟨a, o', hp, ha⟩ := h o
  refine ⟨⟨a, s.take (s.length - t.length)⟩, o', ?_, ha⟩
  rw [Parser.withText, hp]

/-- The text that was read comes with the value. -/
theorem withText_append {x : List Char} (h : Reads p (x ++ t) t Q) :
    Reads (Parser.withText p) (x ++ t) t fun r => Q r.1 ∧ r.2 = x := by
  intro o
  obtain ⟨a, o', hp, ha⟩ := h o
  refine ⟨⟨a, (x ++ t).take ((x ++ t).length - t.length)⟩, o', ?_, ha, by simp⟩
  rw [Parser.withText, hp]

theorem orElse_right (hp : Fails p s) (hq : Reads q s t Q) :
    Reads (orElse p q) s t Q := by
  intro o
  obtain ⟨e, he⟩ := hp o
  obtain ⟨a, o', ha, hQ⟩ := hq o
  refine ⟨a, o', ?_, hQ⟩
  rw [Parser.orElse, he]
  simp only [ha]

theorem place_bind {f : Cursor → Parser β} (hf : ∀ c, Reads (f c) s u R) :
    Reads (place >>= f) s u R :=
  fun o => hf ⟨o, s⟩ o

/-! ### Repetition -/

theorem rounds_stop {p : Parser (Round α)} (h : Reads p s t (· = .stop)) :
    Reads (rounds p) s t (· = []) := by
  intro o
  obtain ⟨a, o', hp, rfl⟩ := h o
  refine ⟨[], o', ?_, rfl⟩
  rw [rounds, hp]

theorem rounds_last {p : Parser (Round α)} (h : Reads p s t fun r => ∃ a, r = .last a ∧ Q a) :
    Reads (rounds p) s t fun as => ∃ a, as = [a] ∧ Q a := by
  intro o
  obtain ⟨_, o', hp, a, rfl, ha⟩ := h o
  refine ⟨[a], o', ?_, a, rfl, ha⟩
  rw [rounds, hp]

/-- A round that reads something is followed by the others. -/
theorem rounds_more {p : Parser (Round α)} {S : List α → Prop}
    (h : Reads p s t fun r => ∃ a, r = .more a ∧ Q a) (hlt : t.length < s.length)
    (hrest : Reads (rounds p) t u S) :
    Reads (rounds p) s u fun as => ∃ a as', as = a :: as' ∧ Q a ∧ S as' := by
  intro o
  obtain ⟨_, o', hp, a, rfl, ha⟩ := h o
  obtain ⟨as, o'', hps, has⟩ := hrest o'
  refine ⟨a :: as, o'', ?_, a, as, rfl, ha, has⟩
  rw [rounds, hp]
  simp only [if_pos hlt, hps]

theorem many_nil {p : Parser (Option α)} (h : Reads p s t (· = none)) :
    Reads (many p) s t (· = []) :=
  rounds_stop (h.bind_eq (.pure rfl))

theorem many_cons {p : Parser (Option α)} {S : List α → Prop}
    (h : Reads p s t fun r => ∃ a, r = some a ∧ Q a) (hlt : t.length < s.length)
    (hrest : Reads (many p) t u S) :
    Reads (many p) s u fun as => ∃ a as', as = a :: as' ∧ Q a ∧ S as' := by
  refine rounds_more (h.bind fun r hr => ?_) hlt hrest
  obtain ⟨a, rfl, ha⟩ := hr
  exact .pure ⟨a, rfl, ha⟩

theorem sepBy_last {sep : Parser Bool} (h : Reads p s t Q) (hsep : Reads sep t u (· = false)) :
    Reads (sepBy p sep) s u fun as => ∃ a, as = [a] ∧ Q a :=
  rounds_last (h.bind fun a ha => hsep.bind_eq (.pure ⟨a, rfl, ha⟩))

theorem sepBy_more {sep : Parser Bool} {v : List Char} {S : List α → Prop} (h : Reads p s t Q)
    (hsep : Reads sep t u (· = true)) (hlt : u.length < s.length)
    (hrest : Reads (sepBy p sep) u v S) :
    Reads (sepBy p sep) s v fun as => ∃ a as', as = a :: as' ∧ Q a ∧ S as' :=
  rounds_more (h.bind fun a ha => hsep.bind_eq (.pure ⟨a, rfl, ha⟩)) hlt hrest

end Reads

namespace Fails

variable {p q : Parser α} {f : α → Parser β} {s t : List Char} {P : α → Prop}

theorem fail : Fails (fail : Parser α) s := fun o => ⟨⟨o, []⟩, rfl⟩

theorem failAt (o : Nat) (what : String) : Fails (failAt o what : Parser α) s :=
  fun _ => ⟨⟨o, [what]⟩, rfl⟩

theorem bind_left (h : Fails p s) : Fails (p >>= f) s := by
  intro o
  obtain ⟨e, he⟩ := h o
  refine ⟨e, ?_⟩
  rw [bind_apply, he]

theorem bind (hp : Reads p s t P) (hf : ∀ a, P a → Fails (f a) t) : Fails (p >>= f) s := by
  intro o
  obtain ⟨a, o', hpo, ha⟩ := hp o
  obtain ⟨e, he⟩ := hf a ha o'
  refine ⟨e, ?_⟩
  rw [bind_apply, hpo]
  exact he

theorem bind_eq {a : α} (hp : Reads p s t (· = a)) (hf : Fails (f a) t) : Fails (p >>= f) s :=
  .bind hp fun _ h => h ▸ hf

theorem orElse (hp : Fails p s) (hq : Fails q s) : Fails (orElse p q) s := by
  intro o
  obtain ⟨e, he⟩ := hp o
  obtain ⟨e', he'⟩ := hq o
  refine ⟨e.or e', ?_⟩
  rw [Parser.orElse, he]
  simp only [he']

theorem offset_bind {f : Nat → Parser β} (hf : ∀ o, Fails (f o) s) : Fails (offset >>= f) s :=
  fun o => hf o o

theorem ahead_bind {f : List Char → Parser β} (hf : Fails (f s) s) : Fails (ahead >>= f) s :=
  fun o => hf o

end Fails

/-! ## Recursion -/

/-- What a recursive parser calls in place of itself: itself where fewer than `n` characters are
left, and otherwise a failure. -/
def selfBelow (step : (ι → Parser α) → ι → Parser α) (n : Nat) (i : ι) : Parser α := fun c =>
  if c.rest.length < n then fix step i c else .error ⟨c.offset, []⟩

section Recursion

variable {step : (ι → Parser α) → ι → Parser α} {i : ι} {s t : List Char} {Q : α → Prop}

theorem Reads.fix (h : Reads (step (selfBelow step s.length) i) s t Q) :
    Reads (fix step i) s t Q := by
  intro o
  obtain ⟨a, o', hp, ha⟩ := h o
  refine ⟨a, o', ?_, ha⟩
  rw [Parser.fix]
  exact hp

/-- Where something was read, a recursive parser may call itself. -/
theorem Reads.selfBelow {n : Nat} (h : Reads (Parser.fix step i) s t Q) (hlt : s.length < n) :
    Reads (selfBelow step n i) s t Q := by
  intro o
  obtain ⟨a, o', hp, ha⟩ := h o
  refine ⟨a, o', ?_, ha⟩
  simp only [Grammar.selfBelow, if_pos hlt, hp]

end Recursion

end DeclGen.Grammar
