import DeclGen.Proofs.Grammar.Reads

/-!
# What parsers leave

What a parser does with a text, when it is not known beforehand where it stops: the property it
establishes is one of its value and of the text it leaves together. The rules give the property
that is needed before a step from the one that is wanted behind it.

## Main definitions

* `Takes`: what a parser gives and leaves
-/

namespace DeclGen.Grammar

open DeclGen.Grammar.Parser

variable {α β ι : Type}

/-- From the text `s`, wherever it stands, the parser gives a value and leaves a text of which `Q`
holds. -/
def Takes (p : Parser α) (s : List Char) (Q : α → List Char → Prop) : Prop :=
  ∀ o, ∃ a o' t, p ⟨o, s⟩ = .ok (a, ⟨o', t⟩) ∧ Q a t

/-- A parser that is known to stop at `t`. -/
theorem Reads.takes {p : Parser α} {s t : List Char} {P : α → Prop} {Q : α → List Char → Prop}
    (h : Reads p s t P) (hPQ : ∀ a, P a → Q a t) : Takes p s Q := by
  intro o
  obtain ⟨a, o', hp, ha⟩ := h o
  exact ⟨a, o', t, hp, hPQ a ha⟩

namespace Takes

variable {p : Parser α} {f : α → Parser β} {s t : List Char} {P Q : α → List Char → Prop}
  {R : β → List Char → Prop}

theorem mono (h : Takes p s P) (hPQ : ∀ a t, P a t → Q a t) : Takes p s Q := by
  intro o
  obtain ⟨a, o', t, hp, ha⟩ := h o
  exact ⟨a, o', t, hp, hPQ a t ha⟩

theorem pure {a : α} (h : Q a s) : Takes (pure a) s Q := fun o => ⟨a, o, s, rfl, h⟩

theorem bind (hp : Takes p s P) (hf : ∀ a t, P a t → Takes (f a) t R) :
    Takes (p >>= f) s R := by
  intro o
  obtain ⟨a, o', t, hpo, ha⟩ := hp o
  obtain ⟨b, o'', u, hfo, hb⟩ := hf a t ha o'
  refine ⟨b, o'', u, ?_, hb⟩
  rw [bind_apply, hpo]
  exact hfo

theorem map_bind {γ : Type} {g : α → γ} {f : γ → Parser β} (hp : Takes p s P)
    (hf : ∀ a t, P a t → Takes (f (g a)) t R) : Takes (g <$> p >>= f) s R := by
  have hmap : Takes (g <$> p) s fun c t => ∃ a, c = g a ∧ P a t :=
    hp.bind fun a t ha => .pure ⟨a, rfl, ha⟩
  refine hmap.bind ?_
  rintro _ t ⟨a, rfl, ha⟩
  exact hf a t ha

/-- A first step that is known to stop at `t`. -/
theorem bind_reads {S : α → Prop} (hp : Reads p s t S) (hf : ∀ a, S a → Takes (f a) t R) :
    Takes (p >>= f) s R := by
  refine (hp.takes (Q := fun a u => S a ∧ u = t) fun a ha => ⟨ha, rfl⟩).bind ?_
  rintro a u ⟨ha, rfl⟩
  exact hf a ha

theorem bind_eq {a : α} (hp : Reads p s t (· = a)) (hf : Takes (f a) t R) :
    Takes (p >>= f) s R :=
  bind_reads hp fun _ h => h ▸ hf

theorem offset_bind {f : Nat → Parser β} (hf : ∀ o, Takes (f o) s R) :
    Takes (offset >>= f) s R :=
  fun o => hf o o

theorem ahead_bind {f : List Char → Parser β} (hf : Takes (f s) s R) : Takes (ahead >>= f) s R :=
  fun o => hf o

theorem label {what : String} (h : Takes p s Q) : Takes (label what p) s Q := by
  intro o
  obtain ⟨a, o', t, hp, ha⟩ := h o
  refine ⟨a, o', t, ?_, ha⟩
  rw [Parser.label, hp]

theorem attempt (h : Takes p s Q) :
    Takes (attempt p) s fun r t => ∃ a, r = some a ∧ Q a t := by
  intro o
  obtain ⟨a, o', t, hp, ha⟩ := h o
  refine ⟨some a, o', t, ?_, a, rfl, ha⟩
  rw [Parser.attempt, hp]

/-! ### Repetition -/

section

variable {R : List α → List Char → Prop}

theorem rounds_stop {p : Parser (Round α)} (h : Takes p s fun r t => r = .stop ∧ R [] t) :
    Takes (rounds p) s R := by
  intro o
  obtain ⟨_, o', t, hp, rfl, ha⟩ := h o
  refine ⟨[], o', t, ?_, ha⟩
  rw [rounds, hp]

theorem rounds_last {p : Parser (Round α)} (h : Takes p s fun r t => ∃ a, r = .last a ∧ R [a] t) :
    Takes (rounds p) s R := by
  intro o
  obtain ⟨_, o', t, hp, a, rfl, ha⟩ := h o
  refine ⟨[a], o', t, ?_, ha⟩
  rw [rounds, hp]

/-- A round that reads something is followed by the others. -/
theorem rounds_more {p : Parser (Round α)}
    (h : Takes p s fun r t => ∃ a, r = .more a ∧ t.length < s.length ∧
      Takes (rounds p) t fun as u => R (a :: as) u) :
    Takes (rounds p) s R := by
  intro o
  obtain ⟨_, o', t, hp, a, rfl, hlt, hrest⟩ := h o
  obtain ⟨as, o'', u, hps, has⟩ := hrest o'
  refine ⟨a :: as, o'', u, ?_, has⟩
  rw [rounds, hp]
  simp only [if_pos hlt, hps]

theorem many_nil {p : Parser (Option α)} (h : Takes p s fun r t => r = none ∧ R [] t) :
    Takes (many p) s R := by
  refine rounds_stop (h.bind fun r t hr => ?_)
  obtain ⟨rfl, hR⟩ := hr
  exact .pure ⟨rfl, hR⟩

theorem many_cons {p : Parser (Option α)}
    (h : Takes p s fun r t => ∃ a, r = some a ∧ t.length < s.length ∧
      Takes (many p) t fun as u => R (a :: as) u) :
    Takes (many p) s R := by
  refine rounds_more (h.bind fun r t hr => ?_)
  obtain ⟨a, rfl, hlt, hrest⟩ := hr
  exact .pure ⟨a, rfl, hlt, hrest⟩

theorem sepBy_last {sep : Parser Bool}
    (h : Takes p s fun a t => Takes sep t fun b u => b = false ∧ R [a] u) :
    Takes (sepBy p sep) s R := by
  refine rounds_last (h.bind fun a t hsep => hsep.bind fun b u hb => ?_)
  obtain ⟨rfl, hR⟩ := hb
  exact .pure ⟨a, rfl, hR⟩

theorem sepBy_more {sep : Parser Bool}
    (h : Takes p s fun a t => Takes sep t fun b u => b = true ∧ u.length < s.length ∧
      Takes (sepBy p sep) u fun as v => R (a :: as) v) :
    Takes (sepBy p sep) s R := by
  refine rounds_more (h.bind fun a t hsep => hsep.bind fun b u hb => ?_)
  obtain ⟨rfl, hlt, hrest⟩ := hb
  exact .pure ⟨a, rfl, hlt, hrest⟩

end

/-! ### Recursion -/

section

variable {step : (ι → Parser α) → ι → Parser α} {i : ι}

theorem fix (h : Takes (step (selfBelow step s.length) i) s Q) : Takes (fix step i) s Q := by
  intro o
  obtain ⟨a, o', t, hp, ha⟩ := h o
  refine ⟨a, o', t, ?_, ha⟩
  rw [Parser.fix]
  exact hp

/-- Where something was read, a recursive parser may call itself. -/
theorem selfBelow {n : Nat} (h : Takes (Parser.fix step i) s Q) (hlt : s.length < n) :
    Takes (selfBelow step n i) s Q := by
  intro o
  obtain ⟨a, o', t, hp, ha⟩ := h o
  refine ⟨a, o', t, ?_, ha⟩
  simp only [Grammar.selfBelow, if_pos hlt, hp]

end

end Takes

end DeclGen.Grammar
