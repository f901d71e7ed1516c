import DeclGen.Proofs.Grammar.CappedTokens
import DeclGen.Proofs.Grammar.Yields

/-!
# Values that are carried over

Not everything that is read up to the end of a text is still read when a line feed and a closing
brace stand behind it. Some values tell that the second reading goes wrong: it takes the brace for
itself, or it looks for the end of the text where the brace is. All other values are carried over.

## Main definitions

* `Keeps`: what is known of the text that is left stays known
* `Carries`: the second parser gives what the first gives, unless the value is a bad one

## Main statements

* `Carries.bind`, `Carries.rounds`, `Carries.fix`: one rule for each way of putting parsers together
-/

namespace DeclGen.Grammar

open DeclGen.Grammar.Parser DeclGen.Text

variable {α β ι : Type} {text : List Char} {o : Nat} {s t : List Char}

/-- Where `L` holds of what is left, `L'` does behind what the parser reads. -/
def Keeps (L L' : List Char → Prop) (p : Parser α) : Prop :=
  ∀ c a c', L c.rest → p c = .ok (a, c') → L' c'.rest

def Ended (s : List Char) : Prop := s = []

/-- At offset `o`, with `s` left of the first text and `t` of the second: if the first parser gives
a value, the second gives a related one, unless the value is `Bad`. Then the second fails or leaves
a text that satisfies `L`. -/
def CarriesAt (text : List Char) (Bad : α → Prop) (L : List Char → Prop) (o : Nat)
    (s t : List Char) (p q : Parser α) (V : α → α → Prop) : Prop :=
  ∀ o' a c, p ⟨o, s⟩ = .ok (a, c) →
    (¬ Bad a → Rest text c.offset c.rest ∧
      ∃ b d, q ⟨o', t⟩ = .ok (b, d) ∧ V a b ∧ Capped c.rest d.rest) ∧
    (Bad a → ∀ b d, q ⟨o', t⟩ = .ok (b, d) → L d.rest)

/-- Wherever the two texts are read, the values of the first parser are carried over unless they
are `Bad`. -/
def Carries (text : List Char) (Bad : α → Prop) (L : List Char → Prop) (p q : Parser α)
    (V : α → α → Prop) : Prop :=
  ∀ o s t, Rest text o s → Capped s t → CarriesAt text Bad L o s t p q V

variable {p q : Parser α} {f g : α → Parser β} {V : α → α → Prop} {W : β → β → Prop}
  {Bad : α → Prop} {Bad' : β → Prop} {L L' L'' : List Char → Prop}

namespace Keeps

theorem pure {a : α} : Keeps L L (pure a) := by
  rintro c _ _ hc ⟨⟩
  exact hc

theorem bind (hp : Keeps L L' p) (hf : ∀ a, Keeps L' L'' (f a)) : Keeps L L'' (p >>= f) := by
  intro c b c' hc h
  rw [bind_apply] at h
  split at h
  next a c₁ hpc => exact hf a c₁ b c' (hp c a c₁ hc hpc) h
  next => cases h

/-- What goes forward stays at the end of the text. -/
theorem of_moves {R : Nat → α → Nat → Prop}
    (h : ∀ text o, size text = o → Moves text o p (R o)) : Keeps Ended Ended p := by
  rintro ⟨o, s⟩ a c' hs hp
  obtain rfl : s = [] := hs
  exact (holds_at_end (fun text => h text o) hp).1

/-- A parser that goes further reads nothing at the end of the text. -/
theorem of_fails (h : ∀ o r, p ⟨o, []⟩ ≠ .ok r) : Keeps Ended L p := by
  rintro ⟨o, s⟩ a c' hs hp
  obtain rfl : s = [] := hs
  exact absurd hp (h o (a, c'))

theorem spanFrom (start : Nat) : Keeps L L (spanFrom start) := by
  rintro c _ _ hc ⟨⟩
  exact hc

/-- A repetition ends at the end of the text if its first round does. -/
theorem rounds_of_first {p : Parser (Round α)} (h : Keeps Ended Ended p) {c c' : Cursor}
    {as : List α} (hfirst : ∀ r d, p c = .ok (r, d) → Ended d.rest)
    (hp : Parser.rounds p c = .ok (as, c')) : Ended c'.rest := by
  fun_induction Parser.rounds p c generalizing as c' with
  | case1 c e he => cases hp
  | case2 c d hr =>
    cases hp
    exact hfirst _ _ hr
  | case3 c a d hr =>
    cases hp
    exact hfirst _ _ hr
  | case4 c a d hr hlt as' c'' hrest ih =>
    cases hp
    exact ih (fun r d' hr' => h d r d' (hfirst _ _ hr) hr') hrest
  | case5 => cases hp
  | case6 => cases hp

end Keeps

/-- What comes first is the same in both texts, and what comes next starts where the second parser
leaves a text that satisfies `N`. -/
theorem CarriesAt.skip_leaves {R : α → Nat → Prop} {N : List Char → Prop} (hrest : Rest text o s)
    (hp : AlikeAt True s t p q V) (hmoves : Moves text o p R) (hN : Leaves q N)
    (hf : ∀ a b, V a b → ∀ o s t, N t → Rest text o s → Capped s t →
      CarriesAt text Bad' L o s t (f a) (g b) W) :
    CarriesAt text Bad' L o s t (p >>= f) (q >>= g) W := by
  intro o' r c' h
  have hout := (hmoves s hrest).2
  rw [bind_apply] at h
  split at h
  next a c hr =>
    obtain ⟨b, d, hr', hV, hcd⟩ := (hp o o').exists_of_ok hr
    rw [hr] at hout
    rw [bind_apply, hr']
    exact hf a b hV c.offset c.rest d.rest (hN _ _ _ hr') hout.1 hcd d.offset r c' h
  next => cases h

theorem CarriesAt.skip {R : α → Nat → Prop} (hrest : Rest text o s)
    (hp : AlikeAt True s t p q V) (hmoves : Moves text o p R)
    (hf : ∀ a b, V a b → Carries text Bad' L (f a) (g b) W) :
    CarriesAt text Bad' L o s t (p >>= f) (q >>= g) W :=
  .skip_leaves (N := fun _ => True) hrest hp hmoves (fun _ _ _ _ => True.intro)
    fun a b hab o s t _ => hf a b hab o s t

theorem CarriesAt.ahead_bind {f g : List Char → Parser β}
    (h : CarriesAt text Bad' L o s t (f s) (g t) W) :
    CarriesAt text Bad' L o s t (ahead >>= f) (ahead >>= g) W :=
  h

namespace Carries

/-- What is the same in both texts is carried over, if it is never bad. -/
theorem of_alike {R : Nat → α → Nat → Prop} (h : Alike True p q V)
    (hmoves : ∀ o, Moves text o p (R o)) (hgood : Yields p (¬ Bad ·)) :
    Carries text Bad L p q V := by
  intro o s t hrest hst o' a c hp
  have hout := (hmoves o s hrest).2
  rw [hp] at hout
  exact ⟨fun _ => ⟨hout.1, (h s t hst o o').exists_of_ok hp⟩,
    fun hbad => absurd hbad (hgood _ _ _ hp)⟩

/-- Where the second parser leaves a text that satisfies `L` whatever it reads, every value may be
taken for bad. -/
theorem of_leaves (hbad : Yields p Bad) (hq : Leaves q L) : Carries text Bad L p q V := by
  intro o s t hrest hst o' a c hp
  exact ⟨fun hgood => absurd (hbad _ _ _ hp) hgood, fun _ b d hr => hq _ b d hr⟩

theorem pure {a b : α} (hgood : ¬ Bad a) (h : V a b) : Carries text Bad L (pure a) (pure b) V := by
  rintro o s t hrest hst o' _ _ ⟨⟩
  exact ⟨fun _ => ⟨hrest, b, _, rfl, h, hst⟩, fun hbad => absurd hbad hgood⟩

theorem skip {R : Nat → α → Nat → Prop} (hp : Alike True p q V)
    (hmoves : ∀ o, Moves text o p (R o))
    (hf : ∀ a b, V a b → Carries text Bad' L (f a) (g b) W) :
    Carries text Bad' L (p >>= f) (q >>= g) W :=
  fun o s t hrest hst => .skip hrest (hp s t hst) (hmoves o) hf

theorem skip_leaves {R : Nat → α → Nat → Prop} {N : List Char → Prop} (hp : Alike True p q V)
    (hmoves : ∀ o, Moves text o p (R o)) (hN : Leaves q N)
    (hf : ∀ a b, V a b → ∀ o s t, N t → Rest text o s → Capped s t →
      CarriesAt text Bad' L o s t (f a) (g b) W) :
    Carries text Bad' L (p >>= f) (q >>= g) W :=
  fun o s t hrest hst => .skip_leaves hrest (hp s t hst) (hmoves o) hN hf

theorem offset_bind {f g : Nat → Parser β} (h : ∀ o o', Carries text Bad' L (f o) (g o') W) :
    Carries text Bad' L (Parser.offset >>= f) (Parser.offset >>= g) W :=
  fun o s t hrest hst o' => h o o' o s t hrest hst o'

theorem ite {p' q' : Parser α} {b : Bool} (hp : b = true → Carries text Bad L p q V)
    (hp' : b = false → Carries text Bad L p' q' V) :
    Carries text Bad L (if b then p else p') (if b then q else q') V := by
  cases b with
  | true => exact hp rfl
  | false => exact hp' rfl

/-- A bad value makes what is read with it bad, and what it leaves is known to what comes next. -/
theorem bind (hp : Carries text Bad L p q V) (hbad : ∀ a, Bad a → Yields (f a) Bad')
    (hkeeps : ∀ b, Keeps L L' (g b))
    (hf : ∀ a b, ¬ Bad a → V a b → Carries text Bad' L' (f a) (g b) W) :
    Carries text Bad' L' (p >>= f) (q >>= g) W := by
  intro o s t hrest hst o' r c' h
  rw [bind_apply] at h
  split at h
  next a c hr =>
    obtain ⟨hgood, hleaves⟩ := hp o s t hrest hst o' a c hr
    rw [bind_apply]
    by_cases ha : Bad a
    · refine ⟨fun hr' => absurd (hbad a ha _ _ _ h) hr', fun _ b' d' h' => ?_⟩
      split at h'
      next b d hq => exact hkeeps b d b' d' (hleaves ha b d hq) h'
      next => cases h'
    · obtain ⟨hrest', b, d, hq, hV, hcd⟩ := hgood ha
      rw [hq]
      exact hf a b ha hV c.offset c.rest d.rest hrest' hcd d.offset r c' h
  next => cases h

theorem label {what what' : String} (h : Carries text Bad L p q V) :
    Carries text Bad L (label what p) (label what' q) V := by
  intro o s t hrest hst o' a c hp
  rw [Parser.label] at hp
  rw [Parser.label]
  split at hp
  next r hr =>
    cases hp
    obtain ⟨hgood, hleaves⟩ := h o s t hrest hst o' a c hr
    refine ⟨fun ha => ?_, fun ha b d hq => ?_⟩
    · obtain ⟨hrest', b, d, hq, hV⟩ := hgood ha
      exact ⟨hrest', b, d, by rw [hq], hV⟩
    · split at hq
      next r hr =>
        cases hq
        exact hleaves ha b d hr
      next => cases hq
  next => cases hp

/-! ## Repetition and recursion -/

/-- Of the element that a round gives, if it gives one, `P` holds. -/
def GivesBad (P : α → Prop) : Round α → Prop
  | .stop => False
  | .last a | .more a => P a

/-- Where an element is bad, the whole repetition is. -/
theorem rounds {p q : Parser (Round α)} (h : Carries text (GivesBad Bad) Ended p q (Round.Rel V))
    (hkeeps : Keeps Ended Ended q) :
    Carries text (fun as => ∃ a ∈ as, Bad a) Ended (rounds p) (rounds q) (List.Forall₂ V) := by
  intro o s t hrest hst o' as c' hp
  induction hn : s.length using Nat.strongRecOn generalizing o s t o' as with
  | ind n ih =>
    have hpq := h o s t hrest hst o'
    have hbad (r : Round α) (c : Cursor) (hr : p ⟨o, s⟩ = .ok (r, c)) (hr' : GivesBad Bad r) :
        ∀ bs d, Parser.rounds q ⟨o', t⟩ = .ok (bs, d) → Ended d.rest :=
      fun bs d => hkeeps.rounds_of_first ((hpq r c hr).2 hr')
    rw [Parser.rounds] at hp
    split at hp
    next => cases hp
    next c hr =>
      cases hp
      refine ⟨fun _ => ?_, fun ⟨_, hmem, _⟩ => absurd hmem List.not_mem_nil⟩
      obtain ⟨hrest', r, d, hq, hrel, hcd⟩ := (hpq _ _ hr).1 id
      cases hrel
      rw [Parser.rounds, hq]
      exact ⟨hrest', [], d, rfl, .nil, hcd⟩
    next a c hr =>
      cases hp
      refine ⟨fun ha => ?_, fun ⟨b, hmem, hb⟩ => hbad _ _ hr (List.mem_singleton.mp hmem ▸ hb)⟩
      obtain ⟨hrest', r, d, hq, hrel, hcd⟩ :=
        (hpq _ _ hr).1 fun hb => ha ⟨a, List.mem_singleton_self a, hb⟩
      cases hrel with
      | last hV =>
        rw [Parser.rounds, hq]
        exact ⟨hrest', _, d, rfl, .cons hV .nil, hcd⟩
    next a c hr =>
      split at hp
      next hlt =>
        split at hp
        next as' c'' hp' =>
          cases hp
          by_cases ha : Bad a
          · exact ⟨fun hgood => absurd ⟨a, List.mem_cons_self, ha⟩ hgood, fun _ => hbad _ _ hr ha⟩
          obtain ⟨hrest', r, d, hq, hrel, hcd⟩ := (hpq _ _ hr).1 ha
          cases hrel with
          | @more _ b hV =>
            have hs : s ≠ [] := by
              rintro rfl
              exact Nat.not_lt_zero _ hlt
            obtain ⟨hgood, hleaves⟩ :=
              ih c.rest.length (hn ▸ hlt) c.offset c.rest d.rest hrest' hcd d.offset as' hp' rfl
            rw [Parser.rounds, hq]
            simp only [if_pos ((hst.length_lt_iff hs hcd).mpr hlt)]
            have hothers : (∃ x ∈ a :: as', Bad x) ↔ ∃ x ∈ as', Bad x := by simp [ha]
            refine ⟨fun has => ?_, fun has bs d' hq' => ?_⟩
            · obtain ⟨hrest'', bs, d', hq', hVs, hcd'⟩ := hgood fun h => has (hothers.mpr h)
              exact ⟨hrest'', b :: bs, d', by rw [hq'], .cons hV hVs, hcd'⟩
            · split at hq'
              next bs' d'' hq'' =>
                cases hq'
                exact hleaves (hothers.mp has) bs' _ hq''
              next => cases hq'
        next => cases hp
      next => cases hp

/-- The repetition is bad as soon as one element is; `Ended` then holds up to its end. -/
theorem many {p q : Parser (Option α)}
    (h : Carries text (fun r => ∃ a ∈ r, Bad a) Ended p q (Option.Rel V))
    (hkeeps : Keeps Ended Ended q) :
    Carries text (fun as => ∃ a ∈ as, Bad a) Ended (many p) (many q) (List.Forall₂ V) := by
  refine rounds (h.bind ?_ ?_ ?_) (hkeeps.bind ?_)
  · rintro _ ⟨a, rfl, ha⟩
    exact .pure ha
  · rintro (_ | a)
    · exact .pure
    · exact .pure
  · rintro _ _ hgood (hV | _)
    · exact .pure (fun ha => hgood ⟨_, rfl, ha⟩) (.more hV)
    · exact .pure id .stop
  · rintro (_ | a)
    · exact .pure
    · exact .pure

/-- Parsers that call themselves. -/
theorem fix {step : (ι → Parser α) → ι → Parser α} {Bad : ι → α → Prop} {V : ι → α → α → Prop}
    (h : ∀ self self', (∀ j, Carries text (Bad j) L (self j) (self' j) (V j)) →
      ∀ i, Carries text (Bad i) L (step self i) (step self' i) (V i)) (i : ι) :
    Carries text (Bad i) L (fix step i) (fix step i) (V i) := by
  intro o s t hrest hst
  induction hn : s.length using Nat.strongRecOn generalizing o s t i with
  | ind n ih =>
    intro o' a c hp
    rw [Parser.fix] at hp
    rw [Parser.fix]
    refine h _ _ (fun j o₁ u v hrest' huv o₂ b d hq => ?_) i o s t hrest hst o' a c hp
    split at hq
    next hlt =>
      have hs : s ≠ [] := by
        rintro rfl
        exact Nat.not_lt_zero _ hlt
      dsimp only
      rw [if_pos ((hst.length_lt_iff hs huv).mpr hlt)]
      exact ih u.length (hn ▸ hlt) j o₁ u v hrest' huv rfl o₂ b d hq
    next => cases hq

end Carries

end DeclGen.Grammar
