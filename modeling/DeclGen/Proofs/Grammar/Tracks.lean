import DeclGen.Grammar.Parser
import DeclGen.Proofs.Syntax.SpanTree

/-!
# Where parsers get to

What a parser gives in terms of the offset where it starts and the offset where it ends, while it
goes through one text. No parser goes back, so what two parsers read one after the other stands one
behind the other. There is a rule for each way of putting parsers together.

## Main definitions

* `Rest`: what is left of a text at an offset
* `Tracks`: started at an offset, the parser goes forward and gives what is described
* `Advances`: the parser goes forward
* `Spans`: the spans of what the parser gives stand where it has read
-/

namespace DeclGen.Grammar

open DeclGen.Grammar.Parser DeclGen.Text

variable {α β ι : Type} {text : List Char}

/-- The characters `s` are what is left of the text behind `o` bytes. -/
def Rest (text : List Char) (o : Nat) (s : List Char) : Prop :=
  ∃ front, text = front ++ s ∧ size front = o

/-- Wherever the parser ends when it starts at offset `o` of the text, it is not before `o`, and `R`
holds of its value and the offset there. -/
def Tracks (text : List Char) (o : Nat) (p : Parser α) (R : α → Nat → Prop) : Prop :=
  ∀ s, Rest text o s → ∀ a c', p ⟨o, s⟩ = .ok (a, c') →
    Rest text c'.offset c'.rest ∧ o ≤ c'.offset ∧ R a c'.offset

/-- The parser goes forward in any text. -/
def Advances (p : Parser α) : Prop := ∀ text o, Tracks text o p fun _ _ => True

theorem Rest.isBoundary {o : Nat} {s : List Char} (h : Rest text o s) : IsBoundary text o := by
  obtain ⟨front, htext, hfront⟩ := h
  exact ⟨front, s, htext, hfront⟩

/-- What is left further on is what is left behind the characters between. -/
theorem Rest.exists_between {o o' : Nat} {s s' : List Char} (h : Rest text o s)
    (h' : Rest text o' s') (hle : o ≤ o') : ∃ x, s = x ++ s' ∧ Spells text o o' x := by
  obtain ⟨front, htext, rfl⟩ := h
  obtain ⟨front', htext', rfl⟩ := h'
  rcases List.append_eq_append_iff.mp (htext.symm.trans htext') with ⟨x, rfl, rfl⟩ | ⟨x, rfl, rfl⟩
  · exact ⟨x, rfl, front, s', by rw [htext, List.append_assoc], rfl, size_append ..⟩
  · -- The second place is not before the first, so nothing stands between.
    have hnil : x = [] := by
      have := length_le_size x
      rw [size_append] at hle
      exact List.eq_nil_of_length_eq_zero (by omega)
    subst hnil
    exact ⟨[], rfl, front', s, by simpa using htext, by simp, by simp⟩

theorem Rest.take {o : Nat} {s : List Char} (h : Rest text o s) (n : Nat) :
    Rest text (o + size (s.take n)) (s.drop n) := by
  obtain ⟨front, htext, rfl⟩ := h
  exact ⟨front ++ s.take n, by rw [htext, List.append_assoc, List.take_append_drop], size_append ..⟩

namespace Tracks

variable {p q : Parser α} {f : α → Parser β} {o : Nat} {R R' : α → Nat → Prop}
  {S : β → Nat → Prop}

theorem mono (h : Tracks text o p R) (hR : ∀ a o', o ≤ o' → R a o' → R' a o') :
    Tracks text o p R' := by
  intro s hs a c' hp
  obtain ⟨hrest, hle, ha⟩ := h s hs a c' hp
  exact ⟨hrest, hle, hR a _ hle ha⟩

theorem pure {a : α} (h : R a o) : Tracks text o (pure a) R := by
  rintro s hs _ _ ⟨⟩
  exact ⟨hs, Nat.le_refl _, h⟩

theorem fail : Tracks text o (fail : Parser α) R := by
  rintro s hs a c' ⟨⟩

theorem failAt (i : Nat) (what : String) : Tracks text o (failAt i what : Parser α) R := by
  rintro s hs a c' ⟨⟩

/-- The second parser starts where the first one ended. -/
theorem bind (hp : Tracks text o p R)
    (hf : ∀ a o', o ≤ o' → R a o' → Tracks text o' (f a) S) : Tracks text o (p >>= f) S := by
  intro s hs b c' h
  rw [bind_apply] at h
  split at h
  next a c₁ hpc =>
    obtain ⟨hrest, hle, ha⟩ := hp s hs a c₁ hpc
    obtain ⟨hrest', hle', hb⟩ := hf a _ hle ha c₁.rest hrest b c' h
    exact ⟨hrest', Nat.le_trans hle hle', hb⟩
  next => cases h

/-- What is read first makes no difference but that it is read. -/
theorem skip (hp : Advances p) (hf : ∀ a o', o ≤ o' → Tracks text o' (f a) S) :
    Tracks text o (p >>= f) S :=
  (hp text o).bind fun a o' hle _ => hf a o' hle

theorem offset_bind {f : Nat → Parser β} (h : IsBoundary text o → Tracks text o (f o) S) :
    Tracks text o (Parser.offset >>= f) S :=
  fun s hs => h hs.isBoundary s hs

theorem ahead_bind {f : List Char → Parser β} (h : ∀ s, Rest text o s → Tracks text o (f s) S) :
    Tracks text o (Parser.ahead >>= f) S :=
  fun s hs => h s hs s hs

theorem place_bind {f : Cursor → Parser β} (h : ∀ c, Tracks text o (f c) S) :
    Tracks text o (Parser.place >>= f) S :=
  fun s hs => h ⟨o, s⟩ s hs

theorem take (n : Nat) : Tracks text o (take n) fun x o' => Spells text o o' x := by
  rintro s hs _ _ ⟨⟩
  obtain ⟨front, htext, hfront⟩ := hs
  refine ⟨Rest.take ⟨front, htext, hfront⟩ n, Nat.le_add_right .., front, s.drop n, ?_, hfront, rfl⟩
  rw [htext, List.append_assoc, List.take_append_drop]

/-- What is taken is the front part of what is left. -/
theorem take_of_rest {s : List Char} (h : Rest text o s) (n : Nat) :
    Tracks text o (Parser.take n) fun _ o' => Spells text o o' (s.take n) := by
  rintro s' hs' _ _ ⟨⟩
  obtain ⟨x, rfl, front, back, -, -, hx⟩ := h.exists_between hs' (Nat.le_refl _)
  have hnil : x = [] := List.eq_nil_of_length_eq_zero (by have := length_le_size x; omega)
  rw [hnil]
  exact Tracks.take n s' hs' _ _ rfl

theorem label {what : String} (h : Tracks text o p R) : Tracks text o (label what p) R := by
  intro s hs a c' hl
  rw [Parser.label] at hl
  split at hl
  next r hr =>
    cases hl
    exact h s hs a c' hr
  next => cases hl

theorem attempt (h : Tracks text o p R) :
    Tracks text o (attempt p) fun r o' => r.elim (o' = o) (R · o') := by
  intro s hs r c' hr
  rw [Parser.attempt] at hr
  split at hr
  next a c₁ ha =>
    cases hr
    exact h s hs a _ ha
  next =>
    cases hr
    exact ⟨hs, Nat.le_refl _, rfl⟩

theorem lookahead (p : Parser α) : Tracks text o (lookahead p) fun _ o' => o' = o := by
  intro s hs r c' hr
  rw [Parser.lookahead] at hr
  split at hr
  · cases hr
    exact ⟨hs, Nat.le_refl _, rfl⟩
  · cases hr
    exact ⟨hs, Nat.le_refl _, rfl⟩

theorem orElse (hp : Tracks text o p R) (hq : Tracks text o q R) :
    Tracks text o (orElse p q) R := by
  intro s hs a c' h
  rw [Parser.orElse] at h
  split at h
  next r hr =>
    cases h
    exact hp s hs a c' hr
  next =>
    split at h
    next r hr =>
      cases h
      exact hq s hs a c' hr
    next => cases h

theorem withText (h : Tracks text o p R) :
    Tracks text o (withText p) fun r o' => R r.1 o' ∧ Spells text o o' r.2 := by
  intro s hs r c' hr
  rw [Parser.withText] at hr
  split at hr
  next a c₁ ha =>
    cases hr
    obtain ⟨hrest, hle, hR⟩ := h s hs a c' ha
    obtain ⟨x, hx, hspells⟩ := hs.exists_between hrest hle
    have htake : s.take (s.length - c'.rest.length) = x := by simp [hx]
    exact ⟨hrest, hle, hR, by rwa [htake]⟩
  next => cases hr

/-! ### Repetition and recursion -/

/-- What a round that starts at offset `o` has to give so that `R` holds of the repetition. -/
def OfRound (R : Nat → List α → Nat → Prop) (o : Nat) : Round α → Nat → Prop
  | .stop, o' => R o [] o'
  | .last a, o' => R o [a] o'
  | .more a, o' => ∀ as o'', o' ≤ o'' → R o' as o'' → R o (a :: as) o''

/-- By induction on what is left: a repetition goes on only where something was read. -/
theorem rounds {p : Parser (Round α)} {R : Nat → List α → Nat → Prop}
    (h : ∀ o, Tracks text o p (OfRound R o)) (o : Nat) :
    Tracks text o (Parser.rounds p) (R o) := by
  intro s hs as c' hrounds
  have hall : ∀ c : Cursor, Rest text c.offset c.rest → ∀ as c', Parser.rounds p c = .ok (as, c') →
      Rest text c'.offset c'.rest ∧ c.offset ≤ c'.offset ∧ R c.offset as c'.offset := by
    intro c
    fun_induction Parser.rounds p c with
    | case1 c e he =>
      rintro hc as c' ⟨⟩
    | case2 c c' hstop =>
      rintro hc _ _ ⟨⟩
      exact h c.offset c.rest hc _ _ hstop
    | case3 c a c' hlast =>
      rintro hc _ _ ⟨⟩
      exact h c.offset c.rest hc _ _ hlast
    | case4 c a c' hmore hlt as c'' hrest ih =>
      rintro hc _ _ ⟨⟩
      obtain ⟨hc', hle, ha⟩ := h c.offset c.rest hc _ _ hmore
      obtain ⟨hc'', hle', has⟩ := ih hc' as c'' hrest
      exact ⟨hc'', Nat.le_trans hle hle', ha as _ hle' has⟩
    | case5 c a c' hmore hlt e he ih =>
      rintro hc as c' ⟨⟩
    | case6 c a c' hmore hlt =>
      rintro hc as c' ⟨⟩
  exact hall ⟨o, s⟩ hs as c' hrounds

/-- What a further element has to give so that `R` holds of the repetition. -/
def OfElement (R : Nat → List α → Nat → Prop) (o : Nat) : Option α → Nat → Prop
  | none, o' => R o [] o'
  | some a, o' => ∀ as o'', o' ≤ o'' → R o' as o'' → R o (a :: as) o''

theorem many {p : Parser (Option α)} {R : Nat → List α → Nat → Prop}
    (h : ∀ o, Tracks text o p (OfElement R o)) (o : Nat) :
    Tracks text o (Parser.many p) (R o) := by
  refine rounds (fun o => (h o).bind fun r o' _ hr => ?_) o
  cases r with
  | none => exact .pure hr
  | some a => exact .pure hr

/-- A parser that calls itself gives what each of its steps gives if the calls do. -/
theorem fix {step : (ι → Parser α) → ι → Parser α} {R : ι → Nat → α → Nat → Prop}
    (h : ∀ self, (∀ i o, Tracks text o (self i) (R i o)) →
      ∀ i o, Tracks text o (step self i) (R i o)) (i : ι) (o : Nat) :
    Tracks text o (Parser.fix step i) (R i o) := by
  have hall : ∀ n i o s, s.length < n → Rest text o s → ∀ a c',
      Parser.fix step i ⟨o, s⟩ = .ok (a, c') →
        Rest text c'.offset c'.rest ∧ o ≤ c'.offset ∧ R i o a c'.offset := by
    intro n
    induction n with
    | zero =>
      intro i o s hn
      omega
    | succ n ih =>
      intro i o s hn hs a c' hfix
      rw [Parser.fix] at hfix
      refine h _ (fun j o₁ s₁ hs₁ b c₂ hb => ?_) i o s hs a c' hfix
      split at hb
      next hlt => exact ih j o₁ s₁ (Nat.lt_of_lt_of_le hlt (Nat.le_of_lt_succ hn)) hs₁ b c₂ hb
      next => cases hb
  exact fun s => hall _ i o s (Nat.lt_succ_self _)

end Tracks

/-! ## Trees of spans -/

/-- The trees of what the parser reads in the text stand between the offset where it starts and the
offset where it ends. -/
def Spans (text : List Char) (p : Parser α) (trees : α → List SpanTree) : Prop :=
  ∀ o, Tracks text o p fun a o' => Stand text o (trees a) o'

namespace Spans

variable {p : Parser α} {trees : α → List SpanTree} {tree : α → SpanTree}

theorem label {what : String} (h : Spans text p trees) : Spans text (label what p) trees :=
  fun o => (h o).label

theorem attempt (h : Spans text p trees) :
    Spans text (attempt p) fun r => r.toList.flatMap trees := by
  refine fun o => (h o).attempt.mono fun r o' hle hr => ?_
  cases r with
  | none => exact .nil hle
  | some a => simpa using hr

def ofRound : Round α → List α
  | .stop => []
  | .last a | .more a => [a]

theorem rounds {p : Parser (Round α)} (h : Spans text p fun r => (ofRound r).flatMap trees) :
    Spans text (rounds p) fun as => as.flatMap trees := by
  refine Tracks.rounds fun o => (h o).mono fun r o' _ hr => ?_
  cases r with
  | stop => exact hr
  | last a => exact hr
  | more a =>
    intro as o'' _ has
    have hone : Stand text o (trees a) o' := by simpa [ofRound] using hr
    exact hone.append has

theorem many {p : Parser (Option α)} (h : Spans text p fun r => r.toList.flatMap trees) :
    Spans text (many p) fun as => as.flatMap trees := by
  refine rounds fun o => (h o).bind fun r o' hle hr => ?_
  cases r with
  | none => exact .pure (.nil hle)
  | some a => exact .pure hr

theorem sepBy {sep : Parser Bool} (h : Spans text p trees) (hsep : Advances sep) :
    Spans text (sepBy p sep) fun as => as.flatMap trees := by
  refine rounds fun o => (h o).bind fun a o₁ _ ha => .skip hsep fun b o₂ hle => ?_
  have hstand : Stand text o ([a].flatMap trees) o₂ := by
    simpa using ha.mono (Nat.le_refl _) hle
  cases b with
  | false => exact .pure hstand
  | true => exact .pure hstand

/-- Of one tree for each element. -/
theorem of_map {p : Parser (List α)} (h : Spans text p fun as => as.flatMap fun a => [tree a]) :
    Spans text p fun as => as.map tree := by
  have htrees : (fun as : List α => as.map tree) = fun as => as.flatMap fun a => [tree a] :=
    funext fun _ => List.map_eq_flatMap
  rwa [htrees]

/-- A parser that calls itself gets where each of its steps gets if the calls do. -/
theorem fix {step : (ι → Parser α) → ι → Parser α} {trees : ι → α → List SpanTree}
    (h : ∀ self, (∀ i, Spans text (self i) (trees i)) → ∀ i, Spans text (step self i) (trees i))
    (i : ι) : Spans text (Parser.fix step i) (trees i) :=
  Tracks.fix h i

end Spans

/-! ## Parsers that only read on -/

namespace Advances

variable {p q : Parser α} {f : α → Parser β}

theorem of_tracks {R : List Char → Nat → α → Nat → Prop}
    (h : ∀ text o, Tracks text o p (R text o)) : Advances p :=
  fun text o => (h text o).mono fun _ _ _ _ => trivial

theorem pure (a : α) : Advances (pure a) := fun _ _ => .pure trivial

theorem fail : Advances (fail : Parser α) := fun _ _ => .fail

theorem failAt (i : Nat) (what : String) : Advances (failAt i what : Parser α) :=
  fun _ _ => .failAt i what

theorem bind (hp : Advances p) (hf : ∀ a, Advances (f a)) : Advances (p >>= f) :=
  fun _ _ => .skip hp fun a o' _ => hf a _ o'

theorem offset : Advances offset := by
  rintro text o s hs _ _ ⟨⟩
  exact ⟨hs, Nat.le_refl _, trivial⟩

theorem ahead : Advances ahead := by
  rintro text o s hs _ _ ⟨⟩
  exact ⟨hs, Nat.le_refl _, trivial⟩

theorem take (n : Nat) : Advances (take n) := .of_tracks fun _ _ => Tracks.take n

theorem label {what : String} (h : Advances p) : Advances (label what p) :=
  fun text o => (h text o).label

theorem attempt (h : Advances p) : Advances (attempt p) :=
  .of_tracks fun text o => (h text o).attempt

theorem lookahead : Advances (lookahead p) := .of_tracks fun _ _ => Tracks.lookahead p

theorem orElse (hp : Advances p) (hq : Advances q) : Advances (orElse p q) :=
  fun text o => (hp text o).orElse (hq text o)

theorem rounds {p : Parser (Round α)} (h : Advances p) : Advances (rounds p) := by
  have hnil (text : List Char) :
      Spans text p fun r => (Spans.ofRound r).flatMap fun _ => ([] : List SpanTree) :=
    fun o => (h text o).mono fun r o' hle _ => by cases r <;> exact .nil hle
  exact .of_tracks fun text => Spans.rounds (hnil text)

theorem many {p : Parser (Option α)} (h : Advances p) : Advances (many p) := by
  refine rounds (h.bind fun r => ?_)
  cases r with
  | none => exact pure _
  | some a => exact pure _

end Advances

end DeclGen.Grammar
