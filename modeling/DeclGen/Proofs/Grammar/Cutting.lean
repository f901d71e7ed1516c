import DeclGen.Proofs.Grammar.Totality

/-!
# Parsers that cut their text

The same parsers once more, but with their text cut at byte offsets. A cut has no outcome if it is
outside of the text or inside a character, and neither has a parser that makes such a cut. A parser
that never does is one of `Parser` again.

## Main definitions

* `Cutting`: the parsers, with the combinators of `Parser`
* `Cutting.ofParser`: a parser that makes no cut
* `Cutting.cut`: reads a number of bytes

## Main statements

* `bind_eq`, `rounds_eq`, `fix_eq`: what is put together from parsers that have an outcome
* `cut_take`, `cut_one`, `withText_eq`: cuts that have one
-/

namespace DeclGen.Grammar

open DeclGen.Grammar.Parser DeclGen.Text

variable {α β ι : Type}

/-- A parser of values of type `α` that has no outcome where it cuts its text wrongly. -/
def Cutting (α : Type) : Type := Cursor → Option (Except SyntaxError (α × Cursor))

namespace Cutting

instance : Monad Cutting where
  pure a := fun c => some (.ok (a, c))
  bind q g := fun c =>
    match q c with
    | none => none
    | some (.ok (a, c')) => g a c'
    | some (.error e) => some (.error e)

def ofParser (p : Parser α) : Cutting α := fun c => some (p c)

instance : MonadLift Parser Cutting := ⟨ofParser⟩

def ofOption (o : Option α) : Cutting α := fun c => o.map fun a => .ok (a, c)

def cut (n : Nat) : Cutting (List Char) := fun c =>
  match takeBytes? n c.rest, dropBytes? n c.rest with
  | some front, some rest => some (.ok (front, ⟨c.offset + n, rest⟩))
  | _, _ => none

def label (what : String) (q : Cutting α) : Cutting α := fun c =>
  match q c with
  | none => none
  | some (.ok r) => some (.ok r)
  | some (.error e) => some (.error (e.within what))

def attempt (q : Cutting α) : Cutting (Option α) := fun c =>
  match q c with
  | none => none
  | some (.ok (a, c')) => some (.ok (some a, c'))
  | some (.error _) => some (.ok (none, c))

def lookahead (q : Cutting α) : Cutting (Option α) := fun c =>
  match q c with
  | none => none
  | some (.ok (a, _)) => some (.ok (some a, c))
  | some (.error _) => some (.ok (none, c))

/-- The part of a text before what is left of it. -/
def textBefore (text rest : List Char) : Option (List Char) :=
  if size rest ≤ size text then takeBytes? (size text - size rest) text else none

def withText (q : Cutting α) : Cutting (α × List Char) := do
  let text ← ahead
  let a ← q
  return (a, ← ofOption (textBefore text (← ahead)))

def rounds (q : Cutting (Round α)) : Cutting (List α) := fun c =>
  match q c with
  | none => none
  | some (.error e) => some (.error e)
  | some (.ok (.stop, c')) => some (.ok ([], c'))
  | some (.ok (.last a, c')) => some (.ok ([a], c'))
  | some (.ok (.more a, c')) =>
    if c'.rest.length < c.rest.length then
      match rounds q c' with
      | none => none
      | some (.ok (as, c'')) => some (.ok (a :: as, c''))
      | some (.error e) => some (.error e)
    else some (.error ⟨c'.offset, []⟩)
termination_by c => c.rest.length

def many (q : Cutting (Option α)) : Cutting (List α) := rounds do
  match ← q with
  | some a => return .more a
  | none => return .stop

def sepBy (q : Cutting α) (sep : Cutting Bool) : Cutting (List α) := rounds do
  let a ← q
  if ← sep then return .more a else return .last a

/-- The parser that `step` defines from itself, called only where something was read. -/
def fix (step : (ι → Cutting α) → ι → Cutting α) (i : ι) : Cutting α := fun c =>
  step (fun j c' =>
    if c'.rest.length < c.rest.length then fix step j c' else some (.error ⟨c'.offset, []⟩)) i c
termination_by c => c.rest.length

/-! ## Parsers that have an outcome -/

variable {p : Parser α} {f : α → Parser β} {q : Cutting α} {g : α → Cutting β}

theorem ofParser_apply (p : Parser α) (c : Cursor) : ofParser p c = some (p c) := rfl

theorem bind_apply (q : Cutting α) (g : α → Cutting β) (c : Cursor) :
    (q >>= g) c = match q c with
      | none => none
      | some (.ok (a, c')) => g a c'
      | some (.error e) => some (.error e) := rfl

theorem ofOption_some_bind (a : α) (g : α → Cutting β) : (ofOption (some a) >>= g) = g a := rfl

theorem ahead_bind_apply (g : List Char → Cutting β) (c : Cursor) :
    (ofParser ahead >>= g) c = g c.rest c := rfl

/-- What is read next has to have an outcome only where it is read. -/
theorem bind_apply_eq {c : Cursor} (hq : q c = some (p c))
    (hg : ∀ a c', p c = .ok (a, c') → g a c' = some (f a c')) :
    (q >>= g) c = some ((p >>= f) c) := by
  rw [bind_apply, hq, Parser.bind_apply]
  cases hp : p c with
  | error e => rfl
  | ok r => exact hg r.1 r.2 hp

theorem bind_eq_of (hq : q = ofParser p)
    (hg : ∀ c a c', p c = .ok (a, c') → g a c' = some (f a c')) :
    q >>= g = ofParser (p >>= f) :=
  funext fun c => bind_apply_eq (congrFun hq c) (hg c)

theorem bind_eq (hq : q = ofParser p) (hg : ∀ a, g a = ofParser (f a)) :
    q >>= g = ofParser (p >>= f) :=
  bind_eq_of hq fun _ a c' _ => congrFun (hg a) c'

theorem map_eq (f : α → β) (hq : q = ofParser p) : f <$> q = ofParser (f <$> p) :=
  bind_eq hq fun _ => rfl

theorem ite_eq {b : Bool} {p' : Parser α} {q' : Cutting α} (hq : q = ofParser p)
    (hq' : q' = ofParser p') : (if b then q else q') = ofParser (if b then p else p') := by
  cases b with
  | false => exact hq'
  | true => exact hq

/-- Two alternatives that go on in the same way, of which the second reads nothing. -/
theorem ite_bind_eq {b : Bool} {a : α} (hq : q = ofParser p) (hg : ∀ a, g a = ofParser (f a)) :
    (if b then q >>= g else g a) = ofParser (if b then p >>= f else f a) :=
  ite_eq (bind_eq hq hg) (hg a)

theorem label_eq {what : String} (hq : q = ofParser p) :
    label what q = ofParser (Parser.label what p) := by
  subst hq
  funext c
  simp only [label, ofParser, Parser.label]
  cases p c <;> rfl

theorem attempt_eq (hq : q = ofParser p) : attempt q = ofParser (Parser.attempt p) := by
  subst hq
  funext c
  simp only [attempt, ofParser, Parser.attempt]
  cases p c <;> rfl

theorem lookahead_apply_eq {c : Cursor} (h : q c = some (p c)) :
    lookahead q c = some (Parser.lookahead p c) := by
  rw [lookahead, h, Parser.lookahead]
  cases p c <;> rfl

/-- By induction on what is left: a repetition goes on only where something was read. -/
theorem rounds_eq {p : Parser (Round α)} {q : Cutting (Round α)} (hq : q = ofParser p) :
    rounds q = ofParser (Parser.rounds p) := by
  subst hq
  funext c
  induction hn : c.rest.length using Nat.strongRecOn generalizing c with
  | ind n ih =>
    rw [rounds, ofParser_apply, ofParser_apply, Parser.rounds]
    cases hr : p c with
    | error e => rfl
    | ok r =>
      obtain ⟨round, c'⟩ := r
      cases round with
      | stop => rfl
      | last a => rfl
      | more a =>
        dsimp only
        split
        next hlt =>
          have hrest := ih _ (hn ▸ hlt) c' rfl
          rw [hrest, ofParser_apply]
          cases Parser.rounds p c' <;> rfl
        next => rfl

theorem many_eq {p : Parser (Option α)} {q : Cutting (Option α)} (hq : q = ofParser p) :
    many q = ofParser (Parser.many p) :=
  rounds_eq (bind_eq hq fun a => by cases a <;> rfl)

theorem sepBy_eq {sep : Cutting Bool} {sep' : Parser Bool} (hq : q = ofParser p)
    (hsep : sep = ofParser sep') : sepBy q sep = ofParser (Parser.sepBy p sep') :=
  rounds_eq (bind_eq hq fun _ => bind_eq hsep fun b => by cases b <;> rfl)

/-- By induction on what is left, as a recursive call starts at less of the text. -/
theorem fix_eq {step : (ι → Parser α) → ι → Parser α} {step' : (ι → Cutting α) → ι → Cutting α}
    (h : ∀ self i, step' (fun j => ofParser (self j)) i = ofParser (step self i)) (i : ι) :
    fix step' i = ofParser (Parser.fix step i) := by
  funext c
  induction hn : c.rest.length using Nat.strongRecOn generalizing c i with
  | ind n ih =>
    let self : ι → Parser α := fun j c' =>
      if c'.rest.length < c.rest.length then Parser.fix step j c' else .error ⟨c'.offset, []⟩
    have hself : (fun j c' => if c'.rest.length < c.rest.length then fix step' j c'
        else some (.error ⟨c'.offset, []⟩)) = fun j => ofParser (self j) := by
      funext j c'
      rw [ofParser_apply]
      dsimp only [self]
      split
      next hlt => exact ih _ (hn ▸ hlt) j c' rfl
      next => rfl
    rw [fix, hself, h, ofParser_apply, ofParser_apply, Parser.fix]

/-! ## Cuts that have an outcome -/

/-- A cut behind characters. -/
theorem cut_take (n : Nat) (c : Cursor) :
    cut (size (c.rest.take n)) c = some (Parser.take n c) := by
  have hrest : c.rest.take n ++ c.rest.drop n = c.rest := List.take_append_drop n c.rest
  have hfront := takeBytes?_size_append (c.rest.take n) (c.rest.drop n)
  have hback := dropBytes?_size_append (c.rest.take n) (c.rest.drop n)
  rw [hrest] at hfront hback
  rw [cut, hfront, hback]
  rfl

/-- A cut behind an ASCII character. -/
theorem cut_one {c : Cursor} {d : Char} (h : c.rest.head? = some d) (hd : isAscii d = true) :
    cut 1 c = some (Parser.take 1 c) := by
  have hsize : size (c.rest.take 1) = 1 := by
    rw [List.take_one, h]
    exact utf8Size_eq_one_iff.mpr hd
  have hcut := cut_take 1 c
  rwa [hsize] at hcut

/-- Inside a character nothing is cut off. -/
example : cut 1 ⟨0, ['é']⟩ = none := by rfl

theorem textBefore_append (x t : List Char) : textBefore (x ++ t) t = some x := by
  have hle : size t ≤ size (x ++ t) := by
    rw [size_append]
    exact Nat.le_add_left ..
  rw [textBefore, if_pos hle, size_append, Nat.add_sub_cancel, takeBytes?_size_append]

/-- The text between two places. -/
theorem textBefore_eq {text s s' x : List Char} {o o' : Nat} (hs : Rest text o s)
    (hs' : Rest text o' s') (hx : Spells text o o' x) : textBefore s s' = some x := by
  obtain ⟨y, rfl, hy⟩ := hs.exists_between hs' hx.le
  rw [textBefore_append, ← hx.slice?_eq, hy.slice?_eq]

/-- The text before the end part that a parser leaves. -/
theorem withText_eq {R : Nat → α → Nat → Prop} (hq : q = ofParser p)
    (h : ∀ text o, Moves text o p (R o)) : withText q = ofParser (Parser.withText p) := by
  subst hq
  funext c
  change (ofParser p >>= fun a => do
    return (a, ← ofOption (textBefore c.rest (← ahead)))) c = some (Parser.withText p c)
  rw [bind_apply, ofParser_apply, Parser.withText]
  cases hp : p c with
  | error e => rfl
  | ok r =>
    obtain ⟨x, hrest, -⟩ := (Moves.exists_between h hp).1
    have htext : c.rest.take (c.rest.length - r.2.rest.length) = x := by
      rw [hrest, List.length_append, Nat.add_sub_cancel, List.take_left]
    have hbefore : textBefore c.rest r.2.rest = some x := by rw [hrest, textBefore_append]
    dsimp only
    rw [htext]
    change (ofOption (textBefore c.rest r.2.rest) >>= fun text => pure (r.1, text)) r.2 = _
    rw [hbefore]
    rfl

end Cutting

end DeclGen.Grammar
