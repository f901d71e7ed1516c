import DeclGen.Grammar.Parser
import DeclGen.Proofs.Syntax.SpanTree

/-!
# Errors of alternatives

If all of several alternatives fail, the error of one of them is reported: of those with the least
of the text left, the first that says what was looked for, or the last if none says so. How the
alternatives are grouped makes no difference, for the errors and for what is read.

## Main definitions

* `Grouped`: a list with brackets around its entries
* `Grouped.choice`: the place of the error that is reported
* `SyntaxError.Prevails`: an error is the one to report among those before and behind it

## Main statements

* `SyntaxError.Prevails.unique`: one entry of a list prevails at most
* `SyntaxError.or_grouped`: every grouping reports the same entry of the list
-/

namespace DeclGen.Grammar

open DeclGen.Text

/-- A list that is not empty, with brackets around its entries. -/
inductive Grouped (α : Type) where
  | one (a : α)
  | both (l r : Grouped α)
deriving Repr

namespace Grouped

variable {α : Type}

/-- The list without its brackets. -/
def entries : Grouped α → List α
  | one a => [a]
  | both l r => l.entries ++ r.entries

def fold (op : α → α → α) : Grouped α → α
  | one a => a
  | both l r => op (l.fold op) (r.fold op)

/-- A list grouped from the left, behind what is grouped already. -/
def fromLeft (t : Grouped α) (as : List α) : Grouped α := as.foldl (fun t a => both t (one a)) t

theorem entries_fromLeft (t : Grouped α) (as : List α) :
    (t.fromLeft as).entries = t.entries ++ as := by
  induction as generalizing t with
  | nil => simp [fromLeft]
  | cons a as ih =>
    have hrest := ih (both t (one a))
    rw [entries, entries, List.append_assoc, List.singleton_append] at hrest
    exact hrest

theorem fold_fromLeft (op : α → α → α) (t : Grouped α) (as : List α) :
    (t.fromLeft as).fold op = as.foldl op (t.fold op) := by
  induction as generalizing t with
  | nil => rfl
  | cons a as ih => exact ih (both t (one a))

end Grouped

namespace SyntaxError

/-- Whether the error of a first alternative gives way to that of a second one. -/
def yieldsTo (a b : SyntaxError) : Bool :=
  a.offset < b.offset || (a.offset == b.offset && a.contexts.isEmpty)

def bytesLeft (text : List Char) (e : SyntaxError) : Nat := size text - e.offset

/-- An error is the one to report among those before and behind it: no other is further on, and of
those at the same place it is the first that says what was looked for, or the last if none does. -/
structure Prevails (front : List SyntaxError) (e : SyntaxError) (back : List SyntaxError) :
    Prop where
  furthest : ∀ x ∈ front ++ back, x.offset ≤ e.offset
  silent_before : ∀ x ∈ front, x.offset = e.offset → x.contexts = []
  none_behind : e.contexts = [] → ∀ x ∈ back, x.offset ≠ e.offset

end SyntaxError

def Grouped.choice : Grouped SyntaxError → Nat
  | .one _ => 0
  | .both l r =>
    if (l.fold .or).yieldsTo (r.fold .or) then l.entries.length + r.choice else l.choice

namespace SyntaxError

variable {a b c e e' : SyntaxError} {front back front' back' : List SyntaxError}
  {text : List Char}

theorem or_eq (a b : SyntaxError) : a.or b = if a.yieldsTo b then b else a := rfl

theorem yieldsTo_iff :
    a.yieldsTo b = true ↔ a.offset < b.offset ∨ (a.offset = b.offset ∧ a.contexts = []) := by
  simp [yieldsTo]

theorem or_eq_right (h : a.yieldsTo b = true) : a.or b = b := by rw [or_eq, if_pos h]

theorem or_eq_left (h : a.yieldsTo b ≠ true) : a.or b = a := by rw [or_eq, if_neg h]

/-! ## The error that prevails -/

namespace Prevails

theorem one (e : SyntaxError) : Prevails [] e [] := by
  constructor <;> simp

theorem offset_le (h : Prevails front e back) {x : SyntaxError} (hx : x ∈ front ++ e :: back) :
    x.offset ≤ e.offset := by
  rcases List.mem_append.mp hx with hx | hx
  · exact h.furthest x (List.mem_append_left back hx)
  · rcases List.mem_cons.mp hx with rfl | hx
    · exact Nat.le_refl _
    · exact h.furthest x (List.mem_append_right front hx)

/-- The error of the second alternatives prevails if that of the first ones gives way. -/
theorem of_yieldsTo (h : Prevails front e back) (h' : Prevails front' e' back')
    (hyields : e.yieldsTo e' = true) : Prevails (front ++ e :: back ++ front') e' back' := by
  rw [yieldsTo_iff] at hyields
  have hle : e.offset ≤ e'.offset := by omega
  have hfirst : ∀ x ∈ front ++ e :: back, x.offset ≤ e'.offset :=
    fun x hx => Nat.le_trans (h.offset_le hx) hle
  refine ⟨fun x hx => ?_, fun x hx hsame => ?_, h'.none_behind⟩
  · rw [List.append_assoc] at hx
    rcases List.mem_append.mp hx with hx | hx
    · exact hfirst x hx
    · exact h'.furthest x hx
  · rcases List.mem_append.mp hx with hx | hx
    · -- An entry of the first alternatives is as far on only if their error is, which is silent.
      have hlex := h.offset_le hx
      have hsilent : e.contexts = [] := by
        rcases hyields with hlt | ⟨-, hsilent⟩
        · omega
        · exact hsilent
      have hsame : x.offset = e.offset := by omega
      rcases List.mem_append.mp hx with hx | hx
      · exact h.silent_before x hx hsame
      · rcases List.mem_cons.mp hx with rfl | hx
        · exact hsilent
        · exact absurd hsame (h.none_behind hsilent x hx)
    · exact h'.silent_before x hx hsame

/-- The error of the first alternatives prevails unless it gives way to that of the second ones. -/
theorem of_not_yieldsTo (h : Prevails front e back) (h' : Prevails front' e' back')
    (hyields : e.yieldsTo e' ≠ true) : Prevails front e (back ++ (front' ++ e' :: back')) := by
  rw [Ne, yieldsTo_iff, not_or, not_and] at hyields
  obtain ⟨hle, hspeaks⟩ := hyields
  have hsecond : ∀ x ∈ front' ++ e' :: back', x.offset ≤ e.offset :=
    fun x hx => Nat.le_trans (h'.offset_le hx) (Nat.not_lt.mp hle)
  refine ⟨fun x hx => ?_, h.silent_before, fun hsilent x hx => ?_⟩
  · rw [← List.append_assoc] at hx
    rcases List.mem_append.mp hx with hx | hx
    · exact h.furthest x hx
    · exact hsecond x hx
  · rcases List.mem_append.mp hx with hx | hx
    · exact h.none_behind hsilent x hx
    · have hne : e.offset ≠ e'.offset := fun heq => hspeaks heq hsilent
      have hlex := h'.offset_le hx
      omega

theorem length_le (h : Prevails front e back) (h' : Prevails front' e' back')
    (heq : front ++ e :: back = front' ++ e' :: back') : front'.length ≤ front.length := by
  rcases List.append_eq_append_iff.mp heq with ⟨x, rfl, hx⟩ | ⟨x, rfl, -⟩
  · cases x with
    | nil => simp
    | cons d x =>
      -- Otherwise the first of the two is before the second, so it is silent; but the second is as
      -- far on behind it.
      obtain ⟨rfl, hback⟩ := List.cons_eq_cons.mp hx
      have he' : e' ∈ back := by simp [hback]
      have hle := h.furthest e' (List.mem_append_right front he')
      have hle' := h'.furthest e (by simp)
      have hsame : e'.offset = e.offset := Nat.le_antisymm hle hle'
      have hsilent := h'.silent_before e (by simp) hsame.symm
      exact absurd hsame (h.none_behind hsilent e' he')
  · simp

/-- One entry of a list prevails at most. -/
theorem unique (h : Prevails front e back) (h' : Prevails front' e' back')
    (heq : front ++ e :: back = front' ++ e' :: back') :
    front = front' ∧ e = e' ∧ back = back' := by
  have hlength := Nat.le_antisymm (h'.length_le h heq.symm) (h.length_le h' heq)
  obtain ⟨hfront, hrest⟩ := List.append_inj heq hlength
  exact ⟨hfront, List.cons_eq_cons.mp hrest⟩

end Prevails

/-- Whatever the grouping, the error that is reported is the entry that prevails. -/
theorem prevails_fold (t : Grouped SyntaxError) : ∃ front back,
    t.entries = front ++ t.fold .or :: back ∧ t.choice = front.length ∧
      Prevails front (t.fold .or) back := by
  induction t with
  | one e => exact ⟨[], [], rfl, rfl, .one e⟩
  | both l r ihl ihr =>
    obtain ⟨front, back, hl, hchoice, h⟩ := ihl
    obtain ⟨front', back', hr, hchoice', h'⟩ := ihr
    rw [Grouped.fold, Grouped.entries, Grouped.choice]
    by_cases hyields : (l.fold .or).yieldsTo (r.fold .or) = true
    · rw [or_eq_right hyields, if_pos hyields]
      refine ⟨_, back', ?_, ?_, h.of_yieldsTo h' hyields⟩
      · rw [hr, hl]
        simp only [List.append_assoc]
      · rw [hl, hchoice', ← List.length_append]
    · rw [or_eq_left hyields, if_neg hyields]
      refine ⟨front, _, ?_, hchoice, h.of_not_yieldsTo h' hyields⟩
      rw [hr, hl, List.append_assoc]
      rfl

/-- Two groupings of the same errors report the same one of them. -/
theorem fold_eq_of_entries_eq (t t' : Grouped SyntaxError) (h : t'.entries = t.entries) :
    t'.fold .or = t.fold .or ∧ t'.choice = t.choice := by
  obtain ⟨front, back, hentries, hchoice, hprevails⟩ := prevails_fold t
  obtain ⟨front', back', hentries', hchoice', hprevails'⟩ := prevails_fold t'
  obtain ⟨hfront, he, -⟩ :=
    hprevails'.unique hprevails (hentries'.symm.trans (h.trans hentries))
  exact ⟨he, by rw [hchoice', hchoice, hfront]⟩

theorem or_assoc (a b c : SyntaxError) : (a.or b).or c = a.or (b.or c) :=
  (fold_eq_of_entries_eq (.both (.one a) (.both (.one b) (.one c)))
    (.both (.both (.one a) (.one b)) (.one c)) rfl).1

/-- The errors of a list reported one after the other, and all its groupings, report the entry that
prevails. -/
theorem prevails_foldl (first : SyntaxError) (others : List SyntaxError) : ∃ front back,
    first :: others = front ++ others.foldl .or first :: back ∧
      Prevails front (others.foldl .or first) back ∧
      ∀ t : Grouped SyntaxError, t.entries = first :: others →
        t.fold .or = others.foldl .or first ∧ t.choice = front.length := by
  obtain ⟨front, back, hsplit, hchoice, hprevails⟩ := prevails_fold (.fromLeft (.one first) others)
  have hentries := Grouped.entries_fromLeft (.one first) others
  have hfold := Grouped.fold_fromLeft .or (.one first) others
  rw [hentries, hfold] at hsplit
  rw [hfold] at hprevails
  refine ⟨front, back, hsplit, hprevails, fun t ht => ?_⟩
  obtain ⟨he, hplace⟩ := fold_eq_of_entries_eq _ t (ht.trans hentries.symm)
  exact ⟨he.trans hfold, hplace.trans hchoice⟩

theorem offset_eq_of_bytesLeft_eq (ha : IsBoundary text a.offset) (hb : IsBoundary text b.offset)
    (h : a.bytesLeft text = b.bytesLeft text) : a.offset = b.offset := by
  have hle := ha.le_size
  have hle' := hb.le_size
  simp only [bytesLeft] at h
  omega

/-- Errors of alternatives for what follows an equals sign, of which two are as far on as any and
say what was looked for. -/
def missingValue : List SyntaxError :=
  [⟨13, []⟩, ⟨13, ["a number"]⟩, ⟨5, ["a type"]⟩, ⟨13, ["a name"]⟩]

end SyntaxError

end DeclGen.Grammar
