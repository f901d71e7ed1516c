import DeclGen.Proofs.Grammar.ParsedTypes
import DeclGen.Proofs.Grammar.Totality

/-!
# What is read exactly

Where a parser reads a known text and leaves what is known to follow it, the offset that it ends at
is known too, because no character is read without being counted. So spans can be computed along
with what they belong to.

## Main statements

* `Reads.eq_ok`: a text that is read is counted
* `identifier_eq`: identifiers with their spans
* `Loop.rounds_last`, `Loop.rounds_more`: one round of a repetition
-/

namespace DeclGen.Grammar

open DeclGen.Grammar.Parser DeclGen.Text

variable {α : Type} {a : α} {c : Char} {s t w x : List Char} {o o' : Nat} {p : Parser α}

/-- What a parser reads it has counted. -/
theorem offset_of_eq_ok {R : Nat → α → Nat → Prop} (hp : ∀ text o, Moves text o p (R o))
    (h : p ⟨o, x ++ t⟩ = .ok (a, ⟨o', t⟩)) : o' = o + size x := by
  obtain ⟨⟨y, hy, hoffset⟩, -⟩ := Moves.exists_between hp h
  obtain rfl : x = y := List.append_cancel_right hy
  exact hoffset

theorem Reads.eq_ok {R : Nat → α → Nat → Prop} (h : Reads p (x ++ t) t (· = a))
    (hp : ∀ text o, Moves text o p (R o)) (o : Nat) :
    p ⟨o, x ++ t⟩ = .ok (a, ⟨o + size x, t⟩) := by
  obtain ⟨_, o', hread, rfl⟩ := h o
  rw [hread, offset_of_eq_ok hp hread]

theorem label_of_eq_ok {what : String} {c : Cursor} {r : α × Cursor} (h : p c = .ok r) :
    label what p c = .ok r := by
  rw [label, h]

theorem attempt_of_eq_ok {c c' : Cursor} (h : p c = .ok (a, c')) :
    attempt p c = .ok (some a, c') := by
  rw [Parser.attempt, h]

theorem attempt_of_fails (h : Fails p s) (o : Nat) : attempt p ⟨o, s⟩ = .ok (none, ⟨o, s⟩) := by
  obtain ⟨e, he⟩ := h o
  rw [Parser.attempt, he]

theorem lookahead_of_eq_ok {c c' : Cursor} (h : p c = .ok (a, c')) :
    lookahead p c = .ok (some a, c) := by
  rw [Parser.lookahead, h]

theorem lookahead_of_fails (h : Fails p s) (o : Nat) :
    lookahead p ⟨o, s⟩ = .ok (none, ⟨o, s⟩) := by
  obtain ⟨e, he⟩ := h o
  rw [Parser.lookahead, he]

theorem accept_of_fails {k : String} (h : Fails (symbol k) s) (o : Nat) :
    accept k ⟨o, s⟩ = .ok (false, ⟨o, s⟩) :=
  bind_of_eq_ok (attempt_of_fails h o)

theorem acceptKeyword_of_fails {k : String} (h : Fails (keyword k) s) (o : Nat) :
    acceptKeyword k ⟨o, s⟩ = .ok (false, ⟨o, s⟩) :=
  bind_of_eq_ok (attempt_of_fails h o)

theorem nextIs_of_head?_ne (h : s.head? ≠ some c) (o : Nat) :
    nextIs c ⟨o, s⟩ = .ok (false, ⟨o, s⟩) := by
  refine (bind_of_eq_ok (p := ahead) rfl).trans ?_
  rw [beq_eq_false_iff_ne.mpr h]
  rfl

theorem trivia_eq (hw : Trivia w) (hs : Stops s) (o : Nat) :
    trivia ⟨o, w ++ s⟩ = .ok ((), ⟨o + size w, s⟩) :=
  Reads.eq_ok ((reads_trivia hw hs).mono fun _ _ => rfl) (fun _ _ => moves_trivia) o

theorem word_eq (hx : IsWord x) (ht : WordEnds t) (o : Nat) :
    word ⟨o, x ++ t⟩ = .ok (String.ofList x, ⟨o + size x, t⟩) :=
  (reads_word hx ht).eq_ok (fun _ _ => moves_word) o

/-- What reading an identifier gives, places included. -/
theorem identifier_eq (hw : Trivia w) (hx : IsIdentifier x) (ht : WordEnds t) (o : Nat) :
    identifier ⟨o, w ++ (x ++ t)⟩ =
      .ok (⟨String.ofList x, ⟨o + size w, o + size w + size x⟩⟩, ⟨o + size w + size x, t⟩) := by
  refine (bind_of_eq_ok (trivia_eq hw hx.stops o)).trans ?_
  refine (bind_of_eq_ok (p := offset) rfl).trans ?_
  rcases hx with ⟨hx, hplain⟩ | ⟨y, rfl, hy⟩
  · have hat : acceptHere "@" ⟨o + size w, x ++ t⟩ = .ok (false, ⟨o + size w, x ++ t⟩) :=
      bind_of_eq_ok (attempt_of_fails (fails_literal hx.not_isPrefixOf_at) _)
    refine (bind_of_eq_ok hat).trans ((bind_of_eq_ok (word_eq hx ht _)).trans ?_)
    simp only [hplain]
    rfl
  · have hat : acceptHere "@" ⟨o + size w, "@".toList ++ (y ++ t)⟩ =
        .ok (true, ⟨o + size w + size "@".toList, y ++ t⟩) :=
      (reads_acceptHere "@" (y ++ t)).eq_ok (fun _ _ => moves_acceptHere (by decide)) _
    refine (bind_of_eq_ok (p := acceptHere "@") hat).trans ?_
    refine (bind_of_eq_ok (p := word) (word_eq hy ht _)).trans ?_
    have hsize : o + size w + size "@".toList + size y = o + size w + size ('@' :: y) := by
      simp [Nat.add_assoc]
    rw [hsize]
    have htext : "@" ++ String.ofList y = String.ofList ('@' :: y) := String.ext (by simp)
    rw [← htext]
    rfl

/-! ## Repetition and texts -/

/-- A repetition is one turn of itself. -/
theorem Loop.rounds_eq {p : Parser (Round α)} (h : Loop p) : rounds p = turn p (rounds p) :=
  funext fun c => (h.descends c (fun _ => rounds p) (fun _ _ _ => rfl) ()).symm

theorem Loop.rounds_last {p : Parser (Round α)} {c c' : Cursor} (hp : Loop p)
    (h : p c = .ok (.last a, c')) : rounds p c = .ok ([a], c') := by
  rw [hp.rounds_eq]
  exact bind_of_eq_ok h

theorem Loop.rounds_more {p : Parser (Round α)} {c c' : Cursor} (hp : Loop p)
    (h : p c = .ok (.more a, c')) :
    rounds p c = (do return a :: (← rounds p) : Parser (List α)) c' :=
  (congrFun hp.rounds_eq c).trans (bind_of_eq_ok h)

theorem many_eq_nil {p : Parser (Option α)} {c c' : Cursor} (h : p c = .ok (none, c')) :
    many p c = .ok ([], c') := by
  have hstop : manyRound p c = .ok (.stop, c') := bind_of_eq_ok h
  rw [many, rounds, hstop]

theorem withText_eq (h : p ⟨o, x ++ t⟩ = .ok (a, ⟨o', t⟩)) :
    withText p ⟨o, x ++ t⟩ = .ok ((a, x), ⟨o', t⟩) := by
  rw [withText, h]
  simp

/-- The text that was read and what is left are all there was. -/
theorem exists_of_withText {R : Nat → α → Nat → Prop} {r : α × List Char} {c c' : Cursor}
    (hp : ∀ text o, Moves text o p (R o)) (h : withText p c = .ok (r, c')) :
    p c = .ok (r.1, c') ∧ r.2 ++ c'.rest = c.rest := by
  rw [withText] at h
  split at h
  next a c₁ hread =>
    obtain ⟨⟨y, hy, -⟩, -⟩ := Moves.exists_between hp hread
    cases h
    refine ⟨hread, ?_⟩
    dsimp only
    rw [hy]
    simp
  next => cases h

end DeclGen.Grammar
