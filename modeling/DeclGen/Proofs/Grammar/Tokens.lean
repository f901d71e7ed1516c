import DeclGen.Grammar.Token
import DeclGen.Proofs.Grammar.Reads

/-!
# What token parsers read

Trivia is skipped whole, whatever follows it, and words and identifiers are read to their end.

## Main definitions

* `Trivia`, `Stops`: texts that are skipped, and texts with nothing to skip
* `opensTrivia`: the characters that trivia starts with
* `IsWord`, `IsIdentifier`: the texts of words and identifiers
* `WordEnds`, `NoWord`: texts before which a word ends, and texts without a word at the start
-/

namespace DeclGen.Grammar

open DeclGen.Grammar.Parser DeclGen.Text

variable {α : Type} {w x s t : List Char} {c : Char} {Q : α → Prop}

/-! ## Trivia -/

/-- The text is skipped as trivia, whatever follows it. -/
def Trivia (w : List Char) : Prop := ∀ t, triviaLength (w ++ t) = w.length + triviaLength t

/-- Nothing is skipped at the start of the text. -/
def Stops (t : List Char) : Prop := triviaLength t = 0

/-- No trivia is left behind all trivia. -/
theorem triviaLength_drop (s : List Char) : triviaLength (s.drop (triviaLength s)) = 0 := by
  fun_induction triviaLength s with
  | case1 => rw [List.drop_nil, triviaLength]
  | case2 c s n htail ih =>
    rw [Nat.add_assoc, Nat.add_comm 1, List.drop_succ_cons, ← List.drop_drop]
    exact ih
  | case3 c s htail => rw [List.drop_zero, triviaLength, htail]

theorem Trivia.nil : Trivia [] := fun t => by simp

theorem Trivia.append (hw : Trivia w) (hx : Trivia x) : Trivia (w ++ x) := by
  intro t
  rw [List.append_assoc, hw, hx, List.length_append, Nat.add_assoc]

theorem Trivia.cons (hc : isSpace c = true) (hw : Trivia w) : Trivia (c :: w) := by
  intro t
  have htail : triviaTail c (w ++ t) = some 0 := by simp [triviaTail, hc]
  rw [List.cons_append, triviaLength, htail]
  simp only [List.drop_zero, hw t, List.length_cons]
  omega

theorem Trivia.of_all (h : w.all isSpace = true) : Trivia w := by
  induction w with
  | nil => exact .nil
  | cons c w ih =>
    rw [List.all_cons, Bool.and_eq_true] at h
    exact .cons h.1 (ih h.2)

theorem lineLength_append (h : '\n' ∉ x) (t : List Char) :
    lineLength (x ++ '\n' :: t) = x.length := by
  have hall : ∀ c ∈ x, (c != '\n') = true := by
    intro c hc
    rw [bne_iff_ne]
    exact fun heq => h (heq ▸ hc)
  rw [lineLength, List.takeWhile_append_of_pos hall]
  simp

/-- A line comment and the line feed that ends it. -/
theorem Trivia.lineComment (h : '\n' ∉ x) : Trivia ('/' :: '/' :: x ++ ['\n']) := by
  intro t
  have htail : triviaTail '/' ('/' :: (x ++ '\n' :: t)) = some (x.length + 1) := by
    simp [triviaTail, isSpace, lineLength_append h]
  have hfeed := Trivia.cons (c := '\n') (by decide) .nil t
  simp only [List.cons_append, List.append_assoc, List.nil_append] at hfeed ⊢
  rw [triviaLength, htail]
  simp only [List.drop_succ_cons, List.drop_left, hfeed, List.length_cons, List.length_append,
    List.length_nil]
  omega

def opensTrivia (c : Char) : Bool := isSpace c || c == '#' || c == '/'

theorem triviaTail_eq_none (h : opensTrivia c = false) (s : List Char) : triviaTail c s = none := by
  simp only [opensTrivia, Bool.or_eq_false_iff, beq_eq_false_iff_ne] at h
  obtain ⟨⟨hspace, hash⟩, hslash⟩ := h
  simp [triviaTail, hspace, hash, hslash]

theorem Stops.cons (h : opensTrivia c = false) : Stops (c :: t) := by
  rw [Stops, triviaLength, triviaTail_eq_none h]

theorem Stops.nil : Stops [] := by simp [Stops, triviaLength]

theorem reads_trivia (hw : Trivia w) (ht : Stops t) : Reads trivia (w ++ t) t fun _ => True := by
  have hlength : triviaLength (w ++ t) = w.length := by rw [hw, ht, Nat.add_zero]
  refine .ahead_bind ?_
  rw [hlength]
  exact (Reads.take_append w).bind fun _ _ => .pure trivial

theorem trivia_append (hw : Trivia w) (o : Nat) : trivia ⟨o, w ++ s⟩ = trivia ⟨o + size w, s⟩ := by
  change Except.ok ((), Cursor.skip _ _) = Except.ok ((), Cursor.skip _ _)
  simp only [Cursor.skip, hw s, List.take_length_add_append, List.drop_length_add_append,
    size_append, Nat.add_assoc]

/-- Trivia in front of a parser that skips it makes no difference. -/
theorem Reads.skip {f : Unit → Parser α} (hw : Trivia w) (h : Reads (trivia >>= f) s t Q) :
    Reads (trivia >>= f) (w ++ s) t Q := by
  intro o
  obtain ⟨a, o', hp, ha⟩ := h (o + size w)
  refine ⟨a, o', ?_, ha⟩
  rw [← hp, bind_apply, bind_apply, trivia_append hw]

theorem Fails.skip {f : Unit → Parser α} (hw : Trivia w) (h : Fails (trivia >>= f) s) :
    Fails (trivia >>= f) (w ++ s) := by
  intro o
  obtain ⟨e, he⟩ := h (o + size w)
  refine ⟨e, ?_⟩
  rw [← he, bind_apply, bind_apply, trivia_append hw]

/-- A parser that skips trivia first, where there is none. -/
theorem Reads.of_stops {f : Unit → Parser α} (hs : Stops s) (h : Reads (f ()) s t Q) :
    Reads (trivia >>= f) s t Q :=
  (reads_trivia .nil hs).bind fun _ _ => h

theorem Fails.of_stops {f : Unit → Parser α} (hs : Stops s) (h : Fails (f ()) s) :
    Fails (trivia >>= f) s :=
  .bind (reads_trivia .nil hs) fun _ _ => h

/-! ## Words -/

def IsWord : List Char → Prop
  | [] => False
  | c :: x => isWordStart c = true ∧ ∀ d ∈ x, isWordPart d = true

instance : DecidablePred IsWord
  | [] => inferInstanceAs (Decidable False)
  | c :: x => decidable_of_iff (isWordStart c = true ∧ x.all isWordPart = true) (by simp [IsWord])

/-- A word before the text ends there. -/
def WordEnds (t : List Char) : Prop := ∀ c, t.head? = some c → isWordPart c = false

def NoWord (t : List Char) : Prop := ∀ c, t.head? = some c → isWordStart c = false

theorem WordEnds.cons (h : isWordPart c = false) : WordEnds (c :: t) := by
  intro d hd
  cases hd
  exact h

theorem NoWord.cons (h : isWordStart c = false) : NoWord (c :: t) := by
  intro d hd
  cases hd
  exact h

theorem ne_of_isWordPart {d : Char} (hc : isWordPart c = true) (hd : isWordPart d = false) :
    c ≠ d := by
  rintro rfl
  rw [hc] at hd
  cases hd

/-- Words and trivia have no character in common to start with. -/
theorem opensTrivia_of_isWordPart (h : isWordPart c = true) : opensTrivia c = false := by
  have hne (d : Char) (hd : isWordPart d = false) := beq_eq_false_iff_ne.mpr (ne_of_isWordPart h hd)
  simp [opensTrivia, isSpace, hne ' ' (by decide), hne '\t' (by decide), hne '\r' (by decide),
    hne '\n' (by decide), hne '#' (by decide), hne '/' (by decide)]

theorem IsWord.length_pos (h : IsWord x) : 0 < x.length := by
  cases x with
  | nil => exact h.elim
  | cons c x => exact Nat.succ_pos _

theorem IsWord.forall_isWordPart (h : IsWord x) : ∀ c ∈ x, isWordPart c = true := by
  cases x with
  | nil => exact h.elim
  | cons c x =>
    intro d hd
    rcases List.mem_cons.mp hd with rfl | hd
    · exact isWordPart_of_isWordStart h.1
    · exact h.2 d hd

/-- The text of a word is no trivia. -/
theorem IsWord.stops (h : IsWord x) : Stops (x ++ t) := by
  cases x with
  | nil => exact h.elim
  | cons c x => exact .cons (opensTrivia_of_isWordPart (isWordPart_of_isWordStart h.1))

theorem Trivia.wordEnds (hw : Trivia w) (ht : WordEnds t) : WordEnds (w ++ t) := by
  cases w with
  | nil => exact ht
  | cons c w =>
    -- otherwise `c` opens no trivia, so that nothing of `c :: w` is skipped
    by_cases hc : isWordPart c = true
    · have hlength := hw []
      simp [triviaLength, triviaTail_eq_none (opensTrivia_of_isWordPart hc)] at hlength
    · exact .cons (Bool.eq_false_iff.mpr hc)

/-- What no word starts with. -/
theorem IsWord.head?_ne {c : Char} (h : IsWord x) (hc : isWordStart c = false) :
    (x ++ t).head? ≠ some c := by
  cases x with
  | nil => exact h.elim
  | cons d x =>
    rintro ⟨⟩
    rw [h.1] at hc
    cases hc

theorem wordLength_append (hx : IsWord x) (ht : WordEnds t) :
    wordLength (x ++ t) = x.length := by
  have hend : t.takeWhile isWordPart = [] := by
    cases t with
    | nil => rfl
    | cons c t => simp [ht c rfl]
  cases x with
  | nil => exact hx.elim
  | cons c x =>
    rw [List.cons_append, wordLength, if_pos hx.1, List.takeWhile_append_of_pos hx.2, hend]
    simp

theorem wordLength_of_noWord (h : NoWord t) : wordLength t = 0 := by
  cases t with
  | nil => rfl
  | cons c t => simp [wordLength, h c rfl]

theorem reads_word (hx : IsWord x) (ht : WordEnds t) :
    Reads word (x ++ t) t (· = String.ofList x) := by
  refine .ahead_bind ?_
  obtain ⟨n, hn⟩ : ∃ n, x.length = n + 1 := ⟨x.length - 1, by have := hx.length_pos; omega⟩
  rw [wordLength_append hx ht, hn]
  have htake := Reads.take_append (t := t) x
  rw [hn] at htake
  exact htake.bind_eq (.pure rfl)

theorem fails_word (h : NoWord t) : Fails word t := by
  refine .ahead_bind ?_
  rw [wordLength_of_noWord h]
  exact .fail

theorem reads_peekWord (hw : Trivia w) (hx : IsWord x) (ht : WordEnds t) :
    Reads peekWord (w ++ (x ++ t)) (w ++ (x ++ t)) (· = some (String.ofList x)) := by
  have h : Reads (do trivia; word) (w ++ (x ++ t)) t (· = String.ofList x) :=
    .skip hw (.of_stops hx.stops (reads_word hx ht))
  refine h.lookahead.mono fun r hr => ?_
  obtain ⟨_, rfl, rfl⟩ := hr
  rfl

theorem reads_keyword {kw : String} (hw : Trivia w) (hkw : IsWord kw.toList) (ht : WordEnds t) :
    Reads (keyword kw) (w ++ (kw.toList ++ t)) t fun _ => True := by
  refine .skip hw (.of_stops hkw.stops (.offset_bind fun o => ?_))
  refine (reads_word hkw ht).bind_eq ?_
  simp only [String.ofList_toList, beq_self_eq_true, if_true]
  exact .pure trivial

theorem fails_keyword {kw : String} (hw : Trivia w) (hx : IsWord x) (ht : WordEnds t)
    (hne : String.ofList x ≠ kw) : Fails (keyword kw) (w ++ (x ++ t)) := by
  refine .skip hw (.of_stops hx.stops (.offset_bind fun o => ?_))
  refine .bind_eq (reads_word hx ht) ?_
  simp only [beq_iff_eq, if_neg hne]
  exact .failAt o kw

theorem fails_keyword_of_noWord {kw : String} (hw : Trivia w) (hs : Stops t) (ht : NoWord t) :
    Fails (keyword kw) (w ++ t) :=
  .skip hw (.of_stops hs (.offset_bind fun _ => .bind_left (fails_word ht)))

theorem reads_acceptKeyword {kw : String} (hw : Trivia w) (hkw : IsWord kw.toList)
    (ht : WordEnds t) : Reads (acceptKeyword kw) (w ++ (kw.toList ++ t)) t (· = true) := by
  refine (reads_keyword hw hkw ht).attempt.bind fun r hr => ?_
  obtain ⟨_, rfl, -⟩ := hr
  exact .pure rfl

theorem reads_acceptKeyword_false {kw : String} (h : Fails (keyword kw) s) :
    Reads (acceptKeyword kw) s s (· = false) :=
  (Reads.attempt_none h).bind_eq (.pure rfl)

/-! ## Symbols -/

theorem reads_nextIs (c : Char) (s : List Char) :
    Reads (nextIs c) s s (· = (s.head? == some c)) :=
  .ahead_bind (.pure rfl)

theorem reads_startsWith (x : String) (s : List Char) :
    Reads (startsWith x) s s (· = x.toList.isPrefixOf s) :=
  .ahead_bind (.pure rfl)

theorem reads_literal (x : String) (t : List Char) :
    Reads (literal x) (x.toList ++ t) t fun _ => True := by
  refine (reads_startsWith x _).bind fun b hb => ?_
  have hprefix : x.toList.isPrefixOf (x.toList ++ t) = true :=
    List.isPrefixOf_iff_prefix.mpr (List.prefix_append _ _)
  rw [hb, hprefix, if_pos rfl, ← String.length_toList]
  exact (Reads.take_append x.toList).bind fun _ _ => .pure trivial

/-- A text with another first character is no match. -/
theorem isPrefixOf_of_head?_ne {y : List Char} (h : s.head? ≠ some c) :
    (c :: y).isPrefixOf s = false := by
  cases s with
  | nil => rfl
  | cons d s =>
    have hne : c ≠ d := fun heq => h (heq ▸ rfl)
    simp [List.isPrefixOf, hne]

theorem fails_literal {x : String} (h : x.toList.isPrefixOf s = false) : Fails (literal x) s := by
  refine .bind_eq (reads_startsWith x s) ?_
  rw [h]
  exact .fail

theorem reads_symbol {x : String} (hw : Trivia w) (hx : Stops (x.toList ++ t)) :
    Reads (symbol x) (w ++ (x.toList ++ t)) t fun _ => True :=
  .skip hw (.of_stops hx (reads_literal x t))

theorem fails_symbol {x : String} (hw : Trivia w) (hs : Stops s)
    (h : x.toList.isPrefixOf s = false) : Fails (symbol x) (w ++ s) :=
  .skip hw (.of_stops hs (fails_literal h))

theorem reads_accept {x : String} (hw : Trivia w) (hx : Stops (x.toList ++ t)) :
    Reads (accept x) (w ++ (x.toList ++ t)) t (· = true) := by
  refine (reads_symbol hw hx).attempt.bind fun r hr => ?_
  obtain ⟨_, rfl, -⟩ := hr
  exact .pure rfl

theorem reads_accept_false {x : String} (hw : Trivia w) (hs : Stops s)
    (h : x.toList.isPrefixOf s = false) : Reads (accept x) (w ++ s) (w ++ s) (· = false) :=
  (Reads.attempt_none (fails_symbol hw hs h)).bind_eq (.pure rfl)

theorem reads_acceptHere (x : String) (t : List Char) :
    Reads (acceptHere x) (x.toList ++ t) t (· = true) := by
  refine (reads_literal x t).attempt.bind fun r hr => ?_
  obtain ⟨_, rfl, -⟩ := hr
  exact .pure rfl

theorem reads_acceptHere_false {x : String} (h : x.toList.isPrefixOf s = false) :
    Reads (acceptHere x) s s (· = false) :=
  (Reads.attempt_none (fails_literal h)).bind_eq (.pure rfl)

/-! ## Identifiers -/

/-- The text is an identifier: a word that is not reserved, or any word behind `@`. -/
def IsIdentifier (x : List Char) : Prop :=
  (IsWord x ∧ isKeyword (String.ofList x) = false) ∨ ∃ y, x = '@' :: y ∧ IsWord y

theorem reads_spanFrom (start : Nat) (s : List Char) :
    Reads (spanFrom start) s s fun _ => True :=
  .offset_bind fun _ => .pure trivial

/-- No word starts with `@`. -/
theorem IsWord.not_isPrefixOf_at (h : IsWord x) : "@".toList.isPrefixOf (x ++ t) = false :=
  isPrefixOf_of_head?_ne (y := []) (h.head?_ne (by decide))

theorem IsIdentifier.stops (h : IsIdentifier x) : Stops (x ++ t) := by
  rcases h with ⟨h, -⟩ | ⟨y, rfl, -⟩
  · exact h.stops
  · exact .cons (by decide)

/-- What no identifier starts with. -/
theorem IsIdentifier.head?_ne (h : IsIdentifier x) (hc : isWordStart c = false) (hat : c ≠ '@') :
    (x ++ t).head? ≠ some c := by
  rcases h with ⟨h, -⟩ | ⟨y, rfl, -⟩
  · exact h.head?_ne hc
  · rintro ⟨⟩
    exact hat rfl

theorem reads_identifier (hw : Trivia w) (hx : IsIdentifier x) (ht : WordEnds t) :
    Reads identifier (w ++ (x ++ t)) t (·.text = String.ofList x) := by
  refine .skip hw (.of_stops hx.stops (.offset_bind fun start => ?_))
  rcases hx with ⟨hx, hplain⟩ | ⟨y, rfl, hy⟩
  · refine (reads_acceptHere_false hx.not_isPrefixOf_at).bind_eq ?_
    refine (reads_word hx ht).bind_eq ?_
    simp only [hplain, Bool.not_false, Bool.and_false, Bool.false_eq_true, if_false]
    exact (reads_spanFrom start t).bind fun _ _ => .pure rfl
  · refine (reads_acceptHere "@" (y ++ t)).bind_eq ?_
    refine (reads_word hy ht).bind_eq ?_
    simp only [Bool.not_true, Bool.false_and, Bool.false_eq_true, if_false, if_true]
    refine (reads_spanFrom start t).bind fun _ _ => .pure ?_
    apply String.ext
    simp

/-- A reserved word is no identifier. -/
theorem fails_identifier (hw : Trivia w) (hx : IsWord x) (hkey : isKeyword (String.ofList x) = true)
    (ht : WordEnds t) : Fails identifier (w ++ (x ++ t)) := by
  refine .skip hw (.of_stops hx.stops (.offset_bind fun start => ?_))
  refine .bind_eq (reads_acceptHere_false hx.not_isPrefixOf_at) ?_
  refine .bind_eq (reads_word hx ht) ?_
  simp only [hkey, Bool.not_false, Bool.and_self, if_true]
  exact .failAt start _

end DeclGen.Grammar
