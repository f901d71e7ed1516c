import DeclGen.Proofs.Grammar.ByteScan
import DeclGen.Proofs.Grammar.Extents

/-!
# Comments and literals in bytes

The ends of comments, character literals and raw strings are the same whether they are looked for
among the bytes of a text or among its characters. After a backslash the search through bytes may
go on inside a character; the bytes there are those of no ASCII character, so it gets to the end of
that character without noticing anything.

## Main definitions

* `placed`: numbers of characters as indices into the bytes
* `Inside`: an index at which no ASCII character starts

## Main statements

* `lineEnd_eq`, `closingLength_eq`, `charEnd_eq`, `rawEnd_eq`: the two searches agree
-/

namespace DeclGen.Grammar

open DeclGen.Text

variable {bs hs : List UInt8} {i n : Nat} {c : Char} {s t : List Char} {p : Char → Bool}

/-! ## Places -/

/-- A number of characters of a text that stands at an index, as the index behind them. -/
def placed (i : Nat) (s : List Char) (o : Option Nat) : Option Nat :=
  o.map fun n => i + size (s.take n)

@[simp] theorem placed_none : placed i s none = none := rfl

@[simp] theorem placed_some : placed i s (some n) = some (i + size (s.take n)) := rfl

/-- Counting behind the first `k` characters. -/
theorem placed_drop (k : Nat) (o : Option Nat) :
    placed (i + size (s.take k)) (s.drop k) o = placed i s (o.map (k + ·)) := by
  cases o with
  | none => rfl
  | some n => simp [List.take_add, Nat.add_assoc]

theorem placed_cons (o : Option Nat) :
    placed (i + c.utf8Size) s o = placed i (c :: s) (o.map (· + 1)) := by
  cases o with
  | none => rfl
  | some n => simp [Nat.add_assoc]

namespace ByteScan

/-! ## Inside characters -/

def Inside (bs : List UInt8) (i : Nat) : Prop := ∃ b, bs[i]? = some b ∧ 0x80 ≤ b.toNat

theorem Inside.isAt_eq_false (h : Inside bs i) : isAt bs p i = false := by
  obtain ⟨b, hb, hle⟩ := h
  rw [isAt, hb]
  exact asByte_of_le hle

/-- A search that goes on by one byte inside characters gets to where they end. -/
theorem skip_of_step {α : Type} {f : Nat → α} (hstep : ∀ i, Inside bs i → f i = f (i + 1))
    (h : bs.drop i = hs ++ bytes s) (hhs : ∀ b ∈ hs, 0x80 ≤ b.toNat) : f i = f (i + hs.length) := by
  induction hs generalizing i with
  | nil => rfl
  | cons b hs ih =>
    have hi : bs[i]? = some b := by
      rw [← Nat.add_zero i, ← List.getElem?_drop, h]
      rfl
    have hdrop : bs.drop (i + 1) = hs ++ bytes s := by
      rw [← List.drop_drop, h]
      rfl
    rw [hstep i ⟨b, hi, hhs b List.mem_cons_self⟩,
      ih hdrop fun b hb => hhs b (List.mem_cons_of_mem _ hb), List.length_cons]
    congr 1
    omega

/-- A search that goes on by one byte inside characters steps over a whole one. -/
theorem skip_char {α : Type} {f : Nat → α} (hstep : ∀ i, Inside bs i → f i = f (i + 1))
    (h : Stands bs i (c :: s)) (hc : isAscii c = false) : f i = f (i + c.utf8Size) := by
  rw [← String.length_utf8EncodeChar]
  exact skip_of_step hstep h fun b hb => le_of_mem_utf8EncodeChar hc hb

/-- Such a search also gets to the end of a character of which it has left out the first byte. -/
theorem skip_behind {α : Type} {f : Nat → α} (hstep : ∀ i, Inside bs i → f i = f (i + 1))
    (h : Stands bs i (c :: s)) : f (i + 1) = f (i + c.utf8Size) := by
  cases hc : isAscii c with
  | true => rw [utf8Size_eq_one_iff.mpr hc]
  | false =>
    obtain ⟨b, hs, hbs⟩ := List.exists_cons_of_ne_nil (String.utf8EncodeChar_ne_nil (c := c))
    have hdrop : bs.drop (i + 1) = hs ++ bytes s := by
      rw [← List.drop_drop, h, bytes_cons, hbs]
      rfl
    have hlength : hs.length + 1 = c.utf8Size := by
      rw [← String.length_utf8EncodeChar, hbs, List.length_cons]
    rw [skip_of_step hstep hdrop fun b hb => le_of_mem_utf8EncodeChar hc (by simp [hbs, hb])]
    congr 1
    omega

/-! ## Front parts and comments -/

theorem isAt_eq (hp : OnlyAscii p) (h : Stands bs i s) : isAt bs p i = s.head?.any p :=
  h.any_getElem? hp

theorem isAt_beq (d : Char) (hd : isAscii d = true) (h : Stands bs i s) :
    isAt bs (· == d) i = s.head?.any (· == d) :=
  isAt_eq (.beq hd) h

theorem run_eq (hp : OnlyAscii p) (h : Stands bs i s) :
    run bs (asByte p) i = (s.takeWhile p).length := by
  rw [run, h, takeWhile_bytes hp, length_bytes, hp.size_takeWhile]

theorem run_not_eq (hp : OnlyAscii p) (h : Stands bs i s) :
    run bs (fun b => !asByte p b) i = size (s.takeWhile fun c => !p c) := by
  rw [run, h, takeWhile_not_bytes hp, length_bytes]

/-- Inside characters a run of bytes that are none of some ASCII characters goes on. -/
theorem Inside.add_run (h : Inside bs i) :
    i + run bs (fun b => !asByte p b) i = i + 1 + run bs (fun b => !asByte p b) (i + 1) := by
  obtain ⟨b, hb, hle⟩ := h
  obtain ⟨hi, rfl⟩ := List.getElem?_eq_some_iff.mp hb
  rw [run, run, List.drop_eq_getElem_cons hi, List.takeWhile_cons, asByte_of_le hle]
  simp only [Bool.not_false, if_true, List.length_cons]
  omega

theorem onlyAscii_beq_lineFeed : OnlyAscii (· == '\n') := .beq (by decide)

/-- The end of a line comment whose second `/` is at an index. -/
theorem lineEnd_eq (h : Stands bs i ('/' :: s)) :
    some (lineEnd bs (i + 1)) = placed i ('/' :: s) (commentTail ('/' :: s)) := by
  have hs : Stands bs (i + 1) s := h.of_cons
  have hslash : '/'.utf8Size = 1 := by decide
  have hfeed : '\n'.utf8Size = 1 := by decide
  obtain ⟨x, t, rfl, hx, ht⟩ := exists_takeWhile_append (fun c => !(c == '\n')) s
  have hlength : lineLength (x ++ t) = x.length := congrArg List.length hx
  have hrun := run_not_eq onlyAscii_beq_lineFeed hs
  rw [hx] at hrun
  rw [commentTail, lineEnd, hrun, hlength, isAt_eq onlyAscii_beq_lineFeed hs.append, List.drop_left]
  cases t with
  | nil => simp [hslash, Nat.add_assoc]
  | cons d t =>
    have hd : d = '\n' := by simpa using ht
    subst hd
    simp [List.take_append, List.take_of_length_le, hslash, hfeed, Nat.add_assoc]

theorem closingLength_cons (b : UInt8) (hs : List UInt8) :
    closingLength (b :: hs) =
      if asByte (· == '*') b && hs.head?.any (asByte (· == '/')) then some 2
      else (closingLength hs).map (· + 1) := by
  cases hs with
  | nil => simp [closingLength]
  | cons b' hs => simp [closingLength]

theorem commentLength_cons (c : Char) (s : List Char) :
    commentLength (c :: s) =
      if c == '*' && s.head?.any (· == '/') then some 2 else (commentLength s).map (· + 1) := by
  split
  next h =>
    rw [Bool.and_eq_true, beq_iff_eq] at h
    obtain ⟨rfl, hs⟩ := h
    cases s with
    | nil => cases hs
    | cons d s =>
      obtain rfl : d = '/' := by simpa using hs
      rfl
  next h =>
    rw [commentLength]
    rintro u rfl rfl
    simp at h

/-- Bytes of no ASCII character hold no part of the end of a comment. -/
theorem closingLength_append (h : ∀ b ∈ hs, 0x80 ≤ b.toNat) (hs' : List UInt8) :
    closingLength (hs ++ hs') = (closingLength hs').map (hs.length + ·) := by
  induction hs with
  | nil => simp
  | cons b hs ih =>
    rw [List.cons_append, closingLength_cons, asByte_of_le (h b List.mem_cons_self),
      ih fun b hb => h b (List.mem_cons_of_mem _ hb)]
    simp [Nat.add_right_comm, Function.comp_def]

/-- The end of a block comment behind its `/*`. -/
theorem closingLength_eq (s : List Char) :
    closingLength (bytes s) = (commentLength s).map fun n => size (s.take n) := by
  induction s with
  | nil => rfl
  | cons c s ih =>
    have hstar : OnlyAscii (· == '*') := .beq (by decide)
    rw [bytes_cons, commentLength_cons]
    cases hc : isAscii c with
    | true =>
      have hsize : c.utf8Size = 1 := utf8Size_eq_one_iff.mpr hc
      rw [utf8EncodeChar_of_isAscii hc, List.singleton_append, closingLength_cons,
        asByte_of_isAscii hc, any_head?_bytes (.beq (by decide)), ih]
      split
      next h =>
        cases s with
        | nil => simp at h
        | cons d s =>
          obtain ⟨rfl, rfl⟩ : c = '*' ∧ d = '/' := by simpa using h
          rfl
      next => simp [Function.comp_def, hsize, Nat.add_comm]
    | false =>
      have hhigh (b : UInt8) (hb : b ∈ String.utf8EncodeChar c) : 0x80 ≤ b.toNat :=
        le_of_mem_utf8EncodeChar hc hb
      rw [closingLength_append hhigh, ih, String.length_utf8EncodeChar, hstar.eq_false hc]
      simp [Function.comp_def]

/-! ## Character literals and raw strings -/

theorem onlyAscii_endsCharacter : OnlyAscii endsCharacter :=
  .or (.beq (by decide)) (.beq (by decide))

/-- The number of characters up to the end of the next `'` in the line. -/
def quoteTail (s : List Char) : Option Nat :=
  let n := (s.takeWhile fun c => !endsCharacter c).length
  if (s.drop n).head? == some '\'' then some (n + 1) else none

def quoteEnd (bs : List UInt8) (i : Nat) : Option Nat :=
  let j := i + run bs (fun b => !asByte endsCharacter b) i
  if isAt bs (· == '\'') j then some (j + 1) else none

/-- A backslash and the character behind it cannot end the literal. -/
theorem charTail_eq (s : List Char) :
    charTail s =
      if s.head? == some '\\' then (quoteTail (s.drop 2)).map (2 + ·) else quoteTail s := by
  have hstop : (fun c : Char => c != '\'' && c != '\n') = fun c => !endsCharacter c := by
    funext c
    simp [endsCharacter, bne]
  rw [charTail, quoteTail, quoteTail, hstop]
  split
  next =>
    simp only [List.drop_drop]
    split <;> simp [Nat.add_assoc]
  next => simp

theorem index?_charEnd (i : Nat) :
    index? (charEnd bs i) = quoteEnd bs (if isAt bs (· == '\\') (i + 1) then i + 3 else i + 1) := by
  rw [charEnd, quoteEnd]
  split <;> split <;> rfl

theorem quoteEnd_eq (h : Stands bs i s) : quoteEnd bs i = placed i s (quoteTail s) := by
  have hquote : '\''.utf8Size = 1 := by decide
  obtain ⟨x, t, rfl, hx, -⟩ := exists_takeWhile_append (fun c => !endsCharacter c) s
  have hrun := run_not_eq onlyAscii_endsCharacter h
  rw [hx] at hrun
  rw [quoteEnd, quoteTail, hrun, hx, isAt_eq (.beq (by decide)) h.append, List.drop_left]
  cases t with
  | nil => rfl
  | cons d t =>
    cases hd : d == '\'' with
    | false => simp [hd]
    | true =>
      obtain rfl := eq_of_beq hd
      simp [List.take_append, List.take_of_length_le, hquote, Nat.add_assoc]

theorem Inside.quoteEnd_eq (h : Inside bs i) : quoteEnd bs i = quoteEnd bs (i + 1) := by
  rw [quoteEnd, quoteEnd, h.add_run]

theorem quoteEnd_of_nil (h : Stands bs i []) : quoteEnd bs (i + 1) = none := by
  have hrun : run bs (fun b => !asByte endsCharacter b) (i + 1) = 0 := by
    rw [run, ← List.drop_drop, h]
    rfl
  rw [quoteEnd, hrun, isAt, Nat.add_zero, h.getElem?_nil]
  rfl

/-- The end of a character literal whose quote is at an index. -/
theorem charEnd_eq (h : Stands bs i ('\'' :: s)) :
    index? (charEnd bs i) = placed i ('\'' :: s) ((charTail s).map (1 + ·)) := by
  have hs : Stands bs (i + 1) s := h.of_cons
  have hquote : i + 1 = i + size (('\'' :: s).take 1) := rfl
  rw [← placed_drop, ← hquote, List.drop_one, List.tail_cons, index?_charEnd, charTail_eq,
    isAt_eq (.beq (by decide)) hs]
  cases s with
  | nil => exact quoteEnd_eq hs
  | cons d s =>
    cases hd : d == '\\' with
    | false => simpa [hd] using quoteEnd_eq hs
    | true =>
      obtain rfl := eq_of_beq hd
      have hs' : Stands bs (i + 2) s := hs.of_cons
      cases s with
      | nil => simpa [quoteTail] using quoteEnd_of_nil hs'
      | cons e s =>
        -- The byte behind the backslash is left out, the others of its character are stepped over.
        have hskip := skip_behind (fun j => Inside.quoteEnd_eq (i := j)) hs'
        have hend := quoteEnd_eq hs'.of_cons
        have hplace : i + 2 + e.utf8Size = i + 1 + size (('\\' :: e :: s).take 2) := by
          have : '\\'.utf8Size = 1 := by decide
          simp [this]
          omega
        rw [hplace] at hend hskip
        simpa [← placed_drop, hskip] using hend

theorem onlyAscii_beq_quote : OnlyAscii (· == '"') := .beq (by decide)

theorem le_length_of_stands_nil (h : Stands bs i []) : bs.length ≤ i :=
  List.drop_eq_nil_iff.mp h

theorem lt_length_of_stands_cons (h : Stands bs i (c :: s)) : i < bs.length := by
  have hlength := congrArg List.length h
  rw [List.length_drop, length_bytes, size_cons] at hlength
  have := c.utf8Size_pos
  omega

theorem index?_rawEnd_of_lt {quotes : Nat} (hi : i < bs.length)
    (hrun : run bs (asByte (· == '"')) i = n) :
    index? (rawEnd bs quotes i) =
      if quotes ≤ n then some (i + n) else index? (rawEnd bs quotes (i + max n 1)) := by
  subst hrun
  rw [rawEnd, dif_pos hi]
  dsimp only
  split <;> simp

theorem index?_rawEnd_of_le {quotes : Nat} (hi : bs.length ≤ i) :
    index? (rawEnd bs quotes i) = none := by
  rw [rawEnd, dif_neg (Nat.not_lt.mpr hi)]
  rfl

theorem Inside.index?_rawEnd {quotes : Nat} (hquotes : 0 < quotes) (h : Inside bs i) :
    index? (rawEnd bs quotes i) = index? (rawEnd bs quotes (i + 1)) := by
  obtain ⟨b, hb, hle⟩ := h
  obtain ⟨hi, rfl⟩ := List.getElem?_eq_some_iff.mp hb
  have hrun : run bs (asByte (· == '"')) i = 0 := by
    rw [run, List.drop_eq_getElem_cons hi, List.takeWhile_cons, asByte_of_le hle]
    rfl
  rw [index?_rawEnd_of_lt hi hrun, if_neg (Nat.not_le.mpr hquotes)]
  rfl

/-- The end of a raw string, from behind its opening quotes on. -/
theorem rawEnd_eq {quotes : Nat} (hquotes : 0 < quotes) (h : Stands bs i s) :
    index? (rawEnd bs quotes i) = placed i s (rawTail quotes 0 s) := by
  induction hn : s.length using Nat.strongRecOn generalizing s i with
  | ind n ih =>
    obtain ⟨x, t, rfl, hx, ht⟩ := exists_takeWhile_append (· == '"') s
    have hquote (c : Char) (hc : c ∈ x) : c = '"' := by
      rw [← hx] at hc
      exact eq_of_beq (List.all_eq_true.mp List.all_takeWhile c hc)
    have hsize : size x = x.length := by
      rw [← hx]
      exact onlyAscii_beq_quote.size_takeWhile _
    have hrun := run_eq onlyAscii_beq_quote h
    rw [hx] at hrun
    rw [rawTail_append hquotes hquote ht, Nat.zero_add]
    have htake : size ((x ++ t).take x.length) = x.length := by rw [List.take_left, hsize]
    cases x with
    | nil =>
      cases t with
      | nil =>
        rw [index?_rawEnd_of_le (le_length_of_stands_nil h)]
        simp [rawTail, Nat.not_le.mpr hquotes]
      | cons d t =>
        have hd : (d == '"') = false := by simpa using ht
        have hskip := skip_behind (fun j => Inside.index?_rawEnd (i := j) hquotes) h
        have hrest := ih t.length (by simp [← hn]) h.of_cons rfl
        have hnot : ¬ quotes ≤ 0 := Nat.not_le.mpr hquotes
        rw [index?_rawEnd_of_lt (lt_length_of_stands_cons h) hrun]
        simp only [List.length_nil, if_neg hnot, Nat.zero_add, Option.map_id', List.nil_append,
          rawTail, hd, Bool.false_eq_true, if_false]
        exact (hskip.trans hrest).trans (placed_cons _)
    | cons c x =>
      rw [index?_rawEnd_of_lt (lt_length_of_stands_cons h) hrun]
      split
      next => rw [placed_some, htake]
      next =>
        have hrest := ih t.length (by rw [← hn, List.length_append, List.length_cons]; omega)
          h.append rfl
        rw [hsize] at hrest
        rw [← placed_drop, htake, List.drop_left, Nat.max_eq_left (by simp), hrest]

end ByteScan

end DeclGen.Grammar
