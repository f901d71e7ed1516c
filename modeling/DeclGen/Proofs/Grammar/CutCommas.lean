import DeclGen.Grammar.Commas
import DeclGen.Proofs.Grammar.CutRegions

/-!
# Cutting lists

A list is cut at the commas between its parts. The search for them goes on byte by byte and looks
back at the byte before, which may be the last one of a character of several bytes.

## Main definitions

* `commaParts`, `splitCommas`: the parts

## Main statements

* `cutsRest`: the cuts from any place on, by induction on what is left
* `splitCommas_eq`: the cuts have an outcome
-/

namespace DeclGen.Grammar.Cutting

open DeclGen.Text

def closingAt (bs : List UInt8) (i : Nat) : Char :=
  if ByteScan.isAt bs (· == '(') i then ')' else if ByteScan.isAt bs (· == '[') i then ']' else '}'

/-- Whether the byte before an index is one of a word. -/
def afterWord (text : List Char) (i : Nat) : Bool :=
  0 < i && ByteScan.isAt (bytes text) isAsciiWordPart (i - 1)

/-- Cuts a list at its separating commas: the parts from the one that starts at `start` on, where
the search has got to index `i` and `angles` angle brackets are open. -/
def commaParts (text : List Char) (angles start i : Nat) : Option (List (List Char)) :=
  if i < (bytes text).length then
    if ByteScan.isAt (bytes text) (· == '<') i && afterWord text i then
      commaParts text (angles + 1) start (i + 1)
    else if ByteScan.isAt (bytes text) (· == '>') i && angles != 0 then
      commaParts text (angles - 1) start (i + 1)
    else if ByteScan.isAt (bytes text) (· == ',') i && angles == 0 then
      match between? start i text, commaParts text angles (i + 1) (i + 1) with
      | some part, some parts => some (part :: parts)
      | _, _ => none
    else if ByteScan.isAt (bytes text) isOpening i then
      match ByteScan.scanDepth (bytes text) (· == closingAt (bytes text) i) 0 (i + 1) with
      | some j => commaParts text angles start (j.1 + 1)
      | none => commaParts text angles start (bytes text).length
    else
      match ByteScan.literalEnd (bytes text) i with
      | some e => commaParts text angles start e.1
      | none => commaParts text angles start (i + 1)
  else (dropBytes? start text).map ([·])
termination_by (bytes text).length - i
decreasing_by all_goals grind

theorem prependPart_nil {parts : List (List Char)} (h : parts ≠ []) :
    prependPart [] parts = parts := by
  cases parts with
  | nil => exact absurd rfl h
  | cons part parts => rfl

theorem prependPart_append (x y : List Char) (parts : List (List Char)) :
    prependPart (x ++ y) parts = prependPart x (prependPart y parts) := by
  cases parts <;> simp [prependPart]

theorem commaParts_ne_nil (angles : Nat) (w : Bool) (s : List Char) :
    Grammar.commaParts angles w s ≠ [] := by
  have hprepend (x : List Char) (parts : List (List Char)) : prependPart x parts ≠ [] := by
    cases parts <;> simp [prependPart]
  cases s with
  | nil => simp [Grammar.commaParts]
  | cons c s =>
    rw [Grammar.commaParts]
    split
    · exact hprepend _ _
    split
    · exact hprepend _ _
    split
    · simp
    split
    · split
      · exact hprepend _ _
      · simp
    split <;> exact hprepend _ _

theorem onlyAscii_isAsciiWordPart : OnlyAscii isAsciiWordPart := by
  intro c hc
  rw [isAscii, decide_eq_true_eq]
  rcases (Bool.or_eq_true _ _).mp hc with hc | hc
  · have := printable_of_isAlphanum hc
    omega
  · obtain rfl := eq_of_beq hc
    decide

/-- No byte inside a longer character is ASCII, so one byte tells whether an ASCII word ends there.
-/
theorem afterWord_eq (y : List Char) (d : Char) (s : List Char) :
    afterWord (y ++ d :: s) (size y + d.utf8Size) = isAsciiWordPart d := by
  have hpos : 0 < size y + d.utf8Size := by
    have := d.utf8Size_pos
    omega
  have hstands : Stands (bytes (y ++ d :: s)) (size y) (d :: s) := .of_append y (d :: s)
  rw [afterWord, decide_eq_true hpos, Bool.true_and]
  cases hd : isAscii d with
  | true =>
    rw [utf8Size_eq_one_iff.mpr hd, Nat.add_sub_cancel,
      ByteScan.isAt_eq onlyAscii_isAsciiWordPart hstands]
    rfl
  | false =>
    -- The byte before is the last one of a character of several bytes.
    have hpos := d.utf8Size_pos
    have hlt : d.utf8Size - 1 < (String.utf8EncodeChar d).length := by
      rw [String.length_utf8EncodeChar]
      omega
    have hlast := hstands.getElem?_eq (d.utf8Size - 1)
    rw [bytes_cons, List.getElem?_append_left hlt, List.getElem?_eq_getElem hlt] at hlast
    have hinside : ByteScan.Inside (bytes (y ++ d :: s)) (size y + (d.utf8Size - 1)) :=
      ⟨_, hlast, le_of_mem_utf8EncodeChar hd (List.getElem_mem hlt)⟩
    rw [Nat.add_sub_assoc hpos, hinside.isAt_eq_false, onlyAscii_isAsciiWordPart.eq_false hd]

theorem afterWord_of_getLast? {text x s : List Char} {d : Char} (htext : text = x ++ s)
    (hd : x.getLast? = some d) : afterWord text (size x) = isAsciiWordPart d := by
  obtain ⟨y, rfl⟩ := List.getLast?_eq_some_iff.mp hd
  have hword := afterWord_eq y d s
  rw [htext, size_append, List.append_assoc]
  exact hword

theorem commaParts_inside {text : List Char} {angles start i : Nat}
    (h : ByteScan.Inside (bytes text) i) :
    commaParts text angles start i = commaParts text angles start (i + 1) := by
  have hlt : i < (bytes text).length := by
    obtain ⟨b, hb, -⟩ := h
    exact (List.getElem?_eq_some_iff.mp hb).1
  have hnone := h.literalEnd_eq
  rw [commaParts, if_pos hlt]
  simp [h.isAt_eq_false, hnone]

section

variable {text front pend s : List Char} {c : Char} {angles : Nat} {w : Bool}

/-- Behind `front` a part has started, of which `pend` has been stepped over: its cuts give what is
found in the rest `s` of the text. -/
def CutsRest (text front pend s : List Char) (angles : Nat) (w : Bool) : Prop :=
  commaParts text angles (size front) (size front + size pend) =
    some (prependPart pend (Grammar.commaParts angles w s))

/-- The cuts behind further characters of a part. -/
def CutsBehind (text front pend : List Char) (c : Char) (s : List Char) : Prop :=
  ∀ angles m w, s.drop m = [] ∨ w = afterWord text (size front + size (pend ++ c :: s.take m)) →
    CutsRest text front (pend ++ c :: s.take m) (s.drop m) angles w

theorem stands_rest (htext : text = front ++ (pend ++ s)) :
    Stands (bytes text) (size front + size pend) s := by
  have h := Stands.of_append (front ++ pend) s
  rwa [List.append_assoc, ← htext, size_append] at h

theorem cutsRest_end (htext : text = front ++ pend) : CutsRest text front pend [] angles w := by
  have hlength : ¬ size front + size pend < (bytes text).length := by simp [htext]
  rw [CutsRest, commaParts, if_neg hlength, htext, dropBytes?_size_append, Grammar.commaParts]
  simp [prependPart]

/-- A part ends before a separating comma, and the next one starts behind it. -/
theorem cuts_comma (htext : text = front ++ (pend ++ ',' :: s))
    (hs : CutsRest text (front ++ pend ++ [',']) [] s angles false) :
    (match between? (size front) (size front + size pend) text,
        commaParts text angles (size front + size pend + 1) (size front + size pend + 1) with
      | some part, some parts => some (part :: parts)
      | _, _ => none) = some (prependPart pend ([] :: Grammar.commaParts angles false s)) := by
  have hpart : between? (size front) (size front + size pend) text = some pend := by
    rw [htext, between?_append]
  have hindex : size (front ++ pend ++ [',']) = size front + size pend + 1 := by
    rw [size_append, size_append]
    rfl
  rw [CutsRest, hindex, size_nil, Nat.add_zero,
    prependPart_nil (commaParts_ne_nil angles false s)] at hs
  rw [hpart, hs]
  simp [prependPart]

/-- A character is stepped over. -/
theorem cuts_behind_one (angles : Nat) (htext : text = front ++ (pend ++ c :: s))
    (hs : CutsBehind text front pend c s) :
    commaParts text angles (size front) (size front + size pend + c.utf8Size) =
      some (prependPart pend
        (prependPart [c] (Grammar.commaParts angles (isAsciiWordPart c) s))) := by
  have hsplit : text = front ++ (pend ++ [c]) ++ s := by simp [htext]
  have hsize : size (pend ++ c :: s.take 0) = size pend + c.utf8Size := by simp
  have hword := afterWord_of_getLast? hsplit (d := c) (by simp)
  rw [size_append] at hword
  have hbehind := hs angles 0 (isAsciiWordPart c) (.inr hword.symm)
  rwa [CutsRest, hsize, ← Nat.add_assoc, prependPart_append] at hbehind

theorem cuts_one (angles : Nat) (htext : text = front ++ (pend ++ c :: s)) (hc : isAscii c = true)
    (hs : CutsBehind text front pend c s) :
    commaParts text angles (size front) (size front + size pend + 1) =
      some (prependPart pend
        (prependPart [c] (Grammar.commaParts angles (isAsciiWordPart c) s))) := by
  have hbehind := cuts_behind_one angles htext hs
  rwa [utf8Size_eq_one_iff.mpr hc] at hbehind

/-- Brackets are stepped over up to the one that closes them, or to the end. -/
theorem cuts_brackets (angles : Nat) (htext : text = front ++ (pend ++ c :: s))
    (hc : isAscii c = true) (hs : CutsBehind text front pend c s) :
    (match ByteScan.scanDepth (bytes text) (· == closingOf c) 0 (size front + size pend + 1) with
      | some j => commaParts text angles (size front) (j.1 + 1)
      | none => commaParts text angles (size front) (bytes text).length) =
    some (prependPart pend
      (match scan (· == closingOf c) 0 0 s with
      | some n =>
        prependPart (c :: s.take (n + 1)) (Grammar.commaParts angles false (s.drop (n + 1)))
      | none => [c :: s])) := by
  have hstands : Stands (bytes text) (size front + size pend + 1) s := by
    have htext' : text = front ++ ((pend ++ [c]) ++ s) := by simp [htext]
    have h := stands_rest htext'
    have hsize : size (pend ++ [c]) = size pend + 1 := by simp [utf8Size_eq_one_iff.mpr hc]
    rwa [hsize, ← Nat.add_assoc] at h
  have hclosing : isAscii (closingOf c) = true ∧ isAsciiWordPart (closingOf c) = false := by
    rw [closingOf]
    split
    · exact ⟨rfl, rfl⟩
    · split <;> exact ⟨rfl, rfl⟩
  have hbrackets := ByteScan.scanDepth_eq (.beq hclosing.1) hstands 0
  cases hj : ByteScan.scanDepth (bytes text) (· == closingOf c) 0 (size front + size pend + 1) with
  | none =>
    rw [hj] at hbrackets
    have hscan : scan (· == closingOf c) 0 0 s = none := by
      simpa [placed] using hbrackets.symm
    rw [hscan, commaParts, if_neg (Nat.lt_irrefl _), htext, dropBytes?_size_append]
    rfl
  | some j =>
    rw [hj] at hbrackets
    obtain ⟨m, hm, hindex⟩ := Option.map_eq_some_iff.mp hbrackets.symm
    obtain ⟨d, t, hdrop, hd⟩ := exists_of_scan hm
    obtain rfl := eq_of_beq hd
    have htake : s.take (m + 1) = s.take m ++ [closingOf c] := by
      rw [List.take_add, hdrop]
      rfl
    have hplace : size front + size (pend ++ c :: s.take (m + 1)) = j.1 + 1 := by
      rw [htake, ← hindex]
      simp [utf8Size_eq_one_iff.mpr hc, utf8Size_eq_one_iff.mpr hclosing.1]
      omega
    have hword : afterWord text (size front + size (pend ++ c :: s.take (m + 1))) = false := by
      have hsplit : text = front ++ (pend ++ c :: s.take (m + 1)) ++ s.drop (m + 1) := by
        simp [htext]
      have hlast : (front ++ (pend ++ c :: s.take (m + 1))).getLast? = some (closingOf c) := by
        rw [htake, List.getLast?_append, List.getLast?_append, List.getLast?_cons,
          List.getLast?_append]
        rfl
      rw [← size_append, afterWord_of_getLast? hsplit hlast, hclosing.2]
    have hbehind := hs angles (m + 1) false (.inr hword.symm)
    rw [CutsRest, hplace, prependPart_append] at hbehind
    rw [hm]
    exact hbehind

/-- A comment or literal is stepped over, and so is any other character. -/
theorem cuts_literal (angles : Nat) (htext : text = front ++ (pend ++ c :: s))
    (hc : isAscii c = true) (hs : CutsBehind text front pend c s) :
    (match ByteScan.literalEnd (bytes text) (size front + size pend) with
      | some e => commaParts text angles (size front) e.1
      | none => commaParts text angles (size front) (size front + size pend + 1)) =
    some (prependPart pend
      (match literalTail c s with
      | some n => prependPart (c :: s.take n) (Grammar.commaParts angles false (s.drop n))
      | none => prependPart [c] (Grammar.commaParts angles (isAsciiWordPart c) s))) := by
  have hstands := stands_rest htext
  have hliteral := ByteScan.literalEnd_eq hstands
  cases he : ByteScan.literalEnd (bytes text) (size front + size pend) with
  | none =>
    rw [he] at hliteral
    have htail : literalTail c s = none := by simpa [placed] using hliteral.symm
    rw [htail]
    exact cuts_one _ htext hc hs
  | some e =>
    rw [he] at hliteral
    obtain ⟨k, hk, hindex⟩ := Option.map_eq_some_iff.mp hliteral.symm
    obtain ⟨m, hm, rfl⟩ := Option.map_eq_some_iff.mp hk
    have hplace : size front + size (pend ++ c :: s.take m) = e.1 := by
      rw [size_append, ← Nat.add_assoc]
      exact hindex
    have hword : s.drop m = [] ∨
        false = afterWord text (size front + size (pend ++ c :: s.take m)) := by
      rcases getLast?_of_literalTail hm with hend | ⟨d, hd, hlast⟩
      · exact .inl hend
      · have hsplit : text = front ++ (pend ++ c :: s.take m) ++ s.drop m := by simp [htext]
        have hlast' : (front ++ (pend ++ c :: s.take m)).getLast? = some d := by
          rw [List.getLast?_append, List.getLast?_append, List.getLast?_cons, hlast]
          rfl
        have hnone : (['/', '\n', '\'', '"'].all fun d => !isAsciiWordPart d) = true := by decide
        refine .inr ?_
        rw [← size_append, afterWord_of_getLast? hsplit hlast']
        simpa using List.all_eq_true.mp hnone d hd
    have hbehind := hs angles m false hword
    rw [CutsRest, hplace, prependPart_append] at hbehind
    rw [hm]
    exact hbehind

/-- A step of the search, where everything behind it is cut rightly. -/
theorem cutsRest_cons (htext : text = front ++ (pend ++ c :: s))
    (hw : w = afterWord text (size front + size pend)) (hs : CutsBehind text front pend c s)
    (hcomma : CutsRest text (front ++ pend ++ [c]) [] s angles (isAsciiWordPart c)) :
    CutsRest text front pend (c :: s) angles w := by
  have hstands := stands_rest htext
  have hlt := ByteScan.lt_length_of_stands_cons hstands
  cases hc : isAscii c with
  | false =>
    have hne {d : Char} (hd : isAscii d = true) := beq_eq_false_of_not_isAscii hc hd
    have hbehind := cuts_behind_one angles htext hs
    rw [CutsRest, ByteScan.skip_char (fun _ => commaParts_inside) hstands hc, hbehind,
      Grammar.commaParts]
    simp [hne (d := '<') rfl, hne (d := '>') rfl, hne (d := ',') rfl,
      ByteScan.onlyAscii_isOpening.eq_false hc,
      ByteScan.literalTail_eq_none_of_not_isAscii hc s]
  | true =>
    have hat {p : Char → Bool} (hp : OnlyAscii p) :
        ByteScan.isAt (bytes text) p (size front + size pend) = p c := by
      simpa using ByteScan.isAt_eq hp hstands
    have hclosing : closingAt (bytes text) (size front + size pend) = closingOf c := by
      simp only [closingAt, closingOf, hat (.beq (c := '(') (by decide)),
        hat (.beq (c := '[') (by decide))]
    rw [CutsRest, commaParts, if_pos hlt, Grammar.commaParts, ← hw]
    simp only [hat (.beq (c := '<') (by decide)), hat (.beq (c := '>') (by decide)),
      hat (.beq (c := ',') (by decide)), hat ByteScan.onlyAscii_isOpening, hclosing]
    split
    next h =>
      obtain rfl := eq_of_beq (Bool.and_eq_true _ _ ▸ h).1
      exact cuts_one _ htext hc hs
    split
    next h =>
      obtain rfl := eq_of_beq (Bool.and_eq_true _ _ ▸ h).1
      exact cuts_one _ htext hc hs
    split
    next h =>
      obtain rfl := eq_of_beq (Bool.and_eq_true _ _ ▸ h).1
      exact cuts_comma htext hcomma
    split
    -- In what follows the two sides are told apart by the same searches, case by case.
    next =>
      have h := cuts_brackets angles htext hc hs
      revert h
      cases ByteScan.scanDepth (bytes text) (· == closingOf c) 0 (size front + size pend + 1) <;>
        cases scan (· == closingOf c) 0 0 s <;> exact id
    next =>
      have h := cuts_literal angles htext hc hs
      revert h
      cases ByteScan.literalEnd (bytes text) (size front + size pend) <;>
        cases literalTail c s <;> exact id

/-- The cuts give the parts of the list. -/
theorem cutsRest (htext : text = front ++ (pend ++ s))
    (hw : s = [] ∨ w = afterWord text (size front + size pend)) :
    CutsRest text front pend s angles w := by
  induction hn : s.length using Nat.strongRecOn generalizing front pend s angles w with
  | ind n ih =>
    cases s with
    | nil => exact cutsRest_end (by simpa using htext)
    | cons c s =>
      have hdrop (m : Nat) : (s.drop m).length < n := by
        rw [← hn, List.length_drop, List.length_cons]
        omega
      refine cutsRest_cons htext (hw.resolve_left (List.cons_ne_nil c s))
        (fun angles' m w' hw' => ?_) ?_
      · exact ih _ (hdrop m) (by simp [htext]) hw' rfl
      · have hsplit : text = front ++ pend ++ [c] ++ s := by simp [htext]
        refine ih _ (hdrop 0) (by simp [htext]) (.inr ?_) rfl
        rw [size_nil, Nat.add_zero, afterWord_of_getLast? hsplit (d := c) (by simp)]

end

def splitCommas (s : List Char) : Option (List (List Char)) :=
  (commaParts s 0 0 0).map fun parts =>
    match parts with
    | [part] => if (Text.trim part).isEmpty then [] else [part]
    | parts => parts

theorem splitCommas_eq (s : List Char) : splitCommas s = some (Grammar.splitCommas s) := by
  have hrest : CutsRest s [] [] s 0 false := cutsRest rfl (.inr rfl)
  have hparts : commaParts s 0 0 0 = some (prependPart [] (Grammar.commaParts 0 false s)) := hrest
  rw [splitCommas, hparts, prependPart_nil (commaParts_ne_nil 0 false s)]
  rfl

end DeclGen.Grammar.Cutting
