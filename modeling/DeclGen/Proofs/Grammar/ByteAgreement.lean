import DeclGen.Proofs.Grammar.ByteLiterals
import DeclGen.Proofs.Grammar.Extents

/-!
# Bytes and characters

The search through the bytes of a text and the search through its characters find the same places.

## Main statements

* `scanDepth_eq`, `literalEnd_eq`, `stringBodyEnd_eq`: the two searches agree
-/

namespace DeclGen.Grammar

open DeclGen.Text

variable {bs : List UInt8} {i n : Nat} {c : Char} {s t : List Char} {stop p : Char → Bool}

namespace ByteScan

theorem Inside.literalEnd_eq (h : Inside bs i) : literalEnd bs i = none := by
  rw [literalEnd]
  simp [h.isAt_eq_false]

/-! ## Strings -/

/-- Where a string ends, by the marks in front of it and the number of quotes behind them. -/
theorem index?_stringEnd {marks : List UInt8}
    (hmarks : (bs.drop i).takeWhile (asByte isMark) = marks) :
    index? (stringEnd bs i) =
      if isAt bs (· == '"') (i + marks.length) then
        if 3 ≤ run bs (asByte (· == '"')) (i + marks.length) then
          index? (rawEnd bs (run bs (asByte (· == '"')) (i + marks.length))
            (i + marks.length + run bs (asByte (· == '"')) (i + marks.length)))
        else
          index? (stringBodyEnd bs (marks.any (asByte (· == '@'))) (marks.any (asByte (· == '$')))
            (i + marks.length + 1))
      else none := by
  subst hmarks
  rw [stringEnd]
  dsimp only
  split
  · split <;> simp
  · rfl

theorem onlyAscii_isMark : OnlyAscii isMark := .or (.beq (by decide)) (.beq (by decide))

theorem takeWhile_isMark {m t : List Char} (hm : ∀ c ∈ m, isMark c = true)
    (ht : t.head?.any isMark = false) : (m ++ t).takeWhile isMark = m := by
  rw [List.takeWhile_append_of_pos hm]
  cases t with
  | nil => exact List.append_nil m
  | cons c t =>
    have hc : ¬ isMark c = true := by simpa using ht
    rw [List.takeWhile_cons_of_neg hc, List.append_nil]

/-- Where no quote follows the marks there is no string. -/
theorem stringEnd_eq_none {m : List Char} (hm : ∀ c ∈ m, isMark c = true)
    (hmark : t.head?.any isMark = false) (hquote : t.head?.any (· == '"') = false)
    (h : Stands bs i (m ++ t)) : index? (stringEnd bs i) = none := by
  have htake : (m ++ t).takeWhile isMark = m := takeWhile_isMark hm hmark
  have hmarks : (bs.drop i).takeWhile (asByte isMark) = bytes m := by
    rw [h, takeWhile_bytes onlyAscii_isMark, htake]
  rw [index?_stringEnd hmarks, length_bytes, isAt_eq (.beq (by decide)) h.append, hquote]
  rfl

/-- The end of a string that is behind some marks, where the search through its body agrees. -/
theorem stringEnd_eq {m u : List Char} (hm : ∀ c ∈ m, isMark c = true)
    (h : Stands bs i (m ++ '"' :: u))
    (hbody : ∀ isVerbatim isInterpolated j, Stands bs j u →
      index? (stringBodyEnd bs isVerbatim isInterpolated j) =
        placed j u (stringBody isVerbatim isInterpolated 0 u)) :
    index? (stringEnd bs i) = placed i (m ++ '"' :: u)
      ((stringTail (m.any (· == '@')) (m.any (· == '$')) u).map (m.length + 1 + ·)) := by
  have htake : (m ++ '"' :: u).takeWhile isMark = m := takeWhile_isMark hm rfl
  have hmarks : (bs.drop i).takeWhile (asByte isMark) = bytes m := by
    rw [h, takeWhile_bytes onlyAscii_isMark, htake]
  have hsize : size m = m.length := by
    rw [← htake]
    exact onlyAscii_isMark.size_takeWhile _
  have hfirst : Stands bs (i + m.length) ('"' :: u) := hsize ▸ h.append
  have hbehind : Stands bs (i + m.length + 1) u := hfirst.of_cons
  have hrun := run_eq onlyAscii_beq_quote hfirst
  rw [List.takeWhile_cons, beq_self_eq_true, if_pos rfl, List.length_cons] at hrun
  have hplace : size ((m ++ '"' :: u).take (m.length + 1)) = m.length + 1 := by
    simp [List.take_append, List.take_of_length_le, hsize]
    rfl
  have hdrop : (m ++ '"' :: u).drop (m.length + 1) = u := by
    simp [List.drop_append]
  rw [index?_stringEnd hmarks, length_bytes, hsize, any_bytes (.beq (by decide)),
    any_bytes (.beq (by decide)), isAt_eq (.beq (by decide)) hfirst, hrun, stringTail,
    ← placed_drop, hplace, hdrop]
  simp only [List.head?_cons, Option.any_some, beq_self_eq_true, if_true, Nat.succ_le_succ_iff]
  split
  next =>
    obtain ⟨x, t, rfl, hx, -⟩ := exists_takeWhile_append (· == '"') u
    have hsizex : size x = x.length := by
      rw [← hx]
      exact onlyAscii_beq_quote.size_takeWhile _
    have hraw := rawEnd_eq (Nat.zero_lt_succ x.length) hbehind.append
    have hcomm : (fun n => n + x.length) = (x.length + ·) := funext fun n => Nat.add_comm n _
    have hplacex : size ((x ++ t).take x.length) = x.length := by rw [List.take_left, hsizex]
    rw [hsizex] at hraw
    rw [hx, List.drop_left, hcomm, ← placed_drop, hplacex, List.drop_left, ← Nat.add_assoc i,
      ← hraw]
    have hindex : i + m.length + (x.length + 1) = i + m.length + 1 + x.length := by omega
    rw [hindex]
  next => exact hbody _ _ _ hbehind

/-- A literal behind marks ends at the same place among the bytes and among the characters, where
the search through the body of a string agrees. -/
theorem stringEnd_mark (hmark : isMark c = true) (h : Stands bs i (c :: s))
    (hbody : ∀ isVerbatim isInterpolated j u, u.length ≤ s.length → Stands bs j u →
      index? (stringBodyEnd bs isVerbatim isInterpolated j) =
        placed j u (stringBody isVerbatim isInterpolated 0 u)) :
    index? (stringEnd bs i) = placed i (c :: s) ((literalTail c s).map (· + 1)) := by
  obtain ⟨m, t, rfl, htake, ht⟩ := exists_takeWhile_append isMark s
  have hm (d : Char) (hd : d ∈ m) : isMark d = true := by
    rw [← htake] at hd
    exact List.all_eq_true.mp List.all_takeWhile d hd
  have hall : ∀ d ∈ c :: m, isMark d = true := List.forall_mem_cons.mpr ⟨hmark, hm⟩
  rw [literalTail_marks hmark hm ht]
  split
  next hhead =>
    cases t with
    | nil => cases hhead
    | cons d u =>
      obtain rfl : d = '"' := by simpa using hhead
      have hstring := stringEnd_eq (u := u) hall h fun v ip j => hbody v ip j u (by simp; omega)
      rw [hstring, List.any_beq', List.any_beq', Option.map_map, List.length_cons]
      congr 2
      funext n
      simp only [Function.comp_apply]
      omega
  next hhead =>
    refine stringEnd_eq_none hall ht ?_ h
    cases t with
    | nil => rfl
    | cons d u => simpa using hhead

/-! ## All literals -/

/-- A comment ends at the same place among the bytes and among the characters. -/
theorem literalEnd_slash (h : Stands bs i ('/' :: s)) :
    index? (literalEnd bs i) = placed i ('/' :: s) ((commentTail s).map (· + 1)) := by
  have hs : Stands bs (i + 1) s := h.of_cons
  rw [← placed_cons, literalEnd]
  simp only [isAt_beq '/' rfl h, isAt_beq '/' rfl hs, isAt_beq '*' rfl hs, List.head?_cons,
    Option.any_some, beq_self_eq_true, if_true]
  change _ = placed (i + 1) s _
  cases s with
  | nil => rfl
  | cons d u =>
    simp only [List.head?_cons, Option.any_some, beq_iff_eq]
    split
    next hd =>
      subst hd
      exact lineEnd_eq hs
    split
    next hd =>
      subst hd
      have hu : bs.drop (i + 2) = bytes u := hs.of_cons
      rw [hu, closingLength_eq, commentTail, ← placed_cons]
      change _ = placed (i + 2) u _
      cases commentLength u <;> rfl
    next hslash hstar =>
      rw [commentTail]
      · rfl
      · rintro _ ⟨⟩
        exact hslash rfl
      · rintro _ ⟨⟩
        exact hstar rfl

/-- A comment or literal ends at the same place among the bytes and among the characters, where the
search through the bodies of strings agrees. -/
theorem literalEnd_eq_of_body (h : Stands bs i (c :: s))
    (hbody : ∀ isVerbatim isInterpolated j u, u.length ≤ s.length → Stands bs j u →
      index? (stringBodyEnd bs isVerbatim isInterpolated j) =
        placed j u (stringBody isVerbatim isInterpolated 0 u)) :
    index? (literalEnd bs i) = placed i (c :: s) ((literalTail c s).map (· + 1)) := by
  by_cases hslash : c = '/'
  · subst hslash
    rw [literalTail]
    exact literalEnd_slash h
  by_cases hquote : c = '\''
  · subst hquote
    have hchar := charEnd_eq h
    rw [literalEnd, literalTail]
    simpa [isAt_beq '/' rfl h, isAt_beq '\'' rfl h, Nat.add_comm 1] using hchar
  have hstring : isAt bs (fun c => c == '"' || isMark c) i = (c == '"' || isMark c) :=
    isAt_eq (.or (.beq (by decide)) onlyAscii_isMark) h
  have hend : index? (literalEnd bs i) =
      if c == '"' || isMark c then index? (stringEnd bs i) else none := by
    rw [literalEnd]
    simp only [isAt_beq '/' rfl h, isAt_beq '\'' rfl h, hstring, List.head?_cons, Option.any_some,
      beq_eq_false_iff_ne.mpr hslash, beq_eq_false_iff_ne.mpr hquote, Bool.false_eq_true, if_false]
    split <;> rfl
  rw [hend]
  by_cases hdouble : c = '"'
  · subst hdouble
    have hstring := stringEnd_eq (m := []) (fun _ hc => absurd hc List.not_mem_nil) h
      fun v ip j => hbody v ip j s (Nat.le_refl _)
    simpa [literalTail, Nat.add_comm 1] using hstring
  rw [beq_eq_false_iff_ne.mpr hdouble, Bool.false_or]
  cases hmark : isMark c with
  | true => exact stringEnd_mark hmark h hbody
  | false =>
    have hnone : literalTail c s = none := by
      have hmark' : (c == '@' || c == '$') = false := hmark
      simp [literalTail, hslash, hquote, hdouble, hmark']
    simp [hnone]

/-! ## The bodies of strings -/

theorem index?_stringBodyEnd_of_none {isVerbatim isInterpolated : Bool} (h : bs[i]? = none) :
    index? (stringBodyEnd bs isVerbatim isInterpolated i) = none := by
  rw [stringBodyEnd_eq_next, bodyNext, h]
  rfl

theorem Inside.index?_stringBodyEnd (isVerbatim isInterpolated : Bool) (h : Inside bs i) :
    index? (stringBodyEnd bs isVerbatim isInterpolated i) =
      index? (stringBodyEnd bs isVerbatim isInterpolated (i + 1)) := by
  obtain ⟨b, hb, hle⟩ := h
  rw [stringBodyEnd_eq_next, bodyNext, hb]
  simp [asByte_of_le hle, Next.result]

/-- What the search does where an ASCII character of a string stands. -/
theorem index?_stringBodyEnd_cons {isVerbatim isInterpolated : Bool} (hc : isAscii c = true)
    (h : Stands bs i (c :: s)) :
    index? (stringBodyEnd bs isVerbatim isInterpolated i) =
      if c == '\\' && !isVerbatim then
        index? (stringBodyEnd bs isVerbatim isInterpolated (i + 2))
      else if c == '"' then
        if isVerbatim && s.head? == some '"' then
          index? (stringBodyEnd bs isVerbatim isInterpolated (i + 2))
        else some (i + 1)
      else if c == '{' && isInterpolated then
        if s.head? == some '{' then index? (stringBodyEnd bs isVerbatim isInterpolated (i + 2))
        else
          (index? (scanDepth bs (· == '}') 0 (i + 1))).bind fun j =>
            index? (stringBodyEnd bs isVerbatim isInterpolated (j + 1))
      else if c == '\n' && !isVerbatim then none
      else index? (stringBodyEnd bs isVerbatim isInterpolated (i + 1)) := by
  have hb : bs[i]? = some (UInt8.ofNat c.toNat) := by
    have hi := h.getElem?_eq 0
    rwa [bytes_cons, utf8EncodeChar_of_isAscii hc] at hi
  have hs : Stands bs (i + 1) s := by simpa [utf8Size_eq_one_iff.mpr hc] using h.of_cons
  have hhead (d : Char) : (s.head? == some d) = s.head?.any (· == d) := by cases s <;> rfl
  rw [stringBodyEnd_eq_next, bodyNext, hb]
  simp only [asByte_of_isAscii hc, isAt_beq '"' rfl hs, isAt_beq '{' rfl hs, hhead]
  split
  · rfl
  split
  · split <;> rfl
  split
  · split
    · rfl
    · split
      next j hj => simp [hj, Next.result]
      next hj => simp [hj, Next.result]
  split <;> rfl

section Body

variable {isVerbatim isInterpolated : Bool}
  (hbody : ∀ j u, u.length ≤ s.length → Stands bs j u →
    index? (stringBodyEnd bs isVerbatim isInterpolated j) =
      placed j u (stringBody isVerbatim isInterpolated 0 u))

include hbody

/-- Behind some characters of a string, where the searches behind its first character agree. -/
theorem stringBodyEnd_behind (h : Stands bs i (c :: s)) (m : Nat) :
    index? (stringBodyEnd bs isVerbatim isInterpolated (i + size ((c :: s).take (m + 1)))) =
      placed i (c :: s) (stringBody isVerbatim isInterpolated (0 + (m + 1)) (s.drop m)) := by
  rw [hbody _ (s.drop m) (by simp) (h.drop (m + 1)), stringBody_eq_map _ _ (0 + (m + 1)),
    Nat.zero_add, ← placed_drop, List.drop_succ_cons]

/-- Two bytes behind the start of an ASCII character, which is perhaps inside the next one. -/
theorem stringBodyEnd_pair (hc : isAscii c = true) (h : Stands bs i (c :: s)) :
    index? (stringBodyEnd bs isVerbatim isInterpolated (i + 2)) =
      placed i (c :: s) (stringBody isVerbatim isInterpolated (0 + 2) (s.drop 1)) := by
  have hsize : c.utf8Size = 1 := utf8Size_eq_one_iff.mpr hc
  have hs : Stands bs (i + 1) s := hsize ▸ h.of_cons
  cases s with
  | nil =>
    rw [index?_stringBodyEnd_of_none (hs.getElem?_nil 1)]
    simp [stringBody]
  | cons d u =>
    have hskip := skip_behind (fun _ => Inside.index?_stringBodyEnd isVerbatim isInterpolated) hs
    have hplace : i + 1 + d.utf8Size = i + size ((c :: d :: u).take (1 + 1)) := by
      simp [hsize, Nat.add_assoc]
    rw [hplace, stringBodyEnd_behind hbody h 1] at hskip
    exact hskip

/-- Behind the hole that an ASCII character opens, where the search in it agrees. -/
theorem stringBodyEnd_hole (hc : isAscii c = true) (h : Stands bs i (c :: s))
    (hscan : index? (scanDepth bs (· == '}') 0 (i + 1)) =
      placed (i + 1) s (scan (· == '}') 0 0 s)) :
    ((index? (scanDepth bs (· == '}') 0 (i + 1))).bind fun j =>
        index? (stringBodyEnd bs isVerbatim isInterpolated (j + 1))) =
      placed i (c :: s) (match scan (· == '}') 0 0 s with
        | some n => stringBody isVerbatim isInterpolated (0 + (n + 2)) (s.drop (n + 1))
        | none => none) := by
  rw [hscan]
  cases hm : scan (· == '}') 0 0 s with
  | none => rfl
  | some m =>
    obtain ⟨d, t, hdrop, hd⟩ := exists_of_scan hm
    obtain rfl := eq_of_beq hd
    have htake : size (s.take (m + 1)) = size (s.take m) + 1 := by
      rw [List.take_add, hdrop, size_append]
      rfl
    have hplace : i + 1 + size (s.take m) + 1 = i + size ((c :: s).take (m + 1 + 1)) := by
      rw [List.take_succ_cons, size_cons, htake, utf8Size_eq_one_iff.mpr hc]
      omega
    rw [placed_some, Option.bind_some, hplace]
    exact stringBodyEnd_behind hbody h (m + 1)

/-- A string ends at the same place among the bytes and among the characters, where the searches
behind its first character and in a hole agree. -/
theorem stringBodyEnd_eq_of_tail (h : Stands bs i (c :: s))
    (hscan : ∀ j, Stands bs j s →
      index? (scanDepth bs (· == '}') 0 j) = placed j s (scan (· == '}') 0 0 s)) :
    index? (stringBodyEnd bs isVerbatim isInterpolated i) =
      placed i (c :: s) (stringBody isVerbatim isInterpolated 0 (c :: s)) := by
  have hbehind : index? (stringBodyEnd bs isVerbatim isInterpolated (i + c.utf8Size)) =
      placed i (c :: s) (stringBody isVerbatim isInterpolated (0 + 1) s) := by
    simpa using stringBodyEnd_behind hbody h 0
  cases hc : isAscii c with
  | false =>
    have hne {d : Char} (hd : isAscii d = true) := beq_eq_false_of_not_isAscii hc hd
    rw [skip_char (fun _ => Inside.index?_stringBodyEnd _ _) h hc, hbehind, stringBody]
    simp [hne (d := '\\') rfl, hne (d := '"') rfl, hne (d := '{') rfl, hne (d := '\n') rfl]
  | true =>
    have hsize : c.utf8Size = 1 := utf8Size_eq_one_iff.mpr hc
    have hs : Stands bs (i + 1) s := hsize ▸ h.of_cons
    have hpair := stringBodyEnd_pair hbody hc h
    rw [index?_stringBodyEnd_cons hc h, stringBody]
    split
    next => exact hpair
    split
    next =>
      split
      next => exact hpair
      next => simp [hsize]
    split
    next =>
      split
      next => exact hpair
      next => exact stringBodyEnd_hole hbody hc h (hscan _ hs)
    split
    next => rfl
    next => rw [← hbehind, hsize]

end Body

/-! ## Regions -/

theorem onlyAscii_isOpening : OnlyAscii isOpening :=
  .or (.or (.beq (by decide)) (.beq (by decide))) (.beq (by decide))

theorem onlyAscii_isClosing : OnlyAscii isClosing :=
  .or (.or (.beq (by decide)) (.beq (by decide))) (.beq (by decide))

/-- Only ASCII characters open a comment or literal. -/
theorem literalTail_eq_none_of_not_isAscii (hc : isAscii c = false) (s : List Char) :
    literalTail c s = none := by
  have hne (d : Char) (hd : isAscii d = true) : c ≠ d := by
    rintro rfl
    rw [hd] at hc
    cases hc
  exact literalTail_eq_none ⟨hne _ rfl, hne _ rfl, hne _ rfl, hne _ rfl, hne _ rfl⟩ s

theorem index?_scanDepth_of_none {depth : Nat} (h : bs[i]? = none) :
    index? (scanDepth bs stop depth i) = none := by
  rw [scanDepth_eq_next, scanNext, h]
  rfl

theorem Inside.index?_scanDepth {depth : Nat} (h : Inside bs i) :
    index? (scanDepth bs stop depth i) = index? (scanDepth bs stop depth (i + 1)) := by
  have hnone := h.literalEnd_eq
  obtain ⟨b, hb, hle⟩ := h
  rw [scanDepth_eq_next, scanNext, hb]
  simp [asByte_of_le hle, hnone, Next.result]

/-- What the search does where an ASCII character stands. -/
theorem index?_scanDepth_cons {depth : Nat} (hc : isAscii c = true) (h : Stands bs i (c :: s)) :
    index? (scanDepth bs stop depth i) =
      if depth == 0 && stop c then some i
      else if isOpening c then index? (scanDepth bs stop (depth + 1) (i + 1))
      else if isClosing c then
        if depth == 0 then none else index? (scanDepth bs stop (depth - 1) (i + 1))
      else
        match index? (literalEnd bs i) with
        | some e => index? (scanDepth bs stop depth e)
        | none =>
          if c == '"' || c == '\'' then none else index? (scanDepth bs stop depth (i + 1)) := by
  have hb : bs[i]? = some (UInt8.ofNat c.toNat) := by
    have hi := h.getElem?_eq 0
    rwa [bytes_cons, utf8EncodeChar_of_isAscii hc] at hi
  rw [scanDepth_eq_next, scanNext, hb]
  simp only [asByte_of_isAscii hc]
  split
  · rfl
  split
  · rfl
  split
  · split <;> rfl
  split
  next e he => simp [he, Next.result]
  next he =>
    simp only [he, index?_none]
    split <;> rfl

/-- A region ends at the same place among the bytes and among the characters, where the searches
behind its first character agree. -/
theorem scanDepth_eq_of_tail {depth : Nat} (hstop : OnlyAscii stop) (h : Stands bs i (c :: s))
    (hliteral : index? (literalEnd bs i) = placed i (c :: s) ((literalTail c s).map (· + 1)))
    (hscan : ∀ depth j u, u.length ≤ s.length → Stands bs j u →
      index? (scanDepth bs stop depth j) = placed j u (scan stop depth 0 u)) :
    index? (scanDepth bs stop depth i) = placed i (c :: s) (scan stop depth 0 (c :: s)) := by
  have hbehind (d m : Nat) : index? (scanDepth bs stop d (i + size ((c :: s).take (m + 1)))) =
      placed i (c :: s) (scan stop d (0 + (m + 1)) (s.drop m)) := by
    rw [hscan d _ (s.drop m) (by simp) (h.drop (m + 1)), scan_eq_map _ _ (0 + (m + 1)),
      Nat.zero_add, ← placed_drop, List.drop_succ_cons]
  cases hc : isAscii c with
  | false =>
    have hone := hbehind depth 0
    rw [List.take_one, List.head?_cons, Option.toList_some, size_cons, size_nil,
      Nat.add_zero] at hone
    rw [skip_char (fun j => Inside.index?_scanDepth (i := j)) h hc, hone, scan]
    simp [hstop.eq_false hc, onlyAscii_isOpening.eq_false hc, onlyAscii_isClosing.eq_false hc,
      literalTail_eq_none_of_not_isAscii hc s, beq_eq_false_of_not_isAscii hc (d := '"') rfl,
      beq_eq_false_of_not_isAscii hc (d := '\'') rfl]
  | true =>
    have hsize : size ((c :: s).take (0 + 1)) = 1 := utf8Size_eq_one_iff.mpr hc
    have hone (d : Nat) := hbehind d 0
    rw [hsize] at hone
    rw [index?_scanDepth_cons hc h, hliteral, scan]
    split
    next => rfl
    split
    next => exact hone _
    split
    next =>
      split
      next => rfl
      next => exact hone _
    cases hn : literalTail c s with
    | none =>
      simp only [Option.map_none, placed_none]
      split
      next => rfl
      next => exact hone _
    | some m => exact hbehind depth m

/-! ## The two searches -/

/-- The searches for the ends of regions and of strings find the same places among the bytes and
among the characters of a text. -/
theorem searches_eq (h : Stands bs i s) :
    (∀ stop, OnlyAscii stop → ∀ depth,
      index? (scanDepth bs stop depth i) = placed i s (scan stop depth 0 s)) ∧
    ∀ isVerbatim isInterpolated, index? (stringBodyEnd bs isVerbatim isInterpolated i) =
      placed i s (stringBody isVerbatim isInterpolated 0 s) := by
  induction hn : s.length using Nat.strongRecOn generalizing s i with
  | ind n ih =>
    cases s with
    | nil =>
      have hnone : bs[i]? = none := h.getElem?_nil 0
      refine ⟨fun stop _ depth => ?_, fun isVerbatim isInterpolated => ?_⟩
      · rw [index?_scanDepth_of_none hnone, scan, placed_none]
      · rw [index?_stringBodyEnd_of_none hnone, stringBody, placed_none]
    | cons c s =>
      have hlt (u : List Char) (hu : u.length ≤ s.length) : u.length < n := by
        rw [← hn, List.length_cons]
        omega
      have hbody (isVerbatim isInterpolated : Bool) (j : Nat) (u : List Char)
          (hu : u.length ≤ s.length) (hj : Stands bs j u) := (ih _ (hlt u hu) hj rfl).2
        isVerbatim isInterpolated
      refine ⟨fun stop hstop depth => ?_, fun isVerbatim isInterpolated => ?_⟩
      · refine scanDepth_eq_of_tail hstop h (literalEnd_eq_of_body h hbody) ?_
        exact fun depth j u hu hj => (ih _ (hlt u hu) hj rfl).1 stop hstop depth
      · refine stringBodyEnd_eq_of_tail (hbody _ _) h fun j hj => ?_
        exact (ih _ (hlt s (Nat.le_refl _)) hj rfl).1 _ (.beq (by decide)) 0

theorem scanDepth_eq (hstop : OnlyAscii stop) (h : Stands bs i s) (depth : Nat) :
    index? (scanDepth bs stop depth i) = placed i s (scan stop depth 0 s) :=
  (searches_eq h).1 stop hstop depth

theorem stringBodyEnd_eq (h : Stands bs i s) (isVerbatim isInterpolated : Bool) :
    index? (stringBodyEnd bs isVerbatim isInterpolated i) =
      placed i s (stringBody isVerbatim isInterpolated 0 s) :=
  (searches_eq h).2 isVerbatim isInterpolated

theorem literalEnd_eq (h : Stands bs i (c :: s)) :
    index? (literalEnd bs i) = placed i (c :: s) ((literalTail c s).map (· + 1)) :=
  literalEnd_eq_of_body h fun isVerbatim isInterpolated _ _ _ hj =>
    stringBodyEnd_eq hj isVerbatim isInterpolated

end ByteScan

end DeclGen.Grammar
