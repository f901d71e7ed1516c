import DeclGen.Grammar.Region

/-!
# How far regions and literals extend

What a search counts from further on, and where what it counts ends: a region before a stop
character, a literal in one of its marks. What is read up to a stop character is what was counted.

## Main statements

* `scan_opening`, `scan_literal`, `stringBody_hole`: single steps of a search
* `scan_eq_map`, `stringBody_eq_map`: characters that are counted already are added
* `exists_of_scan`: a search ends before a stop character
* `scan_inside`: a search inside a bracket leaves it where the bracket is closed
* `rawTail_append`: a run of quotes in a raw string
* `getLast?_of_literalTail`: a literal ends in one of its marks
* `exists_scan_of_takeUntil`, `exists_scan_of_delimited`: what is read is what the search counts
-/

namespace DeclGen.Grammar

variable {n : Nat} {c : Char} {s : List Char} {stop : Char → Bool}

/-! ## Single steps -/

theorem literalTail_eq_none (hc : c ≠ '/' ∧ c ≠ '\'' ∧ c ≠ '"' ∧ c ≠ '@' ∧ c ≠ '$')
    (s : List Char) : literalTail c s = none := by
  rw [literalTail]
  simp [hc]

/-- The tail of a string behind the marks `@` and `$`. -/
theorem literalTail_marks {marks x : List Char} (hc : (c == '@' || c == '$') = true)
    (hmarks : ∀ d ∈ marks, (d == '@' || d == '$') = true)
    (hx : x.head?.any (fun d => d == '@' || d == '$') = false) :
    literalTail c (marks ++ x) =
      if x.head? == some '"' then
        (stringTail ((c :: marks).contains '@') ((c :: marks).contains '$') (x.drop 1)).map
          (marks.length + 1 + ·)
      else none := by
  have htake : (marks ++ x).takeWhile (fun d => d == '@' || d == '$') = marks := by
    rw [List.takeWhile_append_of_pos hmarks]
    cases x with
    | nil => simp
    | cons d x =>
      rw [List.takeWhile_cons_of_neg (Bool.eq_false_iff.mp (by simpa using hx)), List.append_nil]
  have hother : (c == '/') = false ∧ (c == '\'') = false ∧ (c == '"') = false := by
    rw [Bool.or_eq_true, beq_iff_eq, beq_iff_eq] at hc
    rcases hc with rfl | rfl <;> decide
  rw [literalTail]
  simp only [hother, hc, htake, Bool.false_eq_true, if_false, if_true, List.drop_left,
    Nat.add_comm _ (marks.length + 1), ← List.drop_drop]

section Step

variable (stop) {depth seen : Nat}

theorem scan_opening (hstop : depth = 0 → stop c = false) (hc : isOpening c = true) :
    scan stop depth seen (c :: s) = scan stop (depth + 1) (seen + 1) s := by
  have hne : (depth == 0 && stop c) = false := by simpa using hstop
  rw [scan, hne, hc]
  rfl

theorem isOpening_of_isClosing (hc : isClosing c = true) : isOpening c = false := by
  simp only [isClosing, Bool.or_eq_true, beq_iff_eq] at hc
  rcases hc with (rfl | rfl) | rfl <;> rfl

theorem scan_closing (hc : isClosing c = true) :
    scan stop (depth + 1) seen (c :: s) = scan stop depth (seen + 1) s := by
  rw [scan, isOpening_of_isClosing hc, hc]
  simp

theorem scan_unopened (hstop : stop c = false) (hc : isClosing c = true) :
    scan stop 0 seen (c :: s) = none := by
  rw [scan, isOpening_of_isClosing hc, hc, hstop]
  simp

theorem scan_literal (hstop : depth = 0 → stop c = false)
    (hc : isOpening c = false ∧ isClosing c = false) (h : literalTail c s = some n) :
    scan stop depth seen (c :: s) = scan stop depth (seen + (n + 1)) (s.drop n) := by
  have hne : (depth == 0 && stop c) = false := by simpa using hstop
  rw [scan, hne, hc.1, hc.2, h]
  rfl

theorem scan_plain (hstop : depth = 0 → stop c = false)
    (hc : isOpening c = false ∧ isClosing c = false) (hquote : c ≠ '"' ∧ c ≠ '\'')
    (h : literalTail c s = none) :
    scan stop depth seen (c :: s) = scan stop depth (seen + 1) s := by
  have hne : (depth == 0 && stop c) = false := by simpa using hstop
  rw [scan, hne, hc.1, hc.2, h]
  simp [hquote]

/-- A quote has to open a closed literal. -/
theorem scan_unclosed (hstop : depth = 0 → stop c = false) (hc : c = '"' ∨ c = '\'')
    (h : literalTail c s = none) : scan stop depth seen (c :: s) = none := by
  have hne : (depth == 0 && stop c) = false := by simpa using hstop
  have hbracket : isOpening c = false ∧ isClosing c = false := by
    rcases hc with rfl | rfl <;> exact ⟨rfl, rfl⟩
  rw [scan, hne, hbracket.1, hbracket.2, h]
  simp [hc]

end Step

section Hole

variable (isVerbatim : Bool) (seen : Nat)

theorem stringBody_brace (h : s.head? = some '{') :
    stringBody isVerbatim true seen ('{' :: s) =
      stringBody isVerbatim true (seen + 2) (s.drop 1) := by
  rw [stringBody]
  simp [h]

theorem stringBody_hole (hs : s.head? ≠ some '{') (h : scan (· == '}') 0 0 s = some n) :
    stringBody isVerbatim true seen ('{' :: s) =
      stringBody isVerbatim true (seen + (n + 2)) (s.drop (n + 1)) := by
  have hhead : (s.head? == some '{') = false := by simpa using hs
  rw [stringBody, h, hhead]
  simp

theorem stringBody_unclosed (hs : s.head? ≠ some '{') (h : scan (· == '}') 0 0 s = none) :
    stringBody isVerbatim true seen ('{' :: s) = none := by
  have hhead : (s.head? == some '{') = false := by simpa using hs
  rw [stringBody, h, hhead]
  simp

end Hole

/-! ## Counting from further on -/

/-- The number of characters behind is only added to the result. -/
theorem scan_eq_map (stop : Char → Bool) (depth k : Nat) (s : List Char) :
    scan stop depth k s = (scan stop depth 0 s).map (k + ·) := by
  induction hn : s.length using Nat.strongRecOn generalizing s depth k with
  | ind n ih =>
    have step (d j : Nat) (t : List Char) (ht : t.length < n) :
        scan stop d (k + j) t = (scan stop d j t).map (k + ·) := by
      rw [ih _ ht d (k + j) t rfl, ih _ ht d j t rfl, Option.map_map]
      congr 1
      funext m
      exact Nat.add_assoc k j m
    cases s with
    | nil => simp [scan]
    | cons c s =>
      have hlt (m : Nat) : (s.drop m).length < n := by
        rw [← hn, List.length_drop, List.length_cons]
        omega
      rw [scan, scan]
      split
      · rfl
      split
      · rw [step _ _ s (hlt 0), Nat.zero_add]
      split
      · split
        · rfl
        · rw [step _ _ s (hlt 0), Nat.zero_add]
      split
      next m _ => rw [step _ _ _ (hlt m), Nat.zero_add]
      next =>
        split
        · rfl
        · rw [step _ _ s (hlt 0), Nat.zero_add]

/-- The search ends before a stop character. -/
theorem exists_of_scan {depth : Nat} (h : scan stop depth 0 s = some n) :
    ∃ c t, s.drop n = c :: t ∧ stop c = true := by
  induction hlength : s.length using Nat.strongRecOn generalizing s depth n with
  | ind l ih =>
    cases s with
    | nil =>
      rw [scan] at h
      cases h
    | cons c s =>
      have further (d m : Nat) (h : scan stop d (0 + (m + 1)) (s.drop m) = some n) :
          ∃ e t, (c :: s).drop n = e :: t ∧ stop e = true := by
        rw [scan_eq_map, Option.map_eq_some_iff] at h
        obtain ⟨k, hk, rfl⟩ := h
        have hlt : (s.drop m).length < l := by
          rw [← hlength, List.length_drop, List.length_cons]
          omega
        have hdrop : (c :: s).drop (0 + (m + 1) + k) = (s.drop m).drop k := by
          rw [Nat.zero_add, ← List.drop_drop, List.drop_succ_cons]
        rw [hdrop]
        exact ih _ hlt hk rfl
      rw [scan] at h
      split at h
      next hstop =>
        cases h
        exact ⟨c, s, rfl, (Bool.and_eq_true _ _ ▸ hstop).2⟩
      split at h
      next => exact further _ 0 h
      split at h
      next =>
        split at h
        next => cases h
        next => exact further _ 0 h
      split at h
      next m _ => exact further _ m h
      next =>
        split at h
        next => cases h
        next => exact further _ 0 h

/-- A search inside a bracket leaves it where the search for the bracket that closes it ends. -/
theorem scan_inside {k : Char} {depth : Nat} (hk : isClosing k = true)
    (h : scan (· == k) depth 0 s = some n) (stop : Char → Bool) (outer seen : Nat) :
    scan stop (outer + 1 + depth) seen s =
      scan stop outer (seen + (n + 1)) (s.drop (n + 1)) := by
  induction hlength : s.length using Nat.strongRecOn generalizing s depth n seen with
  | ind l ih =>
    cases s with
    | nil =>
      rw [scan] at h
      cases h
    | cons c s =>
      have hopen : outer + 1 + depth = 0 → stop c = false := by omega
      have further (d m : Nat) (h : scan (· == k) d (0 + (m + 1)) (s.drop m) = some n) :
          scan stop (outer + 1 + d) (seen + (m + 1)) (s.drop m) =
            scan stop outer (seen + (n + 1)) ((c :: s).drop (n + 1)) := by
        rw [scan_eq_map, Option.map_eq_some_iff] at h
        obtain ⟨j, hj, rfl⟩ := h
        have hlt : (s.drop m).length < l := by
          rw [← hlength, List.length_drop, List.length_cons]
          omega
        have hseen : seen + (m + 1) + (j + 1) = seen + (0 + (m + 1) + j + 1) := by omega
        have hdrop : m + (j + 1) = 0 + (m + 1) + j := by omega
        rw [ih _ hlt hj _ rfl, List.drop_drop, List.drop_succ_cons, hseen, hdrop]
      rw [scan] at h
      split at h
      next hstop =>
        obtain ⟨hdepth, hc⟩ := Bool.and_eq_true_iff.mp hstop
        obtain rfl : depth = 0 := eq_of_beq hdepth
        obtain rfl : c = k := eq_of_beq hc
        cases h
        rw [Nat.add_zero, scan_closing _ hk]
        rfl
      split at h
      next hc => exact (scan_opening _ hopen hc).trans (further _ 0 h)
      split at h
      next hc =>
        split at h
        next => cases h
        next hdepth =>
          obtain ⟨depth, rfl⟩ : ∃ d, depth = d + 1 :=
            Nat.exists_eq_succ_of_ne_zero (by simpa using hdepth)
          exact (scan_closing _ hc).trans (further _ 0 h)
      next hclosing hbracket =>
        have hplain : isOpening c = false ∧ isClosing c = false := by simp_all
        split at h
        next m hliteral => exact (scan_literal _ hopen hplain hliteral).trans (further _ m h)
        next hliteral =>
          split at h
          next => cases h
          next hquote =>
            have hne : c ≠ '"' ∧ c ≠ '\'' := by simpa using hquote
            exact (scan_plain _ hopen hplain hne hliteral).trans (further _ 0 h)

/-- The number of characters behind is only added to the result. -/
theorem stringBody_eq_map (isVerbatim isInterpolated : Bool) (k : Nat) (s : List Char) :
    stringBody isVerbatim isInterpolated k s =
      (stringBody isVerbatim isInterpolated 0 s).map (k + ·) := by
  induction hn : s.length using Nat.strongRecOn generalizing s k with
  | ind n ih =>
    have step (j : Nat) (t : List Char) (ht : t.length < n) :
        stringBody isVerbatim isInterpolated (k + j) t =
          (stringBody isVerbatim isInterpolated j t).map (k + ·) := by
      rw [ih _ ht (k + j) t rfl, ih _ ht j t rfl, Option.map_map]
      congr 1
      funext m
      exact Nat.add_assoc k j m
    cases s with
    | nil => simp [stringBody]
    | cons c s =>
      have hlt (m : Nat) : (s.drop m).length < n := by
        rw [← hn, List.length_drop, List.length_cons]
        omega
      rw [stringBody, stringBody]
      split
      · rw [step _ _ (hlt 1), Nat.zero_add]
      split
      · split
        · rw [step _ _ (hlt 1), Nat.zero_add]
        · rw [Option.map_some, Nat.zero_add]
      split
      · split
        · rw [step _ _ (hlt 1), Nat.zero_add]
        · split
          next m _ => rw [step _ _ (hlt (m + 1)), Nat.zero_add]
          next => rfl
      split
      · rfl
      · rw [step _ s (hlt 0), Nat.zero_add]

/-! ## Runs of quotes -/

/-- A run of quotes in a raw string is its end or is stepped over. -/
theorem rawTail_append {quotes : Nat} (hquotes : 0 < quotes) {x t : List Char}
    (hx : ∀ c ∈ x, c = '"') (ht : t.head?.any (· == '"') = false) (k : Nat) :
    rawTail quotes k (x ++ t) =
      if quotes ≤ k + x.length then some x.length
      else (rawTail quotes 0 t).map (x.length + ·) := by
  induction x generalizing k with
  | nil =>
    cases t with
    | nil => simp [rawTail, Nat.not_le.mpr hquotes]
    | cons d t =>
      have hd : (d == '"') = false := by simpa using ht
      simp [rawTail, hd, Nat.not_le.mpr hquotes, Function.comp_def]
  | cons c x ih =>
    obtain rfl := hx c List.mem_cons_self
    rw [List.cons_append, rawTail, ih (fun c hc => hx c (List.mem_cons_of_mem _ hc))]
    simp only [beq_self_eq_true, if_true, List.length_cons, Nat.add_assoc, Nat.add_comm 1]
    split <;> simp [Nat.add_assoc, Function.comp_def]

/-! ## How literals end -/

theorem getLast?_of_drop_eq_cons {d : Char} {t : List Char} (h : s.drop n = d :: t) :
    (s.take (n + 1)).getLast? = some d := by
  rw [List.take_add, h]
  simp

theorem getLast?_take_of_drop {k m : Nat} {d : Char} (h : ((s.drop k).take m).getLast? = some d) :
    (s.take (k + m)).getLast? = some d := by
  rw [List.take_add, List.getLast?_append, h]
  rfl

theorem getLast?_of_commentLength (h : commentLength s = some n) :
    (s.take n).getLast? = some '/' := by
  fun_induction commentLength s generalizing n with
  | case1 s =>
    cases h
    rfl
  | case2 c s _ ih =>
    obtain ⟨m, hm, rfl⟩ := Option.map_eq_some_iff.mp h
    rw [Nat.add_comm]
    exact getLast?_take_of_drop (k := 1) (ih hm)
  | case3 => cases h

/-- A comment ends in a slash or line feed, or with the text. -/
theorem getLast?_of_commentTail (h : commentTail s = some n) :
    s.drop n = [] ∨ (s.take n).getLast? = some '/' ∨ (s.take n).getLast? = some '\n' := by
  unfold commentTail at h
  split at h
  next s =>
    split at h
    next hend =>
      cases h
      exact .inl hend
    next d t hd =>
      cases h
      have hfeed : d = '\n' := by
        have hsplit : (s.takeWhile (· != '\n') ++ s.dropWhile (· != '\n')).drop (lineLength s) =
            s.dropWhile (· != '\n') := List.drop_left
        have hhead := List.head?_dropWhile_not (· != '\n') s
        rw [← hsplit, List.takeWhile_append_dropWhile, hd] at hhead
        simpa using hhead
      subst hfeed
      exact .inr (.inr (getLast?_of_drop_eq_cons (n := lineLength s + 1) hd))
  next s =>
    obtain ⟨m, hm, rfl⟩ := Option.map_eq_some_iff.mp h
    rw [Nat.add_comm]
    exact .inr (.inl (getLast?_take_of_drop (k := 1) (getLast?_of_commentLength hm)))
  next => cases h

theorem getLast?_of_charTail (h : charTail s = some n) : (s.take n).getLast? = some '\'' := by
  simp only [charTail, Option.ite_none_right_eq_some, Option.some.injEq] at h
  obtain ⟨hquote, rfl⟩ := h
  obtain ⟨t, ht⟩ := List.head?_eq_some_iff.mp (eq_of_beq hquote)
  exact getLast?_of_drop_eq_cons ht

/-- A raw string ends in a quote; only behind enough of them nothing more is read. -/
theorem getLast?_of_rawTail {quotes run : Nat} (hquotes : 0 < quotes)
    (h : rawTail quotes run s = some n) :
    n = 0 ∧ quotes ≤ run ∨ (s.take n).getLast? = some '"' := by
  induction s generalizing run n with
  | nil =>
    rw [rawTail] at h
    split at h <;> cases h
    exact .inl ⟨rfl, ‹_›⟩
  | cons c s ih =>
    rw [rawTail] at h
    split at h
    next hc =>
      obtain ⟨m, hm, rfl⟩ := Option.map_eq_some_iff.mp h
      obtain rfl := eq_of_beq hc
      rw [Nat.add_comm]
      rcases ih hm with ⟨rfl, -⟩ | hlast
      · exact .inr rfl
      · exact .inr (getLast?_take_of_drop (k := 1) hlast)
    split at h
    next hle =>
      cases h
      exact .inl ⟨rfl, hle⟩
    next hlt =>
      obtain ⟨m, hm, rfl⟩ := Option.map_eq_some_iff.mp h
      rw [Nat.add_comm]
      rcases ih hm with ⟨-, hle⟩ | hlast
      · exact absurd hle (Nat.not_le.mpr hquotes)
      · exact .inr (getLast?_take_of_drop (k := 1) hlast)

/-- The last character of a string is a quote, however it was searched for. -/
theorem getLast?_of_stringBody {isVerbatim isInterpolated : Bool}
    (h : stringBody isVerbatim isInterpolated 0 s = some n) : (s.take n).getLast? = some '"' := by
  induction hlength : s.length using Nat.strongRecOn generalizing s n with
  | ind l ih =>
    cases s with
    | nil =>
      rw [stringBody] at h
      cases h
    | cons c s =>
      rw [List.length_cons] at hlength
      have further (m : Nat) (h : stringBody isVerbatim isInterpolated (0 + (m + 1)) (s.drop m) =
          some n) : ((c :: s).take n).getLast? = some '"' := by
        rw [stringBody_eq_map, Option.map_eq_some_iff] at h
        obtain ⟨k, hk, rfl⟩ := h
        have hlast := ih (s.drop m).length (by rw [List.length_drop]; omega) hk rfl
        rw [Nat.zero_add]
        exact getLast?_take_of_drop (k := m + 1) hlast
      rw [stringBody] at h
      split at h
      next => exact further 1 h
      split at h
      next hc =>
        split at h
        next => exact further 1 h
        next =>
          cases h
          rw [eq_of_beq hc]
          rfl
      split at h
      next =>
        split at h
        next => exact further 1 h
        next =>
          split at h
          next k _ => exact further (k + 1) h
          next => cases h
      split at h
      next => cases h
      next => exact further 0 h

theorem getLast?_of_stringTail {isVerbatim isInterpolated : Bool}
    (h : stringTail isVerbatim isInterpolated s = some n) : (s.take n).getLast? = some '"' := by
  rw [stringTail] at h
  split at h
  next =>
    obtain ⟨m, hm, rfl⟩ := Option.map_eq_some_iff.mp h
    rw [Nat.add_comm]
    rcases getLast?_of_rawTail (Nat.succ_pos _) hm with ⟨-, hle⟩ | hlast
    · exact absurd hle (Nat.not_succ_le_zero _)
    · exact getLast?_take_of_drop hlast
  next => exact getLast?_of_stringBody h

/-- A comment or literal ends in one of its marks, or with the text. -/
theorem getLast?_of_literalTail (h : literalTail c s = some n) :
    s.drop n = [] ∨ ∃ d ∈ ['/', '\n', '\'', '"'], (s.take n).getLast? = some d := by
  rw [literalTail] at h
  split at h
  next =>
    rcases getLast?_of_commentTail h with hend | hlast | hlast
    · exact .inl hend
    · exact .inr ⟨_, by simp, hlast⟩
    · exact .inr ⟨_, by simp, hlast⟩
  split at h
  next => exact .inr ⟨_, by simp, getLast?_of_charTail h⟩
  split at h
  next => exact .inr ⟨_, by simp, getLast?_of_stringTail h⟩
  split at h
  next =>
    dsimp only at h
    split at h
    next =>
      obtain ⟨m, hm, rfl⟩ := Option.map_eq_some_iff.mp h
      rw [Nat.add_comm]
      exact .inr ⟨_, by simp, getLast?_take_of_drop (getLast?_of_stringTail hm)⟩
    next => cases h
  next => cases h

/-! ## What is read up to a stop character -/

section

variable {c c' : Cursor} {opening closing : Char} {x : List Char}

theorem takeUntil_of_scan (h : scan stop 0 0 c.rest = some n) :
    takeUntil stop c = Parser.take n c := by
  rw [takeUntil, Parser.bind_apply]
  simp only [Parser.ahead, h]

/-- What was read is what a search outside all brackets finds. -/
theorem exists_scan_of_takeUntil (h : takeUntil stop c = .ok (x, c')) :
    ∃ n, scan stop 0 0 c.rest = some n ∧ x = c.rest.take n ∧ c' = c.skip n := by
  rw [takeUntil, Parser.bind_apply] at h
  cases hscan : scan stop 0 0 c.rest with
  | none =>
    simp only [Parser.ahead, hscan] at h
    cases h
  | some n =>
    simp only [Parser.ahead, hscan] at h
    cases h
    exact ⟨n, rfl, rfl, rfl⟩

theorem delimited_of_scan (hrest : c.rest = opening :: s)
    (h : scan (· == closing) 0 0 s = some n) :
    delimited opening closing c = Parser.take (n + 2) c := by
  rw [delimited, Parser.bind_apply]
  simp only [Parser.ahead, hrest, beq_self_eq_true, if_true, h]

/-- A region is what a search behind the opening bracket finds, with both brackets. -/
theorem exists_scan_of_delimited (h : delimited opening closing c = .ok (x, c')) :
    ∃ s n, c.rest = opening :: s ∧ scan (· == closing) 0 0 s = some n ∧
      x = c.rest.take (n + 2) ∧ c' = c.skip (n + 2) := by
  rw [delimited, Parser.bind_apply] at h
  cases hrest : c.rest with
  | nil =>
    simp only [Parser.ahead, hrest] at h
    cases h
  | cons d s =>
    simp only [Parser.ahead, hrest] at h
    split at h
    next hd =>
      cases hscan : scan (· == closing) 0 0 s with
      | none =>
        simp only [hscan] at h
        cases h
      | some n =>
        simp only [hscan] at h
        cases h
        exact ⟨s, n, by rw [eq_of_beq hd], hscan, by rw [hrest], rfl⟩
    next => cases h

end

end DeclGen.Grammar
