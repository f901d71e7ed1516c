import DeclGen.Proofs.Grammar.ItemRegions
import DeclGen.Proofs.Text.Bytes

/-!
# Literals and what stands behind a text

Where a literal ends may depend on what stands behind a text that it starts in. For texts that end
with a line feed there are three cases: the literal ends in the text, it is given up there, or it is
still open behind it. What is open can be closed behind a closing brace.

## Main definitions

* `EndsLine`: the text is empty or ends with a line feed
* `Fate`: the three cases
* `StringFates`: strings are known to fall under one of them

## Main statements

* `literalTail_fate`: the fate of a comment or literal
-/

namespace DeclGen.Grammar

open DeclGen.Text

variable {f g : List Char → Option Nat} {c : Char} {n quotes run depth : Nat} {x y t w : List Char}

/-- The text is empty or ends with a line feed. -/
def EndsLine (y : List Char) : Prop := ∀ c, y.getLast? = some c → c = '\n'

namespace EndsLine

theorem drop (h : EndsLine y) (n : Nat) : EndsLine (y.drop n) := by
  intro c hc
  rw [List.getLast?_drop] at hc
  split at hc
  · cases hc
  · exact h c hc

theorem of_cons (h : EndsLine (c :: y)) : EndsLine y := h.drop 1

theorem of_append (h : EndsLine (x ++ y)) : EndsLine y := by
  have hdrop := h.drop x.length
  rwa [List.drop_left] at hdrop

theorem ne_nil (h : EndsLine (c :: y)) (hc : c ≠ '\n') : y ≠ [] := by
  rintro rfl
  exact hc (h c rfl)

theorem exists_cons (h : EndsLine (c :: y)) (hc : c ≠ '\n') : ∃ d z, y = d :: z :=
  List.exists_cons_of_ne_nil (h.ne_nil hc)

/-- Some line feed stands in a text that is not empty. -/
theorem mem (h : EndsLine y) (hy : y ≠ []) : '\n' ∈ y := by
  have hlast := List.getLast?_eq_some_getLast hy
  exact h _ hlast ▸ List.getLast_mem hy

end EndsLine

/-- How a search fares in a text, whatever stands behind it: it ends in the text, it is given up
there, or something behind a closing brace ends it. -/
inductive Fate (f : List Char → Option Nat) (y : List Char) : Prop where
  | closed (n : Nat) (hn : n ≤ y.length) (h : ∀ w, f (y ++ w) = some n)
  | dead (h : ∀ w, f (y ++ w) = none)
  | opened (u : List Char)
      (h : ∀ t, t.head? ≠ some '"' → f (y ++ '}' :: (u ++ t)) = some (y.length + 1 + u.length))

namespace Fate

theorem congr (hf : ∀ w, f (y ++ w) = g (y ++ w)) (h : Fate g y) : Fate f y := by
  cases h with
  | closed n hn h => exact .closed n hn fun w => (hf w).trans (h w)
  | dead h => exact .dead fun w => (hf w).trans (h w)
  | opened u h => exact .opened u fun t ht => (hf _).trans (h t ht)

/-- Characters are stepped over. -/
theorem skip (n : Nat) (hn : n ≤ y.length)
    (hf : ∀ w, f (y ++ w) = (g (y.drop n ++ w)).map (n + ·)) (h : Fate g (y.drop n)) :
    Fate f y := by
  have hlength : (y.drop n).length = y.length - n := List.length_drop
  cases h with
  | closed m hm h =>
    refine .closed (n + m) (by omega) fun w => ?_
    rw [hf, h, Option.map_some]
  | dead h =>
    refine .dead fun w => ?_
    rw [hf, h, Option.map_none]
  | opened u h =>
    refine .opened u fun t ht => ?_
    rw [hf, h t ht, Option.map_some, hlength]
    congr 1
    omega

/-- A character is stepped over. -/
theorem skip_cons (hf : ∀ w, f (c :: (y ++ w)) = (g (y ++ w)).map (1 + ·)) (h : Fate g y) :
    Fate f (c :: y) :=
  skip 1 (Nat.succ_pos _) hf h

end Fate

/-! ## Comments and characters -/

theorem commentLength_fate (hy : EndsLine y) : Fate commentLength y := by
  induction y with
  | nil => exact .opened ['*', '/'] fun t _ => rfl
  | cons c y ih =>
    by_cases hc : c = '*' ∧ y.head? = some '/'
    · obtain ⟨rfl, hhead⟩ := hc
      obtain ⟨z, rfl⟩ := List.head?_eq_some_iff.mp hhead
      exact .closed 2 (by simp) fun w => rfl
    · refine .skip_cons (fun w => ?_) (ih hy.of_cons)
      rw [commentLength]
      · simp only [Nat.add_comm 1]
      · rintro s rfl hs
        obtain ⟨d, z, rfl⟩ := hy.exists_cons (by decide)
        exact hc ⟨rfl, congrArg some (List.cons.inj hs).1⟩

theorem commentTail_fate (hy : EndsLine y) (hne : y ≠ []) : Fate commentTail y := by
  obtain ⟨c, y, rfl⟩ := List.exists_cons_of_ne_nil hne
  by_cases hslash : c = '/'
  · -- a line comment ends with a line
    subst hslash
    obtain ⟨z, s, rfl, hz⟩ := List.eq_append_cons_of_mem (hy.of_cons.mem (hy.ne_nil (by decide)))
    refine .closed (z.length + 2) (by simp) fun w => ?_
    have hlength := lineLength_append hz (s ++ w)
    rw [List.cons_append, List.append_assoc, List.cons_append, commentTail, hlength, List.drop_left]
  by_cases hstar : c = '*'
  · subst hstar
    refine .skip_cons (fun w => ?_) (commentLength_fate hy.of_cons)
    rw [commentTail]
    simp only [Nat.add_comm 1]
  · refine .dead fun w => ?_
    rw [List.cons_append, commentTail]
    · simpa using hslash
    · simpa using hstar

/-- How far a character literal extends from a place where a quote ends it. -/
def characterEnd (s : List Char) : Option Nat :=
  let body := s.takeWhile fun c => c != '\'' && c != '\n'
  if (s.drop body.length).head? == some '\'' then some (body.length + 1) else none

theorem characterEnd_fate (y : List Char) : Fate characterEnd y := by
  induction y with
  | nil => exact .opened ['\''] fun t _ => by simp [characterEnd]
  | cons c y ih =>
    by_cases hquote : c = '\''
    · exact .closed 1 (by simp) fun w => by simp [characterEnd, hquote]
    by_cases hfeed : c = '\n'
    · exact .dead fun w => by simp [characterEnd, hfeed]
    · refine .skip_cons (fun w => ?_) ih
      simp only [characterEnd, List.takeWhile_cons, bne_iff_ne.mpr hquote, bne_iff_ne.mpr hfeed,
        Bool.and_self, if_true, List.length_cons, List.drop_succ_cons]
      split <;> simp [Nat.add_comm 1]

theorem charTail_eq (s : List Char) :
    charTail s =
      if s.head? == some '\\' then (characterEnd (s.drop 2)).map (2 + ·) else characterEnd s := by
  unfold charTail characterEnd
  split
  · simp only [List.drop_drop]
    split <;> simp [Nat.add_assoc]
  · simp

theorem charTail_fate (hy : EndsLine y) (hne : y ≠ []) : Fate charTail y := by
  obtain ⟨c, y, rfl⟩ := List.exists_cons_of_ne_nil hne
  by_cases hc : c = '\\'
  · subst hc
    obtain ⟨d, z, rfl⟩ := hy.exists_cons (by decide)
    exact .skip 2 (by simp) (fun w => by rw [charTail_eq]; rfl) (characterEnd_fate z)
  · refine .congr (fun w => ?_) (characterEnd_fate (c :: y))
    rw [charTail_eq]
    simp [hc]

/-! ## Strings -/

theorem rawTail_fate (hquotes : 0 < quotes) (hy : EndsLine y) (hrun : y = [] → run = 0) :
    Fate (rawTail quotes run) y := by
  induction y generalizing run with
  | nil =>
    refine .opened (List.replicate quotes '"') fun t ht => ?_
    have hclosed := rawTail_append hquotes (x := List.replicate quotes '"') (by simp)
      (head?_any_quote ht) 0
    rw [hrun rfl, List.nil_append, rawTail, hclosed]
    simp [Nat.not_le.mpr hquotes, Nat.add_comm 1]
  | cons c y ih =>
    by_cases hc : c = '"'
    · subst hc
      have hrest : Fate (rawTail quotes (run + 1)) y :=
        ih hy.of_cons fun h => absurd h (hy.ne_nil (by decide))
      refine .skip_cons (fun w => ?_) hrest
      rw [rawTail]
      simp [Nat.add_comm 1]
    by_cases hle : quotes ≤ run
    · exact .closed 0 (Nat.zero_le _) fun w => by simp [rawTail, hc, hle]
    · have hrest : Fate (rawTail quotes 0) y := ih hy.of_cons fun _ => rfl
      refine .skip_cons (fun w => ?_) hrest
      rw [rawTail]
      simp [hc, hle, Nat.add_comm 1]

/-- The fate of every string that starts somewhere in the text is known. -/
def StringFates (y : List Char) : Prop :=
  ∀ n isVerbatim isInterpolated, Fate (stringBody isVerbatim isInterpolated 0) (y.drop n)

theorem StringFates.drop (h : StringFates y) (n : Nat) : StringFates (y.drop n) := by
  intro m isVerbatim isInterpolated
  rw [List.drop_drop]
  exact h (n + m) isVerbatim isInterpolated

theorem stringTail_fate {isVerbatim isInterpolated : Bool} (hy : EndsLine y) (hne : y ≠ [])
    (hbody : Fate (stringBody isVerbatim isInterpolated 0) y) :
    Fate (stringTail isVerbatim isInterpolated) y := by
  obtain ⟨n, z, rfl, hz⟩ := exists_leading_run '"' y
  have hrest := hy.of_append
  have hzne : z ≠ [] := by
    rintro rfl
    have hfeed := hy.mem hne
    simp at hfeed
  have hhead (w : List Char) : (z ++ w).head? ≠ some '"' := by
    obtain ⟨d, z, rfl⟩ := List.exists_cons_of_ne_nil hzne
    exact hz
  by_cases hn : 2 ≤ n
  · refine .skip (g := rawTail (n + 1) 0) n (by simp) (fun w => ?_) ?_
    · rw [List.append_assoc, stringTail_quotes _ _ hn (hhead w)]
      simp [Nat.add_comm n]
    · rw [List.drop_left' List.length_replicate]
      exact rawTail_fate (Nat.succ_pos n) hrest fun _ => rfl
  · refine hbody.congr fun w => ?_
    rw [stringTail, List.append_assoc, takeWhile_quotes n (hhead w), List.length_replicate,
      if_neg hn]

theorem literalTail_fate_of_mark (hc : (c == '@' || c == '$') = true) (hy : EndsLine y)
    (hne : y ≠ []) (hbody : StringFates y) : Fate (literalTail c) y := by
  obtain ⟨marks, z, rfl, htake, hz⟩ := exists_takeWhile_append (fun d => d == '@' || d == '$') y
  have hmarks (d : Char) (hd : d ∈ marks) : (d == '@' || d == '$') = true := by
    rw [← htake] at hd
    exact List.all_eq_true.mp List.all_takeWhile d hd
  -- the line feed at the end is no mark
  obtain ⟨d, z, rfl⟩ : ∃ d z', z = d :: z' := by
    refine List.exists_cons_of_ne_nil ?_
    rintro rfl
    exact absurd (hmarks '\n' (by simpa using hy.mem hne)) (by decide)
  have htail (w : List Char) := literalTail_marks (x := d :: z ++ w) hc hmarks hz
  by_cases hd : d = '"'
  · subst hd
    have hdrop : (marks ++ '"' :: z).drop (marks.length + 1) = z := by
      rw [← List.drop_drop, List.drop_left]
      rfl
    have hz := hy.of_append
    have hbody := hbody (marks.length + 1) ((c :: marks).contains '@') ((c :: marks).contains '$')
    rw [hdrop] at hbody
    have hstring := stringTail_fate hz.of_cons (hz.ne_nil (by decide)) hbody
    refine .skip (marks.length + 1) (by simp) (fun w => ?_) (hdrop.symm ▸ hstring)
    rw [List.append_assoc, htail w, hdrop]
    simp
  · refine .dead fun w => ?_
    rw [List.append_assoc, htail w]
    simp [hd]

/-- The fate of a comment or literal, if that of the strings in it is known. -/
theorem literalTail_fate_of_body (hy : EndsLine (c :: y))
    (hbody : StringFates y) :
    Fate (literalTail c) y := by
  by_cases hnone : c ≠ '/' ∧ c ≠ '\'' ∧ c ≠ '"' ∧ c ≠ '@' ∧ c ≠ '$'
  · exact .dead fun w => literalTail_eq_none hnone _
  have hne : y ≠ [] := hy.ne_nil (by rintro rfl; simp at hnone)
  have hy := hy.of_cons
  by_cases hslash : c = '/'
  · exact .congr (fun w => by simp [literalTail, hslash]) (commentTail_fate hy hne)
  by_cases hquote : c = '\''
  · exact .congr (fun w => by simp [literalTail, hquote]) (charTail_fate hy hne)
  by_cases hstring : c = '"'
  · refine .congr (fun w => ?_) (stringTail_fate hy hne (hbody 0 false false))
    simp [literalTail, hstring]
  have hmark : (c == '@' || c == '$') = true := by
    rw [Bool.or_eq_true, beq_iff_eq, beq_iff_eq]
    refine Decidable.byContradiction fun h => hnone ?_
    rw [not_or] at h
    exact ⟨hslash, hquote, hstring, h⟩
  exact literalTail_fate_of_mark hmark hy hne hbody

/-! ## Searches -/

theorem scan_braces (depth seen : Nat) (t : List Char) :
    scan (· == '}') depth seen (List.replicate (depth + 1) '}' ++ t) = some (seen + depth) := by
  induction depth generalizing seen with
  | zero =>
    rw [List.replicate_one, List.singleton_append, scan]
    simp
  | succ depth ih =>
    rw [List.replicate_succ, List.cons_append, scan_closing _ rfl, ih, Nat.add_right_comm]
    rfl

/-- The fate of a search for the closing brace, if that of the strings in the text is known. -/
theorem scan_fate_of_body (hy : EndsLine y)
    (hbody : StringFates y) (depth : Nat) :
    Fate (fun s => (scan (· == '}') depth 0 s).map (· + 1)) y := by
  let stop : Char → Bool := (· == '}')
  -- a literal takes several characters at once, so the induction is on the length
  induction hn : y.length using Nat.strongRecOn generalizing y depth with
  | ind n ih =>
    cases y with
    | nil =>
      refine .opened (List.replicate depth '}') fun t _ => ?_
      have hbraces := scan_braces depth 0 t
      rw [List.replicate_succ, List.cons_append] at hbraces
      rw [List.nil_append, hbraces]
      simp [Nat.add_comm]
    | cons c y =>
      -- what is left behind the first `m + 1` characters
      have hrest (m depth : Nat) :
          Fate (fun s => (scan (· == '}') depth 0 s).map (· + 1)) ((c :: y).drop (m + 1)) := by
        refine ih _ ?_ (hy.drop _) (hbody.drop _) depth rfl
        rw [← hn, List.length_drop, List.length_cons]
        omega
      by_cases hstop : depth = 0 ∧ c = '}'
      · obtain ⟨rfl, rfl⟩ := hstop
        exact .closed 1 (by simp) fun w => by simp [scan]
      have hstop : depth = 0 → stop c = false := fun h => by simpa [stop, h] using hstop
      by_cases hopen : isOpening c = true
      · refine .skip_cons (fun w => ?_) (hrest 0 (depth + 1))
        rw [scan_opening _ hstop hopen, scan_eq_map, Option.map_map, Option.map_map]
        rfl
      by_cases hclose : isClosing c = true
      · cases depth with
        | zero =>
          refine .dead fun w => ?_
          rw [List.cons_append, scan_unopened _ (hstop rfl) hclose, Option.map_none]
        | succ depth =>
          refine .skip_cons (fun w => ?_) (hrest 0 depth)
          rw [scan_closing _ hclose, scan_eq_map, Option.map_map, Option.map_map]
          rfl
      have hbracket : isOpening c = false ∧ isClosing c = false := by simp [hopen, hclose]
      cases literalTail_fate_of_body hy (hbody.drop 1) with
      | closed m hm h =>
        refine .skip (m + 1) (Nat.succ_le_succ hm) (fun w => ?_) (hrest m depth)
        rw [List.cons_append, scan_literal _ hstop hbracket (h w), List.drop_append_of_le_length hm,
          scan_eq_map, Option.map_map, Option.map_map, Nat.zero_add]
        rfl
      | dead h =>
        by_cases hquote : c = '"' ∨ c = '\''
        · refine .dead fun w => ?_
          rw [List.cons_append, scan_unclosed _ hstop hquote (h w), Option.map_none]
        · refine .skip_cons (fun w => ?_) (hrest 0 depth)
          rw [scan_plain _ hstop hbracket (not_or.mp hquote) (h w), scan_eq_map, Option.map_map,
            Option.map_map]
          rfl
      | opened u h =>
        refine .opened (u ++ List.replicate (depth + 1) '}') fun t _ => ?_
        have htext : y ++ '}' :: (u ++ (List.replicate (depth + 1) '}' ++ t)) =
            (y ++ '}' :: u) ++ (List.replicate (depth + 1) '}' ++ t) := by simp
        have hlength : (y ++ '}' :: u).length = y.length + 1 + u.length := by simp; omega
        have htail := h (List.replicate (depth + 1) '}' ++ t) (by simp [List.replicate_succ])
        rw [List.cons_append, List.append_assoc, scan_literal _ hstop hbracket htail, htext,
          ← hlength, List.drop_left, scan_braces]
        simp
        omega

/-! ## Fates of literals -/

/-- The closing brace of a block is a character of a string that is still open. -/
theorem stringBody_brace_quote (isVerbatim isInterpolated : Bool) (seen : Nat)
    (ht : t.head? ≠ some '"') :
    stringBody isVerbatim isInterpolated seen ('}' :: '"' :: t) = some (seen + 2) := by
  have hnext : (t.head? == some '"') = false := by simpa using ht
  have hclosed : stringBody isVerbatim isInterpolated (seen + 1) ('"' :: t) = some (seen + 2) := by
    rw [stringBody]
    simp [hnext]
  rw [stringBody]
  simpa using hclosed

/-- The fate of a string whose next character may open a hole. -/
theorem stringBody_fate_of_brace (isVerbatim : Bool) (hy : EndsLine ('{' :: y))
    (hrest : StringFates y) :
    Fate (stringBody isVerbatim true 0) ('{' :: y) := by
  obtain ⟨d, z, rfl⟩ := hy.exists_cons (by decide)
  by_cases hd : d = '{'
  · refine .skip 2 (by simp) (fun w => ?_) (hrest 1 isVerbatim true)
    rw [List.cons_append, stringBody_brace _ _ (by simp [hd]), stringBody_eq_map, Nat.zero_add]
    rfl
  have hhead (w : List Char) : (d :: z ++ w).head? ≠ some '{' := by simpa using hd
  cases scan_fate_of_body hy.of_cons hrest 0 with
  | closed m hm h =>
    obtain ⟨k, -, rfl⟩ := Option.map_eq_some_iff.mp (h [])
    refine .skip (k + 2) (Nat.succ_le_succ hm) (fun w => ?_) (hrest (k + 1) isVerbatim true)
    have hk : scan (· == '}') 0 0 (d :: z ++ w) = some k := by simpa using h w
    rw [List.cons_append, stringBody_hole _ _ (hhead w) hk, List.drop_append_of_le_length hm,
      stringBody_eq_map, Nat.zero_add]
    rfl
  | dead h =>
    refine .dead fun w => ?_
    have hnone : scan (· == '}') 0 0 (d :: z ++ w) = none := by simpa using h w
    rw [List.cons_append, stringBody_unclosed _ _ (hhead w) hnone]
  | opened u h =>
    -- behind the hole the string is closed in turn
    refine .opened (u ++ ['}', '"']) fun t ht => ?_
    have hscan : scan (· == '}') 0 0 (d :: z ++ '}' :: (u ++ '}' :: '"' :: t)) =
        some ((d :: z).length + u.length) := by
      obtain ⟨k, hk, hlength⟩ := Option.map_eq_some_iff.mp (h ('}' :: '"' :: t) (by simp))
      rw [hk]
      congr 1
      omega
    have htext : d :: z ++ '}' :: (u ++ ['}', '"'] ++ t) =
        d :: z ++ '}' :: (u ++ '}' :: '"' :: t) := by simp
    have hdrop : (d :: z ++ '}' :: (u ++ '}' :: '"' :: t)).drop ((d :: z).length + u.length + 1) =
        '}' :: '"' :: t := by
      have hsplit : d :: z ++ '}' :: (u ++ '}' :: '"' :: t) =
          (d :: z ++ '}' :: u) ++ '}' :: '"' :: t := by simp
      rw [hsplit, List.drop_left' (by simp; omega)]
    rw [List.cons_append, htext, stringBody_hole _ _ (hhead _) hscan, hdrop,
      stringBody_brace_quote _ _ _ ht]
    simp
    omega

theorem stringBody_fate (isVerbatim isInterpolated : Bool) (hy : EndsLine y) :
    Fate (stringBody isVerbatim isInterpolated 0) y := by
  induction hn : y.length using Nat.strongRecOn generalizing y isVerbatim isInterpolated with
  | ind n ih =>
    cases y with
    | nil =>
      refine .opened ['"'] fun t ht => ?_
      exact stringBody_brace_quote isVerbatim isInterpolated 0 ht
    | cons c y =>
      have hrest : StringFates y := by
        intro m isVerbatim isInterpolated
        refine ih _ ?_ isVerbatim isInterpolated (hy.of_cons.drop m) rfl
        rw [← hn, List.length_drop, List.length_cons]
        omega
      by_cases hescape : (c == '\\' && !isVerbatim) = true
      · obtain ⟨d, z, rfl⟩ := hy.exists_cons (by rintro rfl; simp at hescape)
        refine .skip 2 (by simp) (fun w => ?_) (hrest 1 isVerbatim isInterpolated)
        rw [List.cons_append, stringBody, if_pos hescape, stringBody_eq_map, Nat.zero_add]
        rfl
      by_cases hquote : (c == '"') = true
      · obtain ⟨d, z, rfl⟩ := hy.exists_cons (by rintro rfl; simp at hquote)
        by_cases hdoubled : (isVerbatim && d == '"') = true
        · refine .skip 2 (by simp) (fun w => ?_) (hrest 1 isVerbatim isInterpolated)
          rw [List.cons_append, stringBody, if_neg hescape, if_pos hquote, List.cons_append,
            List.head?_cons, Option.some_beq_some, if_pos hdoubled, stringBody_eq_map, Nat.zero_add]
          rfl
        · refine .closed 1 (by simp) fun w => ?_
          rw [List.cons_append, stringBody, if_neg hescape, if_pos hquote, List.cons_append,
            List.head?_cons, Option.some_beq_some, if_neg hdoubled]
      by_cases hbrace : (c == '{' && isInterpolated) = true
      · obtain ⟨rfl, rfl⟩ : c = '{' ∧ isInterpolated = true := by simpa using hbrace
        exact stringBody_fate_of_brace isVerbatim hy hrest
      by_cases hfeed : (c == '\n' && !isVerbatim) = true
      · refine .dead fun w => ?_
        rw [List.cons_append, stringBody, if_neg hescape, if_neg hquote, if_neg hbrace,
          if_pos hfeed]
      · refine .skip_cons (fun w => ?_) (hrest 0 isVerbatim isInterpolated)
        rw [stringBody, if_neg hescape, if_neg hquote, if_neg hbrace, if_neg hfeed,
          stringBody_eq_map, Nat.zero_add]

theorem literalTail_fate (hy : EndsLine (c :: y)) : Fate (literalTail c) y :=
  literalTail_fate_of_body hy fun n _ _ => stringBody_fate _ _ (hy.of_cons.drop n)

end DeclGen.Grammar
