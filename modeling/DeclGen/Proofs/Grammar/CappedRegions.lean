import DeclGen.Grammar.Region
import DeclGen.Proofs.Grammar.Capped
import DeclGen.Proofs.Grammar.Extents
import DeclGen.Proofs.Grammar.Tokens

/-!
# Trivia and regions in front of a closing brace

A line feed and a brace behind a text belong to no literal and no block comment of it, and of a line
that ends with the text only the line feed is read. So trivia and literals extend as far as before,
and a search for a stop character that is found is found at the same place. A search that is not
found may at most find the brace.

## Main statements

* `Capped.trivia`: what is left behind trivia
* `Capped.literalTail`, `Capped.scan`: literals and searches
-/

namespace DeclGen.Grammar

open DeclGen.Grammar.Parser DeclGen.Text

variable {s t : List Char} {c : Char} {n : Nat}

/-! ## Characters of a kind -/

theorem takeWhile_cap {p : Char → Bool} (h : p '\n' = false) (s : List Char) :
    (s ++ ['\n', '}']).takeWhile p = s.takeWhile p := by
  induction s with
  | nil => simp [h]
  | cons c s ih =>
    rw [List.cons_append, List.takeWhile_cons, List.takeWhile_cons, ih]

theorem head?_cap (s : List Char) : (s ++ ['\n', '}']).head? = s.head?.or (some '\n') := by
  cases s <;> rfl

/-- A character other than the line feed and the brace comes next in both texts or in none. -/
theorem Capped.head?_beq (h : Capped s t) (hfeed : c ≠ '\n') (hbrace : c ≠ '}') :
    (t.head? == some c) = (s.head? == some c) := by
  rcases h.cases_head with ⟨d, s', rfl, rfl⟩ | ⟨rfl, rfl | rfl⟩
  · rfl
  · simp [Ne.symm hfeed]
  · simp [Ne.symm hbrace]

theorem drop_cap (hn : n ≤ s.length) : (s ++ ['\n', '}']).drop n = s.drop n ++ ['\n', '}'] :=
  List.drop_append_of_le_length hn

/-! ## Trivia -/

theorem lineLength_cap (s : List Char) : lineLength (s ++ ['\n', '}']) = lineLength s := by
  rw [lineLength, takeWhile_cap rfl, lineLength]

theorem lineLength_le (s : List Char) : lineLength s ≤ s.length :=
  (List.takeWhile_sublist _).length_le

theorem commentLength_cap (s : List Char) :
    commentLength (s ++ ['\n', '}']) = commentLength s := by
  fun_induction commentLength s with
  | case1 s => rfl
  | case2 c s h ih =>
    rw [List.cons_append, commentLength, ih]
    rintro u rfl hu
    cases s with
    | nil => cases hu
    | cons d s =>
      cases hu
      exact h s rfl rfl
  | case3 => rfl

theorem le_of_commentLength (h : commentLength s = some n) : n ≤ s.length := by
  fun_induction commentLength s generalizing n with
  | case1 s =>
    cases h
    simp
  | case2 c s _ ih =>
    obtain ⟨m, hm, rfl⟩ := Option.map_eq_some_iff.mp h
    exact Nat.succ_le_succ (ih hm)
  | case3 => cases h

theorem triviaTail_cap (c : Char) (s : List Char) :
    triviaTail c (s ++ ['\n', '}']) = triviaTail c s := by
  unfold triviaTail
  split
  · rfl
  split
  · rw [lineLength_cap]
  split
  · rcases s with _ | ⟨d, s⟩
    · rfl
    · by_cases hslash : d = '/'
      · subst hslash
        simp [lineLength_cap]
      by_cases hstar : d = '*'
      · subst hstar
        simp [commentLength_cap]
      · simp [hslash, hstar]
  · rfl

theorem le_of_triviaTail (h : triviaTail c s = some n) : n ≤ s.length := by
  unfold triviaTail at h
  split at h
  next =>
    cases h
    exact Nat.zero_le _
  split at h
  next =>
    cases h
    exact lineLength_le s
  split at h
  next =>
    split at h
    next s =>
      cases h
      exact Nat.succ_le_succ (lineLength_le s)
    next s =>
      obtain ⟨m, hm, rfl⟩ := Option.map_eq_some_iff.mp h
      exact Nat.succ_le_succ (le_of_commentLength hm)
    next => cases h
  next => cases h

/-- Behind trivia either more of the text is left, or the brace. -/
theorem Capped.trivia (h : Capped s t) :
    Capped (s.drop (triviaLength s)) (t.drop (triviaLength t)) := by
  cases h with
  | atEnd =>
    have hbrace : triviaLength ['}'] = 0 := by simp [triviaLength, triviaTail, isSpace]
    rw [hbrace, triviaLength]
    exact .atEnd
  | inside s =>
    induction hn : s.length using Nat.strongRecOn generalizing s with
    | ind n ih =>
      cases s with
      | nil =>
        have hfeed : triviaLength ['\n', '}'] = 1 := by simp [triviaLength, triviaTail, isSpace]
        rw [List.nil_append, hfeed, triviaLength]
        exact .atEnd
      | cons c s =>
        rw [List.cons_append, triviaLength, triviaLength, triviaTail_cap]
        cases hc : triviaTail c s with
        | none => exact .inside (c :: s)
        | some m =>
          have hm := le_of_triviaTail hc
          have hdrop (u : List Char) (k : Nat) :
              (c :: u).drop (1 + m + k) = (u.drop m).drop k := by
            rw [Nat.add_assoc, Nat.add_comm 1, List.drop_succ_cons, List.drop_drop]
          dsimp only
          rw [hdrop, hdrop, drop_cap hm]
          refine ih (s.drop m).length ?_ rfl
          rw [← hn, List.length_drop, List.length_cons]
          omega

theorem alike_trivia {lax : Prop} : Alike lax trivia trivia fun _ _ => True :=
  fun _ _ hst _ _ => .ok True.intro hst.trivia

/-! ## Literals -/

/-- A quote stands in a text where it stands in front of a line feed and a brace. -/
theorem head?_drop_cap_beq (hfeed : c ≠ '\n') (hn : n ≤ s.length) :
    (((s ++ ['\n', '}']).drop n).head? == some c) = ((s.drop n).head? == some c) := by
  rw [drop_cap hn, head?_cap]
  cases (s.drop n).head? with
  | none => simpa using Ne.symm hfeed
  | some d => rfl

theorem lt_of_head?_drop (h : (s.drop n).head? = some c) : n < s.length := by
  refine Nat.lt_of_not_le fun hle => ?_
  rw [List.drop_of_length_le hle] at h
  cases h

theorem charTail_cap (s : List Char) : charTail (s ++ ['\n', '}']) = charTail s := by
  -- A backslash at the end of the text escapes the line feed; then nothing closes the literal.
  by_cases hone : s = ['\\']
  · subst hone
    rfl
  have hescape : (if (s ++ ['\n', '}']).head? == some '\\' then 2 else 0) =
      if s.head? == some '\\' then 2 else 0 := by
    cases s <;> rfl
  have hle : (if s.head? == some '\\' then 2 else 0) ≤ s.length := by
    rcases s with _ | ⟨c, _ | ⟨d, s⟩⟩
    · simp
    · have hc : c ≠ '\\' := by simpa using hone
      simp [hc]
    · simp only [List.length_cons]
      split <;> omega
  unfold charTail
  simp only [hescape]
  generalize (if s.head? == some '\\' then 2 else 0) = escape at hle
  rw [drop_cap hle, takeWhile_cap (by decide)]
  have hbody :=
    (List.takeWhile_sublist (l := s.drop escape) fun c => c != '\'' && c != '\n').length_le
  rw [List.length_drop] at hbody
  rw [head?_drop_cap_beq (by decide) (by omega)]

theorem le_of_charTail (h : charTail s = some n) : n ≤ s.length := by
  simp only [charTail, Option.ite_none_right_eq_some, Option.some.injEq] at h
  obtain ⟨hquote, rfl⟩ := h
  exact lt_of_head?_drop (eq_of_beq hquote)

theorem rawTail_cap {quotes run : Nat} (hquotes : 0 < quotes) (s : List Char) :
    rawTail quotes run (s ++ ['\n', '}']) = rawTail quotes run s := by
  induction s generalizing run with
  | nil => simp [rawTail, Nat.ne_of_gt hquotes]
  | cons c s ih =>
    rw [List.cons_append, rawTail, rawTail, ih, ih]

theorem le_of_rawTail {quotes run : Nat} (h : rawTail quotes run s = some n) :
    n ≤ s.length := by
  induction s generalizing run n with
  | nil =>
    rw [rawTail] at h
    split at h <;> cases h
    exact Nat.zero_le _
  | cons c s ih =>
    rw [rawTail] at h
    split at h
    next =>
      obtain ⟨m, hm, rfl⟩ := Option.map_eq_some_iff.mp h
      exact Nat.succ_le_succ (ih hm)
    split at h
    next =>
      cases h
      exact Nat.zero_le _
    next =>
      obtain ⟨m, hm, rfl⟩ := Option.map_eq_some_iff.mp h
      exact Nat.succ_le_succ (ih hm)

/-! ## Searches -/

/-- The results of a search in the two texts, of which `t` is the second: they are the same, or only
the brace at the end is found. -/
inductive Found (stop : Char → Bool) (t : List Char) : Option Nat → Option Nat → Prop where
  | same (r : Option Nat) : Found stop t r r
  | brace (h : stop '}' = true) : Found stop t none (some (t.length - 1))

/-- What a literal search gives is the same in both texts and lies inside the first. -/
def SameLength (s : List Char) (r r' : Option Nat) : Prop :=
  r' = r ∧ ∀ n, r = some n → n ≤ s.length

theorem Found.step {stop : Char → Bool} {m : Nat} {r r' : Option Nat} (hm : m < t.length)
    (h : Found stop (t.drop m) r r') :
    Found stop (c :: t) (r.map (m + 1 + ·)) (r'.map (m + 1 + ·)) := by
  cases h with
  | same r => exact .same _
  | brace hbrace =>
    rw [Option.map_none, Option.map_some, List.length_drop]
    have hlength : m + 1 + (t.length - m - 1) = (c :: t).length - 1 := by
      rw [List.length_cons]
      omega
    rw [hlength]
    exact .brace hbrace

/-- What the two mutually recursive searches are to give on texts shorter than `n`. -/
structure ShortSearches (n : Nat) : Prop where
  body : ∀ s : List Char, s.length < n → ∀ isVerbatim isInterpolated,
    SameLength s (stringBody isVerbatim isInterpolated 0 s)
      (stringBody isVerbatim isInterpolated 0 (s ++ ['\n', '}']))
  scan : ∀ s t : List Char, Capped s t → s.length < n → ∀ stop : Char → Bool, stop '\n' = false →
    ∀ depth, Found stop t (scan stop depth 0 s) (scan stop depth 0 t)

theorem ShortSearches.mono {m : Nat} (h : ShortSearches n) (hm : m ≤ n) : ShortSearches m :=
  ⟨fun s hs => h.body s (Nat.lt_of_lt_of_le hs hm),
    fun s t hst hs => h.scan s t hst (Nat.lt_of_lt_of_le hs hm)⟩

theorem SameLength.none : SameLength s none none := ⟨rfl, by simp⟩

theorem stringBody_brace_alone (isVerbatim isInterpolated : Bool) (seen : Nat) :
    stringBody isVerbatim isInterpolated seen ['}'] = none := by
  simp [stringBody]

/-- Behind some characters of a string. -/
theorem body_capped_behind (isVerbatim isInterpolated : Bool) {m : Nat} (hm : m ≤ s.length)
    (h : ShortSearches (s.length + 1)) :
    SameLength (c :: s) (stringBody isVerbatim isInterpolated (0 + (m + 1)) (s.drop m))
      (stringBody isVerbatim isInterpolated (0 + (m + 1)) ((s ++ ['\n', '}']).drop m)) := by
  have hlt : (s.drop m).length < s.length + 1 := by
    rw [List.length_drop]
    omega
  obtain ⟨hsame, hle⟩ := h.body (s.drop m) hlt isVerbatim isInterpolated
  rw [stringBody_eq_map _ _ _ (s.drop m), stringBody_eq_map _ _ _ ((s ++ _).drop m), drop_cap hm,
    hsame]
  refine ⟨rfl, fun n hn => ?_⟩
  obtain ⟨k, hk, rfl⟩ := Option.map_eq_some_iff.mp hn
  have := hle k hk
  rw [List.length_drop] at this
  rw [List.length_cons]
  omega

/-- Behind a hole of a string. The brace behind the text may close the hole, but then nothing closes
the string. -/
theorem hole_capped (isVerbatim isInterpolated : Bool) (h : ShortSearches (s.length + 1)) :
    SameLength (c :: s)
      (match scan (· == '}') 0 0 s with
        | some n => stringBody isVerbatim isInterpolated (0 + (n + 2)) (s.drop (n + 1))
        | none => none)
      (match scan (· == '}') 0 0 (s ++ ['\n', '}']) with
        | some n =>
          stringBody isVerbatim isInterpolated (0 + (n + 2)) ((s ++ ['\n', '}']).drop (n + 1))
        | none => none) := by
  have hhole := h.scan s _ (.inside s) (Nat.lt_succ_self _) (· == '}') rfl 0
  generalize hr : scan (· == '}') 0 0 s = r at hhole
  generalize scan (· == '}') 0 0 (s ++ ['\n', '}']) = r' at hhole
  cases hhole with
  | same =>
    cases r with
    | none => exact .none
    | some n =>
      obtain ⟨d, u, hdrop, -⟩ := exists_of_scan hr
      have hlt : n < s.length := lt_of_head?_drop (c := d) (by rw [hdrop]; rfl)
      exact body_capped_behind isVerbatim isInterpolated hlt h
  | brace =>
    have hend : (s ++ ['\n', '}']).drop ((s ++ ['\n', '}']).length - 1 + 1) = [] := by simp
    dsimp only
    rw [hend, stringBody]
    exact .none

/-- The strings in the holes of a string are searched for in shorter texts. -/
theorem body_capped (isVerbatim isInterpolated : Bool) (s : List Char)
    (h : ShortSearches s.length) :
    SameLength s (stringBody isVerbatim isInterpolated 0 s)
      (stringBody isVerbatim isInterpolated 0 (s ++ ['\n', '}'])) := by
  cases s with
  | nil =>
    refine ⟨?_, by simp [stringBody]⟩
    rw [List.nil_append, stringBody, stringBody]
    simp [stringBody_brace_alone]
  | cons c s =>
    have further {m : Nat} (hm : m ≤ s.length) :=
      body_capped_behind (c := c) isVerbatim isInterpolated hm h
    have hquote := (Capped.inside s).head?_beq (c := '"') (by decide) (by decide)
    have hopen := (Capped.inside s).head?_beq (c := '{') (by decide) (by decide)
    have hhead {d : Char} (hd : (s.head? == some d) = true) : 1 ≤ s.length := by
      cases s with
      | nil => cases hd
      | cons e s => simp
    rw [List.cons_append, stringBody, stringBody, hquote, hopen]
    split
    · cases s with
      | nil =>
        rw [List.nil_append, List.drop_succ_cons, List.drop_zero, List.drop_nil, stringBody,
          stringBody_brace_alone]
        exact .none
      | cons d s => exact further (by simp)
    split
    · split
      next hverbatim => exact further (hhead (Bool.and_eq_true _ _ ▸ hverbatim).2)
      next => exact ⟨rfl, fun n hn => by cases hn; simp⟩
    split
    · split
      next hdouble => exact further (hhead hdouble)
      next => exact hole_capped isVerbatim isInterpolated h
    split
    · exact .none
    · exact further (Nat.zero_le _)

theorem stringTail_capped (isVerbatim isInterpolated : Bool) (s : List Char)
    (h : ShortSearches (s.length + 1)) :
    SameLength s (stringTail isVerbatim isInterpolated s)
      (stringTail isVerbatim isInterpolated (s ++ ['\n', '}'])) := by
  have hquotes := (List.takeWhile_sublist (l := s) (· == '"')).length_le
  rw [stringTail, stringTail, takeWhile_cap (by decide)]
  generalize (s.takeWhile (· == '"')).length = quotes at hquotes
  split
  · rw [drop_cap hquotes, rawTail_cap (Nat.succ_pos _)]
    refine ⟨rfl, fun n hn => ?_⟩
    obtain ⟨m, hm, rfl⟩ := Option.map_eq_some_iff.mp hn
    have := le_of_rawTail hm
    rw [List.length_drop] at this
    omega
  · exact h.body s (Nat.lt_succ_self _) isVerbatim isInterpolated

/-- How literals and comments extend in the two texts: equally far, but for a line comment up to the
end of the text. -/
inductive Extends (s : List Char) : Option Nat → Option Nat → Prop where
  | same {r r' : Option Nat} (h : SameLength s r r') : Extends s r r'
  | line : Extends s (some s.length) (some (s.length + 1))

/-- Only a line comment at the end of the text gets longer, by the line feed. -/
theorem commentTail_capped (s : List Char) :
    Extends s (commentTail s) (commentTail (s ++ ['\n', '}'])) := by
  have hother : Extends s none none := .same .none
  cases s with
  | nil => exact hother
  | cons c s =>
    by_cases hslash : c = '/'
    · subst hslash
      have hle := lineLength_le s
      simp only [List.cons_append, commentTail, lineLength_cap]
      rw [drop_cap hle]
      cases hdrop : s.drop (lineLength s) with
      | nil =>
        have hend : s.length = lineLength s :=
          Nat.le_antisymm (List.drop_eq_nil_iff.mp hdrop) hle
        have hline := Extends.line (s := '/' :: s)
        rw [List.length_cons, hend] at hline
        exact hline
      | cons d u =>
        have hlt := lt_of_head?_drop (n := lineLength s) (c := d) (by rw [hdrop]; rfl)
        refine .same ⟨rfl, fun n hn => ?_⟩
        cases hn
        rw [List.length_cons]
        omega
    by_cases hstar : c = '*'
    · subst hstar
      simp only [List.cons_append, commentTail, commentLength_cap]
      refine .same ⟨rfl, fun n hn => ?_⟩
      obtain ⟨m, hm, rfl⟩ := Option.map_eq_some_iff.mp hn
      exact Nat.succ_le_succ (le_of_commentLength hm)
    · simpa [commentTail, hslash, hstar] using hother

theorem literalTail_capped (c : Char) (s : List Char) (h : ShortSearches (s.length + 1)) :
    Extends s (literalTail c s) (literalTail c (s ++ ['\n', '}'])) := by
  rw [literalTail, literalTail]
  split
  · exact commentTail_capped s
  split
  · exact .same ⟨charTail_cap s, fun n => le_of_charTail⟩
  split
  · exact .same (stringTail_capped false false s h)
  split
  · have hmarks := (List.takeWhile_sublist (l := s) fun c => c == '@' || c == '$').length_le
    rw [takeWhile_cap (by decide)]
    dsimp only
    generalize s.takeWhile (fun c => c == '@' || c == '$') = marks at hmarks
    rw [head?_drop_cap_beq (by decide) hmarks]
    split
    next hquote =>
      have hlt := lt_of_head?_drop (eq_of_beq hquote)
      rw [drop_cap hlt]
      obtain ⟨hsame, hle⟩ := stringTail_capped ((c :: marks).contains '@')
        ((c :: marks).contains '$') (s.drop (marks.length + 1))
        (h.mono (by rw [List.length_drop]; omega))
      rw [hsame]
      refine .same ⟨rfl, fun n hn => ?_⟩
      obtain ⟨m, hm, rfl⟩ := Option.map_eq_some_iff.mp hn
      have := hle m hm
      rw [List.length_drop] at this
      omega
    next => exact .same .none
  · exact .same .none

theorem scan_brace (stop : Char → Bool) (depth : Nat) :
    scan stop depth 0 ['}'] = if depth == 0 && stop '}' then some 0 else none := by
  rw [scan]
  cases depth with
  | zero => simp [isOpening, isClosing]
  | succ depth => simp [isOpening, isClosing, scan]

theorem found_brace (stop : Char → Bool) (depth : Nat) :
    Found stop ['}'] (scan stop depth 0 []) (scan stop depth 0 ['}']) := by
  rw [scan_brace, scan]
  split
  next h => exact .brace (Bool.and_eq_true _ _ ▸ h).2
  next => exact .same none

/-- Behind some characters of the text. -/
theorem scan_capped_behind {stop : Char → Bool} (hfeed : stop '\n' = false) (depth : Nat) {m : Nat}
    (hm : m ≤ s.length) (h : ShortSearches (s.length + 1)) :
    Found stop (c :: (s ++ ['\n', '}'])) (scan stop depth (0 + (m + 1)) (s.drop m))
      (scan stop depth (0 + (m + 1)) ((s ++ ['\n', '}']).drop m)) := by
  have hlt : (s.drop m).length < s.length + 1 := by
    rw [List.length_drop]
    omega
  have hrest := h.scan (s.drop m) _ (.inside _) hlt stop hfeed depth
  rw [← drop_cap hm] at hrest
  rw [scan_eq_map stop depth _ (s.drop m), scan_eq_map stop depth _ ((s ++ _).drop m), Nat.zero_add]
  refine hrest.step ?_
  rw [List.length_append]
  exact Nat.lt_of_le_of_lt hm (Nat.lt_add_of_pos_right (Nat.succ_pos _))

/-- Behind a line comment that ends with the text: the line feed ends the comment, and only the
brace is left. -/
theorem scan_capped_line (stop : Char → Bool) (depth : Nat) :
    Found stop (c :: (s ++ ['\n', '}'])) (scan stop depth (0 + (s.length + 1)) (s.drop s.length))
      (scan stop depth (0 + (s.length + 1 + 1)) ((s ++ ['\n', '}']).drop (s.length + 1))) := by
  have hdrop : (s ++ ['\n', '}']).drop (s.length + 1) = ['}'] := by simp [List.drop_append]
  have hbrace := found_brace stop depth
  rw [← hdrop] at hbrace
  have hstep := hbrace.step (c := c) (m := s.length + 1) (by simp)
  rw [scan, Option.map_none] at hstep
  rw [List.drop_length, scan, scan_eq_map stop depth _ ((s ++ _).drop _), Nat.zero_add]
  exact hstep

/-- A search finds the same in both texts, unless only the brace at the end is what it looks for. -/
theorem scan_capped {stop : Char → Bool} (hfeed : stop '\n' = false) (depth : Nat)
    (hst : Capped s t) (h : ShortSearches s.length) :
    Found stop t (scan stop depth 0 s) (scan stop depth 0 t) := by
  cases hst with
  | atEnd => exact found_brace stop depth
  | inside s =>
    cases s with
    | nil =>
      have hbrace := (found_brace stop depth).step (c := '\n') (m := 0) (by simp)
      rw [List.nil_append, scan.eq_def stop depth 0 ['\n', '}']]
      simpa [hfeed, isOpening, isClosing, literalTail, scan, scan_eq_map stop _ 1] using hbrace
    | cons c s =>
      have further (d : Nat) {m : Nat} (hm : m ≤ s.length) :=
        scan_capped_behind (c := c) hfeed d hm h
      rw [List.cons_append, scan, scan]
      split
      · exact .same _
      split
      · exact further (depth + 1) (Nat.zero_le _)
      split
      · split
        · exact .same _
        · exact further (depth - 1) (Nat.zero_le _)
      have hliteral := literalTail_capped c s (h.mono (Nat.le_refl _))
      generalize literalTail c s = r at hliteral
      generalize literalTail c (s ++ ['\n', '}']) = r' at hliteral
      cases hliteral with
      | same hsame =>
        obtain ⟨rfl, hle⟩ := hsame
        cases r' with
        | some n => exact further depth (hle n rfl)
        | none =>
          dsimp only
          split
          · exact .same _
          · exact further depth (Nat.zero_le _)
      | line => exact scan_capped_line stop depth

theorem shortSearches (n : Nat) : ShortSearches n := by
  induction n with
  | zero =>
    exact ⟨fun s hs => absurd hs (Nat.not_lt_zero _), fun s t _ hs => absurd hs (Nat.not_lt_zero _)⟩
  | succ n ih =>
    refine ⟨fun s hs v i => ?_, fun s t hst hs stop hfeed depth => ?_⟩
    · exact body_capped v i s (ih.mono (Nat.le_of_lt_succ hs))
    · exact scan_capped hfeed depth hst (ih.mono (Nat.le_of_lt_succ hs))

/-- A search for a stop character in the two texts. -/
theorem Capped.scan {stop : Char → Bool} (hst : Capped s t) (hfeed : stop '\n' = false)
    (depth : Nat) : Found stop t (Grammar.scan stop depth 0 s) (Grammar.scan stop depth 0 t) :=
  scan_capped hfeed depth hst (shortSearches _)

variable {lax : Prop}

/-- What stands in front of a stop character. Where failures have to match, the brace may not be
one. -/
theorem alike_takeUntil {stop : Char → Bool} (hfeed : stop '\n' = false)
    (hbrace : ¬ lax → stop '}' = false) :
    Alike lax (takeUntil stop) (takeUntil stop) (· = ·) := by
  refine .ahead_bind fun s t hst => ?_
  have hfound := hst.scan hfeed 0
  cases hs : Grammar.scan stop 0 0 s with
  | some n =>
    rw [hs] at hfound
    generalize Grammar.scan stop 0 0 t = r at hfound
    cases hfound with
    | same =>
      obtain ⟨c, u, hdrop, -⟩ := exists_of_scan hs
      exact .take hst (Nat.le_of_lt (lt_of_head?_drop (c := c) (by rw [hdrop]; rfl)))
  | none =>
    rw [hs] at hfound
    generalize Grammar.scan stop 0 0 t = r at hfound
    cases hfound with
    | same => exact .fail
    | brace h =>
      by_cases hlax : lax
      · exact fun _ _ => .of_error hlax
      · rw [hbrace hlax] at h
        cases h

/-- A character that satisfies the condition comes next. -/
theorem leaves_takeUntil (stop : Char → Bool) :
    Leaves (takeUntil stop) fun s => ∃ c u, s = c :: u ∧ stop c = true := by
  intro c a c' h
  simp only [takeUntil, bind_apply, ahead] at h
  cases hs : Grammar.scan stop 0 0 c.rest with
  | none =>
    rw [hs] at h
    cases h
  | some n =>
    rw [hs] at h
    cases h
    exact exists_of_scan hs

/-- A bracketed region. Where failures have to match, it may not be one in braces. -/
theorem alike_delimited {opening closing : Char} (hfeed : closing ≠ '\n')
    (hopening : opening ≠ '\n' ∧ opening ≠ '}') (hbrace : ¬ lax → closing ≠ '}') :
    Alike lax (delimited opening closing) (delimited opening closing) (· = ·) := by
  refine .ahead_bind fun s t hst => ?_
  rcases hst.cases_head with ⟨c, u, rfl, rfl⟩ | ⟨rfl, rfl | rfl⟩
  · dsimp only
    split
    next =>
      have hfound : Found (· == closing) (u ++ ['\n', '}'])
          (Grammar.scan (· == closing) 0 0 u)
          (Grammar.scan (· == closing) 0 0 (u ++ ['\n', '}'])) :=
        (Capped.inside u).scan (by simpa using hfeed.symm) 0
      cases hs : Grammar.scan (· == closing) 0 0 u with
      | some n =>
        rw [hs] at hfound
        generalize Grammar.scan (· == closing) 0 0 (u ++ ['\n', '}']) = r at hfound
        cases hfound with
        | same =>
          obtain ⟨d, v, hdrop, -⟩ := exists_of_scan hs
          have hlt := lt_of_head?_drop (c := d) (by rw [hdrop]; rfl)
          exact .take hst (Nat.succ_le_succ hlt)
      | none =>
        rw [hs] at hfound
        generalize Grammar.scan (· == closing) 0 0 (u ++ ['\n', '}']) = r at hfound
        cases hfound with
        | same => exact .fail
        | brace h =>
          by_cases hlax : lax
          · exact fun _ _ => .of_error hlax
          · exact absurd (eq_of_beq h).symm (hbrace hlax)
    next => exact .fail
  · simpa [hopening.1.symm] using .fail
  · simpa [hopening.2.symm] using .fail

theorem alike_bracketed : Alike lax bracketed bracketed (· = ·) :=
  alike_delimited (by decide) (by decide) fun _ => by decide

theorem alike_parenthesized : Alike lax parenthesized parenthesized (· = ·) :=
  alike_delimited (by decide) (by decide) fun _ => by decide

theorem alike_braced : Alike True braced braced (· = ·) :=
  alike_delimited (by decide) (by decide) fun h => absurd trivial h

end DeclGen.Grammar
