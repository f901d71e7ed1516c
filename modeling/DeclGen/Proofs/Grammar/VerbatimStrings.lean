import DeclGen.Proofs.Grammar.ItemRegions
import Mathlib.Data.List.Basic

/-!
# Verbatim strings in skipped regions

In a verbatim string every quote of the content is written twice. Three quotes or more open a raw
string, also behind `@`, so a verbatim string whose content starts with a quote is not read as one.
It is read to its closing quote all the same if the content ends with as many quotes at least as it
starts with and has no more of them in a row in between. No other verbatim string is misread.

## Main definitions

* `verbatim`: how a verbatim string is written
* `ClosesAsRaw`: the contents that start with a quote and are read to the closing quote

## Main statements

* `literalTail_verbatim_iff`: the verbatim strings that are read to their closing quote
* `verbatim_strings_skipped`: regions of such strings are read whole
-/

namespace DeclGen.Grammar

open DeclGen.Grammar.Parser DeclGen.Text

variable {a c : Char} {n k : Nat} {s t u v x y : List Char}

/-- The text with every quote written twice. -/
def doubled (x : List Char) : List Char := x.flatMap fun c => if c = '"' then ['"', '"'] else [c]

/-- What comes behind the `@` of a verbatim string. -/
def verbatimTail (x : List Char) : List Char := '"' :: (doubled x ++ ['"'])

def verbatim (x : List Char) : List Char := '@' :: verbatimTail x

/-- The content starts with some quotes and ends with as many at least, and what is in between has
no more of them in a row. -/
def ClosesAsRaw (x : List Char) : Prop :=
  ∃ n k y, 0 < n ∧ n ≤ k ∧ x = List.replicate n '"' ++ (y ++ List.replicate k '"') ∧ y ≠ [] ∧
    y.head? ≠ some '"' ∧ y.getLast? ≠ some '"' ∧ ¬ List.replicate (n + 1) '"' <:+: y

/-! ## Runs of a character -/

/-- A text ends with a run of a character. -/
theorem exists_trailing_run (a : Char) (x : List Char) :
    ∃ n y, x = y ++ List.replicate n a ∧ y.getLast? ≠ some a := by
  obtain ⟨n, y, hx, hy⟩ := exists_leading_run a x.reverse
  refine ⟨n, y.reverse, ?_, by rwa [List.getLast?_reverse]⟩
  rw [← List.reverse_replicate, ← List.reverse_append, ← hx, List.reverse_reverse]

/-- A run of a character does not go past another character. -/
theorem replicate_infix_append_cons (hc : c ≠ a) (h : List.replicate n a <:+: u ++ c :: v) :
    List.replicate n a <:+: u ∨ List.replicate n a <:+: v := by
  obtain ⟨p, q, heq⟩ := h
  rw [List.append_assoc] at heq
  rcases List.append_eq_append_iff.mp heq with ⟨w, rfl, hw⟩ | ⟨w, rfl, hw⟩
  · rcases List.append_eq_append_iff.mp hw with ⟨z, rfl, -⟩ | ⟨z, hz, hcons⟩
    · exact .inl ⟨p, z, by simp⟩
    · cases z with
      | nil => exact .inl ⟨p, [], by simp [hz]⟩
      | cons d z =>
        cases (List.cons.inj hcons).1
        exact absurd (List.eq_of_mem_replicate (hz ▸ by simp : c ∈ List.replicate n a)) hc
  · cases w with
    | nil =>
      cases n with
      | zero => exact .inl (List.nil_infix)
      | succ n => exact absurd (List.cons.inj hw).1 hc
    | cons d w => exact .inr ⟨w, q, by rw [List.append_assoc, (List.cons.inj hw).2]; rfl⟩

theorem replicate_infix_of_le (h : k ≤ n) (a : Char) :
    List.replicate k a <:+: List.replicate n a :=
  ⟨[], List.replicate (n - k) a, by
    rw [List.nil_append, List.replicate_append_replicate, Nat.add_sub_cancel' h]⟩

/-! ## Doubled quotes -/

theorem doubled_append (x y : List Char) : doubled (x ++ y) = doubled x ++ doubled y :=
  List.flatMap_append

theorem doubled_quotes (n : Nat) :
    doubled (List.replicate n '"') = List.replicate (2 * n) '"' := by
  induction n with
  | zero => rfl
  | succ n ih =>
    rw [List.replicate_succ, ← List.singleton_append, doubled_append, ih, Nat.mul_succ,
      Nat.add_comm, ← List.replicate_append_replicate]
    rfl

theorem doubled_cons_of_ne (hc : c ≠ '"') (x : List Char) : doubled (c :: x) = c :: doubled x := by
  simp [doubled, hc]

theorem head?_doubled (hx : x.head? ≠ some '"') : (doubled x).head? ≠ some '"' := by
  cases x with
  | nil => simp [doubled]
  | cons c x =>
    have hc : c ≠ '"' := by simpa using hx
    simpa [doubled_cons_of_ne hc] using hc

theorem getLast?_doubled (hx : x.getLast? ≠ some '"') : (doubled x).getLast? ≠ some '"' := by
  rcases List.eq_nil_or_concat x with rfl | ⟨y, c, rfl⟩
  · simp [doubled]
  · have hc : c ≠ '"' := by simpa using hx
    rw [List.concat_eq_append, doubled_append, doubled_cons_of_ne hc]
    simpa [doubled] using hc

theorem doubled_eq_nil_iff : doubled x = [] ↔ x = [] := by
  cases x with
  | nil => simp [doubled]
  | cons c x => by_cases hc : c = '"' <;> simp [doubled, hc]

theorem doubled_cons_quote (x : List Char) : doubled ('"' :: x) = '"' :: '"' :: doubled x := rfl

/-- A run of quotes is doubled; `k` quotes stand before the text. -/
theorem replicate_infix_of_doubled (k : Nat)
    (h : List.replicate (2 * n + 1) '"' <:+: List.replicate (2 * k) '"' ++ doubled x) :
    List.replicate (n + 1) '"' <:+: List.replicate k '"' ++ x := by
  have hquotes {l : List Char} {k : Nat}
      (h : List.replicate (2 * n + 1) '"' <:+: List.replicate (2 * k) '"') :
      List.replicate (n + 1) '"' <:+: List.replicate k '"' ++ l := by
    have hle := h.length_le
    rw [List.length_replicate, List.length_replicate] at hle
    exact (replicate_infix_of_le (by omega) '"').trans (List.prefix_append _ l).isInfix
  induction x generalizing k with
  | nil => exact hquotes (by simpa [doubled] using h)
  | cons c x ih =>
    by_cases hc : c = '"'
    · -- the quotes before the text get one more
      subst hc
      have hsplit : List.replicate (2 * k) '"' ++ doubled ('"' :: x) =
          List.replicate (2 * (k + 1)) '"' ++ doubled x := by
        rw [Nat.mul_succ, ← List.replicate_append_replicate, List.append_assoc, doubled_cons_quote]
        rfl
      rw [hsplit] at h
      exact replicate_append_cons_self '"' k x ▸ ih (k + 1) h
    · rw [doubled_cons_of_ne hc] at h
      rcases replicate_infix_append_cons hc h with h | h
      · exact hquotes h
      · exact (ih 0 h).trans ((List.suffix_cons c x).isInfix.trans (List.suffix_append _ _).isInfix)

theorem replicate_infix_doubled_iff :
    List.replicate (2 * n + 1) '"' <:+: doubled x ↔ List.replicate (n + 1) '"' <:+: x := by
  refine ⟨fun h => replicate_infix_of_doubled 0 h, ?_⟩
  rintro ⟨p, q, rfl⟩
  rw [doubled_append, doubled_append, doubled_quotes]
  exact (replicate_infix_of_le (by omega) '"').trans (List.infix_append ..)

/-! ## Strings that are read as verbatim -/

/-- Doubled quotes do not end the string; the first one that stands alone does. -/
theorem stringBody_doubled (ht : t.head? ≠ some '"') (seen : Nat) (x : List Char) :
    stringBody true false seen (doubled x ++ '"' :: t) = some (seen + (doubled x).length + 1) := by
  have hnext : (t.head? == some '"') = false := by simpa using ht
  induction x generalizing seen with
  | nil =>
    change stringBody true false seen ('"' :: t) = _
    rw [stringBody]
    simp [hnext, doubled]
  | cons c x ih =>
    by_cases hc : c = '"'
    · rw [hc, doubled_cons_quote, List.cons_append, stringBody]
      simp [ih, Nat.add_assoc, Nat.add_comm 2]
    · rw [doubled_cons_of_ne hc, List.cons_append, stringBody]
      simp [ih, hc, Nat.add_assoc, Nat.add_comm 1]

theorem stringTail_doubled (hx : x.head? ≠ some '"') (ht : t.head? ≠ some '"') :
    stringTail true false (doubled x ++ '"' :: t) = some ((doubled x).length + 1) := by
  have hquotes := length_takeWhile_quotes_le (head?_doubled hx) ht
  rw [stringTail]
  simp only [Nat.not_le.mpr (Nat.lt_succ_of_le hquotes), if_false]
  rw [stringBody_doubled ht, Nat.zero_add]

/-- Behind the `@` of a verbatim string its quotes are looked at first. -/
theorem literalTail_verbatimTail (x t : List Char) :
    literalTail '@' (verbatimTail x ++ t) =
      (stringTail true false (doubled x ++ '"' :: t)).map (· + 1) := by
  simp [literalTail, verbatimTail]

/-! ## Strings that are read as raw -/

theorem rawTail_ne_zero (hn : 0 < n) (t : List Char) : rawTail n 0 t ≠ some 0 := by
  intro h
  rcases getLast?_of_rawTail hn h with ⟨-, hle⟩ | hlast
  · omega
  · simp at hlast

/-- A raw string is closed by the first run of enough quotes; `run` quotes stand before the
text. -/
theorem exists_rawTail_le (run : Nat)
    (hrun : List.replicate n '"' <:+: List.replicate run '"' ++ x) (hn : 0 < n)
    (hlast : x.getLast? ≠ some '"') (hnil : x = [] → run = 0) (t : List Char) :
    ∃ m ≤ x.length, rawTail n run (x ++ t) = some m := by
  induction x generalizing run with
  | nil =>
    have hle := hrun.length_le
    rw [hnil rfl] at hle
    simp at hle
    omega
  | cons c x ih =>
    have hlast' : x.getLast? ≠ some '"' := fun h => hlast (by simp [List.getLast?_cons, h])
    rw [List.cons_append, rawTail]
    by_cases hc : c = '"'
    · subst hc
      have hcons : x = [] → run + 1 = 0 := by
        rintro rfl
        exact absurd rfl hlast
      rw [if_pos (beq_self_eq_true _)]
      obtain ⟨m, hle, hm⟩ := ih _ (replicate_append_cons_self '"' run x ▸ hrun) hlast' hcons
      exact ⟨m + 1, Nat.succ_le_succ hle, by rw [hm]; rfl⟩
    · rw [if_neg (by simpa using hc)]
      split
      next => exact ⟨0, Nat.zero_le _, rfl⟩
      next hshort =>
        rcases replicate_infix_append_cons hc hrun with h | h
        · exact absurd (by simpa using h.length_le) hshort
        · obtain ⟨m, hle, hm⟩ := ih 0 h hlast' fun _ => rfl
          exact ⟨m + 1, Nat.succ_le_succ hle, by rw [hm]; rfl⟩

/-- A verbatim string of quotes only is not read to its closing quote. -/
theorem literalTail_verbatim_quotes (hn : 0 < n) (ht : t.head? ≠ some '"') :
    literalTail '@' (verbatimTail (List.replicate n '"') ++ t) ≠
      some (verbatimTail (List.replicate n '"')).length := by
  rw [literalTail_verbatimTail, doubled_quotes, replicate_append_cons_self,
    stringTail_quotes _ _ (by omega) ht]
  intro h
  obtain ⟨m, hm, hlength⟩ := Option.map_eq_some_iff.mp h
  obtain ⟨l, hl, rfl⟩ := Option.map_eq_some_iff.mp hm
  -- the closing quote is one of the opening ones
  obtain rfl : l = 0 := by
    simp only [verbatimTail, doubled_quotes, List.length_cons, List.length_append,
      List.length_replicate, List.length_nil] at hlength
    omega
  exact rawTail_ne_zero (Nat.succ_pos _) t hl

/-- A raw string with doubled quotes inside is closed by the quotes at its end if they are enough
and there are not as many before. -/
theorem rawTail_doubled_iff (hlast : y.getLast? ≠ some '"') (ht : t.head? ≠ some '"') :
    rawTail (2 * n + 1) 0 (doubled y ++ (List.replicate (2 * k + 1) '"' ++ t)) =
        some ((doubled y).length + (2 * k + 1)) ↔
      n ≤ k ∧ ¬ List.replicate (n + 1) '"' <:+: y := by
  by_cases hrun : List.replicate (n + 1) '"' <:+: y
  · have hrun' : List.replicate (2 * n + 1) '"' <:+: List.replicate 0 '"' ++ doubled y :=
      replicate_infix_doubled_iff.mpr hrun
    obtain ⟨m, hle, hm⟩ := exists_rawTail_le 0 hrun' (Nat.succ_pos _) (getLast?_doubled hlast)
      (fun _ => rfl) (List.replicate (2 * k + 1) '"' ++ t)
    refine iff_of_false (fun h => ?_) fun h => h.2 hrun
    have heq := Option.some.inj (hm.symm.trans h)
    omega
  · have hrun' : ¬ List.replicate (2 * n + 1) '"' <:+: List.replicate 0 '"' ++ doubled y :=
      mt replicate_infix_doubled_iff.mp hrun
    rw [rawTail_skip 0 hrun' (getLast?_doubled hlast) (fun _ => rfl),
      rawTail_append (Nat.succ_pos _) (by simp) (head?_any_quote ht), Nat.zero_add,
      List.length_replicate]
    by_cases hle : n ≤ k
    · rw [if_pos (by omega)]
      simp [hle, hrun]
    · rw [if_neg (by omega)]
      refine iff_of_false (fun h => ?_) fun h => hle h.1
      obtain ⟨m, hm, hlength⟩ := Option.map_eq_some_iff.mp h
      obtain ⟨l, hl, rfl⟩ := Option.map_eq_some_iff.mp hm
      obtain rfl : l = 0 := by omega
      exact rawTail_ne_zero (Nat.succ_pos _) t hl

/-- A verbatim string whose content starts with quotes is read to its closing quote if it is closed
there as a raw one. -/
theorem literalTail_verbatim_raw_iff (hn : 0 < n) (hy : y ≠ []) (hhead : y.head? ≠ some '"')
    (hlast : y.getLast? ≠ some '"') (ht : t.head? ≠ some '"')
    (hx : x = List.replicate n '"' ++ (y ++ List.replicate k '"')) :
    literalTail '@' (verbatimTail x ++ t) = some (verbatimTail x).length ↔
      n ≤ k ∧ ¬ List.replicate (n + 1) '"' <:+: y := by
  have hdoubled : doubled x =
      List.replicate (2 * n) '"' ++ (doubled y ++ List.replicate (2 * k) '"') := by
    rw [hx, doubled_append, doubled_append, doubled_quotes, doubled_quotes]
  have htext : doubled x ++ '"' :: t =
      List.replicate (2 * n) '"' ++ (doubled y ++ (List.replicate (2 * k + 1) '"' ++ t)) := by
    rw [hdoubled, List.append_assoc, List.append_assoc, replicate_append_cons_self]
  have hopening : (doubled y ++ (List.replicate (2 * k + 1) '"' ++ t)).head? ≠ some '"' := by
    rw [List.head?_append_of_ne_nil _ (mt doubled_eq_nil_iff.mp hy)]
    exact head?_doubled hhead
  have hlength : (verbatimTail x).length = (doubled y).length + (2 * k + 1) + 2 * n + 1 := by
    simp only [verbatimTail, hdoubled, List.length_cons, List.length_append,
      List.length_replicate, List.length_nil]
    omega
  -- what is left is where the raw string is closed
  rw [literalTail_verbatimTail, htext, stringTail_quotes _ _ (by omega) hopening, hlength,
    ← rawTail_doubled_iff hlast ht]
  simp only [Option.map_map, Option.map_eq_some_iff, Function.comp_apply,
    Nat.add_right_cancel_iff, exists_eq_right]

/-- The verbatim strings that are read to their closing quote. -/
theorem literalTail_verbatim_iff (ht : t.head? ≠ some '"') :
    literalTail '@' (verbatimTail x ++ t) = some (verbatimTail x).length ↔
      x.head? ≠ some '"' ∨ ClosesAsRaw x := by
  constructor
  · intro hread
    by_cases hx : x.head? = some '"'
    · right
      obtain ⟨n, z, rfl, hz⟩ := exists_leading_run '"' x
      have hn : 0 < n := by
        refine Nat.pos_of_ne_zero ?_
        rintro rfl
        exact hz (by simpa using hx)
      obtain ⟨k, y, rfl, hlast⟩ := exists_trailing_run '"' z
      rcases eq_or_ne y [] with rfl | hy
      · have hk : k = 0 := by
          cases k with
          | zero => rfl
          | succ k => exact absurd rfl hz
        subst hk
        rw [List.replicate_zero, List.append_nil, List.append_nil] at hread
        exact absurd hread (literalTail_verbatim_quotes hn ht)
      · have hhead : y.head? ≠ some '"' := by rwa [List.head?_append_of_ne_nil _ hy] at hz
        obtain ⟨hle, hrun⟩ := (literalTail_verbatim_raw_iff hn hy hhead hlast ht rfl).mp hread
        exact ⟨n, k, y, hn, hle, rfl, hy, hhead, hlast, hrun⟩
    · exact .inl hx
  · rintro (hx | ⟨n, k, y, hn, hle, hx, hy, hhead, hlast, hrun⟩)
    · have htail := stringTail_doubled hx ht
      rw [literalTail_verbatimTail, htail]
      simp [verbatimTail]
    · exact (literalTail_verbatim_raw_iff hn hy hhead hlast ht hx).mpr ⟨hle, hrun⟩

/-! ## Regions of verbatim strings -/

def verbatimStrings (strings : List (List Char × Nat)) : List Char :=
  strings.flatMap fun (x, n) => verbatim x ++ List.replicate n ' '

namespace Steps

variable {stop : Char → Bool} {depth : Nat}

theorem verbatim (hstop : Stopping stop) (hx : x.head? ≠ some '"' ∨ ClosesAsRaw x) :
    Steps stop depth (verbatim x) :=
  literal (hstop.not_literal (by simp)) rfl rfl fun _ ht => (literalTail_verbatim_iff ht).mpr hx

theorem verbatimStrings (hstop : Stopping stop) {strings : List (List Char × Nat)}
    (h : ∀ p ∈ strings, p.1.head? ≠ some '"' ∨ ClosesAsRaw p.1) :
    Steps stop depth (verbatimStrings strings) := by
  induction strings with
  | nil => exact nil
  | cons p strings ih =>
    have hrest := ih fun q hq => h q (List.mem_cons_of_mem p hq)
    refine append (append_blanks hstop (verbatim hstop (h p List.mem_cons_self)) p.2) hrest ?_
    intro t ht
    cases strings with
    | nil => exact ht
    | cons q strings => simp [Grammar.verbatim]

end Steps

/-- A verbatim string is read to its closing quote if its content does not start with a quote or
closes as that of a raw string, and only then. A block of such strings is read whole. -/
theorem verbatim_strings_skipped (x t : List Char) (before offset : Nat)
    (strings : List (List Char × Nat)) :
    (t.head? ≠ some '"' →
      (literalTail '@' (verbatimTail x ++ t) = some (verbatimTail x).length ↔
        x.head? ≠ some '"' ∨ ClosesAsRaw x)) ∧
    ((∀ p ∈ strings, p.1.head? ≠ some '"' ∨ ClosesAsRaw p.1) →
      let block := '{' :: (List.replicate before ' ' ++ verbatimStrings strings ++ ['}'])
      braced ⟨offset, block ++ t⟩ = .ok (block, ⟨offset + size block, t⟩)) := by
  refine ⟨literalTail_verbatim_iff, fun h => ?_⟩
  have hstop : Stopping (· == '}') := .beq_closing (by decide)
  have hsteps : Steps (· == '}') 0 (List.replicate before ' ' ++ verbatimStrings strings) :=
    .blanks_append hstop before (.verbatimStrings hstop h)
  have hread := delimited_of_steps (o := '{') hsteps (by decide) offset t
  simpa only [braced, List.cons_append, List.append_assoc, List.nil_append] using hread

theorem verbatim_strings_skipped_quoted :
    literalTail '@' (verbatimTail "\"\x7d\n\"\\\"".toList ++ [';']) = some 11 ∧
      braced (Cursor.ofString "\x7b @\"\"\"\x7d\n\"\"\\\"\"\"@\"(\\\"  \x7d;") =
        .ok ("\x7b @\"\"\"\x7d\n\"\"\\\"\"\"@\"(\\\"  \x7d".toList, ⟨22, [';']⟩) := by
  have hraw : ClosesAsRaw "\"\x7d\n\"\\\"".toList :=
    ⟨1, 1, "\x7d\n\"\\".toList, by decide, by decide, by decide, by decide, by decide, by decide,
      by decide⟩
  have hstrings : ∀ p ∈ [("\"\x7d\n\"\\\"".toList, 0), ("(\\".toList, 2)],
      p.1.head? ≠ some '"' ∨ ClosesAsRaw p.1 := by
    simp only [List.mem_cons, List.not_mem_nil, or_false, forall_eq_or_imp, forall_eq]
    exact ⟨.inr hraw, .inl (by decide)⟩
  have h := verbatim_strings_skipped "\"\x7d\n\"\\\"".toList [';'] 1 0
    [("\"\x7d\n\"\\\"".toList, 0), ("(\\".toList, 2)]
  exact ⟨(h.1 (by decide)).mpr (.inr hraw), h.2 hstrings⟩

/-- A content with a quote at its start only: the string is not read. -/
theorem not_literalTail_verbatimTail :
    literalTail '@' (verbatimTail ['"', 'a'] ++ ['\x7d']) = none ∧
      (braced (Cursor.ofString "\x7b@\"\"\"a\"\x7d")).toOption = none := by
  constructor <;> decide +kernel

end DeclGen.Grammar
