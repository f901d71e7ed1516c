import DeclGen.Proofs.Source.LineStarts
import DeclGen.Proofs.Syntax.SpanTree
import Mathlib.Data.List.Infix
import Mathlib.Data.Prod.Lex

/-!
# Lines of a file

A place between two characters of a file has the line and column that counting gives: one line more
for each line feed before it, and one column more for each character behind the last of these. A
line is what stands between two line feeds, without the carriage returns at its end. Places, lines
and characters fit together: a place has the number of the line that it is on, and a column that
leads to the character there.

## Main definitions

* `Position.behind`: the position behind some characters
* `Text.StartsLine`: a line starts behind some characters
* `Text.IsLine`: the line of a number, with its carriage returns

## Main statements

* `Text.lineColumn_append`: walks into a line
* `SourceFile.position_eq`: the positions of a file are reached by counting
* `SourceFile.line?_eq_some_iff`: the line of a number, without its carriage returns
* `SourceFile.lineColumn_lt`: places in order have lines and columns in order
* `SourceFile.places_and_lines`: places, lines and characters fit together
-/

namespace DeclGen

open DeclGen.Text

/-- The position behind the characters from the start of a file on. -/
def Position.behind (front : List Char) : Position where
  line := 1 + front.count '\n'
  column := 1 + (front.reverse.takeWhile (· != '\n')).length
  offset := size front

namespace Text

/-- A line starts behind the characters: they end with a line feed, or there are none. -/
def StartsLine (before : List Char) : Prop := before = [] ∨ before.getLast? = some '\n'

/-- The characters stand between two line feeds, or between one and an end of the text, and their
number is one more than that of the line feeds before them. -/
def IsLine (text : List Char) (number : Nat) (piece : List Char) : Prop :=
  ∃ before after, text = before ++ (piece ++ after) ∧ '\n' ∉ piece ∧ StartsLine before ∧
    (after = [] ∨ after.head? = some '\n') ∧ number = 1 + before.count '\n'

variable {text before cur s piece piece' : List Char} {number : Nat}

/-! ## Where lines start -/

theorem StartsLine.eq_or (h : StartsLine before) : before = [] ∨ ∃ x, before = x ++ ['\n'] := by
  rcases h with h | h
  · exact .inl h
  · exact .inr (List.getLast?_eq_some_iff.mp h)

theorem startsLine_append (x : List Char) : StartsLine (x ++ ['\n']) := .inr (by simp)

/-- The last line of some characters starts behind the last of their line feeds. -/
theorem exists_startsLine (front : List Char) :
    ∃ before cur, front = before ++ cur ∧ StartsLine before ∧ '\n' ∉ cur := by
  by_cases h : '\n' ∈ front
  · obtain ⟨y, x, hsplit, hy⟩ := List.eq_append_cons_of_mem (List.mem_reverse.mpr h)
    exact ⟨x.reverse ++ ['\n'], y.reverse, by simpa using congrArg List.reverse hsplit,
      startsLine_append _, by simpa using hy⟩
  · exact ⟨[], front, rfl, .inl rfl, h⟩

theorem takeWhile_append_of_notMem (h : '\n' ∉ cur) (s : List Char) :
    (cur ++ s).takeWhile (· != '\n') = cur ++ s.takeWhile (· != '\n') := by
  refine List.takeWhile_append_of_pos fun c hc => ?_
  rw [bne_iff_ne]
  rintro rfl
  exact h hc

theorem column_behind (hbefore : StartsLine before) (hcur : '\n' ∉ cur) :
    (Position.behind (before ++ cur)).column = 1 + cur.length := by
  have hreverse : '\n' ∉ cur.reverse := by simpa using hcur
  rw [Position.behind, List.reverse_append, takeWhile_append_of_notMem hreverse]
  rcases hbefore.eq_or with rfl | ⟨x, rfl⟩ <;> simp

theorem line_behind (hcur : '\n' ∉ cur) :
    (Position.behind (before ++ cur)).line = 1 + before.count '\n' := by
  simp [Position.behind, List.count_eq_zero_of_not_mem hcur]

/-! ## Walks from the start of a line -/

theorem lineColumnFrom_append (hcur : '\n' ∉ cur) (line chars bytes n : Nat) (s : List Char) :
    lineColumnFrom line chars bytes (size cur + n) (cur ++ s) =
      lineColumnFrom line (chars + cur.length) (bytes + size cur) n s := by
  induction cur generalizing chars bytes with
  | nil => simp
  | cons c cur ih =>
    obtain ⟨hc, hcur⟩ : '\n' ≠ c ∧ '\n' ∉ cur := by simpa using hcur
    have hne : ¬(c == '\n') = true := by simpa using hc.symm
    have hrest : c.utf8Size + size cur + n - c.utf8Size = size cur + n := by omega
    rw [List.cons_append, size_cons, lineColumnFrom_cons (by omega), if_neg hne, hrest, ih hcur,
      List.length_cons, Nat.add_assoc chars, Nat.add_comm 1, Nat.add_assoc bytes]

/-- Behind a line feed only the line number is left of what was counted. -/
theorem lineColumnFrom_lineFeed (x : List Char) (line chars bytes n : Nat) (s : List Char) :
    lineColumnFrom line chars bytes (size (x ++ ['\n']) + n) (x ++ ['\n'] ++ s) =
      lineColumnFrom (line + (x ++ ['\n']).count '\n') 0 0 n s := by
  induction x generalizing line chars bytes with
  | nil =>
    have hone : '\n'.utf8Size = 1 := rfl
    simp [lineColumnFrom_cons, hone]
  | cons c x ih =>
    have hrest : c.utf8Size + size (x ++ ['\n']) + n - c.utf8Size = size (x ++ ['\n']) + n := by
      omega
    rw [List.cons_append, List.cons_append, size_cons, lineColumnFrom_cons (by omega), hrest]
    by_cases hc : c = '\n'
    · subst hc
      rw [if_pos (beq_self_eq_true _), ih, List.count_cons_self, Nat.add_assoc, Nat.add_comm 1]
    · rw [if_neg (by simpa using hc), ih, List.count_cons_of_ne (by simpa using hc)]

/-- A walk into a line goes on from the characters and bytes before on that line. -/
theorem lineColumn_append (hbefore : StartsLine before) (hcur : '\n' ∉ cur) (n : Nat)
    (s : List Char) : lineColumn (size (before ++ cur) + n) (before ++ (cur ++ s)) =
      lineColumnFrom (1 + before.count '\n') cur.length (size cur) n s := by
  rw [lineColumn, size_append, Nat.add_assoc]
  rcases hbefore.eq_or with rfl | ⟨x, rfl⟩
  · simp [lineColumnFrom_append hcur]
  · rw [lineColumnFrom_lineFeed, lineColumnFrom_append hcur, Nat.zero_add, Nat.zero_add]

theorem lineColumn_size (front back : List Char) :
    lineColumn (size front) (front ++ back) =
      ((Position.behind front).line, (Position.behind front).column) := by
  obtain ⟨before, cur, rfl, hbefore, hcur⟩ := exists_startsLine front
  rw [line_behind hcur, column_behind hbefore hcur, List.append_assoc, ← Nat.add_zero (size _),
    lineColumn_append hbefore hcur, lineColumnFrom, Nat.add_comm 1 cur.length]

/-! ## Lines by their numbers -/

/-- There is one line more than line feeds. -/
theorem length_lines (s : List Char) : (lines s).length = 1 + s.count '\n' := by
  induction s with
  | nil => rfl
  | cons c s ih =>
    rw [lines] at ih ⊢
    by_cases hc : c = '\n'
    · subst hc
      rw [splitAt, if_pos (beq_self_eq_true _), List.length_cons, ih, List.count_cons_self]
      omega
    · obtain ⟨p, ps, hp⟩ := List.exists_cons_of_ne_nil (splitAt_ne_nil '\n' s)
      rw [hp] at ih
      rw [splitAt, if_neg (by simpa using hc), hp, List.count_cons_of_ne (by simpa using hc), ← ih]
      rfl

theorem IsLine.getElem?_lines (h : IsLine text number piece) :
    (lines text)[number - 1]? = some piece := by
  obtain ⟨before, after, rfl, hpiece, hbefore, hafter, rfl⟩ := h
  have hfirst : (lines (piece ++ after))[0]? = some piece := by
    rw [lines]
    cases after with
    | nil => rw [List.append_nil, splitAt_of_notMem hpiece]; rfl
    | cons c after =>
      obtain rfl : c = '\n' := by simpa using hafter
      rw [splitAt_append_cons hpiece]
      rfl
  rcases hbefore.eq_or with rfl | ⟨x, rfl⟩
  · simpa using hfirst
  · have hsplit : lines (x ++ ['\n'] ++ (piece ++ after)) = lines x ++ lines (piece ++ after) := by
      rw [List.append_assoc, List.singleton_append]
      exact splitAt_append_sep '\n' x _
    have hnumber : 1 + (x ++ ['\n']).count '\n' - 1 = (lines x).length := by
      rw [length_lines, List.count_append]
      simp [Nat.add_comm]
    rw [hsplit, hnumber, List.getElem?_append_right (Nat.le_refl _), Nat.sub_self, hfirst]

theorem IsLine.unique (h : IsLine text number piece) (h' : IsLine text number piece') :
    piece = piece' :=
  Option.some.inj (h.getElem?_lines.symm.trans h'.getElem?_lines)

/-- Where a line starts, it goes on up to the next line feed. -/
theorem StartsLine.isLine_takeWhile (hbefore : StartsLine before) (s : List Char) :
    IsLine (before ++ s) (1 + before.count '\n') (s.takeWhile (· != '\n')) := by
  refine ⟨before, s.dropWhile (· != '\n'), by rw [List.takeWhile_append_dropWhile],
    fun hmem => ?_, hbefore, ?_, rfl⟩
  · simpa using List.all_eq_true.mp List.all_takeWhile _ hmem
  · have hhead := List.head?_dropWhile_not (· != '\n') s
    cases hrest : s.dropWhile (· != '\n') with
    | nil => exact .inl rfl
    | cons c rest =>
      rw [hrest] at hhead
      exact .inr (by simpa using hhead)

/-- A text has as many line starts behind its own as it has line feeds. -/
theorem exists_isLine {k : Nat} (h : k ≤ text.count '\n') :
    ∃ piece, IsLine text (1 + k) piece := by
  have hstart : ∃ before s, text = before ++ s ∧ StartsLine before ∧ before.count '\n' = k := by
    induction k with
    | zero => exact ⟨[], text, rfl, .inl rfl, rfl⟩
    | succ k ih =>
      obtain ⟨before, s, rfl, -, hcount⟩ := ih (by omega)
      have hmem : '\n' ∈ s := by
        rw [List.count_append] at h
        exact List.count_pos_iff.mp (by omega)
      obtain ⟨x, s, rfl, hx⟩ := List.eq_append_cons_of_mem hmem
      refine ⟨before ++ x ++ ['\n'], s, by simp, startsLine_append _, ?_⟩
      simp [hcount, List.count_eq_zero_of_not_mem hx]
  obtain ⟨before, s, rfl, hbefore, rfl⟩ := hstart
  exact ⟨_, hbefore.isLine_takeWhile s⟩

/-! ## Front parts -/

/-- The smaller of two front parts of a text starts the other one. -/
theorem exists_append_of_size_le {front back front' back' : List Char}
    (h : front ++ back = front' ++ back') (hle : size front ≤ size front') :
    ∃ x, front' = front ++ x ∧ back = x ++ back' := by
  rcases List.append_eq_append_iff.mp h with hx | ⟨x, rfl, rfl⟩
  · exact hx
  · have hlength := length_le_size x
    obtain rfl : x = [] := by
      rw [size_append] at hle
      exact List.eq_nil_of_length_eq_zero (by omega)
    exact ⟨[], by simp⟩

/-! ## Carriage returns -/

theorem getLast?_dropTrailing {p : Char → Bool} {c : Char}
    (h : (dropTrailing p s).getLast? = some c) : p c = false := by
  have hhead := List.head?_dropWhile_not p s.reverse
  rw [dropTrailing, List.getLast?_reverse] at h
  rw [h] at hhead
  exact hhead

theorem dropTrailing_append_eq {p : Char → Bool} {t : List Char} (ht : ∀ c ∈ t, p c = true)
    (hlast : ∀ c, s.getLast? = some c → p c = false) : dropTrailing p (s ++ t) = s := by
  have hdrop : s.reverse.dropWhile p = s.reverse := by
    cases hs : s.reverse with
    | nil => rfl
    | cons c rest =>
      have hc := hlast c (by rw [← List.head?_reverse, hs]; rfl)
      exact List.dropWhile_cons_of_neg (by simp [hc])
  rw [dropTrailing_append_of_all ht, dropTrailing, hdrop, List.reverse_reverse]

end Text

namespace SourceFile

variable {f : SourceFile} {number : Nat} {line piece : List Char}

/-! ## Lines without their carriage returns -/

theorem isSome_line?_iff :
    (f.line? number).isSome ↔ 1 ≤ number ∧ number ≤ 1 + f.text.toList.count '\n' := by
  rw [line?]
  cases number with
  | zero => simp
  | succ k =>
    rw [if_neg (Nat.succ_ne_zero k), Nat.add_sub_cancel, Option.isSome_map, isSome_getElem?,
      length_lines]
    omega

theorem line?_of_isLine (h : IsLine f.text.toList number piece) :
    f.line? number = some (dropTrailing (· == '\r') piece) := by
  have hnumber : number ≠ 0 := by
    obtain ⟨before, _, _, _, _, _, hnumber⟩ := h
    omega
  rw [line?, if_neg hnumber, h.getElem?_lines, Option.map_some]

/-- Carriage returns at the end of a line are left out. -/
theorem line?_eq_some_iff : f.line? number = some line ↔
    ∃ returns, IsLine f.text.toList number (line ++ returns) ∧ (∀ c ∈ returns, c = '\r') ∧
      line.getLast? ≠ some '\r' := by
  refine ⟨fun h => ?_, fun ⟨returns, hpiece, hreturns, hlast⟩ => ?_⟩
  · obtain ⟨hpos, hle⟩ := isSome_line?_iff.mp (Option.isSome_of_eq_some h)
    obtain ⟨piece, hpiece⟩ := exists_isLine (by omega : number - 1 ≤ f.text.toList.count '\n')
    rw [Nat.add_sub_cancel' hpos] at hpiece
    rw [line?_of_isLine hpiece] at h
    obtain ⟨returns, happend, hreturns⟩ := dropTrailing_append (· == '\r') piece
    obtain rfl := Option.some.inj h
    exact ⟨returns, happend ▸ hpiece, by simpa using hreturns,
      fun hlast => by simpa using getLast?_dropTrailing hlast⟩
  · rw [line?_of_isLine hpiece, dropTrailing_append_eq (by simpa using hreturns) fun c hc => ?_]
    refine beq_false_of_ne ?_
    rintro rfl
    exact hlast hc

/-! ## Places -/

/-- A place between two characters of a file has the position that counting gives. -/
theorem position_eq {front back : List Char} (h : f.text.toList = front ++ back) :
    f.position (Text.size front) = .behind front := by
  have hle : Text.size front ≤ f.size := by
    rw [size, h, size_append]
    omega
  rw [position, lineColumn, h, lineColumn_size, Nat.min_eq_left hle]
  rfl

theorem lineColumn_behind {front back : List Char} (htext : f.text.toList = front ++ back) :
    f.lineColumn (Text.size front) =
      ((Position.behind front).line, (Position.behind front).column) := by
  rw [lineColumn, htext, lineColumn_size]

/-- On the line of a place, characters are counted from its start. -/
theorem exists_place {o : Nat} (ho : IsBoundary f.text.toList o) :
    ∃ before cur back, f.text.toList = before ++ (cur ++ back) ∧ Text.size (before ++ cur) = o ∧
      StartsLine before ∧ '\n' ∉ cur ∧ f.lineColumn o = (1 + before.count '\n', 1 + cur.length) ∧
      f.position o = ⟨1 + before.count '\n', 1 + cur.length, o⟩ := by
  obtain ⟨front, back, htext, rfl⟩ := ho
  obtain ⟨before, cur, rfl, hbefore, hcur⟩ := exists_startsLine front
  refine ⟨before, cur, back, by rw [htext, List.append_assoc], rfl, hbefore, hcur, ?_, ?_⟩
  · rw [lineColumn_behind htext, line_behind hcur, column_behind hbefore hcur]
  · rw [position_eq htext, ← line_behind hcur, ← column_behind hbefore hcur]
    rfl

/-- Places further on are on a later line or further on in the same line. -/
theorem lineColumn_lt {o o' : Nat} (ho : IsBoundary f.text.toList o)
    (ho' : IsBoundary f.text.toList o') (hlt : o < o') :
    Prod.Lex (· < ·) (· < ·) (f.lineColumn o) (f.lineColumn o') := by
  obtain ⟨front, back, htext, rfl⟩ := ho
  obtain ⟨front', back', htext', rfl⟩ := ho'
  obtain ⟨x, rfl, -⟩ := exists_append_of_size_le (htext.symm.trans htext') (Nat.le_of_lt hlt)
  rw [lineColumn_behind htext, lineColumn_behind htext']
  by_cases hfeed : '\n' ∈ x
  · have hcount := List.count_pos_iff.mpr hfeed
    refine Prod.lex_def.mpr (.inl ?_)
    simp only [Position.behind, List.count_append]
    omega
  · have hpos : 0 < x.length := by
      rw [List.length_pos_iff]
      rintro rfl
      simp at hlt
    obtain ⟨before, cur, rfl, hbefore, hcur⟩ := exists_startsLine front
    have hcur' : '\n' ∉ cur ++ x := by simp [hcur, hfeed]
    rw [List.append_assoc, line_behind hcur, line_behind hcur', column_behind hbefore hcur,
      column_behind hbefore hcur']
    refine .right _ ?_
    rw [List.length_append]
    omega

theorem position_of_size_le {o : Nat} (h : f.size ≤ o) : f.position o = f.position f.size := by
  have hwalk : f.lineColumn o = f.lineColumn f.size := lineColumnFrom_of_size_le h
  rw [position, position, hwalk, Nat.min_eq_right h, Nat.min_self]

/-- The character at a place is found in its line by its column, if it is none of those that end
the line. -/
theorem exists_line_getElem? {front back : List Char} {c : Char}
    (htext : f.text.toList = front ++ c :: back) (hc : c ≠ '\n')
    (hinside : ∃ d ∈ c :: back.takeWhile (· != '\n'), d ≠ '\r') :
    let place := f.lineColumn (Text.size front)
    ∃ shown, f.line? place.1 = some shown ∧ shown[place.2 - 1]? = some c := by
  obtain ⟨before, cur, rfl, hbefore, hcur⟩ := exists_startsLine front
  have hplace : f.lineColumn (Text.size (before ++ cur)) =
      (1 + before.count '\n', 1 + cur.length) := by
    rw [lineColumn_behind htext, line_behind hcur, column_behind hbefore hcur]
  simp only [hplace, Nat.add_sub_cancel_left]
  have hpiece := hbefore.isLine_takeWhile (cur ++ c :: back)
  rw [takeWhile_append_of_notMem hcur, List.takeWhile_cons_of_pos (by simpa using hc),
    ← List.append_assoc, ← htext] at hpiece
  obtain ⟨returns, happend, hreturns⟩ := dropTrailing_append (· == '\r')
    (cur ++ c :: back.takeWhile (· != '\n'))
  refine ⟨_, line?_of_isLine hpiece, ?_⟩
  -- Not all that stands from the character on is left out, so the character is not either.
  rcases List.append_eq_append_iff.mp happend with ⟨x, hx, hrest⟩ | ⟨x, -, hrest⟩
  · cases x with
    | nil =>
      obtain ⟨d, hd, hne⟩ := hinside
      rw [hrest, List.nil_append] at hd
      exact absurd (by simpa using hreturns d hd) hne
    | cons d x =>
      obtain ⟨rfl, -⟩ := List.cons_eq_cons.mp hrest
      simp [hx]
  · obtain ⟨d, hd, hne⟩ := hinside
    exact absurd (by simpa using hreturns d (hrest ▸ List.mem_append_right x hd)) hne

/-- A place between two characters of a file has the line and column that counting from the start of
its line gives. Further places have greater ones, and those past the end have the position of the
end. The lines have the numbers from one up to one more than the line feeds, and each is what stands
between two of these without the carriage returns at its end. The character at a place is found in
its line by its column, unless it is the line feed or one of the carriage returns at the end. The
same lines and places are found with a table of the line starts. -/
theorem places_and_lines (f : SourceFile) :
    let text := f.text.toList
    (∀ o, IsBoundary text o → ∃ before cur back,
      text = before ++ (cur ++ back) ∧ Text.size (before ++ cur) = o ∧ StartsLine before ∧
        '\n' ∉ cur ∧ f.lineColumn o = (1 + before.count '\n', 1 + cur.length) ∧
        f.position o = ⟨1 + before.count '\n', 1 + cur.length, o⟩) ∧
      (∀ o o', IsBoundary text o → IsBoundary text o' → o < o' →
        Prod.Lex (· < ·) (· < ·) (f.lineColumn o) (f.lineColumn o')) ∧
      (∀ o, f.size ≤ o → f.position o = f.position f.size) ∧
      (∀ number, (f.line? number).isSome ↔ 1 ≤ number ∧ number ≤ 1 + text.count '\n') ∧
      (∀ number line, f.line? number = some line ↔
        ∃ returns, IsLine text number (line ++ returns) ∧ (∀ c ∈ returns, c = '\r') ∧
          line.getLast? ≠ some '\r') ∧
      (∀ front c back, text = front ++ c :: back → c ≠ '\n' →
        ¬(c = '\r' ∧ ∀ d ∈ back.takeWhile (· != '\n'), d = '\r') →
          let place := f.lineColumn (Text.size front)
          ∃ shown, f.line? place.1 = some shown ∧ shown[place.2 - 1]? = some c) ∧
      (∀ number, cutLine? number text = some (f.line? number)) ∧
      ∀ o, cutLineColumn? o text = some (f.lineColumn o) := by
  intro text
  refine ⟨fun o ho => exists_place ho, fun o o' => lineColumn_lt,
    fun o => position_of_size_le, fun number => isSome_line?_iff,
    fun number line => line?_eq_some_iff, fun front c back htext hc hreturn => ?_, cutLine?_eq f,
    fun o => cutLineColumn?_eq o text⟩
  refine exists_line_getElem? htext hc ?_
  by_contra hall
  push Not at hall
  exact hreturn (List.forall_mem_cons.mp hall)

/-- Characters of one, two and three bytes, and a carriage return at the end of each line. -/
def accentedLines : SourceFile := ⟨"A.cs", "é\r\nÄ€\r"⟩

theorem places_and_lines_accentedLines :
    accentedLines.text.toList = "é\r\nÄ".toList ++ '€' :: ['\r'] ∧
      accentedLines.lineColumn (Text.size "é\r\nÄ".toList) = (2, 2) ∧
      ∃ shown, accentedLines.line? 2 = some shown ∧ shown[1]? = some '€' := by
  have htext : accentedLines.text.toList = "é\r\nÄ".toList ++ '€' :: ['\r'] := by decide +kernel
  have hplace : accentedLines.lineColumn (Text.size "é\r\nÄ".toList) = (2, 2) := by
    decide +kernel
  obtain ⟨-, -, -, -, -, hcharacters, -⟩ := places_and_lines accentedLines
  obtain ⟨shown, hline, hshown⟩ := hcharacters _ '€' _ htext (by decide) (by decide)
  rw [hplace] at hline hshown
  exact ⟨htext, hplace, shown, hline, hshown⟩

end SourceFile

end DeclGen
