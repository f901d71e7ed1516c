import DeclGen.Proofs.Text.Bytes
import DeclGen.Proofs.Text.Split
import DeclGen.Source.File

/-!
# Where lines start

The byte offsets at which the lines of a text start. With them a line is cut out of the text
between two offsets, and the line of an offset is searched among increasing numbers; a walk over
the characters finds the same.

## Main definitions

* `lineStarts`: where lines start
* `search`: the place of a number among increasing ones
* `cutLine?`, `cutLineColumn?`: lines, and the line and column of an offset

## Main statements

* `cutLine?_eq`, `cutLineColumn?_eq`: the cuts have an outcome
-/

namespace DeclGen.Text

/-- The byte offsets behind the line feeds of a text that starts at an offset. -/
def feedsFrom (start : Nat) : List Char → List Nat
  | [] => []
  | c :: s =>
    if c == '\n' then (start + 1) :: feedsFrom (start + c.utf8Size) s
    else feedsFrom (start + c.utf8Size) s

def lineStarts (s : List Char) : List Nat := 0 :: feedsFrom 0 s

/-- Where `n` stands among increasing numbers, or else where it would have to stand. -/
def search (n : Nat) : List Nat → Except Nat Nat
  | [] => .error 0
  | m :: ms =>
    if m = n then .ok 0
    else if n < m then .error 0
    else
      match search n ms with
      | .ok i => .ok (i + 1)
      | .error i => .error (i + 1)

/-- The index of the last of increasing numbers that is at most `n`. -/
def lastAtMost (n : Nat) (ms : List Nat) : Nat :=
  match search n ms with
  | .ok i => i
  | .error i => i - 1

/-- A line by its number without its line feed, cut out between its start and that of the next
one. -/
def cutLine? (number : Nat) (s : List Char) : Option (Option (List Char)) :=
  if number == 0 || decide ((lineStarts s).length < number) then some none
  else
    match (lineStarts s)[number - 1]? with
    | none => none
    | some start =>
      (between? start ((lineStarts s)[number]?.getD (size s)) s).map fun line =>
        some (dropTrailing (fun c => c == '\n' || c == '\r') line)

/-- How far an offset is behind the start of its line: in characters, or inside a character in
bytes. -/
def columnAt (start offset : Nat) (s : List Char) : Nat :=
  match between? start offset s with
  | some front => front.length
  | none => offset - start

/-- The line and column of a byte offset; past the end, those of the end. -/
def cutLineColumn? (offset : Nat) (s : List Char) : Option (Nat × Nat) :=
  let o := min offset (size s)
  let i := lastAtMost o (lineStarts s)
  match (lineStarts s)[i]? with
  | none => none
  | some start => if start ≤ o then some (i + 1, columnAt start o s + 1) else none

/-! ## Increasing numbers -/

theorem lt_of_mem_feedsFrom {start n : Nat} {s : List Char} (h : n ∈ feedsFrom start s) :
    start < n := by
  induction s generalizing start with
  | nil => cases h
  | cons c s ih =>
    have hpos := c.utf8Size_pos
    have hrest (h : n ∈ feedsFrom (start + c.utf8Size) s) : start < n := by
      have := ih h
      omega
    rw [feedsFrom] at h
    split at h
    · rcases List.mem_cons.mp h with rfl | h
      · exact Nat.lt_succ_self start
      · exact hrest h
    · exact hrest h

theorem pairwise_feedsFrom (start : Nat) (s : List Char) :
    (feedsFrom start s).Pairwise (· < ·) := by
  induction s generalizing start with
  | nil => exact .nil
  | cons c s ih =>
    rw [feedsFrom]
    split
    next hc =>
      rw [eq_of_beq hc]
      exact .cons (fun n hn => lt_of_mem_feedsFrom hn) (ih _)
    next => exact ih _

theorem pairwise_lineStarts (s : List Char) : (lineStarts s).Pairwise (· < ·) :=
  .cons (fun _ hn => lt_of_mem_feedsFrom hn) (pairwise_feedsFrom 0 s)

theorem takeWhile_eq_nil_of_lt {n : Nat} {ms : List Nat} (h : ∀ m ∈ ms, n < m) :
    ms.takeWhile (· ≤ n) = [] := by
  cases ms with
  | nil => rfl
  | cons m ms => exact List.takeWhile_cons_of_neg (by simpa using h m (List.mem_cons_self ..))

/-- A search tells how many numbers are at most the one searched for. -/
theorem search_spec {n : Nat} {ms : List Nat} (h : ms.Pairwise (· < ·)) :
    match search n ms with
    | .ok i => (ms.takeWhile (· ≤ n)).length = i + 1
    | .error i => (ms.takeWhile (· ≤ n)).length = i := by
  induction h with
  | nil => rfl
  | @cons m ms hm _ ih =>
    rcases Nat.lt_trichotomy m n with hlt | rfl | hlt
    · rw [search, if_neg (Nat.ne_of_lt hlt), if_neg (Nat.not_lt_of_gt hlt),
        List.takeWhile_cons, if_pos (decide_eq_true (Nat.le_of_lt hlt))]
      cases hsearch : search n ms <;> simp_all
    · rw [search, if_pos rfl, List.takeWhile_cons,
        if_pos (decide_eq_true (Nat.le_refl m)), takeWhile_eq_nil_of_lt hm]
      rfl
    · rw [search, if_neg (Nat.ne_of_gt hlt), if_pos hlt,
        List.takeWhile_cons, if_neg (by simpa using hlt)]
      rfl

/-- The starts increase, so those up to `n` are the front ones. -/
theorem lastAtMost_eq {n : Nat} {ms : List Nat} (h : ms.Pairwise (· < ·)) :
    lastAtMost n ms = (ms.takeWhile (· ≤ n)).length - 1 := by
  have hspec := search_spec (n := n) h
  rw [lastAtMost]
  cases hsearch : search n ms with
  | ok i =>
    rw [hsearch] at hspec
    exact (Nat.sub_eq_of_eq_add hspec).symm
  | error i =>
    rw [hsearch] at hspec
    exact congrArg (· - 1) hspec.symm

/-! ## Lines -/

/-- There is one piece more than line feeds. -/
theorem length_splitAt (cur : List Char) (h : '\n' ∉ cur) (start : Nat) (s : List Char) :
    (splitAt '\n' (cur ++ s)).length = (feedsFrom start s).length + 1 := by
  induction s generalizing start cur with
  | nil => rw [List.append_nil, splitAt_of_notMem h]; rfl
  | cons c s ih =>
    rw [feedsFrom]
    split
    next hc =>
      rw [eq_of_beq hc, splitAt_append_cons h, List.length_cons, List.length_cons]
      exact congrArg (· + 1) (ih [] List.not_mem_nil _)
    next hc =>
      have hcur : '\n' ∉ cur ++ [c] := by
        simpa [h] using fun heq => hc (beq_iff_eq.mpr heq.symm)
      rw [← ih (cur ++ [c]) hcur]
      simp

variable {text front cur s line : List Char}

/-- Between the start of a line and that of the next one stand the line and its line feed. -/
theorem exists_between?_of_splitAt (front cur : List Char)
    (htext : text = front ++ (cur ++ s)) (hcur : '\n' ∉ cur)
    {k : Nat} (hline : (splitAt '\n' (cur ++ s))[k]? = some line) :
    ∃ start, (size front :: feedsFrom (size front + size cur) s)[k]? = some start ∧
      ∃ feed, (feed = [] ∨ feed = ['\n']) ∧ '\n' ∉ line ∧
        between? start ((size front :: feedsFrom (size front + size cur) s)[k + 1]?.getD
          (size text)) text = some (line ++ feed) := by
  induction s generalizing front cur k with
  | nil =>
    rw [List.append_nil, splitAt_of_notMem hcur] at hline
    cases k with
    | succ k => cases hline
    | zero =>
      cases hline
      refine ⟨size front, rfl, [], .inl rfl, hcur, ?_⟩
      have hbetween := between?_append front line []
      rw [← htext] at hbetween
      simpa [feedsFrom, htext] using hbetween
  | cons c s ih =>
    by_cases hc : c = '\n'
    · subst hc
      have hfeeds : feedsFrom (size front + size cur) ('\n' :: s) =
          size (front ++ (cur ++ ['\n'])) ::
            feedsFrom (size (front ++ (cur ++ ['\n'])) + size []) s := by
        rw [feedsFrom, if_pos (beq_self_eq_true _)]
        simp [Nat.add_assoc, show '\n'.utf8Size = 1 from rfl]
      rw [splitAt_append_cons hcur] at hline
      rw [hfeeds]
      cases k with
      | zero =>
        cases hline
        refine ⟨size front, rfl, ['\n'], .inr rfl, hcur, ?_⟩
        have hbetween := between?_append front (line ++ ['\n']) s
        rw [show front ++ (line ++ ['\n'] ++ s) = text by simp [htext], ← size_append] at hbetween
        exact hbetween
      | succ k =>
        exact ih _ [] (by simp [htext]) List.not_mem_nil hline
    · have hfeeds : feedsFrom (size front + size cur) (c :: s) =
          feedsFrom (size front + size (cur ++ [c])) s := by
        rw [feedsFrom, if_neg (by simpa using hc)]
        simp [Nat.add_assoc]
      have hcur' : '\n' ∉ cur ++ [c] := by simpa [hcur] using Ne.symm hc
      rw [hfeeds]
      exact ih front (cur ++ [c]) (by simp [htext]) hcur' (by simpa using hline)

theorem dropTrailing_append_of_all {p : Char → Bool} {t : List Char} (h : ∀ c ∈ t, p c = true) :
    dropTrailing p (s ++ t) = dropTrailing p s := by
  rw [dropTrailing, List.reverse_append, List.dropWhile_append_of_pos (by simpa using h)]
  rfl

theorem dropTrailing_congr {p q : Char → Bool} (h : ∀ c ∈ s, p c = q c) :
    dropTrailing p s = dropTrailing q s := by
  have hdrop (t : List Char) (ht : ∀ c ∈ t, p c = q c) : t.dropWhile p = t.dropWhile q := by
    induction t with
    | nil => rfl
    | cons c t ih =>
      rw [List.dropWhile_cons, List.dropWhile_cons, ht c (List.mem_cons_self ..),
        ih fun d hd => ht d (List.mem_cons_of_mem c hd)]
  rw [dropTrailing, hdrop _ (by simpa using h)]
  rfl

/-- The line cut out at the indexed starts is the one that splitting at line feeds gives. -/
theorem cutLine?_eq (f : SourceFile) (number : Nat) :
    cutLine? number f.text.toList = some (f.line? number) := by
  have hlength : (lines f.text.toList).length = (lineStarts f.text.toList).length :=
    length_splitAt [] List.not_mem_nil 0 f.text.toList
  rw [cutLine?, SourceFile.line?]
  cases number with
  | zero => rfl
  | succ k =>
    rw [if_neg (Nat.succ_ne_zero k), Nat.add_sub_cancel]
    cases hline : (lines f.text.toList)[k]? with
    | none =>
      have hle := List.getElem?_eq_none_iff.mp hline
      rw [if_pos (by simp; omega)]
      rfl
    | some line =>
      have hlt : k < (lines f.text.toList).length := (List.getElem?_eq_some_iff.mp hline).1
      obtain ⟨start, hstart, feed, hfeed, hmem, hbetween⟩ :=
        exists_between?_of_splitAt [] [] rfl List.not_mem_nil hline
      have hall : ∀ c ∈ feed, (c == '\n' || c == '\r') = true := by
        rcases hfeed with rfl | rfl <;> simp
      have htrim : dropTrailing (fun c => c == '\n' || c == '\r') (line ++ feed) =
          dropTrailing (· == '\r') line := by
        rw [dropTrailing_append_of_all hall]
        refine dropTrailing_congr fun c hc => ?_
        have hne : c ≠ '\n' := fun heq => hmem (heq ▸ hc)
        rw [beq_false_of_ne hne, Bool.false_or]
      have hstart' : (lineStarts f.text.toList)[k]? = some start := hstart
      have hbetween' : between? start ((lineStarts f.text.toList)[k + 1]?.getD
          (size f.text.toList)) f.text.toList = some (line ++ feed) := hbetween
      rw [if_neg (by simp; omega), hstart']
      simp only [hbetween', Option.map_some, htrim]

/-! ## Columns -/

theorem takeBytes?_size_add (x : List Char) (n : Nat) (s : List Char) :
    takeBytes? (size x + n) (x ++ s) = (takeBytes? n s).map (x ++ ·) := by
  induction x with
  | nil => simp
  | cons c x ih =>
    have hpos := c.utf8Size_pos
    obtain ⟨k, hk⟩ : ∃ k, size (c :: x) + n = k + 1 := ⟨size (c :: x) + n - 1, by simp; omega⟩
    have hle : c.utf8Size ≤ k + 1 := by
      rw [← hk, size_cons]
      omega
    have hsub : k + 1 - c.utf8Size = size x + n := by
      rw [← hk, size_cons]
      omega
    rw [hk, List.cons_append, takeBytes?, if_pos hle, hsub, ih, Option.map_map]
    rfl

/-- Inside a character nothing is cut off. -/
theorem between?_inside {c : Char} {n : Nat} (h : n + 1 < c.utf8Size)
    (htext : text = front ++ (cur ++ c :: s)) :
    between? (size front) (size front + size cur + (n + 1)) text = none := by
  have hnone : takeBytes? (n + 1) (c :: s) = none := by
    rw [takeBytes?, if_neg (Nat.not_le_of_gt h)]
  have hsub : size front + size cur + (n + 1) - size front = size cur + (n + 1) := by omega
  rw [between?, if_pos (by omega), slice?, htext, dropBytes?_size_append, Option.bind_some, hsub,
    takeBytes?_size_add, hnone]
  rfl

/-- The line and column of an offset, where the line of number `line` starts at `start` and the
further ones at `feeds`. -/
def IsLineColumn (text : List Char) (line start : Nat) (feeds : List Nat) (o : Nat)
    (found : Nat × Nat) : Prop :=
  ∃ last, last ≤ o ∧ (start :: feeds)[(feeds.takeWhile (· ≤ o)).length]? = some last ∧
    found = (line + (feeds.takeWhile (· ≤ o)).length, columnAt last o text + 1)

namespace IsLineColumn

variable {line start o m : Nat} {feeds : List Nat} {found : Nat × Nat}

theorem here (hle : start ≤ o) (hlt : ∀ m ∈ feeds, o < m) :
    IsLineColumn text line start feeds o (line, columnAt start o text + 1) := by
  rw [IsLineColumn, takeWhile_eq_nil_of_lt hlt]
  exact ⟨start, hle, rfl, rfl⟩

theorem further (hle : m ≤ o) (h : IsLineColumn text (line + 1) m feeds o found) :
    IsLineColumn text line start (m :: feeds) o found := by
  obtain ⟨last, hlast, hget, hfound⟩ := h
  rw [IsLineColumn, List.takeWhile_cons, if_pos (decide_eq_true hle), List.length_cons]
  exact ⟨last, hlast, hget, by rw [hfound, Nat.add_assoc, Nat.add_comm 1]⟩

end IsLineColumn

/-- A walk over a whole character. -/
theorem lineColumnFrom_cons {line chars bytes n : Nat} {c : Char} (h : c.utf8Size ≤ n) :
    lineColumnFrom line chars bytes n (c :: s) =
      if c == '\n' then lineColumnFrom (line + 1) 0 0 (n - c.utf8Size) s
      else lineColumnFrom line (chars + 1) (bytes + c.utf8Size) (n - c.utf8Size) s := by
  have hpos := c.utf8Size_pos
  cases n with
  | zero => omega
  | succ n => rw [lineColumnFrom, if_neg (Nat.not_lt_of_le h)]

theorem isLineColumn_here (htext : text = front ++ (cur ++ s)) (line : Nat) :
    IsLineColumn text line (size front) (feedsFrom (size front + size cur) s)
      (size front + size cur) (line, cur.length + 1) := by
  have hbetween := between?_append front cur s
  rw [← htext] at hbetween
  have hcolumn : columnAt (size front) (size front + size cur) text = cur.length := by
    rw [columnAt, hbetween]
  rw [← hcolumn]
  exact .here (Nat.le_add_right ..) fun m hm => lt_of_mem_feedsFrom hm

/-- Inside a character the column counts the bytes of its line instead. -/
theorem isLineColumn_inside {c : Char} {n : Nat} (hlt : n + 1 < c.utf8Size)
    (htext : text = front ++ (cur ++ c :: s)) (line : Nat) :
    IsLineColumn text line (size front) (feedsFrom (size front + size cur) (c :: s))
      (size front + size cur + (n + 1)) (line, size cur + (n + 1) + 1) := by
  have hcolumn : columnAt (size front) (size front + size cur + (n + 1)) text =
      size cur + (n + 1) := by
    rw [columnAt, between?_inside hlt htext]
    dsimp only
    omega
  rw [← hcolumn]
  refine .here (by omega) fun m hm => ?_
  have hc : (c == '\n') = false := by
    refine beq_false_of_ne ?_
    rintro rfl
    exact absurd hlt (Nat.not_lt_of_le (Nat.le_add_left 1 n))
  rw [feedsFrom, hc] at hm
  have hlt' := lt_of_mem_feedsFrom hm
  omega

/-- What a walk finds `n` bytes behind what it has read, of which `cur` stands on the current
line. -/
theorem isLineColumn_lineColumnFrom (front cur : List Char) (htext : text = front ++ (cur ++ s))
    (line : Nat) {n : Nat} (hn : n ≤ size s) :
    IsLineColumn text line (size front) (feedsFrom (size front + size cur) s)
      (size front + size cur + n) (lineColumnFrom line cur.length (size cur) n s) := by
  induction s generalizing line front cur n with
  | nil =>
    obtain rfl : n = 0 := Nat.le_zero.mp hn
    exact isLineColumn_here htext line
  | cons c s ih =>
    rcases Nat.lt_or_ge n c.utf8Size with hlt | hle
    · cases n with
      | zero => exact isLineColumn_here htext line
      | succ n =>
        rw [lineColumnFrom, if_pos hlt]
        exact isLineColumn_inside hlt htext line
    · rw [size_cons] at hn
      rw [lineColumnFrom_cons hle, feedsFrom]
      by_cases hc : c = '\n'
      · subst hc
        have hone : '\n'.utf8Size = 1 := rfl
        have hsize : size (front ++ (cur ++ ['\n'])) = size front + size cur + 1 := by
          simp [Nat.add_assoc, hone]
        have hoffset : size front + size cur + 1 + (n - 1) = size front + size cur + n := by omega
        have hrest := ih (front ++ (cur ++ ['\n'])) [] (by simp [htext])
          (line + 1) (n := n - 1) (by omega)
        rw [hsize, size_nil, Nat.add_zero, hoffset] at hrest
        rw [if_pos (beq_self_eq_true _), if_pos (beq_self_eq_true _), hone]
        exact .further (by omega) hrest
      · have hne : ¬(c == '\n') = true := by simpa using hc
        have hoffset : size front + size (cur ++ [c]) + (n - c.utf8Size) =
            size front + size cur + n := by
          simp
          omega
        have hrest := ih front (cur ++ [c]) (by simp [htext]) line
          (n := n - c.utf8Size) (by omega)
        rw [hoffset] at hrest
        rw [if_neg hne, if_neg hne]
        simpa [Nat.add_assoc] using hrest

/-- A walk ends with the text. -/
theorem lineColumnFrom_of_size_le {line chars bytes n : Nat} (h : size s ≤ n) :
    lineColumnFrom line chars bytes n s = lineColumnFrom line chars bytes (size s) s := by
  induction s generalizing line chars bytes n with
  | nil => cases n <;> rfl
  | cons c s ih =>
    rw [size_cons] at h
    have hle : size s ≤ n - c.utf8Size := by omega
    rw [lineColumnFrom_cons (by omega), lineColumnFrom_cons (by simp), size_cons,
      Nat.add_sub_cancel_left, ih hle, ih hle]

/-- Searching the starts of lines gives the line and column that counting gives. -/
theorem cutLineColumn?_eq (offset : Nat) (s : List Char) :
    cutLineColumn? offset s = some (lineColumn offset s) := by
  have hwalk : lineColumn offset s = lineColumnFrom 1 0 0 (min offset (size s)) s := by
    rcases Nat.le_total offset (size s) with h | h
    · rw [Nat.min_eq_left h]
      rfl
    · rw [Nat.min_eq_right h]
      exact lineColumnFrom_of_size_le h
  have hwalked := isLineColumn_lineColumnFrom [] [] (rfl : s = [] ++ ([] ++ s)) 1
    (Nat.min_le_right offset (size s))
  rw [size_nil, Nat.zero_add, Nat.zero_add] at hwalked
  obtain ⟨last, hle, hget, hfound⟩ := hwalked
  have hindex : lastAtMost (min offset (size s)) (lineStarts s) =
      ((feedsFrom 0 s).takeWhile (· ≤ min offset (size s))).length := by
    rw [lastAtMost_eq (pairwise_lineStarts s), lineStarts, List.takeWhile_cons,
      if_pos (decide_eq_true (Nat.zero_le _)), List.length_cons, Nat.add_sub_cancel]
  rw [← hindex] at hget hfound
  change (lineStarts s)[lastAtMost (min offset (size s)) (lineStarts s)]? = some last at hget
  change lineColumnFrom 1 0 0 (min offset (size s)) s = _ at hfound
  rw [cutLineColumn?, hwalk, hfound, Nat.add_comm 1]
  simp only [hget, if_pos hle]

end DeclGen.Text
