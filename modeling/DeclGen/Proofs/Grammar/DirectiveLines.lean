import DeclGen.Proofs.Grammar.Fates

/-!
# Lines that start with `#` in skipped regions

Between tokens a line that starts with `#` is trivia. In a skipped region it is text like any
other: its brackets count, and so do the quotes and comments that start in it. It does no harm if
it holds a whole number of literals and closes the brackets that it opens. Whether it does shows in
a block that holds nothing else.

## Main definitions

* `directiveLine`: a line feed and a line that starts with `#`
* `Place`: the places between the items of a region, also inside its groups
* `Whole`: a text that a search gets over, whatever stands behind it
* `SkippedInBraces`: a text that a block may consist of

## Main statements

* `skippedInBraces_iff_whole`: a block is read if the search gets over what it consists of
* `directiveLine_insertion`: the lines that may stand in every region
-/

namespace DeclGen.Grammar

open DeclGen.Grammar.Parser DeclGen.Text

variable {stop stop' : Char → Bool} {c : Char} {depth n seen : Nat} {s t w x y z : List Char}

/-! ## Whole texts -/

theorem scan_of_seen (h : scan stop depth (0 + seen) s = some (n + seen)) :
    scan stop depth 0 s = some n := by
  rw [scan_eq_map, Option.map_eq_some_iff] at h
  obtain ⟨m, hm, heq⟩ := h
  rw [hm, show m = n by omega]

theorem length_cons_eq (hn : n ≤ y.length) : (c :: y).length = (y.drop n).length + (n + 1) := by
  rw [List.length_cons, List.length_drop]
  omega

/-- A search that goes on behind a character was not to stop there. -/
theorem stop_eq_false_of_scan (h : scan stop depth 0 (c :: s) = some (n + 1)) (hd : depth = 0) :
    stop c = false := by
  refine Bool.eq_false_iff.mpr fun hstop => ?_
  rw [scan, hd, hstop] at h
  cases h

/-- The text closes `depth` brackets besides those that it opens, every literal that starts in it
ends in it, whatever stands behind it, and no stop character shows outside brackets. -/
inductive Whole (stop : Char → Bool) : Nat → List Char → Prop where
  | nil : Whole stop 0 []
  | opening {depth : Nat} {c : Char} {y : List Char} (hc : isOpening c = true)
      (hstop : depth = 0 → stop c = false) (h : Whole stop (depth + 1) y) :
      Whole stop depth (c :: y)
  | closing {depth : Nat} {c : Char} {y : List Char} (hc : isClosing c = true)
      (h : Whole stop depth y) : Whole stop (depth + 1) (c :: y)
  | literal {depth : Nat} {c : Char} {y : List Char} (n : Nat)
      (hc : isOpening c = false ∧ isClosing c = false) (hstop : depth = 0 → stop c = false)
      (hn : n ≤ y.length) (htail : ∀ w, literalTail c (y ++ w) = some n)
      (h : Whole stop depth (y.drop n)) : Whole stop depth (c :: y)
  | plain {depth : Nat} {c : Char} {y : List Char}
      (hc : isOpening c = false ∧ isClosing c = false) (hquote : c ≠ '"' ∧ c ≠ '\'')
      (hstop : depth = 0 → stop c = false) (htail : ∀ w, literalTail c (y ++ w) = none)
      (h : Whole stop depth y) : Whole stop depth (c :: y)

namespace Whole

/-- A text that is whole for a search is stepped over inside further brackets too. -/
theorem scan_append (h : Whole stop depth y) (outer seen : Nat) (w : List Char) :
    scan stop (depth + outer) seen (y ++ w) = scan stop outer (seen + y.length) w := by
  have hzero {depth : Nat} {c : Char} (hstop : depth = 0 → stop c = false) :
      depth + outer = 0 → stop c = false := fun h => hstop (Nat.eq_zero_of_add_eq_zero_right h)
  induction h generalizing seen with
  | nil => simp
  | @opening depth c y hc hstop _ ih =>
    rw [List.cons_append, scan_opening _ (hzero hstop) hc, Nat.add_right_comm, ih,
      List.length_cons, Nat.add_assoc, Nat.add_comm 1]
  | @closing depth c y hc _ ih =>
    rw [List.cons_append, Nat.add_right_comm, scan_closing _ hc, ih, List.length_cons,
      Nat.add_assoc, Nat.add_comm 1]
  | @literal depth c y n hc hstop hn htail _ ih =>
    rw [List.cons_append, scan_literal _ (hzero hstop) hc (htail w),
      List.drop_append_of_le_length hn, ih, List.length_drop, List.length_cons]
    congr 1
    omega
  | @plain depth c y hc hquote hstop htail _ ih =>
    rw [List.cons_append, scan_plain _ (hzero hstop) hc hquote (htail w), ih, List.length_cons,
      Nat.add_assoc, Nat.add_comm 1]

theorem steps (h : Whole stop 0 y) : Steps stop depth y := by
  intro seen t _
  have hscan := h.scan_append depth seen t
  rwa [Nat.zero_add] at hscan

theorem append (hy : Whole stop depth y) (hz : Whole stop 0 z) : Whole stop depth (y ++ z) := by
  induction hy with
  | nil => exact hz
  | opening hc hstop _ ih => exact .opening hc hstop ih
  | closing hc _ ih => exact .closing hc ih
  | literal n hc hstop hn htail _ ih =>
    refine .literal n hc hstop ?_ (fun w => ?_) ?_
    · exact Nat.le_trans hn (List.length_append ▸ Nat.le_add_right _ _)
    · exact List.append_assoc _ z w ▸ htail (z ++ w)
    · exact (List.drop_append_of_le_length hn).symm ▸ ih
  | plain hc hquote hstop htail _ ih =>
    exact .plain hc hquote hstop (fun w => List.append_assoc _ z w ▸ htail (z ++ w)) ih

theorem blanks (hstop : stop ' ' = false) (n : Nat) : Whole stop 0 (List.replicate n ' ') := by
  induction n with
  | zero => exact .nil
  | succ n ih =>
    exact .plain (by decide) (by decide) (fun _ => hstop)
      (fun _ => literalTail_eq_none (by decide) _) ih

/-- A search for a closing bracket stops in no text that a search gets over. -/
theorem of_isClosing (h : Whole stop depth y) (hc : isClosing c = true) :
    Whole (· == c) depth y := by
  have hne {d : Char} (hd : isClosing d = false) : (d == c) = false := by
    refine beq_false_of_ne ?_
    rintro rfl
    rw [hc] at hd
    cases hd
  induction h with
  | nil => exact .nil
  | @opening _ d _ hd _ _ ih =>
    have hclosing : isClosing d = false :=
      Bool.eq_false_iff.mpr fun h => by simp [isOpening_of_isClosing h] at hd
    exact .opening hd (fun _ => hne hclosing) ih
  | closing hd _ ih => exact .closing hd ih
  | literal n hd _ hn htail _ ih => exact .literal n hd (fun _ => hne hd.2) hn htail ih
  | plain hd hquote _ htail _ ih => exact .plain hd hquote (fun _ => hne hd.2) htail ih

/-- One search that gets over the text to what is behind it shows that no stop character is in it
outside brackets. -/
theorem of_scan (h : Whole stop' depth y) (hscan : scan stop depth 0 (y ++ [c]) = some y.length) :
    Whole stop depth y := by
  induction h with
  | nil => exact .nil
  | opening hd _ _ ih =>
    have hstop := stop_eq_false_of_scan hscan
    rw [List.cons_append, scan_opening _ hstop hd] at hscan
    exact .opening hd hstop (ih (scan_of_seen hscan))
  | closing hd _ ih =>
    rw [List.cons_append, scan_closing _ hd] at hscan
    exact .closing hd (ih (scan_of_seen hscan))
  | @literal _ _ y n hd _ hn htail _ ih =>
    have hstop := stop_eq_false_of_scan hscan
    rw [List.cons_append, scan_literal _ hstop hd (htail _), List.drop_append_of_le_length hn,
      length_cons_eq hn] at hscan
    exact .literal n hd hstop hn htail (ih (scan_of_seen hscan))
  | plain hd hquote _ htail _ ih =>
    have hstop := stop_eq_false_of_scan hscan
    rw [List.cons_append, scan_plain _ hstop hd hquote (htail _)] at hscan
    exact .plain hd hquote hstop htail (ih (scan_of_seen hscan))

end Whole

/-- A text of lines is whole if every search gets over it to a brace behind it: a literal that is
still open at its end could be closed behind the brace. -/
theorem whole_of_scan (hy : EndsLine y)
    (h : ∀ t, scan stop depth 0 (y ++ '}' :: t) = some y.length) : Whole stop depth y := by
  induction hn : y.length using Nat.strongRecOn generalizing y depth with
  | ind n ih =>
    cases y with
    | nil =>
      cases depth with
      | zero => exact .nil
      | succ depth =>
        have hnone := h []
        rw [List.nil_append, scan_closing _ rfl, scan] at hnone
        cases hnone
    | cons c y =>
      have hstop := stop_eq_false_of_scan (h [])
      have hlt (m : Nat) : (y.drop m).length < n := by
        rw [← hn, List.length_drop, List.length_cons]
        omega
      by_cases hopen : isOpening c = true
      · refine .opening hopen hstop (ih _ (hlt 0) hy.of_cons (fun t => ?_) rfl)
        have ht := h t
        rw [List.cons_append, scan_opening _ hstop hopen] at ht
        exact scan_of_seen ht
      by_cases hclose : isClosing c = true
      · cases depth with
        | zero =>
          have hnone := h []
          rw [List.cons_append, scan_unopened _ (hstop rfl) hclose] at hnone
          cases hnone
        | succ depth =>
          refine .closing hclose (ih _ (hlt 0) hy.of_cons (fun t => ?_) rfl)
          have ht := h t
          rw [List.cons_append, scan_closing _ hclose] at ht
          exact scan_of_seen ht
      have hbracket : isOpening c = false ∧ isClosing c = false := by simp [hopen, hclose]
      cases literalTail_fate hy with
      | closed m hm htail =>
        refine .literal m hbracket hstop hm htail
          (ih _ (hlt m) (hy.of_cons.drop m) (fun t => ?_) rfl)
        have ht := h t
        rw [List.cons_append, scan_literal _ hstop hbracket (htail _),
          List.drop_append_of_le_length hm, length_cons_eq hm] at ht
        exact scan_of_seen ht
      | dead htail =>
        by_cases hquote : c = '"' ∨ c = '\''
        · have hnone := h []
          rw [List.cons_append, scan_unclosed _ hstop hquote (htail _)] at hnone
          cases hnone
        · refine .plain hbracket (not_or.mp hquote) hstop htail
            (ih _ (hlt 0) hy.of_cons (fun t => ?_) rfl)
          have ht := h t
          rw [List.cons_append, scan_plain _ hstop hbracket (not_or.mp hquote) (htail _)] at ht
          exact scan_of_seen ht
      | opened u htail =>
        -- behind the literal that `u` closes nothing is left
        have hnone := h (u ++ [])
        have hdrop : (y ++ '}' :: (u ++ [])).drop (y.length + 1 + u.length) = [] := by
          rw [List.drop_eq_nil_iff]
          simp
          omega
        rw [List.cons_append, scan_literal _ hstop hbracket (htail [] (by simp)), hdrop,
          scan] at hnone
        cases hnone

/-! ## Blocks of lines -/

/-- A block that consists of the text is read whole, whatever stands behind it. -/
def SkippedInBraces (y : List Char) : Prop :=
  ∀ offset t, braced ⟨offset, '{' :: (y ++ '}' :: t)⟩ =
    .ok ('{' :: (y ++ ['}']), ⟨offset + size ('{' :: (y ++ ['}'])), t⟩)

theorem SkippedInBraces.of_steps (h : Steps (· == '}') 0 y) : SkippedInBraces y :=
  delimited_of_steps h (by decide)

/-- A block of lines is read whole if it consists of a whole text. -/
theorem skippedInBraces_iff_whole (hy : EndsLine y) :
    SkippedInBraces y ↔ Whole (· == '}') 0 y := by
  refine ⟨fun h => whole_of_scan hy fun t => ?_, fun h => .of_steps h.steps⟩
  obtain ⟨s, n, hrest, hscan, -, hend⟩ := exists_scan_of_delimited (h 0 t)
  cases hrest
  -- what is left behind the block tells how long it is
  have hleft : t.length = (y ++ '}' :: t).length - (n + 1) := by
    have heq := congrArg (fun c : Cursor => c.rest.length) hend
    simpa [Cursor.skip] using heq
  have hle : n + 1 ≤ (y ++ '}' :: t).length := by
    obtain ⟨d, u, hdrop, -⟩ := exists_of_scan hscan
    have hlength := congrArg List.length hdrop
    rw [List.length_drop, List.length_cons] at hlength
    omega
  rw [hscan]
  simp only [List.length_append, List.length_cons] at hleft hle
  congr 1
  omega

/-! ## Places in a region -/

/-- How a text in brackets is written, with some blanks behind the opening bracket and before the
closing one. -/
def Brackets.enclose (b : Brackets) (before behind : Nat) (x : List Char) : List Char :=
  b.opening :: (List.replicate before ' ' ++ (x ++ List.replicate behind ' ') ++ [b.closing])

/-- A place in a sequence of items: between two of them or in a group. -/
inductive Place where
  | between (before behind : List Item)
  | inGroup (before : List Item) (b : Brackets) (m n : Nat) (place : Place) (behind : List Item)

namespace Place

def items : Place → List Item
  | between before behind => before ++ behind
  | inGroup before b m n place behind => before ++ .group b m n place.items :: behind

def text (x : List Char) : Place → List Char
  | between before behind => itemsText before ++ (x ++ itemsText behind)
  | inGroup before b m n place behind =>
    before.flatMap (fun i => i.text ++ [' ']) ++
      (b.enclose m n (place.text x) ++ behind.flatMap fun i => ' ' :: i.text)

def gap : Place → List Char
  | between before behind => if before.isEmpty || behind.isEmpty then [] else [' ']
  | inGroup _ _ _ _ place _ => place.gap

end Place

theorem itemsText_cons (i : Item) (items : List Item) :
    itemsText (i :: items) = i.text ++ items.flatMap fun i => ' ' :: i.text := by
  induction items generalizing i with
  | nil => simp [itemsText]
  | cons j items ih => rw [itemsText, ih, List.flatMap_cons, List.cons_append]

theorem itemsText_append_cons (before : List Item) (i : Item) (behind : List Item) :
    itemsText (before ++ i :: behind) =
      before.flatMap (fun i => i.text ++ [' ']) ++ itemsText (i :: behind) := by
  induction before with
  | nil => rfl
  | cons j before ih =>
    obtain ⟨k, items, hitems⟩ : ∃ k items, before ++ i :: behind = k :: items :=
      List.exists_cons_of_ne_nil (by simp)
    rw [List.cons_append, hitems, itemsText, ← hitems, ih, List.flatMap_cons]
    simp

/-- The items are written with nothing but the gap at the place. -/
theorem Place.text_gap (p : Place) : p.text p.gap = itemsText p.items := by
  induction p with
  | between before behind =>
    rw [text, gap, items]
    cases behind with
    | nil => simp [itemsText]
    | cons i behind =>
      rcases List.eq_nil_or_concat before with rfl | ⟨before, j, rfl⟩
      · simp [itemsText]
      · rw [List.concat_eq_append, itemsText_append_cons, itemsText_append_cons]
        simp [itemsText]
  | inGroup before b m n place behind ih =>
    rw [text, gap, items, itemsText_append_cons, itemsText_cons, ih, Item.text, Brackets.enclose]

namespace Steps

theorem leading (hstop : Stopping stop) {before : List Item}
    (h : ∀ i ∈ before, Steps stop depth i.text) (hx : Steps stop depth x) :
    Steps stop depth (before.flatMap (fun i => i.text ++ [' ']) ++ x) := by
  induction before with
  | nil => exact hx
  | cons i before ih =>
    rw [List.flatMap_cons, List.append_assoc, List.append_assoc]
    have hrest := ih fun j hj => h j (List.mem_cons_of_mem i hj)
    exact append_blank hstop (h i List.mem_cons_self) hrest

theorem trailing (hstop : Stopping stop) {behind : List Item}
    (h : ∀ i ∈ behind, Steps stop depth i.text) (hx : Steps stop depth x) :
    Steps stop depth (x ++ behind.flatMap fun i => ' ' :: i.text) := by
  induction behind generalizing x with
  | nil => simpa using hx
  | cons i behind ih =>
    have hi := append_blank hstop hx (h i List.mem_cons_self)
    have hrest := ih (fun j hj => h j (List.mem_cons_of_mem i hj)) hi
    rwa [List.append_assoc] at hrest

theorem enclose (hstop : Stopping stop) (b : Brackets) (m n : Nat) (hx : Steps stop (depth + 1) x) :
    Steps stop depth (b.enclose m n x) :=
  group hstop b (blanks_append hstop m (append_blanks hstop hx n))

end Steps

/-- A search steps over items with a whole text at a place among them. -/
theorem Place.steps (p : Place) (hstop : Stopping stop) (hx : Whole stop 0 x)
    (hhead : ∀ t : List Char, (x ++ t).head? ≠ some '"')
    (h : depth = 0 → ∀ i ∈ p.items, i.Avoids stop) : Steps stop depth (p.text x) := by
  induction p generalizing depth with
  | between before behind =>
    rw [items] at h
    have hbefore := steps_itemsText before hstop fun hd i hi => h hd i (List.mem_append_left _ hi)
    have hbehind := steps_itemsText behind hstop fun hd i hi => h hd i (List.mem_append_right _ hi)
    intro seen t ht
    have hscan := hx.scan_append depth (seen + (itemsText before).length) (itemsText behind ++ t)
    rw [Nat.zero_add] at hscan
    rw [text, List.append_assoc, List.append_assoc, hbefore _ _ (hhead _), hscan, hbehind _ _ ht]
    simp [Nat.add_assoc]
  | inGroup before b m n place behind ih =>
    -- no stop character counts inside the group, so only the items beside it matter
    rw [items] at h
    have hitem (i : Item) (hi : i ∈ before ++ behind) : Steps stop depth i.text := by
      refine i.steps hstop fun hd => h hd i ?_
      rw [List.mem_append] at hi ⊢
      exact hi.imp_right (List.mem_cons_of_mem _)
    have hgroup : Steps stop depth (b.enclose m n (place.text x)) :=
      .enclose hstop b m n (ih fun hd => absurd hd (Nat.succ_ne_zero depth))
    refine .leading hstop (fun i hi => hitem i (List.mem_append_left _ hi)) ?_
    exact .trailing hstop (fun i hi => hitem i (List.mem_append_right _ hi)) hgroup

/-! ## Lines that start with `#` -/

/-- A line feed and a line that starts with `#`. -/
def directiveLine (x : List Char) : List Char := '\n' :: '#' :: (x ++ ['\n'])

theorem endsLine_directiveLine (x : List Char) : EndsLine (directiveLine x) := by
  intro c hc
  have hlast : (directiveLine x).getLast? = some '\n' := by
    rw [directiveLine, ← List.cons_append, ← List.cons_append, List.getLast?_concat]
  rw [hlast] at hc
  exact (Option.some.inj hc).symm

theorem trivia_directiveLine (hx : '\n' ∉ x) : Trivia (directiveLine x) := by
  have hline := Trivia.cons (c := '\n') (by decide) (Trivia.hashLine hx)
  rwa [List.cons_append] at hline

def spacedLine (m n : Nat) (x : List Char) : List Char :=
  List.replicate m ' ' ++ (directiveLine x ++ List.replicate n ' ')

theorem whole_spacedLine (hstop : Stopping stop) (m n : Nat) (h : Whole stop 0 (directiveLine x)) :
    Whole stop 0 (spacedLine m n x) :=
  (Whole.blanks hstop.not_blank m).append (h.append (.blanks hstop.not_blank n))

theorem head?_spacedLine (m n : Nat) (x t : List Char) :
    (spacedLine m n x ++ t).head? ≠ some '"' := by
  cases m <;> simp [spacedLine, directiveLine, List.replicate_succ]

/-- A line of items is read over. -/
theorem skippedInBraces_of_items {items : List Item}
    (h : x = itemsText items ∨ x ++ ['\n'] = itemsText items) :
    SkippedInBraces (directiveLine x) := by
  have hstop : Stopping (· == '}') := .beq_closing (by decide)
  have hitems : Steps (· == '}') 0 (itemsText items) :=
    steps_itemsText items hstop fun _ i _ => i.avoids_closing (by decide)
  have hrest : Steps (· == '}') 0 (x ++ ['\n']) := by
    rcases h with rfl | h
    · exact hitems.append (.plain (fun _ => rfl) (by decide) .nil) fun t _ => by simp
    · rwa [h]
  exact .of_steps (.plain (fun _ => rfl) (by decide) (.plain (fun _ => rfl) (by decide) hrest))

theorem text_between_nil (x : List Char) :
    (Place.between [] []).text (spacedLine 0 0 x) = directiveLine x := by
  simp [Place.text, spacedLine, itemsText]

/-- The line may stand at every place of every region if a block of it alone is read. -/
theorem delimited_spacedLine_iff :
    (∀ (b : Brackets) (p : Place) (before behind m n offset : Nat) (t : List Char),
      let region := b.enclose before behind (p.text (spacedLine m n x))
      delimited b.opening b.closing ⟨offset, region ++ t⟩ =
        .ok (region, ⟨offset + size region, t⟩)) ↔
      SkippedInBraces (directiveLine x) := by
  constructor
  · intro h offset t
    have hread := h .curly (.between [] []) 0 0 0 0 offset t
    rw [text_between_nil] at hread
    simpa [Brackets.enclose, Brackets.opening, Brackets.closing, braced] using hread
  · intro h b p before behind m n offset t
    have hclosing : isClosing b.closing = true := by cases b <;> rfl
    have hquote : b.closing ≠ '"' := by cases b <;> decide
    have hstop : Stopping (· == b.closing) := .beq_closing hclosing
    have hline : Whole (· == b.closing) 0 (directiveLine x) :=
      ((skippedInBraces_iff_whole (endsLine_directiveLine x)).mp h).of_isClosing hclosing
    have htext : Steps (· == b.closing) 0 (p.text (spacedLine m n x)) :=
      p.steps hstop (whole_spacedLine hstop m n hline) (head?_spacedLine m n x)
        fun _ i _ => i.avoids_closing hclosing
    have hregion := Steps.blanks_append hstop before (htext.append_blanks hstop behind)
    have hread := delimited_of_steps (o := b.opening) hregion hquote offset t
    simpa only [Brackets.enclose, List.cons_append, List.append_assoc, List.nil_append] using hread

/-- The line may stand in every text before the stop character if it may do so alone. -/
theorem takeUntil_spacedLine_iff (h : SkippedInBraces (directiveLine x)) (hstop : Stopping stop)
    (hc : stop c = true) :
    (∀ (p : Place) (m n offset : Nat) (t : List Char), (∀ i ∈ p.items, i.Avoids stop) →
      let text := p.text (spacedLine m n x)
      takeUntil stop ⟨offset, text ++ c :: t⟩ = .ok (text, ⟨offset + size text, c :: t⟩)) ↔
      takeUntil stop ⟨0, directiveLine x ++ [c]⟩ =
        .ok (directiveLine x, ⟨size (directiveLine x), [c]⟩) := by
  constructor
  · intro hall
    have hread := hall (.between [] []) 0 0 0 [] (by simp [Place.items])
    rw [text_between_nil] at hread
    simpa using hread
  · intro hread p m n offset t hitems
    obtain ⟨k, hscan, htake, hskip⟩ := exists_scan_of_takeUntil hread
    have hlength : k = (directiveLine x).length := by
      obtain ⟨d, u, hdrop, -⟩ := exists_of_scan hscan
      have hleft := congrArg (fun c : Cursor => c.rest.length) hskip
      have hle := congrArg List.length hdrop
      simp only [Cursor.skip, List.length_drop, List.length_append, List.length_cons,
        List.length_nil] at hleft hle
      omega
    have hline : Whole stop 0 (directiveLine x) :=
      ((skippedInBraces_iff_whole (endsLine_directiveLine x)).mp h).of_scan (hlength ▸ hscan)
    have htext : Steps stop 0 (p.text (spacedLine m n x)) :=
      p.steps hstop (whole_spacedLine hstop m n hline) (head?_spacedLine m n x) fun _ => hitems
    refine takeUntil_of_steps htext hc (fun hquote => ?_) offset t
    simp [hstop.not_literal (.inl hquote)] at hc

/-- Between tokens every line that starts with `#` is trivia. In a region it may stand at every
place between the items, whatever these are, if and only if a block of it alone is read. If so, it
may also stand in a text before a stop character if and only if it does so alone. A line of items
is read over. -/
theorem directiveLine_insertion (hx : '\n' ∉ x) :
    Trivia (directiveLine x) ∧ (∀ p : Place, p.text p.gap = itemsText p.items) ∧
    ((∀ (b : Brackets) (p : Place) (before behind m n offset : Nat) (t : List Char),
        let region := b.enclose before behind (p.text (spacedLine m n x))
        delimited b.opening b.closing ⟨offset, region ++ t⟩ =
          .ok (region, ⟨offset + size region, t⟩)) ↔
      SkippedInBraces (directiveLine x)) ∧
    (SkippedInBraces (directiveLine x) → ∀ (stop : Char → Bool) (c : Char), Stopping stop →
      stop c = true →
      ((∀ (p : Place) (m n offset : Nat) (t : List Char), (∀ i ∈ p.items, i.Avoids stop) →
          let text := p.text (spacedLine m n x)
          takeUntil stop ⟨offset, text ++ c :: t⟩ = .ok (text, ⟨offset + size text, c :: t⟩)) ↔
        takeUntil stop ⟨0, directiveLine x ++ [c]⟩ =
          .ok (directiveLine x, ⟨size (directiveLine x), [c]⟩))) ∧
    ∀ items : List Item, x = itemsText items ∨ x ++ ['\n'] = itemsText items →
      SkippedInBraces (directiveLine x) := by
  exact ⟨trivia_directiveLine hx, Place.text_gap, delimited_spacedLine_iff,
    fun h _ _ hstop hc => takeUntil_spacedLine_iff h hstop hc,
    fun _ => skippedInBraces_of_items⟩

theorem directiveLine_insertion_commented :
    braced (Cursor.ofString "\x7b f ( \"\x7d\" \n#if (A) // it's\nb) ; \x7d g") =
        .ok ("\x7b f ( \"\x7d\" \n#if (A) // it's\nb) ; \x7d".toList, ⟨33, " g".toList⟩) ∧
      takeUntil (· == ',') (Cursor.ofString "a \n#if (A) // it's\n b, c") =
        .ok ("a \n#if (A) // it's\n b".toList, ⟨21, ", c".toList⟩) := by
  have hword (x : List Char) (hx : x.all isPlain = true) : ∀ c ∈ x, isPlain c = true :=
    List.all_eq_true.mp hx
  have hcomma : Stopping (· == ',') := fun c hc => by
    obtain rfl : c = ',' := eq_of_beq hc
    decide
  obtain ⟨-, -, hregion, hsearch, hitems⟩ :=
    directiveLine_insertion (x := "if (A) // it's".toList) (by decide)
  have hline := hitems [.run ['i', 'f'] (hword _ (by decide)),
    .group .round 0 0 [.run ['A'] (hword _ (by decide))], .lineComment " it's".toList (by decide)]
    (.inr rfl)
  constructor
  · let place : Place := .inGroup [.run ['f'] (hword _ (by decide))] .round 1 0
      (.between [.string [.char '\x7d' (by decide)]] [.run ['b'] (hword _ (by decide))])
      [.run [';'] (hword _ (by decide))]
    have hplace : Brackets.curly.enclose 1 1 (place.text (spacedLine 1 0 "if (A) // it's".toList)) =
        "\x7b f ( \"\x7d\" \n#if (A) // it's\nb) ; \x7d".toList := rfl
    have hread := hregion.mpr hline .curly place 1 1 1 0 0 " g".toList
    simp only [hplace] at hread
    exact hread
  · have halone : takeUntil (· == ',') ⟨0, directiveLine "if (A) // it's".toList ++ [',']⟩ =
        .ok (directiveLine "if (A) // it's".toList,
          ⟨size (directiveLine "if (A) // it's".toList), [',']⟩) :=
      takeUntil_of_scan (by decide +kernel : scan (· == ',') 0 0 _ = some 17)
    let place : Place :=
      .between [.run ['a'] (hword _ (by decide))] [.run ['b'] (hword _ (by decide))]
    have hplace : place.text (spacedLine 1 1 "if (A) // it's".toList) =
        "a \n#if (A) // it's\n b".toList := rfl
    have hread := (hsearch hline (· == ',') ',' hcomma rfl).mpr halone place 1 1 0 " c".toList
      (by simp [place, Place.items, Item.Avoids])
    simp only [hplace] at hread
    exact hread

/-- The apostrophe of such a line opens a character literal that is not closed, and its comma is the
one that a search finds. -/
theorem not_skippedInBraces_apostrophe :
    ¬ SkippedInBraces (directiveLine "it's".toList) ∧
      (braced (Cursor.ofString "\x7b a \n#it's\nb \x7d")).toOption = none ∧
      (takeUntil (· == ',') (Cursor.ofString "a \n#if x, y\nb, c")).toOption.map Prod.fst =
        some "a \n#if x".toList := by
  refine ⟨fun h => ?_, by decide +kernel, by decide +kernel⟩
  have hnone : (braced ⟨0, '{' :: (directiveLine "it's".toList ++ ['}'])⟩).toOption = none := by
    decide +kernel
  rw [h 0 []] at hnone
  cases hnone

end DeclGen.Grammar
