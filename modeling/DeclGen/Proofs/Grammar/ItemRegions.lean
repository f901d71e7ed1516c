import DeclGen.Proofs.Grammar.Extents
import DeclGen.Proofs.Grammar.Items
import DeclGen.Proofs.Grammar.Layout

/-!
# Regions end where they should

A search steps over every item: brackets, quotes and stop characters in comments, literals and
groups do not show. So a region of items is read up to the bracket that closes it, and a text of
items up to the stop character behind it.

## Main definitions

* `Stopping`: the stop characters that a search may be given
* `Steps`: a search steps over a text

## Main statements

* `Item.steps`: it steps over items
* `regions_end`: what is read of regions and of texts before a stop character
-/

namespace DeclGen.Grammar

open DeclGen.Grammar.Parser DeclGen.Text

variable {x y t : List Char} {c : Char} {stop : Char → Bool} {depth quotes : Nat}

/-- No stop character is a blank, an opening bracket or one that a comment or literal starts
with. -/
def Stopping (stop : Char → Bool) : Prop :=
  ∀ c, stop c = true →
    c ≠ ' ' ∧ isOpening c = false ∧ c ≠ '"' ∧ c ≠ '\'' ∧ c ≠ '/' ∧ c ≠ '@' ∧ c ≠ '$'

/-- A search inside `depth` brackets steps over the text, if no quote follows it. -/
def Steps (stop : Char → Bool) (depth : Nat) (x : List Char) : Prop :=
  ∀ seen t, t.head? ≠ some '"' → scan stop depth seen (x ++ t) = scan stop depth (seen + x.length) t

/-! ## Comments and literals -/

theorem commentTail_block (h : ¬ ['*', '/'] <:+: x) (t : List Char) :
    commentTail ('*' :: (x ++ ['*', '/']) ++ t) = some ('*' :: (x ++ ['*', '/'])).length := by
  have htext : '*' :: (x ++ ['*', '/']) ++ t = '*' :: (x ++ '*' :: '/' :: t) := by simp
  rw [htext, commentTail, commentLength_append h]
  simp

theorem commentTail_line (h : '\n' ∉ x) (t : List Char) :
    commentTail ('/' :: (x ++ ['\n']) ++ t) = some ('/' :: (x ++ ['\n'])).length := by
  have htext : '/' :: (x ++ ['\n']) ++ t = '/' :: (x ++ '\n' :: t) := by simp
  rw [htext, commentTail, lineLength_append h, List.drop_left]
  simp

theorem charTail_text (x : CharacterText) (t : List Char) :
    charTail (x.text ++ ['\''] ++ t) = some (x.text ++ ['\'']).length := by
  cases x with
  | char c h =>
    simp [charTail, CharacterText.text, h]
  | escape c digits h =>
    have hall : ∀ d ∈ digits, (d != '\'' && d != '\n') = true := fun d hd => by simpa using h d hd
    have htake : (digits ++ '\'' :: t).takeWhile (fun c => c != '\'' && c != '\n') = digits := by
      rw [List.takeWhile_append_of_pos hall]
      simp
    simp [charTail, CharacterText.text, htake, Nat.add_comm 2]

/-- A text starts with a run of a character. -/
theorem exists_leading_run (a : Char) (x : List Char) :
    ∃ n y, x = List.replicate n a ++ y ∧ y.head? ≠ some a := by
  induction x with
  | nil => exact ⟨0, [], rfl, by simp⟩
  | cons c x ih =>
    by_cases hc : c = a
    · obtain ⟨n, y, rfl, hy⟩ := ih
      exact ⟨n + 1, y, by rw [hc, List.replicate_succ, List.cons_append], hy⟩
    · exact ⟨0, c :: x, rfl, by simpa using hc⟩

theorem replicate_append_cons_self (a : Char) (n : Nat) (x : List Char) :
    List.replicate n a ++ a :: x = List.replicate (n + 1) a ++ x := by
  rw [List.replicate_succ', List.append_assoc, List.singleton_append]

theorem head?_any_quote (ht : t.head? ≠ some '"') : t.head?.any (· == '"') = false := by
  cases t with
  | nil => rfl
  | cons d t => simpa using ht

theorem takeWhile_quotes_eq_nil (hx : x.head? ≠ some '"') : x.takeWhile (· == '"') = [] := by
  cases x with
  | nil => rfl
  | cons c x => exact List.takeWhile_cons_of_neg (by simpa using hx)

theorem takeWhile_quotes (n : Nat) (hx : x.head? ≠ some '"') :
    (List.replicate n '"' ++ x).takeWhile (· == '"') = List.replicate n '"' := by
  rw [List.takeWhile_append_of_pos (by simp), takeWhile_quotes_eq_nil hx, List.append_nil]

/-- Three quotes or more open a raw string; the first one stands before the text. -/
theorem stringTail_quotes (isVerbatim isInterpolated : Bool) (hquotes : 2 ≤ quotes)
    (hx : x.head? ≠ some '"') :
    stringTail isVerbatim isInterpolated (List.replicate quotes '"' ++ x) =
      (rawTail (quotes + 1) 0 x).map (· + quotes) := by
  have hdrop : (List.replicate quotes '"' ++ x).drop quotes = x := by simp
  rw [stringTail]
  simp only [takeWhile_quotes quotes hx, List.length_replicate, hquotes, if_true, hdrop]

/-- A text without a run of enough quotes is stepped over in a raw string; `run` quotes stand
before it. -/
theorem rawTail_skip (run : Nat)
    (hrun : ¬ List.replicate quotes '"' <:+: List.replicate run '"' ++ x)
    (hlast : x.getLast? ≠ some '"') (hnil : x = [] → run = 0) (t : List Char) :
    rawTail quotes run (x ++ t) = (rawTail quotes 0 t).map (x.length + ·) := by
  induction x generalizing run with
  | nil => simp [hnil rfl]
  | cons c x ih =>
    have hlast' : x.getLast? ≠ some '"' := fun h => hlast (by simp [List.getLast?_cons, h])
    rw [List.cons_append, rawTail]
    by_cases hc : c = '"'
    · -- the run of quotes grows
      subst hc
      have hcons : x = [] → run + 1 = 0 := by
        rintro rfl
        exact absurd rfl hlast
      have hrest := ih _ (replicate_append_cons_self '"' run x ▸ hrun) hlast' hcons
      rw [if_pos (beq_self_eq_true _), hrest]
      simp [Function.comp_def, Nat.add_right_comm]
    · -- the run ends here and is too short
      have hshort : ¬ quotes ≤ run := by
        intro hle
        refine hrun ⟨List.replicate (run - quotes) '"', c :: x, ?_⟩
        rw [List.replicate_append_replicate, Nat.sub_add_cancel hle]
      have hrest : ¬ List.replicate quotes '"' <:+: List.replicate 0 '"' ++ x := fun h =>
        hrun (h.trans ((List.suffix_cons c x).isInfix.trans (List.suffix_append _ _).isInfix))
      rw [if_neg (by simpa using hc), if_neg hshort, ih 0 hrest hlast' (fun _ => rfl)]
      simp [Function.comp_def, Nat.add_right_comm]

/-- A raw string is not closed before its content ends; `run` quotes stand before it. -/
theorem rawTail_content (run : Nat)
    (hrun : ¬ List.replicate quotes '"' <:+: List.replicate run '"' ++ x)
    (hlast : x.getLast? ≠ some '"') (hnil : x = [] → run = 0) (hquotes : 0 < quotes)
    (ht : t.head? ≠ some '"') :
    rawTail quotes run (x ++ (List.replicate quotes '"' ++ t)) = some (x.length + quotes) := by
  rw [rawTail_skip run hrun hlast hnil, rawTail_append hquotes (by simp) (head?_any_quote ht)]
  simp

/-! ## What a search steps over -/

namespace Stopping

theorem not_blank (h : Stopping stop) : stop ' ' = false :=
  Bool.eq_false_iff.mpr fun hc => (h ' ' hc).1 rfl

theorem not_opening (h : Stopping stop) (hc : isOpening c = true) : stop c = false :=
  Bool.eq_false_iff.mpr fun hstop => by simp [(h c hstop).2.1] at hc

theorem not_literal (h : Stopping stop) (hc : c = '"' ∨ c = '\'' ∨ c = '/' ∨ c = '@' ∨ c = '$') :
    stop c = false := by
  refine Bool.eq_false_iff.mpr fun hstop => ?_
  obtain ⟨-, -, h₁, h₂, h₃, h₄, h₅⟩ := h c hstop
  simp [h₁, h₂, h₃, h₄, h₅] at hc

theorem beq_closing (hc : isClosing c = true) : Stopping (· == c) := by
  intro d hd
  obtain rfl : d = c := eq_of_beq hd
  simp only [isClosing, Bool.or_eq_true, beq_iff_eq] at hc
  rcases hc with (rfl | rfl) | rfl <;> decide

end Stopping

namespace Steps

theorem nil : Steps stop depth [] := fun _ _ _ => rfl

/-- A character without a meaning for the search. -/
theorem plain (hstop : depth = 0 → stop c = false) (hc : isPlain c = true)
    (hx : Steps stop depth x) : Steps stop depth (c :: x) := by
  intro seen t ht
  simp only [isPlain, Bool.and_eq_true, Bool.not_eq_true', bne_iff_ne] at hc
  obtain ⟨⟨⟨⟨⟨⟨hopen, hclose⟩, hslash⟩, hquote⟩, hstring⟩, hat⟩, hdollar⟩ := hc
  have htail := literalTail_eq_none ⟨hslash, hquote, hstring, hat, hdollar⟩ (x ++ t)
  rw [List.cons_append, scan_plain _ hstop ⟨hopen, hclose⟩ ⟨hstring, hquote⟩ htail, hx _ _ ht,
    List.length_cons, Nat.add_assoc, Nat.add_comm 1]

theorem run (hx : ∀ c ∈ x, isPlain c = true) (hstop : depth = 0 → ∀ c ∈ x, stop c = false) :
    Steps stop depth x := by
  induction x with
  | nil => exact nil
  | cons c x ih =>
    refine plain (fun h => hstop h c List.mem_cons_self) (hx c List.mem_cons_self) (ih ?_ ?_)
    · exact fun d hd => hx d (List.mem_cons_of_mem _ hd)
    · exact fun h d hd => hstop h d (List.mem_cons_of_mem _ hd)

/-- A text is put together where no quote stands. -/
theorem append (hx : Steps stop depth x) (hy : Steps stop depth y)
    (hquote : ∀ t : List Char, t.head? ≠ some '"' → (y ++ t).head? ≠ some '"') :
    Steps stop depth (x ++ y) := by
  intro seen t ht
  rw [List.append_assoc, hx _ _ (hquote t ht), hy _ _ ht, List.length_append, Nat.add_assoc]

theorem blank_cons (hstop : Stopping stop) (hx : Steps stop depth x) :
    Steps stop depth (' ' :: x) :=
  plain (fun _ => hstop.not_blank) (by decide) hx

theorem append_blank (hstop : Stopping stop) (hx : Steps stop depth x) (hy : Steps stop depth y) :
    Steps stop depth (x ++ ' ' :: y) :=
  append hx (hy.blank_cons hstop) fun _ _ => by simp

theorem blanks_append (hstop : Stopping stop) (n : Nat) (hx : Steps stop depth x) :
    Steps stop depth (List.replicate n ' ' ++ x) := by
  induction n with
  | zero => exact hx
  | succ n ih => exact ih.blank_cons hstop

theorem append_blanks (hstop : Stopping stop) (hx : Steps stop depth x) (n : Nat) :
    Steps stop depth (x ++ List.replicate n ' ') := by
  cases n with
  | zero => simpa using hx
  | succ n =>
    have hblanks := blanks_append hstop n ((nil : Steps stop depth []))
    rw [List.append_nil] at hblanks
    exact append_blank hstop hx hblanks

/-- A comment or literal that starts with `c`. -/
theorem literal (hstop : stop c = false) (hopen : isOpening c = false)
    (hclose : isClosing c = false)
    (h : ∀ t : List Char, t.head? ≠ some '"' → literalTail c (x ++ t) = some x.length) :
    Steps stop depth (c :: x) := by
  intro seen t ht
  rw [List.cons_append, scan_literal _ (fun _ => hstop) ⟨hopen, hclose⟩ (h t ht), List.drop_left,
    List.length_cons]

/-- A text in brackets. -/
theorem group (hstop : Stopping stop) (b : Brackets) (hx : Steps stop (depth + 1) x) :
    Steps stop depth (b.opening :: (x ++ [b.closing])) := by
  intro seen t ht
  have hopen : isOpening b.opening = true := by cases b <;> rfl
  have hclosing : isClosing b.closing = true := by cases b <;> rfl
  have hquote : (b.closing :: t).head? ≠ some '"' := by cases b <;> simp [Brackets.closing]
  rw [List.cons_append, scan_opening _ (fun _ => hstop.not_opening hopen) hopen, List.append_assoc,
    List.singleton_append, hx _ _ hquote, scan_closing _ hclosing]
  congr 1
  simp only [List.length_cons, List.length_append, List.length_nil]
  omega

end Steps

/-! ## Strings -/

/-- The search for the end of a string steps over the text. -/
def Passes (isInterpolated : Bool) (x : List Char) : Prop :=
  ∀ seen t,
    stringBody false isInterpolated seen (x ++ t) =
      stringBody false isInterpolated (seen + x.length) t

namespace Passes

variable {isInterpolated : Bool}

theorem nil : Passes isInterpolated [] := fun _ _ => rfl

theorem append (hx : Passes isInterpolated x) (hy : Passes isInterpolated y) :
    Passes isInterpolated (x ++ y) := by
  intro seen t
  rw [List.append_assoc, hx, hy, List.length_append, Nat.add_assoc]

theorem escape (c : Char) : Passes isInterpolated ['\\', c] := by
  intro seen t
  rw [List.cons_append, List.cons_append, stringBody]
  simp

theorem char (h : c ≠ '"' ∧ c ≠ '\\' ∧ c ≠ '\n') (hbrace : isInterpolated = true → c ≠ '{') :
    Passes isInterpolated [c] := by
  intro seen t
  rw [List.cons_append, stringBody]
  cases isInterpolated <;> simp_all

theorem openingBraces : Passes true ['{', '{'] := by
  intro seen t
  rw [List.cons_append, List.cons_append, stringBody_brace _ _ rfl]
  rfl

theorem closingBraces : Passes true ['}', '}'] :=
  append (char (c := '}') (by decide) (by decide)) (char (by decide) (by decide))

/-- A hole: two braces would be no hole. -/
theorem hole (hx : Steps (· == '}') 0 x) (hbrace : x.head? ≠ some '{') :
    Passes true ('{' :: (x ++ ['}'])) := by
  intro seen t
  have hscan : scan (· == '}') 0 0 (x ++ '}' :: t) = some x.length := by
    rw [hx _ _ (by simp), scan]
    simp
  have hhead : (x ++ '}' :: t).head? ≠ some '{' := by
    cases x with
    | nil => simp
    | cons c x => simpa using hbrace
  have hdrop : (x ++ '}' :: t).drop (x.length + 1) = t := by simp [List.drop_append]
  rw [List.cons_append, List.append_assoc, List.singleton_append, stringBody_hole _ _ hhead hscan,
    hdrop]
  simp

end Passes

theorem StringPiece.passes (p : StringPiece) : Passes false p.text := by
  cases p with
  | char c h => exact .char h (by simp)
  | escape c => exact .escape c

theorem passes_flatMap (pieces : List StringPiece) :
    Passes false (pieces.flatMap StringPiece.text) := by
  induction pieces with
  | nil => exact .nil
  | cons p pieces ih => exact p.passes.append ih

theorem head?_flatMap (pieces : List StringPiece) :
    (pieces.flatMap StringPiece.text).head? ≠ some '"' := by
  cases pieces with
  | nil => simp
  | cons p pieces =>
    cases p with
    | char c h => simp [StringPiece.text, h]
    | escape c => simp [StringPiece.text]

theorem head?_piecesText (pieces : List Piece) : (piecesText pieces).head? ≠ some '"' := by
  cases pieces with
  | nil => simp [piecesText]
  | cons p pieces => cases p <;> simp_all [piecesText, Piece.text]

/-- A string that is closed behind a content without a quote at its start is no raw string. -/
theorem length_takeWhile_quotes_le (hquote : x.head? ≠ some '"') (ht : t.head? ≠ some '"') :
    ((x ++ '"' :: t).takeWhile (· == '"')).length ≤ 1 := by
  cases x with
  | nil => simp [takeWhile_quotes_eq_nil ht]
  | cons c x =>
    have hc : (c == '"') = false := by simpa using hquote
    simp [hc]

/-- A string up to its closing quote. -/
theorem stringTail_passes {isInterpolated : Bool} (hx : Passes isInterpolated x)
    (hquote : x.head? ≠ some '"') (ht : t.head? ≠ some '"') :
    stringTail false isInterpolated (x ++ ['"'] ++ t) = some (x ++ ['"']).length := by
  have hquotes := length_takeWhile_quotes_le hquote ht
  rw [List.append_assoc, List.singleton_append, stringTail]
  simp only [Nat.not_le.mpr (Nat.lt_succ_of_le hquotes), if_false]
  rw [hx, stringBody]
  simp

namespace Steps

theorem string (hstop : Stopping stop) (pieces : List StringPiece) :
    Steps stop depth (Item.string pieces).text := by
  rw [Item.text]
  refine literal (hstop.not_literal (by simp)) rfl rfl fun t ht => ?_
  rw [literalTail]
  exact stringTail_passes (passes_flatMap pieces) (head?_flatMap pieces) ht

theorem interpolated (hstop : Stopping stop) {pieces : List Piece}
    (h : Passes true (piecesText pieces)) : Steps stop depth (Item.interpolated pieces).text := by
  rw [Item.text]
  refine literal (hstop.not_literal (by simp)) rfl rfl fun t ht => ?_
  have htail := stringTail_passes h (head?_piecesText pieces) ht
  rw [List.cons_append, literalTail]
  simpa using htail

theorem raw (hstop : Stopping stop) (hx : RawText quotes x) (hne : x ≠ []) :
    Steps stop depth (rawString quotes x) := by
  obtain ⟨n, rfl, hn⟩ : ∃ n, quotes = n + 1 ∧ 2 ≤ n :=
    ⟨quotes - 1, by have := hx.three_le; omega, by have := hx.three_le; omega⟩
  rw [rawString, List.replicate_succ, List.cons_append]
  refine literal (hstop.not_literal (by simp)) rfl rfl fun t ht => ?_
  have htext : List.replicate n '"' ++ (x ++ '"' :: List.replicate n '"') ++ t =
      List.replicate n '"' ++ (x ++ (List.replicate (n + 1) '"' ++ t)) := by
    simp [List.replicate_succ]
  have hhead : (x ++ (List.replicate (n + 1) '"' ++ t)).head? ≠ some '"' := by
    obtain ⟨c, x, rfl⟩ := List.exists_cons_of_ne_nil hne
    exact hx.head
  have hraw := rawTail_content 0 hx.no_run hx.last (fun _ => rfl) (Nat.succ_pos _) ht
  rw [literalTail, htext]
  simp only [stringTail_quotes _ _ hn hhead, hraw]
  simp
  omega

theorem character (hstop : Stopping stop) (x : CharacterText) :
    Steps stop depth (Item.character x).text := by
  rw [Item.text]
  refine literal (hstop.not_literal (by simp)) rfl rfl fun t _ => ?_
  rw [literalTail]
  exact charTail_text x t

theorem blockComment (hstop : Stopping stop) (hx : ¬ ['*', '/'] <:+: x) :
    Steps stop depth (Item.blockComment x hx).text := by
  rw [Item.text]
  refine literal (hstop.not_literal (by simp)) rfl rfl fun t _ => ?_
  rw [literalTail]
  exact commentTail_block hx t

theorem lineComment (hstop : Stopping stop) (hx : '\n' ∉ x) :
    Steps stop depth (Item.lineComment x hx).text := by
  rw [Item.text]
  refine literal (hstop.not_literal (by simp)) rfl rfl fun t _ => ?_
  rw [literalTail]
  exact commentTail_line hx t

end Steps

/-- A closing bracket shows in no item. -/
theorem Item.avoids_closing (i : Item) (hc : isClosing c = true) : i.Avoids (· == c) := by
  cases i with
  | run x hx =>
    intro d hd
    refine beq_false_of_ne fun heq => ?_
    have hplain := hx d hd
    simp [isPlain, heq, hc] at hplain
  | _ => trivial

/-! ## Items -/

mutual

/-- A search steps over an item, outside brackets if no stop character shows in it. -/
theorem Item.steps (i : Item) {stop : Char → Bool} {depth : Nat} (hstop : Stopping stop)
    (h : depth = 0 → i.Avoids stop) : Steps stop depth i.text := by
  cases i with
  | run x hx => exact .run hx h
  | string pieces => exact .string hstop pieces
  | interpolated pieces => exact .interpolated hstop (passes_piecesText pieces)
  | raw quotes x hx hne => exact .raw hstop hx hne
  | character x => exact .character hstop x
  | blockComment x hx => exact .blockComment hstop hx
  | lineComment x hx => exact .lineComment hstop hx
  | group b before behind items =>
    rw [Item.text]
    refine .group hstop b (.blanks_append hstop before (.append_blanks hstop ?_ behind))
    exact steps_itemsText items hstop (fun h => absurd h (Nat.succ_ne_zero depth))

/-- Only outside all brackets does a stop character in an item end the search. -/
theorem steps_itemsText (items : List Item) {stop : Char → Bool} {depth : Nat}
    (hstop : Stopping stop) (h : depth = 0 → ∀ i ∈ items, i.Avoids stop) :
    Steps stop depth (itemsText items) := by
  match items with
  | [] => exact .nil
  | [i] =>
    rw [itemsText]
    exact i.steps hstop fun hd => h hd i List.mem_cons_self
  | i :: j :: items =>
    rw [itemsText]
    refine .append_blank hstop (i.steps hstop fun hd => h hd i List.mem_cons_self) ?_
    exact steps_itemsText (j :: items) hstop fun hd k hk => h hd k (List.mem_cons_of_mem i hk)

theorem Piece.passes (p : Piece) : Passes true p.text := by
  cases p with
  | char c h => exact .char ⟨h.1, h.2.1, h.2.2.1⟩ fun _ => h.2.2.2.1
  | escape c => exact .escape c
  | openingBraces => exact .openingBraces
  | closingBraces => exact .closingBraces
  | hole items =>
    have hstop : Stopping (· == '}') := .beq_closing (by decide)
    rw [Piece.text]
    refine .hole ((Steps.append_blank hstop ?_ .nil).blank_cons hstop) (by simp)
    exact steps_itemsText items hstop fun _ i _ => i.avoids_closing (by decide)

theorem passes_piecesText (pieces : List Piece) : Passes true (piecesText pieces) := by
  match pieces with
  | [] => exact .nil
  | p :: pieces => exact p.passes.append (passes_piecesText pieces)

end

/-! ## Regions -/

/-- A search that steps over a text and stops behind it has counted its characters. -/
theorem scan_of_steps (hx : Steps stop 0 x) (hc : stop c = true) (hquote : c ≠ '"') :
    scan stop 0 0 (x ++ c :: t) = some x.length := by
  rw [hx _ _ (by simpa using hquote), scan]
  simp [hc]

theorem take_append_eq (offset : Nat) (x t : List Char) :
    Parser.take x.length ⟨offset, x ++ t⟩ = .ok (x, ⟨offset + size x, t⟩) := by
  rw [Parser.take, Cursor.skip_append, List.take_left]

theorem takeUntil_of_steps (hx : Steps stop 0 x) (hc : stop c = true) (hquote : c ≠ '"')
    (offset : Nat) (t : List Char) :
    takeUntil stop ⟨offset, x ++ c :: t⟩ = .ok (x, ⟨offset + size x, c :: t⟩) := by
  have hscan := scan_of_steps (t := t) hx hc hquote
  calc takeUntil stop ⟨offset, x ++ c :: t⟩
      = Parser.take x.length ⟨offset, x ++ c :: t⟩ := takeUntil_of_scan hscan
    _ = .ok (x, ⟨offset + size x, c :: t⟩) := take_append_eq offset x (c :: t)

/-- The search steps over the text and is then at the closing bracket. -/
theorem delimited_of_steps {o k : Char} (hx : Steps (· == k) 0 x) (hquote : k ≠ '"') (offset : Nat)
    (t : List Char) :
    delimited o k ⟨offset, o :: (x ++ k :: t)⟩ =
      .ok (o :: (x ++ [k]), ⟨offset + size (o :: (x ++ [k])), t⟩) := by
  have hscan := scan_of_steps (t := t) hx (beq_self_eq_true k) hquote
  have hlength : x.length + 2 = (o :: (x ++ [k])).length := by simp
  have htext : o :: (x ++ k :: t) = o :: (x ++ [k]) ++ t := by simp
  calc delimited o k ⟨offset, o :: (x ++ k :: t)⟩
      = Parser.take (x.length + 2) ⟨offset, o :: (x ++ k :: t)⟩ := delimited_of_scan rfl hscan
    _ = .ok (o :: (x ++ [k]), ⟨offset + size (o :: (x ++ [k])), t⟩) := by
      rw [hlength, htext, take_append_eq]

/-- A region of items is read up to the bracket that closes it, and a text of items up to the first
stop character behind it. -/
theorem regions_end (items : List Item) (offset : Nat) (t : List Char) :
    (∀ b : Brackets,
      delimited b.opening b.closing ⟨offset, regionText b items ++ t⟩ =
        .ok (regionText b items, ⟨offset + size (regionText b items), t⟩)) ∧
    (∀ (stop : Char → Bool) (c : Char), Stopping stop → (∀ i ∈ items, i.Avoids stop) →
      stop c = true →
      takeUntil stop ⟨offset, itemsText items ++ c :: t⟩ =
        .ok (itemsText items, ⟨offset + size (itemsText items), c :: t⟩)) := by
  constructor
  · intro b
    have hclosing : isClosing b.closing = true := by cases b <;> rfl
    have hquote : b.closing ≠ '"' := by cases b <;> decide
    have hstop : Stopping (· == b.closing) := .beq_closing hclosing
    have hitems : Steps (· == b.closing) 0 (itemsText items) :=
      steps_itemsText items hstop fun _ i _ => i.avoids_closing hclosing
    have hregion : regionText b items =
        b.opening :: (' ' :: (itemsText items ++ [' ']) ++ [b.closing]) := by simp [regionText]
    have hblanks := (Steps.append_blank hstop hitems .nil).blank_cons hstop
    have hread := delimited_of_steps (o := b.opening) hblanks hquote offset t
    rw [hregion]
    simpa only [List.cons_append, List.append_assoc, List.nil_append] using hread
  · intro stop c hstop hitems hc
    have hsteps : Steps stop 0 (itemsText items) := steps_itemsText items hstop fun _ => hitems
    refine takeUntil_of_steps hsteps hc (fun h => ?_) offset t
    simp [hstop.not_literal (.inl h)] at hc

theorem regions_end_hole :
    delimited '{' '}' (Cursor.ofString "\x7b f ($\"\x7d\x7d\x7b '\x7d' \x7d\" /*\x7d*/) \x7d g") =
        .ok ("\x7b f ($\"\x7d\x7d\x7b '\x7d' \x7d\" /*\x7d*/) \x7d".toList, ⟨26, " g".toList⟩) ∧
      takeUntil (· == ';') (Cursor.ofString "= \"\\\";\"; g") =
        .ok ("= \"\\\";\"".toList, ⟨7, "; g".toList⟩) := by
  constructor
  · have hname : ∀ c ∈ ['f'], isPlain c = true := List.all_eq_true.mp (by decide)
    have h := (regions_end [.run ['f'] hname, .group .round 0 0 [.interpolated
      [.closingBraces, .hole [.character (.char '}' (by decide))]],
        .blockComment ['}'] (by decide)]] 0 [' ', 'g']).1 .curly
    exact h
  · have hstop : Stopping (· == ';') := fun c hc => by
      obtain rfl : c = ';' := eq_of_beq hc
      decide
    have hequals : ∀ c ∈ ['='], isPlain c = true := List.all_eq_true.mp (by decide)
    have hitems : ∀ i ∈ [Item.run ['='] hequals, .string [.escape '"', .char ';' (by decide)]],
        i.Avoids (· == ';') := by
      simp [Item.Avoids]
    have h := (regions_end [.run ['='] hequals, .string [.escape '"', .char ';' (by decide)]]
      0 [' ', 'g']).2 (· == ';') ';' hstop hitems rfl
    exact h

/-- Without content the quotes of a raw string are all read as opening quotes. -/
theorem not_reads_rawString :
    ¬ ∀ (quotes : Nat) (x : List Char), RawText quotes x →
      Reads (delimited '{' '}') ('{' :: ' ' :: (rawString quotes x ++ [' ', '}'])) []
        (· = '{' :: ' ' :: (rawString quotes x ++ [' ', '}'])) := by
  intro h
  have hempty : RawText 3 [] := ⟨by decide, by decide, by decide, by decide⟩
  obtain ⟨a, o, hread, -⟩ := h 3 [] hempty 0
  have hscan : scan (· == '}') 0 0 (' ' :: (rawString 3 [] ++ [' ', '}'])) = none := by
    decide +kernel
  obtain ⟨s, n, hrest, hsome, -⟩ := exists_scan_of_delimited hread
  cases hrest
  cases hscan.symm.trans hsome

end DeclGen.Grammar
