import DeclGen.Proofs.Grammar.Headers
import DeclGen.Proofs.Grammar.Takes

/-!
# Tokens with trivia around them

A text that is laid out from tokens has any trivia between two tokens and at its two ends; only
between two tokens that would run together into one word there has to be some. What a parser of a
token does with such a text is told by the tokens alone.

## Main definitions

* `IsTrivia`: trivia as it is written
* `Layout`, `Here`: the texts that are laid out from tokens, with and without trivia in front
* `Solid`, `Avoids`: what the first token does not start with

## Main statements

* `Layout.takes_keyword`, `Layout.takes_identifier`, `Layout.takes_symbol`
-/

namespace DeclGen.Grammar

open DeclGen.Grammar.Parser DeclGen.Text

variable {α : Type} {b : Bool} {c d : Char} {k x : String} {ts : List String} {s t u w : List Char}

/-! ## Trivia -/

/-- Trivia as it is written: blanks, closed block comments, line comments and lines that start with
`#`, the latter two with the line feed that ends them. -/
inductive IsTrivia : List Char → Prop where
  | nil : IsTrivia []
  | space {c : Char} {w : List Char} (hc : isSpace c = true) (hw : IsTrivia w) : IsTrivia (c :: w)
  | blockComment {x w : List Char} (hx : ¬['*', '/'] <:+: x) (hw : IsTrivia w) :
      IsTrivia ('/' :: '*' :: x ++ ['*', '/'] ++ w)
  | lineComment {x w : List Char} (hx : '\n' ∉ x) (hw : IsTrivia w) :
      IsTrivia ('/' :: '/' :: x ++ ['\n'] ++ w)
  | hashLine {x w : List Char} (hx : '\n' ∉ x) (hw : IsTrivia w) :
      IsTrivia ('#' :: x ++ ['\n'] ++ w)

/-- Nothing in `s` ends the comment, so the mark behind it does. -/
theorem commentLength_append (h : ¬['*', '/'] <:+: s) (t : List Char) :
    commentLength (s ++ '*' :: '/' :: t) = some (s.length + 2) := by
  induction s with
  | nil => rfl
  | cons c s ih =>
    have hrest := ih fun hin => h (hin.trans (List.suffix_cons c s).isInfix)
    have hopen : ∀ u, c = '*' → s ++ '*' :: '/' :: t = '/' :: u → False := by
      rintro u rfl hu
      cases s with
      | nil => simp at hu
      | cons d s =>
        obtain ⟨rfl, -⟩ := List.cons.inj hu
        exact h (List.prefix_append ['*', '/'] s).isInfix
    rw [List.cons_append, commentLength, hrest, Option.map_some, List.length_cons]
    exact hopen

theorem Trivia.blockComment (h : ¬['*', '/'] <:+: s) : Trivia ('/' :: '*' :: s ++ ['*', '/']) := by
  intro t
  have htail : triviaTail '/' ('*' :: (s ++ '*' :: '/' :: t)) = some (s.length + 3) := by
    simp [triviaTail, isSpace, commentLength_append h]
  have hdrop : ('*' :: (s ++ '*' :: '/' :: t)).drop (s.length + 3) = t := by
    rw [List.drop_succ_cons, List.drop_length_add_append]
    rfl
  simp only [List.cons_append, List.append_assoc, List.nil_append]
  rw [triviaLength, htail]
  simp only [hdrop, List.length_cons, List.length_append, List.length_nil]
  omega

theorem Trivia.hashLine (h : '\n' ∉ s) : Trivia ('#' :: s ++ ['\n']) := by
  intro t
  have htail : triviaTail '#' (s ++ '\n' :: t) = some s.length := by
    simp [triviaTail, isSpace, lineLength_append h]
  have hfeed := Trivia.cons (c := '\n') (by decide) .nil t
  simp only [List.cons_append, List.append_assoc, List.nil_append] at hfeed ⊢
  rw [triviaLength, htail]
  simp only [List.drop_left, hfeed, List.length_cons, List.length_append, List.length_nil]
  omega

theorem IsTrivia.trivia (h : IsTrivia w) : Trivia w := by
  induction h with
  | nil => exact .nil
  | space hc _ ih => exact .cons hc ih
  | blockComment hx _ ih => exact (Trivia.blockComment hx).append ih
  | lineComment hx _ ih => exact (Trivia.lineComment hx).append ih
  | hashLine hx _ ih => exact (Trivia.hashLine hx).append ih

/-- A word ends before trivia. -/
theorem IsTrivia.wordEnds (h : IsTrivia w) (hne : w ≠ []) : WordEnds (w ++ t) := by
  cases h with
  | nil => exact absurd rfl hne
  | @space c w hc _ =>
    refine .cons (Bool.eq_false_iff.mpr fun hword => ?_)
    have := opensTrivia_of_isWordPart hword
    simp [opensTrivia, hc] at this
  | blockComment | lineComment | hashLine => exact .cons (by decide)

/-! ## Layouts -/

/-- Whether a word that comes right before the token would run on into it. -/
def startsWord (x : String) : Bool := x.toList.head?.all isWordPart

/-- Whether the token would run on into a word that comes right behind it. -/
def endsWord (x : String) : Bool := x.toList.getLast?.any isWordPart

/-- The text is the tokens in their order with trivia between any two of them and at both ends. The
trivia between two tokens is not empty where these would run together, nor in front if `afterWord`
tells that a word comes before. -/
inductive Layout : (afterWord : Bool) → List String → List Char → Prop where
  | nil {afterWord : Bool} {w : List Char} (hw : IsTrivia w) : Layout afterWord [] w
  | cons {afterWord : Bool} {x : String} {ts : List String} {w s : List Char} (hw : IsTrivia w)
      (hgap : afterWord = true → startsWord x = true → w ≠ []) (hs : Layout (endsWord x) ts s) :
      Layout afterWord (x :: ts) (w ++ (x.toList ++ s))

/-- The text is laid out from the tokens and starts with the first of them at once. -/
inductive Here : List String → List Char → Prop where
  | nil : Here [] []
  | cons {x : String} {ts : List String} {s : List Char} (hs : Layout (endsWord x) ts s) :
      Here (x :: ts) (x.toList ++ s)

theorem Here.layout (h : Here ts s) : Layout false ts s := by
  cases h with
  | nil => exact .nil .nil
  | cons hs => exact .cons .nil (by simp) hs

namespace Layout

/-- What may stand behind a word may stand behind anything. -/
theorem weaken (h : Layout b ts s) : Layout false ts s := by
  cases h with
  | nil hw => exact .nil hw
  | cons hw _ hs => exact .cons hw (by simp) hs

/-- What is left of a layout without the trivia in front. -/
theorem exists_here (h : Layout b ts s) : ∃ w u, s = w ++ u ∧ Trivia w ∧ Here ts u := by
  cases h with
  | nil hw => exact ⟨s, [], by simp, hw.trivia, .nil⟩
  | cons hw _ hs => exact ⟨_, _, rfl, hw.trivia, .cons hs⟩

/-- What is left of a layout behind its first token. -/
theorem uncons (h : Layout b (x :: ts) s) :
    ∃ w u, s = w ++ (x.toList ++ u) ∧ Trivia w ∧ Layout (endsWord x) ts u := by
  cases h with
  | cons hw _ hs => exact ⟨_, _, rfl, hw.trivia, hs⟩

/-- A word ends where the layout behind it starts. -/
theorem wordEnds (h : Layout true ts s) : WordEnds s := by
  cases h with
  | nil hw =>
    by_cases hne : s = []
    · subst hne
      rintro c ⟨⟩
    · have := hw.wordEnds hne (t := [])
      rwa [List.append_nil] at this
  | @cons _ x ts w u hw hgap hs =>
    by_cases hne : w = []
    · subst hne
      -- the token itself starts with a character that no word goes on with
      have hstart : startsWord x = false :=
        Bool.eq_false_iff.mpr fun hstart => hgap rfl hstart rfl
      cases hx : x.toList with
      | nil => simp [startsWord, hx] at hstart
      | cons c y => exact .cons (by simpa [startsWord, hx] using hstart)
    · exact hw.wordEnds hne

end Layout

theorem endsWord_of_isWord (hx : IsWord x.toList) : endsWord x = true := by
  cases hlast : x.toList.getLast? with
  | none =>
    have hnil := List.getLast?_eq_none_iff.mp hlast
    rw [hnil] at hx
    exact hx.elim
  | some c => simpa [endsWord, hlast] using hx.forall_isWordPart c (List.mem_of_getLast? hlast)

theorem endsWord_of_isIdentifier (hx : IsIdentifier x.toList) : endsWord x = true := by
  rcases hx with ⟨hx, -⟩ | ⟨y, hy, hword⟩
  · exact endsWord_of_isWord hx
  · have h := endsWord_of_isWord (x := String.ofList y) (by rwa [String.toList_ofList])
    cases y with
    | nil => exact hword.elim
    | cons c y => simpa [endsWord, hy] using h

/-! ## What the first token starts with -/

/-- The first token, if there is one, starts with a character that opens no trivia. -/
def Solid (ts : List String) : Prop :=
  ∀ x ∈ ts.head?, ∃ c y, x.toList = c :: y ∧ opensTrivia c = false

/-- The first token, if there is one, starts with a character other than `d` that opens no
trivia. -/
def Avoids (d : Char) (ts : List String) : Prop :=
  ∀ x ∈ ts.head?, ∃ c y, x.toList = c :: y ∧ opensTrivia c = false ∧ c ≠ d

theorem Solid.cons {y : List Char} (hx : x.toList = c :: y) (hc : opensTrivia c = false) :
    Solid (x :: ts) := by
  rintro _ ⟨⟩
  exact ⟨c, y, hx, hc⟩

theorem Avoids.nil : Avoids d [] := by
  rintro _ ⟨⟩

theorem Avoids.cons {y : List Char} (hx : x.toList = c :: y) (hc : opensTrivia c = false)
    (hd : c ≠ d) : Avoids d (x :: ts) := by
  rintro _ ⟨⟩
  exact ⟨c, y, hx, hc, hd⟩

theorem Avoids.solid (h : Avoids d ts) : Solid ts := by
  intro x hx
  obtain ⟨c, y, hxy, hc, -⟩ := h x hx
  exact ⟨c, y, hxy, hc⟩

theorem avoids_of_isWord (hx : IsWord x.toList) (hd : isWordStart d = false) :
    Avoids d (x :: ts) := by
  cases hxy : x.toList with
  | nil =>
    rw [hxy] at hx
    exact hx.elim
  | cons c y =>
    rw [hxy] at hx
    refine .cons hxy (opensTrivia_of_isWordPart (isWordPart_of_isWordStart hx.1)) ?_
    rintro rfl
    rw [hx.1] at hd
    cases hd

theorem avoids_of_isIdentifier (hx : IsIdentifier x.toList) (hd : isWordStart d = false)
    (hat : d ≠ '@') : Avoids d (x :: ts) := by
  rcases hx with ⟨hx, -⟩ | ⟨y, hy, -⟩
  · exact avoids_of_isWord hx hd
  · exact .cons hy (by decide) hat.symm

theorem solid_of_isWord (hx : IsWord x.toList) : Solid (x :: ts) :=
  (avoids_of_isWord (d := ' ') hx (by decide)).solid

namespace Here

theorem stops (h : Here ts s) (hts : Solid ts) : Stops s := by
  cases h with
  | nil => exact .nil
  | @cons x ts s hs =>
    obtain ⟨c, y, hx, hc⟩ := hts x rfl
    rw [hx]
    exact .cons hc

theorem head?_ne (h : Here ts s) (hts : Avoids d ts) : s.head? ≠ some d := by
  cases h with
  | nil => simp
  | @cons x ts s hs =>
    obtain ⟨c, y, hx, -, hd⟩ := hts x rfl
    rw [hx]
    simpa using hd

end Here

/-! ## What token parsers take -/

namespace Layout

theorem takes_trivia (h : Layout b ts s) (hts : Solid ts) :
    Takes trivia s fun _ t => Here ts t ∧ t.length ≤ s.length := by
  obtain ⟨w, u, rfl, hw, hu⟩ := h.exists_here
  refine (reads_trivia hw (hu.stops hts)).takes fun _ _ => ⟨hu, ?_⟩
  simp

/-- A token behind trivia, if its parser reads its text. -/
theorem takes_of_reads {p : Parser α} {P : α → Prop} (h : Layout b (x :: ts) s)
    (hx : Solid (x :: ts))
    (hp : ∀ w u, Trivia w → Layout (endsWord x) ts u → Reads p (w ++ (x.toList ++ u)) u P) :
    Takes p s fun a t => P a ∧ Layout (endsWord x) ts t ∧ t.length < s.length := by
  obtain ⟨w, u, rfl, hw, hu⟩ := h.uncons
  obtain ⟨c, y, hxy, -⟩ := hx x rfl
  refine (hp w u hw hu).takes fun a ha => ⟨ha, hu, ?_⟩
  simp only [hxy, List.length_append, List.length_cons]
  omega

theorem takes_keyword (h : Layout b (k :: ts) s) (hk : IsWord k.toList) :
    Takes (keyword k) s fun _ t => Layout true ts t ∧ t.length < s.length := by
  rw [← endsWord_of_isWord hk]
  refine (h.takes_of_reads (P := fun _ => True) (solid_of_isWord hk) fun w u hw hu => ?_).mono
    fun _ _ ht => ht.2
  rw [endsWord_of_isWord hk] at hu
  exact reads_keyword hw hk hu.wordEnds

theorem takes_identifier (h : Layout b (x :: ts) s) (hx : IsIdentifier x.toList) :
    Takes identifier s fun i t => i.text = x ∧ Layout true ts t ∧ t.length < s.length := by
  have hends := endsWord_of_isIdentifier hx
  have hsolid : Solid (x :: ts) :=
    (avoids_of_isIdentifier (d := ' ') hx (by decide) (by decide)).solid
  rw [← hends]
  refine h.takes_of_reads hsolid fun w u hw hu => ?_
  rw [hends] at hu
  have hread := reads_identifier hw hx hu.wordEnds
  rwa [String.ofList_toList] at hread

theorem takes_symbol (h : Layout b (x :: ts) s) (hx : Solid (x :: ts)) :
    Takes (symbol x) s fun _ t => Layout (endsWord x) ts t ∧ t.length < s.length := by
  refine (h.takes_of_reads (P := fun _ => True) hx fun w u hw hu => ?_).mono fun _ _ ht => ht.2
  exact reads_symbol hw ((Here.cons hu).stops hx)

theorem takes_accept (h : Layout b (x :: ts) s) (hx : Solid (x :: ts)) :
    Takes (accept x) s fun r t => r = true ∧ Layout (endsWord x) ts t ∧ t.length < s.length :=
  h.takes_of_reads hx fun _ _ hw hu => reads_accept hw ((Here.cons hu).stops hx)

theorem reads_accept_false {y : List Char} (h : Layout b ts s) (hx : x.toList = d :: y)
    (hts : Avoids d ts) : Reads (accept x) s s (· = false) := by
  obtain ⟨w, u, rfl, hw, hu⟩ := h.exists_here
  refine Grammar.reads_accept_false hw (hu.stops hts.solid) ?_
  rw [hx]
  exact isPrefixOf_of_head?_ne (hu.head?_ne hts)

theorem takes_acceptKeyword (h : Layout b (k :: ts) s) (hk : IsWord k.toList) :
    Takes (acceptKeyword k) s fun r t => r = true ∧ Layout true ts t ∧ t.length < s.length := by
  refine (h.takes_keyword hk).attempt.bind fun r t hr => ?_
  obtain ⟨_, rfl, ht⟩ := hr
  exact .pure ⟨rfl, ht⟩

/-- Another word comes next. -/
theorem fails_keyword (h : Layout b (x :: ts) s) (hx : IsWord x.toList) (hne : x ≠ k) :
    Fails (keyword k) s := by
  obtain ⟨w, u, rfl, hw, hu⟩ := h.uncons
  rw [endsWord_of_isWord hx] at hu
  exact Grammar.fails_keyword hw hx hu.wordEnds (by rwa [String.ofList_toList])

/-- An identifier is not accepted as a reserved word. -/
theorem reads_acceptKeyword_of_isIdentifier (h : Layout b (x :: ts) s)
    (hx : IsIdentifier x.toList) (hk : isKeyword k = true) :
    Reads (acceptKeyword k) s s (· = false) := by
  obtain ⟨w, u, rfl, hw, hu⟩ := h.uncons
  rw [endsWord_of_isIdentifier hx] at hu
  exact Grammar.reads_acceptKeyword_false (fails_keyword_of_isIdentifier hw hx hu.wordEnds hk)

theorem reads_peekWord (h : Layout b (x :: ts) s) (hx : IsWord x.toList) :
    Reads peekWord s s (· = some x) := by
  obtain ⟨w, u, rfl, hw, hu⟩ := h.uncons
  rw [endsWord_of_isWord hx] at hu
  have hread := Grammar.reads_peekWord hw hx hu.wordEnds
  rwa [String.ofList_toList] at hread

theorem takes_attributeLists (h : Layout b ts s) (hts : Avoids '[' ts) :
    Takes attributeLists s fun as t => as = [] ∧ Here ts t ∧ t.length ≤ s.length := by
  obtain ⟨w, u, rfl, hw, hu⟩ := h.exists_here
  refine (reads_attributeLists_nil hw (hu.stops hts.solid) (hu.head?_ne hts)).takes ?_
  intro as has
  exact ⟨has, hu, by simp⟩

end Layout

namespace Here

theorem takes_word (h : Here (x :: ts) s) (hx : IsWord x.toList) :
    Takes word s fun y t => y = x ∧ Layout true ts t ∧ t.length < s.length := by
  cases h with
  | cons hs =>
    rw [endsWord_of_isWord hx] at hs
    refine (reads_word hx hs.wordEnds).takes fun y hy => ⟨?_, hs, ?_⟩
    · rwa [String.ofList_toList] at hy
    · have := hx.length_pos
      simp only [List.length_append]
      omega

theorem takes_acceptHere (h : Here (x :: ts) s) (hx : Solid (x :: ts)) :
    Takes (acceptHere x) s fun r t => r = true ∧ Layout (endsWord x) ts t ∧
      t.length < s.length := by
  cases h with
  | cons hs =>
    obtain ⟨c, y, hxy, -⟩ := hx x rfl
    refine (reads_acceptHere x _).takes fun r hr => ⟨hr, hs, ?_⟩
    simp only [hxy, List.length_append, List.length_cons]
    omega

theorem reads_acceptHere_false {y : List Char} (h : Here ts s) (hx : x.toList = d :: y)
    (hts : Avoids d ts) : Reads (acceptHere x) s s (· = false) := by
  refine Grammar.reads_acceptHere_false ?_
  rw [hx]
  exact isPrefixOf_of_head?_ne (h.head?_ne hts)

theorem reads_nextIs_false (h : Here ts s) (hts : Avoids d ts) :
    Reads (nextIs d) s s (· = false) := by
  have hread := reads_nextIs d s
  rwa [beq_eq_false_iff_ne.mpr (h.head?_ne hts)] at hread

end Here

end DeclGen.Grammar
