import DeclGen.Grammar.Header
import DeclGen.Proofs.Grammar.Tracks

/-!
# Spans of tokens and headers

Tokens and regions only read on. A word, a fixed text and a region give what stands in the text, so
the identifiers, attribute lists and modifiers made of them have exact spans, and so have dotted
names and using directives.

## Main statements

* `spans_identifier`, `spans_dottedName`: names
* `spans_attributeLists`, `spans_modifiers`, `spans_usingDirectives`: what precedes declarations
-/

namespace DeclGen.Grammar

open DeclGen.Grammar.Parser DeclGen.Text

variable {text : List Char} {o : Nat}

/-! ## Texts that are read -/

theorem Tracks.startsWith_bind {β : Type} {f : Bool → Parser β} {S : β → Nat → Prop} {s : String}
    (h : ∀ rest, Rest text o rest → Tracks text o (f (s.toList.isPrefixOf rest)) S) :
    Tracks text o (startsWith s >>= f) S :=
  fun rest hrest => h rest hrest rest hrest

theorem Tracks.spanFrom_bind {β : Type} {f : Span → Parser β} {S : β → Nat → Prop} {start : Nat}
    (h : IsBoundary text o → Tracks text o (f ⟨start, o⟩) S) :
    Tracks text o (spanFrom start >>= f) S :=
  fun rest hrest => h hrest.isBoundary rest hrest

theorem tracks_word : Tracks text o word fun w o' => Spells text o o' w.toList := by
  refine .ahead_bind fun s _ => ?_
  split
  next => exact .fail
  next n _ => exact (Tracks.take (n + 1)).bind fun x o' _ hx => .pure (by simpa using hx)

theorem tracks_literal (s : String) :
    Tracks text o (literal s) fun _ o' => Spells text o o' s.toList := by
  refine .startsWith_bind fun rest hrest => ?_
  split
  next hfound =>
    -- The text ahead starts with `s`, so that many characters of it are `s`.
    have htake : rest.take s.length = s.toList := by
      rw [← String.length_toList]
      exact (List.prefix_iff_eq_take.mp (List.isPrefixOf_iff_prefix.mp hfound)).symm
    refine (Tracks.take_of_rest hrest s.length).bind fun x o' _ hx => .pure ?_
    rwa [htake] at hx
  next => exact .fail

/-- A given text, if it was found, and nothing else. -/
theorem tracks_acceptHere (s : String) : Tracks text o (acceptHere s) fun found o' =>
    if found then Spells text o o' s.toList else o' = o := by
  refine (tracks_literal s).attempt.bind fun r o' _ hr => .pure ?_
  cases r with
  | none => exact hr
  | some u => exact hr

theorem tracks_delimited (opening closing : Char) :
    Tracks text o (delimited opening closing) fun x o' => Spells text o o' x := by
  refine .ahead_bind fun s _ => ?_
  split
  next => exact .fail
  next c s =>
    split
    next =>
      split
      next n _ => exact .take (n + 2)
      next => exact .fail
    next => exact .fail

theorem tracks_takeUntil (stop : Char → Bool) :
    Tracks text o (takeUntil stop) fun x o' => Spells text o o' x := by
  refine .ahead_bind fun s _ => ?_
  split
  next n _ => exact .take n
  next => exact .fail

/-! ## Reading on -/

theorem advances_trivia : Advances trivia :=
  .bind .ahead fun _ => .bind (.take _) fun _ => .pure _

theorem advances_word : Advances word := .of_tracks fun _ _ => tracks_word

theorem advances_keyword (kw : String) : Advances (keyword kw) := by
  refine .bind advances_trivia fun _ => .bind .offset fun start => ?_
  refine .bind advances_word fun found => ?_
  split
  next => exact .pure _
  next => exact .failAt _ _

theorem advances_acceptKeyword (kw : String) : Advances (acceptKeyword kw) :=
  .bind (.attempt (advances_keyword kw)) fun _ => .pure _

theorem advances_startsWith (s : String) : Advances (startsWith s) := .bind .ahead fun _ => .pure _

theorem advances_nextIs (c : Char) : Advances (nextIs c) := .bind .ahead fun _ => .pure _

theorem advances_literal (s : String) : Advances (literal s) :=
  .of_tracks fun _ _ => tracks_literal s

theorem advances_symbol (s : String) : Advances (symbol s) :=
  .bind advances_trivia fun _ => advances_literal s

theorem advances_accept (s : String) : Advances (accept s) :=
  .bind (.attempt (advances_symbol s)) fun _ => .pure _

theorem advances_acceptHere (s : String) : Advances (acceptHere s) :=
  .of_tracks fun _ _ => tracks_acceptHere s

theorem advances_delimited (opening closing : Char) : Advances (delimited opening closing) :=
  .of_tracks fun _ _ => tracks_delimited opening closing

theorem advances_takeUntil (stop : Char → Bool) : Advances (takeUntil stop) :=
  .of_tracks fun _ _ => tracks_takeUntil stop

/-! ## Names -/

theorem spans_identifier : Spans text identifier fun i => [i.spanTree] := by
  intro o
  refine .skip advances_trivia fun _ start hstart => .offset_bind fun _ => ?_
  refine (tracks_acceptHere "@").bind fun isVerbatim o₁ _ hat => ?_
  refine tracks_word.bind fun found o₂ _ hfound => ?_
  split
  next => exact .failAt _ _
  next =>
    refine .spanFrom_bind fun _ => .pure ?_
    have hexact : (Identifier.spanTree ⟨if isVerbatim then "@" ++ found else found,
        ⟨start, o₂⟩⟩).Exact text := by
      cases isVerbatim with
      | false =>
        obtain rfl : o₁ = start := hat
        exact hfound.exact
      | true =>
        have hboth := Spells.append hat hfound
        rw [← String.toList_append] at hboth
        exact hboth.exact
    exact .singleton hexact hstart (Nat.le_refl _)

theorem spans_dottedTail : Spans text dottedTail fun is => is.map (·.spanTree) := by
  refine .of_map (.many fun o => .skip (advances_accept ".") fun isDot o₁ hle => ?_)
  split
  next =>
    exact (spans_identifier o₁).bind fun i o₂ _ hi => .pure (hi.mono hle (Nat.le_refl _))
  next => exact .pure (.nil hle)

theorem spans_dottedName : Spans text dottedName fun n => [n.spanTree] := by
  refine fun o => (spans_identifier o).bind fun first o₁ _ hfirst => ?_
  refine (spans_dottedTail o₁).bind fun others o₂ _ hothers => .pure ?_
  exact (hfirst.append hothers).exact_of_ends

/-! ## What stands before declarations -/

theorem spans_attributeLists : Spans text attributeLists fun as => as.map (·.spanTree) := by
  refine .of_map (.many fun o => .skip advances_trivia fun _ o₁ hle₁ => ?_)
  refine .skip (advances_nextIs '[') fun isBracket o₂ hle₂ => ?_
  split
  next =>
    refine .offset_bind fun _ => (tracks_delimited '[' ']').label.bind fun x o₃ _ hx => ?_
    refine .spanFrom_bind fun _ => .pure (.singleton (Spells.exact ?_) ?_ (Nat.le_refl _))
    · rwa [String.toList_ofList]
    · exact Nat.le_trans hle₁ hle₂
  next => exact .pure (.nil (Nat.le_trans hle₁ hle₂))

theorem spans_modifier : Spans text modifier fun m => [m.spanTree] := by
  refine fun o => .offset_bind fun _ => tracks_word.bind fun w o₁ _ hw => ?_
  split
  next => exact .fail
  next kind hkind =>
    have htext : kind.text = w := ModifierKind.text_ofText? hkind
    have hread : Tracks text o₁ (do return (⟨kind, ← spanFrom o⟩ : Modifier))
        fun m o' => Stand text o [m.spanTree] o' := by
      refine .spanFrom_bind fun _ => .pure (.singleton (Spells.exact ?_) ?_ (Nat.le_refl _))
      · rwa [htext]
      · exact Nat.le_refl _
    refine (Tracks.lookahead _).bind fun next o₂ _ hsame => ?_
    subst hsame
    split
    next => exact .fail
    next => exact hread

theorem spans_modifiers : Spans text modifiers fun ms => ms.map (·.spanTree) := by
  refine .of_map (.many fun o => .skip advances_trivia fun _ o₁ hle => ?_)
  exact (spans_modifier.attempt o₁).mono fun r o' _ hr => hr.mono hle (Nat.le_refl _)

theorem advances_usingOpening : Advances usingOpening :=
  .bind (advances_acceptKeyword _) fun _ => .bind (advances_keyword _) fun _ => .pure _

theorem spans_usingAlias : Spans text usingAlias fun i => [i.spanTree] := by
  refine fun o => (spans_identifier o).bind fun name o₁ _ hname => ?_
  exact .skip (advances_symbol "=") fun _ o₂ hle => .pure (hname.mono (Nat.le_refl _) hle)

theorem spans_usingDirectives : Spans text usingDirectives fun us => us.map (·.spanTree) := by
  refine .of_map (.many fun o => .skip advances_trivia fun _ start hstart => ?_)
  refine .offset_bind fun hlo => .skip advances_usingOpening.attempt fun opening o₁ hle₁ => ?_
  split
  next => exact .pure (.nil (Nat.le_trans hstart hle₁))
  next isGlobal =>
    refine .skip (advances_acceptKeyword _) fun isStatic o₂ hle₂ => ?_
    refine (spans_usingAlias.attempt o₂).bind fun aliasName o₃ _ halias => ?_
    refine .skip advances_trivia fun _ o₄ hle₄ => ?_
    refine .skip (advances_takeUntil _).label fun name o₅ hle₅ => ?_
    refine .skip (advances_symbol ";") fun _ o₆ hle₆ => .spanFrom_bind fun hhi => .pure ?_
    have halias' : Stand text start (aliasName.toList.map (·.spanTree)) o₆ := by
      rw [List.map_eq_flatMap]
      exact halias.mono (by omega) (by omega)
    exact .singleton (halias'.node hlo hhi) hstart (Nat.le_refl _)

end DeclGen.Grammar
