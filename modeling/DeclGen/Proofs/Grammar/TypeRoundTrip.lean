import DeclGen.Proofs.Grammar.CappedTypes
import DeclGen.Proofs.Grammar.ParsedTypes

/-!
# Types read from what they are displayed as

A type that was read from some text, with whatever trivia and names of tuple elements in it, is
displayed as a text that is read to its end as the same type. So the names it mentions are those of
the text that it was first read from.

A type goes on as long as a suffix or a further segment comes next, so that its text is read to the
end has to be shown at the end of a text. There, nothing else is read than in front of the closing
brace of a block.

## Main statements

* `reads_text_of_before_brace`: what is read in front of a brace is read at the end of a text
* `typeExpr_text_roundtrip`: types are read again from their texts
-/

namespace DeclGen.Grammar

open DeclGen.Text

variable {c c' : Cursor} {s : List Char} {t : TypeExpr} {e : TypeExpr}

/-- A type that is read up to the closing brace of a block is read where the text ends there. -/
theorem reads_text_of_before_brace
    (h : Reads typeExpr (s ++ ['\n', '}']) ['\n', '}'] (·.bare = e)) :
    Reads typeExpr s [] (·.bare = e) := by
  intro o
  obtain ⟨b, o', hread, hb⟩ := h o
  have hfirm : Alike False typeExpr typeExpr (·.bare = ·.bare) := alike_typeExpr
  have halike := hfirm s (s ++ ['\n', '}']) (.inside s) o o
  rw [hread] at halike
  cases hfirst : typeExpr ⟨o, s⟩ with
  | error err =>
    rw [hfirst] at halike
    cases halike with
    | late hlax => exact hlax.elim
  | ok r =>
    obtain ⟨a, d⟩ := r
    rw [hfirst] at halike
    obtain ⟨_, _, heq, hab, hrest⟩ := halike.exists_of_ok rfl
    cases heq
    have hend : d.rest = [] := hrest.eq_nil_of_both
    refine ⟨a, d.offset, ?_, hab.trans hb⟩
    rw [← hend]

/-- A type that was read is read again from the text that it is displayed as, up to its end. -/
theorem reads_text_to_end (h : typeExpr c = .ok (t, c')) :
    Reads typeExpr t.text.toList [] (·.bare = t.bare) :=
  reads_text_of_before_brace <|
    (yields_typeExpr c t c' h).reads_in_block .nil
      ⟨['\n'], '}', [], rfl, .cons (by decide) .nil, by decide⟩

/-- A type that was read from some text is displayed as a text that is read to its end as the same
type, with the same names in it. -/
theorem typeExpr_text_roundtrip (h : typeExpr c = .ok (t, c')) :
    ∃ u, typeExpr (.ofString t.text) = .ok (u, ⟨size t.text.toList, []⟩) ∧ u.bare = t.bare ∧
      u.simpleName? = t.simpleName? ∧
      u.plainIdentifiers.map (·.text) = t.plainIdentifiers.map (·.text) := by
  obtain ⟨u, o, hread, hbare⟩ := reads_text_to_end h 0
  have hmoves : Moves t.text.toList 0 typeExpr fun _ o' => 0 < o' := moves_typeExpr
  have hplace := (hmoves t.text.toList ⟨[], rfl, size_nil⟩).2
  rw [hread] at hplace
  obtain ⟨⟨front, htext, hsize⟩, -⟩ := hplace
  have hfront : front = t.text.toList := by simpa using htext.symm
  have hsame := congrArg (fun t => t.plainIdentifiers.map (·.text)) hbare
  simp only [TypeExpr.plainIdentifiers_bare, List.map_map] at hsame
  refine ⟨u, ?_, hbare, ?_, hsame⟩
  · rw [← hfront, hsize]
    exact hread
  · rw [← u.simpleName?_bare, hbare, t.simpleName?_bare]

/-- A type with trivia between its tokens, a named tuple element and closing brackets in a row. -/
def spacedType : String := " g :: A . B < (int ? [ , ] x, @class), List<List<C>> > /*c*/ * ;"

theorem typeExpr_text_roundtrip_spacedType :
    ∃ t c', typeExpr (.ofString spacedType) = .ok (t, c') ∧
      t.text = "g::A.B<(int?[,], @class), List<List<C>>>*" ∧
      ∃ u, typeExpr (.ofString t.text) = .ok (u, ⟨size t.text.toList, []⟩) ∧ u.bare = t.bare ∧
        u.simpleName? = t.simpleName? ∧
        u.plainIdentifiers.map (·.text) = t.plainIdentifiers.map (·.text) := by
  have hdisplay : (typeExpr (.ofString spacedType)).toOption.map (·.1.text) =
      some "g::A.B<(int?[,], @class), List<List<C>>>*" := by
    decide +kernel
  cases hread : typeExpr (.ofString spacedType) with
  | error e =>
    rw [hread] at hdisplay
    cases hdisplay
  | ok r =>
    rw [hread] at hdisplay
    exact ⟨r.1, r.2, rfl, Option.some.inj hdisplay, typeExpr_text_roundtrip hread⟩

end DeclGen.Grammar
