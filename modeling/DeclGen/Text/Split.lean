/-!
# Pieces of a text

A text falls into pieces at every occurrence of a separator character.

## Main definitions

* `splitAt`: the pieces
* `join`: the text that pieces make with a separator between them
-/

namespace DeclGen.Text

/-- The pieces of a text between the occurrences of a separator; there is always at least one. -/
def splitAt (sep : Char) : List Char → List (List Char)
  | [] => [[]]
  | c :: s =>
    if c == sep then [] :: splitAt sep s
    else
      match splitAt sep s with
      | [] => [[c]]
      | p :: ps => (c :: p) :: ps

def join (sep : Char) : List (List Char) → List Char
  | [] => []
  | [p] => p
  | p :: q :: ps => p ++ sep :: join sep (q :: ps)

theorem splitAt_ne_nil (sep : Char) (s : List Char) : splitAt sep s ≠ [] := by
  fun_cases splitAt sep s <;> simp

@[simp] theorem join_splitAt (sep : Char) (s : List Char) : join sep (splitAt sep s) = s := by
  induction s with
  | nil => rfl
  | cons c s ih =>
    have := splitAt_ne_nil sep s
    rw [splitAt]
    split
    · obtain ⟨p, ps, hp⟩ := List.exists_cons_of_ne_nil this
      simp_all [join]
    · split
      · contradiction
      · rename_i p ps hp
        cases ps <;> simp_all [join]

end DeclGen.Text
