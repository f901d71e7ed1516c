/-!
# Texts measured in bytes

Positions in a text are byte offsets into its UTF-8 form. A text is worked on as a list of
characters, so an offset that no character starts at is simply not the size of any front part.

## Main definitions

* `size`: the number of bytes of a text
* `dropBytes?`: what is left from a byte offset on
* `slice?`: the part between two byte offsets
-/

namespace DeclGen.Text

/-- The number of bytes of the UTF-8 form of a text. -/
def size : List Char → Nat
  | [] => 0
  | c :: s => c.utf8Size + size s

/-- What is left of a text from a byte offset on, if a character starts or the text ends there. -/
def dropBytes? : Nat → List Char → Option (List Char)
  | 0, s => some s
  | _ + 1, [] => none
  | n + 1, c :: s => if c.utf8Size ≤ n + 1 then dropBytes? (n + 1 - c.utf8Size) s else none

/-- The front part of a text that has the given number of bytes. -/
def takeBytes? : Nat → List Char → Option (List Char)
  | 0, _ => some []
  | _ + 1, [] => none
  | n + 1, c :: s =>
    if c.utf8Size ≤ n + 1 then (takeBytes? (n + 1 - c.utf8Size) s).map (c :: ·) else none

def slice? (start stop : Nat) (s : List Char) : Option (List Char) :=
  (dropBytes? start s).bind (takeBytes? (stop - start))

@[simp] theorem size_nil : size [] = 0 := rfl

@[simp] theorem size_cons (c : Char) (s : List Char) : size (c :: s) = c.utf8Size + size s := rfl

@[simp] theorem size_append (s t : List Char) : size (s ++ t) = size s + size t := by
  induction s with
  | nil => simp
  | cons c s ih => simp [ih, Nat.add_assoc]

theorem length_le_size (s : List Char) : s.length ≤ size s := by
  induction s with
  | nil => simp
  | cons c s ih => have := c.utf8Size_pos; simp; omega

@[simp] theorem dropBytes?_size_append (s t : List Char) :
    dropBytes? (size s) (s ++ t) = some t := by
  induction s with
  | nil => simp [dropBytes?]
  | cons c s ih =>
    have := c.utf8Size_pos
    obtain ⟨n, hn⟩ : ∃ n, size (c :: s) = n + 1 := ⟨size (c :: s) - 1, by simp; omega⟩
    rw [hn, List.cons_append, dropBytes?, if_pos (by simp at hn; omega), ← hn]
    simpa using ih

@[simp] theorem takeBytes?_size_append (s t : List Char) :
    takeBytes? (size s) (s ++ t) = some s := by
  induction s with
  | nil => simp [takeBytes?]
  | cons c s ih =>
    have := c.utf8Size_pos
    obtain ⟨n, hn⟩ : ∃ n, size (c :: s) = n + 1 := ⟨size (c :: s) - 1, by simp; omega⟩
    rw [hn, List.cons_append, takeBytes?, if_pos (by simp at hn; omega), ← hn]
    simpa using ih

/-- Slicing out the middle of three parts by their sizes gives that part. -/
theorem slice?_append (s t u : List Char) :
    slice? (size s) (size s + size t) (s ++ t ++ u) = some t := by
  simp [slice?, List.append_assoc]

end DeclGen.Text
