import DeclGen.Text.Size

/-!
# The bytes of a text

The UTF-8 form of a text, and what a search that looks at single bytes finds in it. The byte of an
ASCII character is that of no other character and no part of one, so a search for ASCII characters
may step through the bytes of all others.

## Main definitions

* `bytes`: the UTF-8 form of a text
* `isAscii`, `OnlyAscii`: the characters of one byte
* `asByte`: a property of ASCII characters as one of bytes
* `Stands`: a text stands at a place in bytes, perhaps behind the rest of a character
* `between?`: the part of a text between two byte offsets in order

## Main statements

* `takeWhile_bytes`: the front part up to an ASCII character, in bytes and in characters
-/

namespace DeclGen.Text

def bytes (s : List Char) : List UInt8 := s.flatMap String.utf8EncodeChar

def isAscii (c : Char) : Bool := c.toNat < 0x80

/-- Only ASCII characters have the property. -/
def OnlyAscii (p : Char → Bool) : Prop := ∀ c, p c = true → isAscii c = true

/-- Whether the byte is that of an ASCII character with a property. -/
def asByte (p : Char → Bool) (b : UInt8) : Bool := b.toNat < 0x80 && p (Char.ofNat b.toNat)

variable {c : Char} {s t : List Char} {p q : Char → Bool} {b : UInt8}

@[simp] theorem bytes_nil : bytes [] = [] := rfl

@[simp] theorem bytes_cons (c : Char) (s : List Char) :
    bytes (c :: s) = String.utf8EncodeChar c ++ bytes s := rfl

@[simp] theorem bytes_append (s t : List Char) : bytes (s ++ t) = bytes s ++ bytes t :=
  List.flatMap_append

@[simp] theorem length_bytes (s : List Char) : (bytes s).length = size s := by
  induction s with
  | nil => rfl
  | cons c s ih => rw [bytes_cons, List.length_append, String.length_utf8EncodeChar, ih, size_cons]

/-! ## Single characters -/

theorem printable_of_isAlphanum (h : c.isAlphanum = true) : 0x20 ≤ c.toNat ∧ c.toNat < 0x7F := by
  delta Char.isAlphanum Char.isAlpha Char.isUpper Char.isLower Char.isDigit at h
  simp only [Bool.or_eq_true, Bool.and_eq_true, decide_eq_true_eq, UInt32.le_iff_toNat_le,
    ge_iff_le] at h
  change (((65 ≤ c.toNat ∧ c.toNat ≤ 90) ∨ (97 ≤ c.toNat ∧ c.toNat ≤ 122)) ∨
    (48 ≤ c.toNat ∧ c.toNat ≤ 57)) at h
  omega

theorem utf8Size_eq_one_iff : c.utf8Size = 1 ↔ isAscii c = true := by
  rw [Char.utf8Size_eq_one_iff, isAscii, decide_eq_true_eq, UInt32.le_iff_toNat_le]
  change c.toNat ≤ 127 ↔ c.toNat < 128
  omega

theorem utf8EncodeChar_of_isAscii (h : isAscii c = true) :
    String.utf8EncodeChar c = [UInt8.ofNat c.toNat] := by
  have hle : c.val.toNat ≤ 127 := Nat.le_of_lt_succ (of_decide_eq_true h)
  simp only [String.utf8EncodeChar, if_pos hle]
  rfl

/-- The bytes of all other characters are no ASCII characters. -/
theorem le_of_mem_utf8EncodeChar (h : isAscii c = false) (hb : b ∈ String.utf8EncodeChar c) :
    0x80 ≤ b.toNat := by
  have hlt : ¬ c.val.toNat ≤ 127 := by
    have hge : ¬ c.toNat < 0x80 := of_decide_eq_false h
    change ¬ c.val.toNat < 128 at hge
    omega
  simp only [String.utf8EncodeChar, if_neg hlt] at hb
  split at hb
  · simp only [List.mem_cons, List.not_mem_nil, or_false] at hb
    rcases hb with rfl | rfl <;> simp only [UInt8.toNat_ofNat'] <;> omega
  · split at hb <;> simp only [List.mem_cons, List.not_mem_nil, or_false] at hb
    · rcases hb with rfl | rfl | rfl <;> simp only [UInt8.toNat_ofNat'] <;> omega
    · rcases hb with rfl | rfl | rfl | rfl <;> simp only [UInt8.toNat_ofNat'] <;> omega

theorem asByte_of_isAscii (h : isAscii c = true) :
    asByte p (UInt8.ofNat c.toNat) = p c := by
  have hlt : c.toNat < 0x80 := of_decide_eq_true h
  have hbyte : (UInt8.ofNat c.toNat).toNat = c.toNat := by
    rw [UInt8.toNat_ofNat']
    omega
  rw [asByte, hbyte, Char.ofNat_toNat]
  simp [hlt]

theorem asByte_of_le (h : 0x80 ≤ b.toNat) : asByte p b = false := by
  simp [asByte, Nat.not_lt.mpr h]

theorem OnlyAscii.eq_false (hp : OnlyAscii p) (h : isAscii c = false) : p c = false := by
  cases hpc : p c with
  | false => rfl
  | true => rw [hp c hpc] at h; cases h

theorem OnlyAscii.beq (h : isAscii c = true) : OnlyAscii (· == c) := by
  intro d hd
  rwa [eq_of_beq hd]

theorem beq_eq_false_of_not_isAscii {d : Char} (hc : isAscii c = false) (hd : isAscii d = true) :
    (c == d) = false :=
  (OnlyAscii.beq hd).eq_false hc

theorem OnlyAscii.or (hp : OnlyAscii p) (hq : OnlyAscii q) : OnlyAscii fun c => p c || q c := by
  intro c hc
  rcases Bool.or_eq_true _ _ |>.mp hc with h | h
  · exact hp c h
  · exact hq c h

/-- All bytes of a character have a property of ASCII characters if it has it, else none. -/
theorem asByte_of_mem_utf8EncodeChar (hp : OnlyAscii p) (hb : b ∈ String.utf8EncodeChar c) :
    asByte p b = p c := by
  cases hc : isAscii c with
  | true =>
    rw [utf8EncodeChar_of_isAscii hc, List.mem_singleton] at hb
    rw [hb, asByte_of_isAscii hc]
  | false => rw [asByte_of_le (le_of_mem_utf8EncodeChar hc hb), hp.eq_false hc]

theorem exists_utf8EncodeChar_eq_cons (c : Char) :
    ∃ b bs, String.utf8EncodeChar c = b :: bs :=
  List.exists_cons_of_ne_nil String.utf8EncodeChar_ne_nil

/-- A property of ASCII characters only is one of single bytes. -/
theorem any_bytes (hp : OnlyAscii p) (s : List Char) : (bytes s).any (asByte p) = s.any p := by
  induction s with
  | nil => rfl
  | cons c s ih =>
    rw [bytes_cons, List.any_append, List.any_cons, ih]
    congr 1
    cases hc : isAscii c with
    | true => simp [utf8EncodeChar_of_isAscii hc, asByte_of_isAscii hc]
    | false =>
      rw [hp.eq_false hc, List.any_eq_false]
      exact fun b hb => by simp [asByte_of_le (le_of_mem_utf8EncodeChar hc hb)]

/-- The first byte has a property of ASCII characters if the first character has it. -/
theorem any_head?_bytes (hp : OnlyAscii p) (s : List Char) :
    (bytes s).head?.any (asByte p) = s.head?.any p := by
  cases s with
  | nil => rfl
  | cons c s =>
    obtain ⟨b, bs, hbs⟩ := exists_utf8EncodeChar_eq_cons c
    have hb : asByte p b = p c := asByte_of_mem_utf8EncodeChar hp (by simp [hbs])
    simp [hbs, hb]

/-! ## Front parts -/

/-- A text is its longest front part of characters of a kind and what follows, which does not start
with such a character. -/
theorem exists_takeWhile_append (p : Char → Bool) (s : List Char) :
    ∃ x t, s = x ++ t ∧ s.takeWhile p = x ∧ t.head?.any p = false := by
  refine ⟨s.takeWhile p, s.dropWhile p, List.takeWhile_append_dropWhile.symm, rfl, ?_⟩
  have hhead := List.head?_dropWhile_not p s
  cases h : (s.dropWhile p).head? with
  | none => rfl
  | some c => simpa [h] using hhead

theorem OnlyAscii.size_takeWhile (hp : OnlyAscii p) (s : List Char) :
    size (s.takeWhile p) = (s.takeWhile p).length := by
  induction s with
  | nil => rfl
  | cons c s ih =>
    rw [List.takeWhile_cons]
    split
    next hc => rw [size_cons, utf8Size_eq_one_iff.mpr (hp c hc), ih, List.length_cons, Nat.add_comm]
    next => rfl

/-- The longest front part of a kind, where all bytes of a character are of the kind that the
character is of. -/
theorem takeWhile_bytes_of_forall {f : UInt8 → Bool}
    (h : ∀ c, ∀ b ∈ String.utf8EncodeChar c, f b = p c) (s : List Char) :
    (bytes s).takeWhile f = bytes (s.takeWhile p) := by
  induction s with
  | nil => rfl
  | cons c s ih =>
    rw [bytes_cons, List.takeWhile_cons]
    cases hc : p c with
    | true =>
      rw [List.takeWhile_append_of_pos fun b hb => (h c b hb).trans hc, ih]
      rfl
    | false =>
      obtain ⟨b, bs, hbs⟩ := exists_utf8EncodeChar_eq_cons c
      have hb : f b = p c := h c b (by simp [hbs])
      simp [hbs, hb, hc]

/-- The front part before the first character of a kind, as bytes. -/
theorem takeWhile_not_bytes (hp : OnlyAscii p) (s : List Char) :
    (bytes s).takeWhile (fun b => !asByte p b) = bytes (s.takeWhile fun c => !p c) :=
  takeWhile_bytes_of_forall (fun _ _ hb => by rw [asByte_of_mem_utf8EncodeChar hp hb]) s

/-- The longest front part of characters of a kind, as bytes. -/
theorem takeWhile_bytes (hp : OnlyAscii p) (s : List Char) :
    (bytes s).takeWhile (asByte p) = bytes (s.takeWhile p) :=
  takeWhile_bytes_of_forall (fun _ _ hb => asByte_of_mem_utf8EncodeChar hp hb) s

/-! ## Places in bytes -/

/-- From index `i` on, the bytes are those of the text `s`. -/
def Stands (bs : List UInt8) (i : Nat) (s : List Char) : Prop := bs.drop i = bytes s

namespace Stands

variable {bs : List UInt8} {i : Nat}

theorem of_append (s t : List Char) : Stands (bytes (s ++ t)) (size s) t := by
  rw [Stands, bytes_append, ← length_bytes, List.drop_left]

theorem append (h : Stands bs i (s ++ t)) : Stands bs (i + size s) t := by
  rw [Stands, ← List.drop_drop, h, bytes_append, ← length_bytes, List.drop_left]

theorem drop (h : Stands bs i s) (n : Nat) : Stands bs (i + size (s.take n)) (s.drop n) :=
  append (by rwa [List.take_append_drop])

theorem of_cons (h : Stands bs i (c :: s)) : Stands bs (i + c.utf8Size) s := by
  have := append (s := [c]) h
  simpa using this

theorem getElem?_eq (h : Stands bs i s) (n : Nat) : bs[i + n]? = (bytes s)[n]? := by
  rw [← h, List.getElem?_drop]

theorem getElem?_nil (h : Stands bs i []) (n : Nat) : bs[i + n]? = none := by
  rw [h.getElem?_eq]
  rfl

/-- The byte at the place has a property of ASCII characters if the character there has it. -/
theorem any_getElem? (hp : OnlyAscii p) (h : Stands bs i s) :
    bs[i]?.any (asByte p) = s.head?.any p := by
  have hi := h.getElem?_eq 0
  rw [Nat.add_zero] at hi
  rw [hi, ← List.head?_eq_getElem?, any_head?_bytes hp]

end Stands

/-! ## Parts between two offsets -/

/-- The part of a text between two byte offsets, of which the first may not be behind the other. -/
def between? (start stop : Nat) (s : List Char) : Option (List Char) :=
  if start ≤ stop then slice? start stop s else none

theorem between?_append (x y z : List Char) :
    between? (size x) (size x + size y) (x ++ (y ++ z)) = some y := by
  rw [between?, if_pos (Nat.le_add_right ..), ← List.append_assoc, slice?_append]

end DeclGen.Text
