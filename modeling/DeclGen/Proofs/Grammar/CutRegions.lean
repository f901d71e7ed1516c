import DeclGen.Proofs.Grammar.Cutting

/-!
# Cutting out regions

Regions are found by a search through bytes and cut out at the index it gives. What is between the
brackets of a region is cut out of it at its second and its last byte.

## Main definitions

* `delimited`, `takeUntil`: regions
* `inner`: what is between the brackets

## Main statements

* `delimited_eq`, `takeUntil_eq`, `inner_eq`: the cuts have an outcome
-/

namespace DeclGen.Grammar.Cutting

open DeclGen.Grammar.Parser DeclGen.Text

variable {s t x : List Char} {o k : Char}

/-! ## Regions -/

def delimited (opening closing : Char) : Cutting (List Char) := do
  let s ← ahead
  if ByteScan.isAt (bytes s) (· == opening) 0 then
    match ByteScan.index? (ByteScan.scanDepth (bytes s) (· == closing) 0 1) with
    | some i => cut (i + 1)
    | none => fail
  else fail

def braced : Cutting (List Char) := delimited '{' '}'

def parenthesized : Cutting (List Char) := delimited '(' ')'

def bracketed : Cutting (List Char) := delimited '[' ']'

/-- Cuts out everything before the first byte outside brackets and literals that satisfies
`stop`. -/
def takeUntil (stop : Char → Bool) : Cutting (List Char) := do
  match ByteScan.index? (ByteScan.scanDepth (bytes (← ahead)) stop 0 0) with
  | some i => cut i
  | none => fail

theorem stands_zero (s : List Char) : Stands (bytes s) 0 s := rfl

/-- A front part with the ASCII character behind it. -/
theorem size_take_succ {n : Nat} (h : (s.drop n).head? = some k) (hk : isAscii k = true) :
    size (s.take (n + 1)) = size (s.take n) + 1 := by
  rw [List.take_add, size_append, List.take_one, h]
  simp [utf8Size_eq_one_iff.mpr hk]

theorem takeUntil_eq {stop : Char → Bool} (hstop : OnlyAscii stop) :
    takeUntil stop = ofParser (Grammar.takeUntil stop) := by
  refine bind_eq_of rfl fun c s c' h => ?_
  obtain ⟨rfl, rfl⟩ : c.rest = s ∧ c = c' := by simpa [ahead] using h
  rw [ByteScan.scanDepth_eq hstop (stands_zero c.rest)]
  cases hscan : scan stop 0 0 c.rest with
  | none => rfl
  | some n => simpa using cut_take n c

/-- Both brackets take one byte, so the first and the last byte of a region can be cut off. -/
theorem delimited_eq (ho : isAscii o = true) (hk : isAscii k = true) :
    delimited o k = ofParser (Grammar.delimited o k) := by
  refine bind_eq_of rfl fun c s c' h => ?_
  obtain ⟨rfl, rfl⟩ : c.rest = s ∧ c = c' := by simpa [ahead] using h
  rw [ByteScan.isAt_beq o ho (stands_zero c.rest)]
  cases hrest : c.rest with
  | nil => rfl
  | cons d s =>
    by_cases hd : d = o
    · subst hd
      have hone : d.utf8Size = 1 := utf8Size_eq_one_iff.mpr ho
      have hs : Stands (bytes (d :: s)) 1 s := by
        simpa [hone] using (stands_zero (d :: s)).of_cons
      simp only [List.head?_cons, Option.any_some, beq_self_eq_true, if_true,
        ByteScan.scanDepth_eq (.beq hk) hs]
      cases hscan : scan (· == k) 0 0 s with
      | none => rfl
      | some n =>
        obtain ⟨e, t, hdrop, he⟩ := exists_of_scan hscan
        obtain rfl := eq_of_beq he
        have htake := size_take_succ (congrArg List.head? hdrop) hk
        have hcut := cut_take (n + 2) c
        rw [hrest, List.take_succ_cons, size_cons, hone, htake] at hcut
        simpa [Nat.add_assoc] using hcut
    · simp only [List.head?_cons, Option.any_some, beq_false_of_ne hd, Bool.false_eq_true, if_false]
      rfl

/-! ## What is between the brackets of a region -/

/-- What lies between the first and the last byte of a region. -/
def inner (region : List Char) : Option (List Char) :=
  if 1 ≤ size region then between? 1 (size region - 1) region else none

theorem inner_eq (ho : isAscii o = true) (hk : isAscii k = true) (x : List Char) :
    inner (o :: (x ++ [k])) = some (Grammar.inner (o :: (x ++ [k]))) := by
  have hone : o.utf8Size = 1 := utf8Size_eq_one_iff.mpr ho
  have hsize : size (o :: (x ++ [k])) = 1 + size x + 1 := by
    simp [hone, utf8Size_eq_one_iff.mpr hk, Nat.add_assoc]
  have hbetween := between?_append [o] x [k]
  have hopening : size [o] = 1 := hone
  rw [hopening] at hbetween
  rw [inner, hsize, if_pos (by omega), Nat.add_sub_cancel]
  simpa [Grammar.inner] using hbetween

/-- What is read is a region. -/
theorem exists_of_delimited {c c' : Cursor} (h : Grammar.delimited o k c = .ok (s, c')) :
    ∃ x, s = o :: (x ++ [k]) := by
  obtain ⟨u, n, hrest, hscan, rfl, -⟩ := exists_scan_of_delimited h
  obtain ⟨e, t, hdrop, he⟩ := exists_of_scan hscan
  refine ⟨u.take n, ?_⟩
  rw [hrest, List.take_succ_cons, List.take_add, hdrop, eq_of_beq he]
  rfl

end DeclGen.Grammar.Cutting
