import DeclGen.Grammar.Region
import DeclGen.Proofs.Text.Bytes

/-!
# Searching through bytes

The search for the end of a region, through the bytes of a text and not its characters. Every place
is an index into the bytes. An index that a search goes on at comes with the proof that it lies
behind the one before, which is why the search ends.

## Main definitions

* `scanDepth`: the index of a stop byte outside brackets and literals
* `literalEnd`: the index behind a comment or literal
* `stringEnd`, `stringBodyEnd`: the same for strings
* `scanNext`, `bodyNext`: one round of the two loops

## Main statements

* `lt_of_scanNext`, `lt_of_bodyNext`: the loops go on at a larger index
-/

namespace DeclGen.Grammar.ByteScan

open DeclGen.Text

variable (bs : List UInt8)

/-- Whether a byte at an index is that of an ASCII character with a property. -/
def isAt (p : Char → Bool) (i : Nat) : Bool := bs[i]?.any (asByte p)

/-- The number of bytes with a property that follow each other from an index on. -/
def run (p : UInt8 → Bool) (i : Nat) : Nat := ((bs.drop i).takeWhile p).length

def lineEnd (i : Nat) : Nat :=
  let j := i + run bs (fun b => !asByte (· == '\n') b) i
  if isAt bs (· == '\n') j then j + 1 else j

/-- The number of bytes up to the end of the next `*/`. -/
def closingLength : List UInt8 → Option Nat
  | b :: b' :: rest =>
    if asByte (· == '*') b && asByte (· == '/') b' then some 2
    else (closingLength (b' :: rest)).map (· + 1)
  | _ => none

/-- Whether the character ends the search for the quote that closes a character literal. -/
def endsCharacter (c : Char) : Bool := c == '\'' || c == '\n'

/-- The index behind a character literal whose quote is at an index. The byte after a backslash is
not looked at. -/
def charEnd (i : Nat) : Option {e : Nat // i < e} :=
  let first := if isAt bs (· == '\\') (i + 1) then i + 3 else i + 1
  have hfirst : i + 1 ≤ first := by
    unfold first
    split <;> omega
  let j := first + run bs (fun b => !asByte endsCharacter b) first
  if isAt bs (· == '\'') j then some ⟨j + 1, by omega⟩ else none

/-- The index behind the first run of at least as many quotes, from an index on. -/
def rawEnd (quotes i : Nat) : Option {e : Nat // i ≤ e} :=
  if h : i < bs.length then
    let n := run bs (asByte (· == '"')) i
    if quotes ≤ n then some ⟨i + n, by omega⟩
    else (rawEnd quotes (i + max n 1)).map fun e => ⟨e.1, by omega⟩
  else none
termination_by bs.length - i

theorem lt_length_of_isAt {p : Char → Bool} {i : Nat} (h : isAt bs p i = true) :
    i < bs.length := by
  rw [isAt, Option.any_eq_true] at h
  obtain ⟨b, hb, -⟩ := h
  exact (List.getElem?_eq_some_iff.mp hb).1

theorem le_lineEnd (i : Nat) : i ≤ lineEnd bs i := by
  rw [lineEnd]
  split <;> omega

/-- Whether the character may stand before the first quote of a string. -/
def isMark (c : Char) : Bool := c == '@' || c == '$'

mutual

/-- The index of the first byte that is a stop outside brackets and literals, from an index on,
when `depth` brackets are open. -/
def scanDepth (stop : Char → Bool) (depth i : Nat) : Option {j : Nat // i ≤ j} :=
  match h : bs[i]? with
  | none => none
  | some b =>
    if depth == 0 && asByte stop b then some ⟨i, Nat.le_refl i⟩
    else if asByte isOpening b then
      (scanDepth stop (depth + 1) (i + 1)).map fun j => ⟨j.1, by omega⟩
    else if asByte isClosing b then
      if depth == 0 then none
      else (scanDepth stop (depth - 1) (i + 1)).map fun j => ⟨j.1, by omega⟩
    else
      match literalEnd i with
      | some e => (scanDepth stop depth e.1).map fun j => ⟨j.1, by omega⟩
      | none =>
        if asByte (fun c => c == '"' || c == '\'') b then none
        else (scanDepth stop depth (i + 1)).map fun j => ⟨j.1, by omega⟩
termination_by (bs.length - i, 3)
decreasing_by all_goals (obtain ⟨hi, -⟩ := List.getElem?_eq_some_iff.mp h; grind)

/-- The index behind the comment or literal that opens at an index, if one does. -/
def literalEnd (i : Nat) : Option {e : Nat // i < e} :=
  if isAt bs (· == '/') i then
    if isAt bs (· == '/') (i + 1) then
      some ⟨lineEnd bs (i + 2), by have := le_lineEnd bs (i + 2); omega⟩
    else if isAt bs (· == '*') (i + 1) then
      (closingLength (bs.drop (i + 2))).map fun n => ⟨i + 2 + n, by omega⟩
    else none
  else if isAt bs (· == '\'') i then charEnd bs i
  else if isAt bs (fun c => c == '"' || isMark c) i then stringEnd i
  else none
termination_by (bs.length - i, 2)

/-- The index behind the string whose marks or first quote are at an index. -/
def stringEnd (i : Nat) : Option {e : Nat // i < e} :=
  let marks := (bs.drop i).takeWhile (asByte isMark)
  let first := i + marks.length
  if h : isAt bs (· == '"') first then
    let quotes := run bs (asByte (· == '"')) first
    if hraw : 3 ≤ quotes then (rawEnd bs quotes (first + quotes)).map fun e => ⟨e.1, by omega⟩
    else
      (stringBodyEnd (marks.any (asByte (· == '@'))) (marks.any (asByte (· == '$')))
        (first + 1)).map fun e => ⟨e.1, by omega⟩
  else none
termination_by (bs.length - i, 1)
decreasing_by
  have := lt_length_of_isAt bs h
  grind

/-- The index behind a string that is not raw, from an index in it on. -/
def stringBodyEnd (isVerbatim isInterpolated : Bool) (i : Nat) : Option {e : Nat // i < e} :=
  match h : bs[i]? with
  | none => none
  | some b =>
    if asByte (· == '\\') b && !isVerbatim then
      (stringBodyEnd isVerbatim isInterpolated (i + 2)).map fun e => ⟨e.1, by omega⟩
    else if asByte (· == '"') b then
      if isVerbatim && isAt bs (· == '"') (i + 1) then
        (stringBodyEnd isVerbatim isInterpolated (i + 2)).map fun e => ⟨e.1, by omega⟩
      else some ⟨i + 1, Nat.lt_succ_self i⟩
    else if asByte (· == '{') b && isInterpolated then
      if isAt bs (· == '{') (i + 1) then
        (stringBodyEnd isVerbatim isInterpolated (i + 2)).map fun e => ⟨e.1, by omega⟩
      else
        match scanDepth (· == '}') 0 (i + 1) with
        | some j =>
          (stringBodyEnd isVerbatim isInterpolated (j.1 + 1)).map fun e => ⟨e.1, by omega⟩
        | none => none
    else if asByte (· == '\n') b && !isVerbatim then none
    else (stringBodyEnd isVerbatim isInterpolated (i + 1)).map fun e => ⟨e.1, by omega⟩
termination_by (bs.length - i, 0)
decreasing_by all_goals (obtain ⟨hi, -⟩ := List.getElem?_eq_some_iff.mp h; grind)

end

/-! ## Single rounds -/

def index? {P : Nat → Prop} (o : Option {n : Nat // P n}) : Option Nat := o.map Subtype.val

@[simp] theorem index?_none {P : Nat → Prop} :
    index? (none : Option {n : Nat // P n}) = none := rfl

@[simp] theorem index?_some {P : Nat → Prop} (n : {n : Nat // P n}) :
    index? (some n) = some n.1 := rfl

@[simp] theorem index?_map {P Q : Nat → Prop} (o : Option {n : Nat // P n})
    (h : ∀ n : {n : Nat // P n}, Q n.1) :
    index? (o.map fun n => (⟨n.1, h n⟩ : {n : Nat // Q n})) = index? o := by
  cases o <;> rfl

/-- What a round of a loop leads to. -/
inductive Next (σ : Type) where
  /-- The loop ends with this result. -/
  | done (result : Option Nat)
  /-- Another round follows in this state at this index. -/
  | goOn (state : σ) (index : Nat)

/-- The result of a loop behind a round, when `loop` tells that of the further rounds. -/
def Next.result {σ : Type} (loop : σ → Nat → Option Nat) : Next σ → Option Nat
  | .done result => result
  | .goOn state index => loop state index

/-- A round of `scanDepth`; the state is the number of open brackets. -/
def scanNext (stop : Char → Bool) (depth i : Nat) : Next Nat :=
  match bs[i]? with
  | none => .done none
  | some b =>
    if depth == 0 && asByte stop b then .done (some i)
    else if asByte isOpening b then .goOn (depth + 1) (i + 1)
    else if asByte isClosing b then
      if depth == 0 then .done none else .goOn (depth - 1) (i + 1)
    else
      match literalEnd bs i with
      | some e => .goOn depth e.1
      | none =>
        if asByte (fun c => c == '"' || c == '\'') b then .done none else .goOn depth (i + 1)

def bodyNext (isVerbatim isInterpolated : Bool) (i : Nat) : Next Unit :=
  match bs[i]? with
  | none => .done none
  | some b =>
    if asByte (· == '\\') b && !isVerbatim then .goOn () (i + 2)
    else if asByte (· == '"') b then
      if isVerbatim && isAt bs (· == '"') (i + 1) then .goOn () (i + 2) else .done (some (i + 1))
    else if asByte (· == '{') b && isInterpolated then
      if isAt bs (· == '{') (i + 1) then .goOn () (i + 2)
      else
        match scanDepth bs (· == '}') 0 (i + 1) with
        | some j => .goOn () (j.1 + 1)
        | none => .done none
    else if asByte (· == '\n') b && !isVerbatim then .done none
    else .goOn () (i + 1)

variable {bs} {i j : Nat}

/-- `scanDepth` is the loop of its rounds. -/
theorem scanDepth_eq_next (stop : Char → Bool) (depth i : Nat) :
    index? (scanDepth bs stop depth i) =
      (scanNext bs stop depth i).result fun depth j => index? (scanDepth bs stop depth j) := by
  rw [scanDepth, scanNext]
  split
  next h => simp only [h, Next.result, index?_none]
  next b h =>
    simp only [h]
    split
    · rfl
    split
    · simp [Next.result]
    split
    · split
      · rfl
      · simp [Next.result]
    split
    · simp [Next.result]
    · split
      · rfl
      · simp [Next.result]

/-- `stringBodyEnd` is the loop of its rounds. -/
theorem stringBodyEnd_eq_next (isVerbatim isInterpolated : Bool) (i : Nat) :
    index? (stringBodyEnd bs isVerbatim isInterpolated i) =
      (bodyNext bs isVerbatim isInterpolated i).result fun _ j =>
        index? (stringBodyEnd bs isVerbatim isInterpolated j) := by
  rw [stringBodyEnd, bodyNext]
  split
  next h => simp only [h, Next.result, index?_none]
  next b h =>
    simp only [h]
    split
    · simp [Next.result]
    split
    · split
      · simp [Next.result]
      · rfl
    split
    · split
      · simp [Next.result]
      · split
        · simp [Next.result]
        · rfl
    split
    · rfl
    · simp [Next.result]

/-- The search for the end of a region goes on at a larger index. -/
theorem lt_of_scanNext {stop : Char → Bool} {depth depth' : Nat}
    (h : scanNext bs stop depth i = .goOn depth' j) : i < j := by
  rw [scanNext] at h
  split at h
  next => cases h
  split at h
  next => cases h
  split at h
  next =>
    cases h
    exact Nat.lt_succ_self i
  split at h
  next =>
    split at h <;> cases h
    exact Nat.lt_succ_self i
  split at h
  next e _ =>
    cases h
    exact e.2
  next =>
    split at h <;> cases h
    exact Nat.lt_succ_self i

/-- So does the search for the end of a string, also behind a hole. -/
theorem lt_of_bodyNext {isVerbatim isInterpolated : Bool}
    (h : bodyNext bs isVerbatim isInterpolated i = .goOn () j) : i < j := by
  rw [bodyNext] at h
  split at h
  next => cases h
  split at h
  next =>
    cases h
    omega
  split at h
  next =>
    split at h <;> cases h
    omega
  split at h
  next =>
    split at h
    next =>
      cases h
      omega
    next =>
      split at h <;> cases h
      next k _ => exact Nat.lt_succ_of_le (Nat.le_of_succ_le k.2)
  split at h <;> cases h
  exact Nat.lt_succ_self i

end DeclGen.Grammar.ByteScan
