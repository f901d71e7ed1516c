import DeclGen.Proofs.Constant.Cycles
import DeclGen.Proofs.Constant.Equations
import DeclGen.Proofs.Constant.Escapes
import DeclGen.Proofs.Constant.Operators

/-!
# The lowest bits suffice

Folding truncates the value of an initializer to the underlying type of the enum, but leaves the
results of most operators as they are. In an enum of at most 32 bits it would make no difference to
truncate them as well, unless an operator looks at higher bits of an operand: then all intermediate
values agree in the lowest 32 bits, and the values of members, casts to narrow types and shift
counts agree altogether. Only the products of truncated operands may be too large.

## Main definitions

* `Operators.evaluate`, `Operators.memberValue`, `Operators.constantText`: folding with other
  results of operators
* `Fold.Follows`: a computation that goes like another one
* `Fold.SeesHighBits`: the operators that look at higher bits
* `Fold.TakesPart`: an expression on which a value may rest

## Main statements

* `Operators.constantText_folding`: folding with the operators of folding
* `EnumDecl.constantText_truncating`: truncating the result of every operator changes nothing
* `EnumDecl.truncated_product_overflows`: but a product of truncated operands may overflow
-/

namespace DeclGen

open DeclGen.Constant

namespace Operators

open DeclGen.Fold

/-- The value of an expression, where `member` gives the values of the members and the operators
have the given results. -/
def evaluate (ops : Operators) (d : EnumDecl) (member : Nat → FoldM Int) : Expr → FoldM Constant
  | .unary op operand _ => do
    let c ← ops.evaluate d member operand
    (ops.unary op c : Except FoldError Constant)
  | .binary op left right _ => do
    let l ← ops.evaluate d member left
    let r ← ops.evaluate d member right
    (ops.binary op l r : Except FoldError Constant)
  | .parenthesized inner _ => ops.evaluate d member inner
  | .cast type operand _ => do
    let c ← ops.evaluate d member operand
    return d.castTo type c
  | .overflowContext _ inner _ => ops.evaluate d member inner
  | .integer text span => Fold.evaluate d member (.integer text span)
  | .character c span => Fold.evaluate d member (.character c span)
  | .name segments span => Fold.evaluate d member (.name segments span)
  | .unsupported text span => Fold.evaluate d member (.unsupported text span)

/-- The value of the member at an index, where the operators have the given results. -/
def memberValue (ops : Operators) (d : EnumDecl) (idle : List Nat) (i : Nat) : FoldM Int := do
  match (← get).lookup i with
  | some v => return v
  | none =>
    match anchor? d.members i with
    | none => remember i (d.underlying.wrap i)
    | some (a, initializer) =>
      let base ← match (← get).lookup a with
        | some v => pure v
        | none =>
          if a ∈ idle then do
            let c ← ops.evaluate d (ops.memberValue d (idle.erase a)) initializer
            remember a (d.underlying.wrap c.value)
          else throw (.circular (memberName d a))
      let v ← (Constant.checked (base + (i - a : Nat)) : Except FoldError Int)
      remember i (d.underlying.wrap v)
termination_by idle.length
decreasing_by
  rename_i h
  exact length_erase_lt h

/-- The text of an initializer, where the operators have the given results. -/
def constantText (ops : Operators) : Evaluator := fun d initializer =>
  ((ops.evaluate d (ops.memberValue d (List.range d.members.length)) initializer).run' []).map
    fun c => toString (d.underlying.wrap c.value)

/-! ## Folding is the instance of its own operators -/

variable {d : EnumDecl}

/-- With the operators of folding itself, the evaluation is that of an initializer. -/
theorem evaluate_folding (d : EnumDecl) (member : Nat → FoldM Int) (e : Expr) :
    folding.evaluate d member e = Fold.evaluate d member e := by
  induction e with
  | integer | character | name | unsupported => rfl
  | unary op operand span ih =>
    rw [evaluate, Fold.evaluate, ih]
    rfl
  | binary op left right span ihl ihr =>
    rw [evaluate, Fold.evaluate, ihl, ihr]
    rfl
  | parenthesized inner span ih => exact ih
  | overflowContext isChecked inner span ih => exact ih
  | cast type operand span ih =>
    rw [evaluate, evaluate_cast, ih]

theorem memberValue_folding (d : EnumDecl) (idle : List Nat) :
    folding.memberValue d idle = Fold.memberValue d idle := by
  funext i
  have hof : folding.memberValue d idle i = memberValueOf d (folding.memberValue d) idle i := by
    rw [memberValue]
    simp only [evaluate_folding]
    rfl
  rw [hof, memberValue_eq_of]
  refine congrFun (memberValueOf_congr fun a ha => ?_) i
  exact memberValue_folding d (idle.erase a)
termination_by idle.length
decreasing_by
  exact length_erase_lt ha

/-- With the operators of folding the text of an initializer is that of folding. -/
theorem constantText_folding : folding.constantText = EnumDecl.constantText := by
  funext d e
  unfold constantText EnumDecl.constantText EnumDecl.constant evaluateIn
  rw [memberValue_folding, evaluate_folding]
  cases (Fold.evaluate d (Fold.memberValue d (List.range d.members.length)) e).run' [] <;> rfl

end Operators

namespace Fold

open Relation

variable {d : EnumDecl} {wide lax : Prop} {α β γ δ : Type}

/-! ## Computations that go like others -/

/-- If `x` succeeds from a sound memo, then so does `y`, with the same memo and a result that is
related to that of `x`. Where `lax` holds, `y` may overflow instead. -/
def Follows (d : EnumDecl) (lax : Prop) (x : FoldM α) (y : FoldM β) (R : α → β → Prop) : Prop :=
  ∀ s a t, Memo.Sound d s → x s = .ok (a, t) →
    (∃ b, y s = .ok (b, t) ∧ R a b) ∨ (lax ∧ y s = .error .overflow)

namespace Follows

variable {x : FoldM α} {y : FoldM β} {f : α → FoldM γ} {g : β → FoldM δ} {P : α → Prop}
  {R : α → β → Prop} {Q : γ → δ → Prop}

theorem pure {a : α} {b : β} (h : R a b) :
    Follows d lax (pure a : FoldM α) (pure b : FoldM β) R := by
  intro s a' t _ hx
  cases hx
  exact .inl ⟨b, rfl, h⟩

theorem throw (err : FoldError) : Follows d lax (throw err : FoldM α) y R := by
  intro s a t _ hx
  cases hx

/-- A computation goes like itself. -/
theorem of_keeps {R : α → α → Prop} (h : Keeps d x P) (hR : ∀ a, P a → R a a) :
    Follows d lax x x R :=
  fun s a t hs hx => .inl ⟨a, hx, hR a (h s a t hs hx).1⟩

/-- What is known of the results of `x` may be used for the relation. -/
theorem given (hk : Keeps d x P) (h : Follows d lax x y fun a b => P a → R a b) :
    Follows d lax x y R :=
  fun s a t hs hx => (h s a t hs hx).imp_left fun ⟨b, hy, hab⟩ =>
    ⟨b, hy, hab (hk s a t hs hx).1⟩

theorem lift {u : Except FoldError α} {w : Except FoldError β}
    (h : ∀ a, u = .ok a → (∃ b, w = .ok b ∧ R a b) ∨ (lax ∧ w = .error .overflow)) :
    Follows d lax (liftM u : FoldM α) (liftM w : FoldM β) R := by
  intro s a t _ hx
  cases u with
  | error err => cases hx
  | ok a =>
    cases hx
    obtain ⟨b, rfl, hb⟩ | ⟨hlax, rfl⟩ := h a rfl
    · exact .inl ⟨b, rfl, hb⟩
    · exact .inr ⟨hlax, rfl⟩

/-- Where the second computation overflows in its first step, there is nothing left to compare. -/
theorem bind (hx : Follows d lax x y R) (hk : Keeps d x P)
    (hf : ∀ a b, P a → R a b → Follows d lax (f a) (g b) Q) :
    Follows d lax (x >>= f) (y >>= g) Q := by
  intro s c t hs h
  obtain ⟨a, r, hxa, hfa⟩ := bind_eq_ok.mp h
  obtain ⟨ha, hr⟩ := hk s a r hs hxa
  change (∃ c', (y s >>= fun p => g p.1 p.2) = .ok (c', t) ∧ Q c c') ∨
    (lax ∧ (y s >>= fun p => g p.1 p.2) = .error .overflow)
  obtain ⟨b, hy, hab⟩ | ⟨hlax, hy⟩ := hx s a r hs hxa
  · rw [hy]
    exact hf a b ha hab r c t hr hfa
  · rw [hy]
    exact .inr ⟨hlax, rfl⟩

theorem get_bind {f : Memo → FoldM α} {g : Memo → FoldM β}
    (h : ∀ s : Memo, s.Sound d → Follows d lax (f s) (g s) R) :
    Follows d lax (get >>= f) (get >>= g) R := by
  intro s a t hs hx
  exact h s hs s a t hs hx

end Follows

/-! ## Operators that look at higher bits -/

/-- The expression is a quotient, a remainder or a shift of a 64-bit word to the right. -/
def SeesHighBits (d : EnumDecl) : Expr → Prop
  | .binary op left _ _ => op = .divide ∨ op = .remainder ∨
      (op ∈ [BinaryOperator.shiftRight, .unsignedShiftRight] ∧
        ∃ l, evaluateIn d left = .ok l ∧ l.type.promoted.bits = 64)
  | _ => False

def IsULong (d : EnumDecl) (e : Expr) : Prop := ∃ c, evaluateIn d e = .ok c ∧ c.type = .ulong

theorem not_needsHigh {op : BinaryOperator} {left right : Expr} {span : Span} {l : Constant}
    (h : ¬ SeesHighBits d (.binary op left right span)) (hl : evaluateIn d left = .ok l) :
    ¬ NeedsHigh op l.type := by
  rintro (hdivide | hremainder | ⟨hshift, hbits⟩)
  · exact h (.inl hdivide)
  · exact h (.inr (.inl hremainder))
  · exact h (.inr (.inr ⟨hshift, l, hl, hbits⟩))

theorem sameLow_castTo {c w : Constant} (h : SameLow wide c w) (type : TypeExpr)
    (hwide : (d.castTo type c).type = .ulong → wide) :
    SameLow wide (d.castTo type c) (d.castTo type w) := by
  unfold EnumDecl.castTo at *
  split at hwide
  · exact h.wrap _ hwide
  · exact ⟨rfl, h.value, h.le, h.lt, h.signed⟩

variable {ops : Operators} {member member' : Nat → FoldM Int} {e : Expr}

theorem wide_of_evaluateIn {c : Constant}
    (hparts : ∀ s ∈ e.parts, ¬ SeesHighBits d s ∧ (IsULong d s → wide))
    (hc : evaluateIn d e = .ok c) (hulong : c.type = .ulong) : wide :=
  (hparts e e.self_mem_parts).2 ⟨c, hc, hulong⟩

/-- Expressions have values that agree in the lowest bits, if the members they name have the same
values and no operator looks at higher bits. -/
theorem follows_evaluate (hops : ops.Mirrors wide lax)
    (hk : ∀ j, Keeps d (member j) (HasValue d j))
    (hm : ∀ j ∈ siblings d e, Follows d lax (member j) (member' j) Eq)
    (hparts : ∀ s ∈ e.parts, ¬ SeesHighBits d s ∧ (IsULong d s → wide)) :
    Follows d lax (evaluate d member e) (ops.evaluate d member' e) (SameLow wide) := by
  induction e with
  | integer text span =>
    refine .of_keeps (keeps_evaluate hk (.integer text span)) fun c hc => ?_
    have hfold := evaluateIn_eq_ok_iff.mpr hc
    exact (inRange_integer hfold).sameLow (wide_of_evaluateIn hparts hfold)
  | character ch span =>
    have hword : ch.toNat < wordCount 32 := ch.val.toNat_lt
    refine .pure ⟨rfl, Int.ModEq.refl _, ?_, ?_, fun _ => ?_⟩
    · exact Int.le_trans (by decide) (Int.natCast_nonneg ch.toNat)
    · exact Int.ofNat_lt.mpr (Nat.lt_of_lt_of_le hword (by decide))
    · exact Int.ofNat_lt.mpr (Nat.lt_of_lt_of_le hword (by decide))
  | name segments span =>
    refine .given (keeps_evaluate hk (.name segments span)) ?_
    unfold Operators.evaluate evaluate
    unfold siblings at hm
    split <;> rename_i hmeaning <;> simp only [hmeaning] at hm
    · exact .pure fun hc => (inRange_of_resolve hmeaning).sameLow
        (wide_of_evaluateIn hparts (evaluateIn_eq_ok_iff.mpr hc))
    · rename_i i
      refine .bind (hm i (List.mem_singleton_self i)) (hk i) fun v v' hv heq => ?_
      have hin : Constant.InRange ⟨v, d.underlying⟩ :=
        (d.underlying.wrap_eq_self_iff v).mp hv.wrap_eq
      exact .pure fun hc => heq ▸ hin.sameLow
        (wide_of_evaluateIn hparts (evaluateIn_eq_ok_iff.mpr hc))
    · exact .throw _
  | unary op operand span ih =>
    have hoperand := ih hm fun s hs => hparts s (List.mem_cons_of_mem _ hs)
    refine .bind hoperand (keeps_evaluate hk operand) fun c w hc hcw => .lift fun r hr => ?_
    have hfold : evaluateIn d (.unary op operand span) = .ok r :=
      evaluateIn_unary.mpr ⟨c, evaluateIn_eq_ok_iff.mpr hc, hr⟩
    exact .inl (hops.unary hcw hr (wide_of_evaluateIn hparts hfold))
  | binary op left right span ihl ihr =>
    have hleft := ihl (fun j hj => hm j (List.mem_append_left _ hj)) fun s hs =>
      hparts s (List.mem_cons_of_mem _ (List.mem_append_left _ hs))
    have hright := ihr (fun j hj => hm j (List.mem_append_right _ hj)) fun s hs =>
      hparts s (List.mem_cons_of_mem _ (List.mem_append_right _ hs))
    refine .bind hleft (keeps_evaluate hk left) fun l l' hl hsame => ?_
    refine .bind hright (keeps_evaluate hk right) fun r r' hr hsame' => .lift fun c hc => ?_
    have hfoldl := evaluateIn_eq_ok_iff.mpr hl
    have hfold : evaluateIn d (.binary op left right span) = .ok c :=
      evaluateIn_binary.mpr ⟨l, r, hfoldl, evaluateIn_eq_ok_iff.mpr hr, hc⟩
    have hhigh := not_needsHigh (hparts _ (Expr.self_mem_parts _)).1 hfoldl
    exact hops.binary hsame hsame' hhigh hc (wide_of_evaluateIn hparts hfold)
  | parenthesized inner span ih =>
    exact ih hm fun s hs => hparts s (List.mem_cons_of_mem _ hs)
  | overflowContext isChecked inner span ih =>
    exact ih hm fun s hs => hparts s (List.mem_cons_of_mem _ hs)
  | cast type operand span ih =>
    have hoperand := ih hm fun s hs => hparts s (List.mem_cons_of_mem _ hs)
    rw [evaluate_cast, Operators.evaluate]
    refine .bind hoperand (keeps_evaluate hk operand) fun c w hc hcw => .pure ?_
    have hfold : evaluateIn d (.cast type operand span) = .ok (d.castTo type c) :=
      evaluateIn_cast.mpr ⟨c, evaluateIn_eq_ok_iff.mpr hc, rfl⟩
    exact sameLow_castTo hcw type (wide_of_evaluateIn hparts hfold)
  | unsupported text span => exact .throw _

/-! ## What takes part in a value -/

/-- The expression stands in an initializer on which the value of the node may rest. -/
def TakesPart (d : EnumDecl) (s : Expr) (n : Node) : Prop :=
  ∃ e : Expr, ReflTransGen (DependsOn d) n (.initializer e) ∧ s ∈ e.parts

variable {s : Expr}

theorem takesPart_initializer_iff : TakesPart d s (.initializer e) ↔
    s ∈ e.parts ∨ ∃ j ∈ siblings d e, TakesPart d s (.member j) := by
  constructor
  · rintro ⟨e', hreach, hs⟩
    obtain heq | ⟨n, hstep, hrest⟩ := ReflTransGen.cases_head hreach
    · cases heq
      exact .inl hs
    · cases hstep with
      | name named => exact .inr ⟨_, named, e', hrest, hs⟩
  · rintro (hs | ⟨j, hj, e', hreach, hs⟩)
    · exact ⟨e, .refl, hs⟩
    · exact ⟨e', hreach.head (.name hj), hs⟩

theorem takesPart_iff_of_siblings (h : siblings d e = []) :
    TakesPart d s (.initializer e) ↔ s ∈ e.parts := by
  simp [takesPart_initializer_iff, h]

theorem takesPart_member_iff {i : Nat} : TakesPart d s (.member i) ↔
    ∃ a e, anchor? d.members i = some (a, e) ∧ TakesPart d s (.initializer e) := by
  constructor
  · rintro ⟨e', hreach, hs⟩
    obtain heq | ⟨n, hstep, hrest⟩ := ReflTransGen.cases_head hreach
    · cases heq
    · cases hstep with
      | anchor hanchor => exact ⟨_, _, hanchor, e', hrest, hs⟩
  · rintro ⟨a, e, hanchor, e', hreach, hs⟩
    exact ⟨e', hreach.head (.anchor hanchor), hs⟩

/-- In a narrow enum the values of the members are the same. -/
theorem follows_memberValue (hops : ops.Mirrors wide lax) (hnarrow : d.underlying.bits ≤ 32)
    (idle : List Nat) (i : Nat)
    (hparts : ∀ s, TakesPart d s (.member i) → ¬ SeesHighBits d s ∧ (IsULong d s → wide)) :
    Follows d lax (memberValue d idle i) (ops.memberValue d idle i) Eq := by
  rw [memberValue, Operators.memberValue]
  refine .get_bind fun s hs => ?_
  cases hlookup : s.lookup i with
  | some v => exact .pure rfl
  | none =>
  cases hanchor : anchor? d.members i with
  | none => exact .of_keeps (.remember (.counted hanchor)) fun _ _ => rfl
  | some found =>
    obtain ⟨a, e⟩ := found
    have self := anchor?_anchor hanchor
    have hinitializer (s : Expr) (hs : TakesPart d s (.initializer e)) :=
      hparts s (takesPart_member_iff.mpr ⟨a, e, hanchor, hs⟩)
    have countOn (w w' : Int) (hw : HasValue d a w) (heq : w = w') :
        Follows d lax (countOn d i a w) (countOn d i a w') Eq :=
      heq ▸ .of_keeps (keeps_countOn hanchor hw) fun _ _ => rfl
    refine .get_bind fun s hs => ?_
    cases hbase : s.lookup a with
    | some w => exact .bind (P := HasValue d a) (.pure rfl) (.pure (hs a w hbase)) countOn
    | none =>
    dsimp only
    split
    · rename_i hmem
      have hmember (j : Nat) (hj : j ∈ siblings d e) := follows_memberValue hops hnarrow
        (idle.erase a) j fun s hs =>
          hinitializer s (takesPart_initializer_iff.mpr (.inr ⟨j, hj, hs⟩))
      have hkeeps := keeps_memberValue d (idle.erase a)
      have hself := follows_evaluate hops hkeeps hmember fun s hs =>
        hinitializer s (takesPart_initializer_iff.mpr (.inl hs))
      refine .bind hself (keeps_evaluate hkeeps e) fun c w hc hcw => ?_
      have hvalue := d.underlying.wrap_eq_of_modEq hnarrow hcw.value
      have ha : HasValue d a (d.underlying.wrap c.value) :=
        (hasValue_iff_denotes self).mpr ⟨c, hc, rfl⟩
      rw [← hvalue]
      exact .bind (.of_keeps (.remember ha) fun _ _ => rfl) (.remember ha) countOn
    · exact .bind (.throw _) (.throw _) countOn
termination_by idle.length
decreasing_by
  rename_i h
  exact length_erase_lt h

end Fold

namespace EnumDecl

open Fold Operators

variable {d : EnumDecl} {e : Expr} {text : String}

/-! ## Narrow enums -/

/-- The text of an initializer of a narrow enum is the same with operators that go like those of
folding. -/
theorem constantText_of_mirrors {ops : Operators} {wide lax : Prop} (hops : ops.Mirrors wide lax)
    (hnarrow : d.underlying.bits ≤ 32)
    (hparts : ∀ s, TakesPart d s (.initializer e) → ¬ SeesHighBits d s ∧ (IsULong d s → wide))
    (h : d.constantText e = .ok text) :
    ops.constantText d e = .ok text ∨ (lax ∧ ops.constantText d e = .error .overflow) := by
  obtain ⟨c, hfold, rfl⟩ := exists_of_constantText h
  obtain ⟨t, ht⟩ := run'_eq_ok.mp hfold
  have hmember (j : Nat) (hj : j ∈ siblings d e) := follows_memberValue hops hnarrow
    (List.range d.members.length) j fun s hs =>
      hparts s (takesPart_initializer_iff.mpr (.inr ⟨j, hj, hs⟩))
  have hrun := follows_evaluate hops (keeps_memberValue d _) hmember fun s hs =>
    hparts s (takesPart_initializer_iff.mpr (.inl hs))
  obtain ⟨w, hw, hsame⟩ | ⟨hlax, hoverflow⟩ := hrun [] c t Memo.sound_nil ht
  · left
    rw [Operators.constantText, run'_eq_ok.mpr ⟨t, hw⟩,
      d.underlying.wrap_eq_of_modEq hnarrow hsame.value]
    rfl
  · refine .inr ⟨hlax, ?_⟩
    rw [Operators.constantText]
    change ((ops.evaluate d _ e [] >>= fun p => .ok p.1).map _) = _
    rw [hoverflow]
    rfl

/-- In an enum of at most 32 bits the text of an initializer stays the same if the result of every
operator is truncated to its type, as long as no operator that looks at higher bits takes part.
Only the product of truncated operands may overflow, if values of `ulong` take part, and not if
products may be of any size. -/
theorem constantText_truncating (hnarrow : d.underlying.bits ≤ 32)
    (hlow : ∀ s, TakesPart d s (.initializer e) → ¬ SeesHighBits d s)
    (h : d.constantText e = .ok text) :
    (truncating.constantText d e = .ok text ∨
      (∃ s, TakesPart d s (.initializer e) ∧ IsULong d s) ∧
        truncating.constantText d e = .error .overflow) ∧
    truncatingExact.constantText d e = .ok text := by
  have hparts (s : Expr) (hs : TakesPart d s (.initializer e)) :
      ¬ SeesHighBits d s ∧ (IsULong d s → ∃ s, TakesPart d s (.initializer e) ∧ IsULong d s) :=
    ⟨hlow s hs, fun hulong => ⟨s, hs, hulong⟩⟩
  have hexact := constantText_of_mirrors (mirrors_truncatingExact _) hnarrow hparts h
  exact ⟨constantText_of_mirrors (mirrors_truncating _) hnarrow hparts h,
    hexact.resolve_right fun hfalse => hfalse.1⟩

/-- The initializer of `A` in `enum E : byte { A = uint.MaxValue + uint.MaxValue, B = A * 300 }`. -/
def twiceGreatest : Expr :=
  .binary .add (.name [⟨"uint", ⟨20, 24⟩⟩, ⟨"MaxValue", ⟨25, 33⟩⟩] ⟨20, 33⟩)
    (.name [⟨"uint", ⟨36, 40⟩⟩, ⟨"MaxValue", ⟨41, 49⟩⟩] ⟨36, 49⟩) ⟨20, 49⟩

def multipleOfFirst : Expr :=
  .binary .multiply (.name [⟨"A", ⟨55, 56⟩⟩] ⟨55, 56⟩) (.integer "300" ⟨59, 62⟩) ⟨55, 62⟩

/-- The enum `enum E : byte { A = uint.MaxValue + uint.MaxValue, B = A * 300 }`. -/
def narrowEnum : EnumDecl where
  attributes := []
  modifiers := []
  identifier := ⟨"E", ⟨5, 6⟩⟩
  base := some (.predefined "byte" ⟨9, 13⟩)
  members := [
    ⟨[], ⟨"A", ⟨16, 17⟩⟩, some twiceGreatest, ⟨16, 49⟩⟩,
    ⟨[], ⟨"B", ⟨51, 52⟩⟩, some multipleOfFirst, ⟨51, 62⟩⟩]
  span := ⟨0, 64⟩

theorem constantText_truncating_narrowEnum :
    narrowEnum.underlying.bits ≤ 32 ∧
      (∀ s, TakesPart narrowEnum s (.initializer multipleOfFirst) →
        ¬ SeesHighBits narrowEnum s) ∧
      narrowEnum.constantText multipleOfFirst = .ok "168" ∧
      truncating.constantText narrowEnum multipleOfFirst = .ok "168" := by
  have hnarrow : narrowEnum.underlying.bits ≤ 32 := by decide
  have hfold (e : Expr) : evaluateIn narrowEnum e = (evaluate narrowEnum
      (memberValueTo narrowEnum (fun _ _ => pure 0) 3 (List.range 2)) e).run' [] := by
    rw [memberValueTo_eq _ (by decide)]
    rfl
  have hcases (s : Expr) (hs : TakesPart narrowEnum s (.initializer multipleOfFirst)) :
      s ∈ multipleOfFirst.parts ++ twiceGreatest.parts := by
    have hsiblings : siblings narrowEnum multipleOfFirst = [0] := by decide
    rw [takesPart_initializer_iff, hsiblings] at hs
    obtain hs | ⟨j, hj, hs⟩ := hs
    · exact List.mem_append_left _ hs
    obtain rfl := List.mem_singleton.mp hj
    obtain ⟨a, e, hanchor, hs⟩ := takesPart_member_iff.mp hs
    cases hanchor
    exact List.mem_append_right _ ((takesPart_iff_of_siblings rfl).mp hs)
  have hlow (s : Expr) (hs : TakesPart narrowEnum s (.initializer multipleOfFirst)) :
      ¬ SeesHighBits narrowEnum s := by
    have hparts : ∀ s ∈ multipleOfFirst.parts ++ twiceGreatest.parts,
        ¬ SeesHighBits narrowEnum s := by
      simp [multipleOfFirst, twiceGreatest, Expr.parts, SeesHighBits]
    exact hparts s (hcases s hs)
  have hsigned (s : Expr) (hs : TakesPart narrowEnum s (.initializer multipleOfFirst)) :
      ¬ IsULong narrowEnum s := by
    rintro ⟨c, hc, hulong⟩
    rw [hfold] at hc
    have hs := hcases s hs
    simp only [multipleOfFirst, twiceGreatest, Expr.parts, List.cons_append, List.nil_append,
      List.mem_cons, List.not_mem_nil, or_false] at hs
    obtain rfl | rfl | rfl | rfl | rfl | rfl := hs <;> cases hc <;> cases hulong
  have htext : narrowEnum.constantText multipleOfFirst = .ok "168" := by
    rw [constantText, constant, hfold]
    rfl
  obtain ⟨hsame | ⟨⟨s, hs, hulong⟩, -⟩, -⟩ := constantText_truncating hnarrow hlow htext
  · exact ⟨hnarrow, hlow, htext, hsame⟩
  · exact absurd hulong (hsigned s hs)

def belowZero (offset : Nat) : Expr :=
  .parenthesized (.binary .subtract (.integer "0UL" ⟨offset + 1, offset + 4⟩)
    (.integer "1UL" ⟨offset + 7, offset + 10⟩) ⟨offset + 1, offset + 10⟩) ⟨offset, offset + 11⟩

/-- The initializer of `enum E { A = (0UL - 1UL) * (0UL - 1UL) }`. -/
def squareBelowZero : Expr := .binary .multiply (belowZero 13) (belowZero 27) ⟨13, 38⟩

/-- The enum `enum E { A = (0UL - 1UL) * (0UL - 1UL) }`. -/
def squareEnum : EnumDecl where
  attributes := []
  modifiers := []
  identifier := ⟨"E", ⟨5, 6⟩⟩
  base := none
  members := [⟨[], ⟨"A", ⟨9, 10⟩⟩, some squareBelowZero, ⟨9, 38⟩⟩]
  span := ⟨0, 40⟩

/-- Folding multiplies minus one by itself. The truncated operands are greatest values of `ulong`,
whose product does not fit. -/
theorem truncated_product_overflows :
    squareEnum.underlying.bits ≤ 32 ∧
      (∀ s, TakesPart squareEnum s (.initializer squareBelowZero) →
        ¬ SeesHighBits squareEnum s) ∧
      squareEnum.constantText squareBelowZero = .ok "1" ∧
      truncating.constantText squareEnum squareBelowZero = .error .overflow := by
  refine ⟨by decide, fun s hs => ?_, rfl, rfl⟩
  have hparts : ∀ s ∈ squareBelowZero.parts, ¬ SeesHighBits squareEnum s := by
    simp [squareBelowZero, belowZero, Expr.parts, SeesHighBits]
  exact hparts s ((takesPart_iff_of_siblings rfl).mp hs)

end EnumDecl

end DeclGen
