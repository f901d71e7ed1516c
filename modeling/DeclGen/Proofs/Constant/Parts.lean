import DeclGen.Proofs.Constant.Memo

/-!
# Folding part by part

The constant of an expression is made of those of its operands, each of which has the same constant
wherever it stands.

## Main definitions

* `Expr.parts`: an expression and all expressions in it
* `EnumDecl.castTo`: the constant that a cast makes of its operand's

## Main statements

* `Fold.evaluateIn_unary`, `Fold.evaluateIn_binary`, `Fold.evaluateIn_cast`: the constant of an
  expression, from those of its operands
-/

namespace DeclGen

def Expr.parts : Expr → List Expr
  | .integer text span => [.integer text span]
  | .character c span => [.character c span]
  | .name segments span => [.name segments span]
  | .unary op operand span => .unary op operand span :: operand.parts
  | .binary op left right span => .binary op left right span :: (left.parts ++ right.parts)
  | .parenthesized inner span => .parenthesized inner span :: inner.parts
  | .cast type operand span => .cast type operand span :: operand.parts
  | .overflowContext isChecked inner span => .overflowContext isChecked inner span :: inner.parts
  | .unsupported text span => [.unsupported text span]

theorem Expr.self_mem_parts (e : Expr) : e ∈ e.parts := by
  cases e <;> simp [parts]

theorem Expr.mem_parts_trans {e s u : Expr} (hs : s ∈ e.parts) (hu : u ∈ s.parts) :
    u ∈ e.parts := by
  induction e with
  | integer | character | name | unsupported =>
    obtain rfl := List.mem_singleton.mp hs
    exact hu
  | unary op operand span ih | cast type operand span ih =>
    rcases List.mem_cons.mp hs with rfl | hs
    · exact hu
    · exact List.mem_cons_of_mem _ (ih hs)
  | parenthesized inner span ih | overflowContext isChecked inner span ih =>
    rcases List.mem_cons.mp hs with rfl | hs
    · exact hu
    · exact List.mem_cons_of_mem _ (ih hs)
  | binary op left right span ihl ihr =>
    rcases List.mem_cons.mp hs with rfl | hs
    · exact hu
    rcases List.mem_append.mp hs with hs | hs
    · exact List.mem_cons_of_mem _ (List.mem_append_left _ (ihl hs))
    · exact List.mem_cons_of_mem _ (List.mem_append_right _ (ihr hs))

/-- The constant that a cast to a type makes of the constant of its operand: one of an integral
type, or one of the underlying type for any other type. -/
def EnumDecl.castTo (d : EnumDecl) (type : TypeExpr) (c : Constant) : Constant :=
  match Integral.ofType? type with
  | some target => ⟨target.wrap c.value, target⟩
  | none => ⟨c.value, d.underlying⟩

namespace Fold

variable {d : EnumDecl} {op : UnaryOperator} {bop : BinaryOperator} {operand left right : Expr}
  {type : TypeExpr} {span : Span} {c : Constant}

theorem evaluate_cast (member : Nat → FoldM Int) : evaluate d member (.cast type operand span) =
    evaluate d member operand >>= fun c => pure (d.castTo type c) := by
  rw [evaluate]
  congr 1
  funext c
  unfold EnumDecl.castTo
  cases Integral.ofType? type <;> rfl

theorem denote_cast (env : Nat → Int) : denote d env (.cast type operand span) =
    denote d env operand >>= fun c => .ok (d.castTo type c) := by
  rw [denote]
  congr 1
  funext c
  unfold EnumDecl.castTo
  cases Integral.ofType? type <;> rfl

theorem evaluateIn_unary : evaluateIn d (.unary op operand span) = .ok c ↔
    ∃ x, evaluateIn d operand = .ok x ∧ Constant.applyUnary op x = .ok c := by
  simp only [evaluateIn_eq_ok_iff]
  constructor
  · rintro ⟨env, henv, hval⟩
    obtain ⟨x, hx, hc⟩ := exists_of_bind_eq_ok hval
    exact ⟨x, ⟨env, henv, hx⟩, hc⟩
  · rintro ⟨x, ⟨env, henv, hx⟩, hc⟩
    refine ⟨env, henv, ?_⟩
    rw [denote, hx]
    exact hc

theorem evaluateIn_binary : evaluateIn d (.binary bop left right span) = .ok c ↔
    ∃ l r, evaluateIn d left = .ok l ∧ evaluateIn d right = .ok r ∧
      Constant.applyBinary bop l r = .ok c := by
  simp only [evaluateIn_eq_ok_iff]
  constructor
  · rintro ⟨env, henv, hval⟩
    obtain ⟨l, hl, hval⟩ := exists_of_bind_eq_ok hval
    obtain ⟨r, hr, hc⟩ := exists_of_bind_eq_ok hval
    exact ⟨l, r, ⟨env, fun j hj => henv j (List.mem_append_left _ hj), hl⟩,
      ⟨env, fun j hj => henv j (List.mem_append_right _ hj), hr⟩, hc⟩
  · rintro ⟨l, r, ⟨envl, hsl, hl⟩, ⟨envr, hsr, hr⟩, hc⟩
    obtain ⟨env, henv, hel, her⟩ := exists_common_env hsl hsr
    refine ⟨env, henv, ?_⟩
    rw [denote, hel, her, hl, hr]
    exact hc

theorem evaluateIn_cast : evaluateIn d (.cast type operand span) = .ok c ↔
    ∃ x, evaluateIn d operand = .ok x ∧ c = d.castTo type x := by
  simp only [evaluateIn_eq_ok_iff]
  constructor
  · rintro ⟨env, henv, hval⟩
    rw [denote_cast] at hval
    obtain ⟨x, hx, hc⟩ := exists_of_bind_eq_ok hval
    exact ⟨x, ⟨env, henv, hx⟩, (Except.ok.inj hc).symm⟩
  · rintro ⟨x, ⟨env, henv, hx⟩, rfl⟩
    refine ⟨env, henv, ?_⟩
    rw [denote_cast, hx]
    rfl

end Fold

end DeclGen
