import DeclGen.Grammar.Expr
import DeclGen.Proofs.Constant.Parts
import DeclGen.Proofs.Grammar.Gives

/-!
# Climbing by precedence

Reading with a bound ends where no operator comes that binds at least as tightly as the bound. So
the operator behind a right operand binds at most as tightly as the one before it, and every tree
that is read has the shape that precedence dictates: a left operand binds at least as tightly as its
operation, a right operand more tightly.

## Main definitions

* `Expr.Every`: what holds of an expression and of all expressions in it
* `Expr.Binds`, `Expr.Climbs`: the shape that precedence dictates at one node
* `Stopped`: no operator comes that binds as tightly as a bound

## Main statements

* `climbs_constantExpr`: the shape of constant expressions
-/

namespace DeclGen

namespace Expr

def isBinary : Expr → Bool
  | binary .. => true
  | _ => false

/-- If the expression is a binary operation, its operator binds at least as tightly as `least`. -/
def Binds (least : Nat) : Expr → Prop
  | binary op _ _ _ => least ≤ op.precedence
  | _ => True

instance (least : Nat) : (e : Expr) → Decidable (e.Binds least)
  | binary op _ _ _ => inferInstanceAs (Decidable (least ≤ op.precedence))
  | integer .. | character .. | name .. | unary .. | parenthesized .. | cast .. | overflowContext ..
  | unsupported .. => isTrue trivial

/-- What precedence dictates for the operands of the expression. Operations associate to the left,
and an operand of a unary operator or a cast is not a binary operation. -/
def Climbs : Expr → Prop
  | binary op left right _ => left.Binds op.precedence ∧ right.Binds (op.precedence + 1)
  | unary _ operand _ | cast _ operand _ => operand.isBinary = false
  | _ => True

instance : DecidablePred Climbs
  | binary op left right _ =>
    inferInstanceAs (Decidable (left.Binds op.precedence ∧ right.Binds (op.precedence + 1)))
  | unary _ operand _ | cast _ operand _ => inferInstanceAs (Decidable (operand.isBinary = false))
  | integer .. | character .. | name .. | parenthesized .. | overflowContext .. | unsupported .. =>
    isTrue trivial

/-- The property holds of the expression and of all expressions in it. -/
def Every (P : Expr → Prop) (e : Expr) : Prop := ∀ p ∈ e.parts, P p

instance {P : Expr → Prop} [DecidablePred P] : DecidablePred (Every P) :=
  fun e => List.decidableBAll P e.parts

section

variable {P : Expr → Prop} {e operand l r inner : Expr} {op : UnaryOperator} {bop : BinaryOperator}
  {type : TypeExpr} {isChecked : Bool} {span : Span}

namespace Every

theorem self (h : e.Every P) : P e := h e e.self_mem_parts

theorem of_parts_eq (hparts : e.parts = [e]) (h : P e) : e.Every P := by
  intro p hp
  rw [hparts] at hp
  exact List.mem_singleton.mp hp ▸ h

theorem unary_iff :
    (unary op operand span).Every P ↔ P (unary op operand span) ∧ operand.Every P :=
  List.forall_mem_cons

theorem cast_iff :
    (cast type operand span).Every P ↔ P (cast type operand span) ∧ operand.Every P :=
  List.forall_mem_cons

theorem parenthesized_iff :
    (parenthesized inner span).Every P ↔ P (parenthesized inner span) ∧ inner.Every P :=
  List.forall_mem_cons

theorem overflowContext_iff : (overflowContext isChecked inner span).Every P ↔
    P (overflowContext isChecked inner span) ∧ inner.Every P :=
  List.forall_mem_cons

theorem binary_iff :
    (binary bop l r span).Every P ↔ P (binary bop l r span) ∧ l.Every P ∧ r.Every P :=
  List.forall_mem_cons.trans (and_congr_right fun _ => List.forall_mem_append)

end Every

end

theorem Binds.mono {e : Expr} {least more : Nat} (h : e.Binds more) (hle : least ≤ more) :
    e.Binds least := by
  cases e with
  | binary => exact Nat.le_trans hle h
  | _ => trivial

theorem binds_zero (e : Expr) : e.Binds 0 := by
  cases e with
  | binary => exact Nat.zero_le _
  | _ => trivial

theorem binds_of_isBinary {e : Expr} {least : Nat} (h : e.isBinary = false) : e.Binds least := by
  cases e with
  | binary => cases h
  | _ => trivial

end Expr

namespace Grammar

open DeclGen.Grammar.Parser DeclGen.Text

variable {s : List Char} {least : Nat} {op : BinaryOperator}

/-! ## What comes next -/

def nextOperator? (s : List Char) : Option BinaryOperator :=
  (binaryOperator? (s.drop (triviaLength s))).map (·.1)

/-- No operator comes next that binds at least as tightly as `least`. -/
def Stopped (least : Nat) (s : List Char) : Prop :=
  ∀ op ∈ nextOperator? s, op.precedence < least

theorem Stopped.mono {more : Nat} (h : Stopped least s) (hle : least ≤ more) : Stopped more s :=
  fun op hop => Nat.lt_of_lt_of_le (h op hop) hle

/-- The text goes on with nothing that belongs to the right operand of the expression, if this is a
binary operation. -/
def EndsAt (s : List Char) : Expr → Prop
  | .binary op _ _ _ => Stopped (op.precedence + 1) s
  | _ => True

theorem endsAt_of_isBinary {e : Expr} (h : e.isBinary = false) : EndsAt s e := by
  cases e with
  | binary => cases h
  | _ => trivial

/-- An expression of a tight operator ends where no loose one comes. -/
theorem endsAt_of_stopped {e : Expr} (h : e.Binds least) (hs : Stopped least s) : EndsAt s e := by
  cases e with
  | binary op left right span => exact hs.mono (Nat.le_succ_of_le h)
  | _ => trivial

/-- An operator behind an expression that ends there binds at most as tightly as the expression. -/
theorem EndsAt.binds {e : Expr} (h : EndsAt s e) (hop : op ∈ nextOperator? s) :
    e.Binds op.precedence := by
  cases e with
  | binary op' left right span => exact Nat.le_of_lt_succ (h op hop)
  | _ => trivial

/-- An operator is read if one comes next that binds tightly enough. -/
theorem operatorFrom_cases (least : Nat) (s : List Char) :
    (Stopped least s ∧ Fails (operatorFrom least) s) ∨
      ∃ op t, op ∈ nextOperator? s ∧ least ≤ op.precedence ∧
        Reads (operatorFrom least) s t (· = op) := by
  have htrivia : Reads trivia s (s.drop (triviaLength s)) fun _ => True :=
    fun o => ⟨(), _, rfl, trivial⟩
  cases hnext : binaryOperator? (s.drop (triviaLength s)) with
  | none =>
    refine .inl ⟨by simp [Stopped, nextOperator?, hnext], .bind htrivia fun _ _ => .ahead_bind ?_⟩
    rw [hnext]
    exact .fail
  | some found =>
    obtain ⟨op, n⟩ := found
    by_cases hlt : op.precedence < least
    · refine .inl ⟨by simpa [Stopped, nextOperator?, hnext] using hlt, ?_⟩
      refine .bind htrivia fun _ _ => .ahead_bind ?_
      simp only [hnext, if_pos hlt]
      exact .fail
    · have hop : op ∈ nextOperator? s := by simp [nextOperator?, hnext]
      refine .inr ⟨op, (s.drop (triviaLength s)).drop n, hop, Nat.le_of_not_lt hlt, ?_⟩
      refine htrivia.bind fun _ _ => .ahead_bind ?_
      simp only [hnext, if_neg hlt]
      exact (Reads.take n).bind fun _ _ => .pure rfl

theorem fails_operatorFrom_of_stopped (h : Stopped least s) : Fails (operatorFrom least) s := by
  rcases operatorFrom_cases least s with ⟨-, hfails⟩ | ⟨op, t, hop, hle, -⟩
  · exact hfails
  · exact absurd (h op hop) (Nat.not_lt_of_le hle)

/-- Where no operator is read, none comes next that binds tightly enough. -/
theorem gives_attempt_operatorFrom (least : Nat) (s : List Char) :
    Gives (attempt (operatorFrom least)) s fun r t => match r with
      | none => t = s ∧ Stopped least s
      | some op => op ∈ nextOperator? s ∧ least ≤ op.precedence := by
  rcases operatorFrom_cases least s with ⟨hstopped, hfails⟩ | ⟨op, t, hop, hle, hreads⟩
  · refine .of_reads (Reads.attempt_none hfails) ?_
    rintro _ rfl
    exact ⟨rfl, hstopped⟩
  · refine .of_reads hreads.attempt ?_
    rintro _ ⟨_, rfl, rfl⟩
    exact ⟨hop, hle⟩

/-! ## Operands -/

section

variable {expr self : Parser Expr}

theorem climbs_inParentheses (hexpr : Yields expr (Expr.Every Expr.Climbs)) :
    Yields (inParentheses expr) (Expr.Every Expr.Climbs) :=
  .bind_right fun _ => hexpr.bind fun _ he => .bind_right fun _ => .pure he

/-- Binary operations in an operand stand inside brackets only, where `expr` reads them. -/
theorem climbs_primaryExpr (hexpr : Yields expr (Expr.Every Expr.Climbs)) :
    Yields (primaryExpr expr) fun e => e.Every Expr.Climbs ∧ e.isBinary = false := by
  have hinner := climbs_inParentheses hexpr
  have hname : Yields nameExpr fun e => e.Every Expr.Climbs ∧ e.isBinary = false := by
    refine .bind_right fun start => .bind_right fun first => .bind_right fun isAliased => ?_
    split
    next =>
      refine .bind_right fun head => .bind_right fun others => .bind_right fun span => .pure ?_
      exact ⟨.of_parts_eq rfl trivial, rfl⟩
    next =>
      refine .bind_right fun head => .bind_right fun others => .bind_right fun span => .pure ?_
      exact ⟨.of_parts_eq rfl trivial, rfl⟩
  have hcontext (isChecked : Bool) (start : Nat) : Yields (do
      let _ ← word
      return Expr.overflowContext isChecked (← inParentheses expr) (← spanFrom start))
      fun e => e.Every Expr.Climbs ∧ e.isBinary = false := by
    refine .bind_right fun _ => hinner.bind fun e he => .bind_right fun span => .pure ?_
    exact ⟨Expr.Every.overflowContext_iff.mpr ⟨trivial, he⟩, rfl⟩
  refine .bind_right fun start => .bind_right fun s => ?_
  split
  next => exact .bind_right fun _ => .bind_right fun span => .pure ⟨.of_parts_eq rfl trivial, rfl⟩
  next =>
    split
    next => exact .bind_right fun _ => .bind_right fun span => .pure ⟨.of_parts_eq rfl trivial, rfl⟩
    next =>
      refine .bind_right fun found => ?_
      split
      next => exact hcontext true start
      next => exact hcontext false start
      next => exact hname
  next => exact hname

theorem climbs_unaryExprOf (hexpr : Yields expr (Expr.Every Expr.Climbs))
    (hself : Yields self fun e => e.Every Expr.Climbs ∧ e.isBinary = false) :
    Yields (unaryExprOf expr self) fun e => e.Every Expr.Climbs ∧ e.isBinary = false := by
  have hcast : Yields (castExpr self) fun e => e.Every Expr.Climbs ∧ e.isBinary = false := by
    refine .bind_right fun start => .bind_right fun type => hself.bind fun e he => ?_
    exact .bind_right fun span => .pure ⟨Expr.Every.cast_iff.mpr ⟨he.2, he.1⟩, rfl⟩
  refine .bind_right fun _ => .bind_right fun start => .bind_right fun s => ?_
  split
  next =>
    refine .bind_right fun _ => hself.bind fun e he => .bind_right fun span => .pure ?_
    exact ⟨Expr.Every.unary_iff.mpr ⟨he.2, he.1⟩, rfl⟩
  next =>
    split
    next =>
      refine hcast.attempt.bind fun r hr => ?_
      cases r with
      | some e => exact .pure (hr e rfl)
      | none =>
        refine (climbs_inParentheses hexpr).bind fun e he => .bind_right fun span => .pure ?_
        exact ⟨Expr.Every.parenthesized_iff.mpr ⟨trivial, he⟩, rfl⟩
    next => exact climbs_primaryExpr hexpr

theorem climbs_unaryExpr (hexpr : Yields expr (Expr.Every Expr.Climbs)) :
    Yields (unaryExpr expr) fun e => e.Every Expr.Climbs ∧ e.isBinary = false :=
  Yields.fix (P := fun _ (e : Expr) => e.Every Expr.Climbs ∧ e.isBinary = false)
    (fun _ hself _ => climbs_unaryExprOf hexpr (hself ())) ()

end

/-! ## Operations -/

/-- What reading with a bound gives: a tree of the right shape that binds tightly enough, and a text
that does not go on with it. -/
def Climbed (least : Nat) (e : Expr) (t : List Char) : Prop :=
  e.Every Expr.Climbs ∧ e.Binds least ∧ Stopped least t

section

variable {self : Nat → Parser Expr} (hself : ∀ i s, Gives (self i) s (Climbed i))

include hself

theorem gives_operation? (least : Nat) (s : List Char) :
    Gives (operation? self least) s fun r t => match r with
      | none => t = s ∧ Stopped least s
      | some (op, right) => op ∈ nextOperator? s ∧ least ≤ op.precedence ∧
          Climbed (op.precedence + 1) right t := by
  refine (gives_attempt_operatorFrom least s).bind fun r t hr => ?_
  cases r with
  | none => exact .pure hr
  | some op => exact (hself _ t).bind fun right u hright => .pure ⟨hr.1, hr.2, hright⟩

/-- Operations make a tree of the right shape from one that ends where they start. Every further
operator binds at most as tightly as the one before it, because the operand between them has ended
there. -/
theorem gives_operations (least : Nat) (s : List Char) :
    Gives (many (operation? self least)) s fun others t => ∀ left : Expr,
      left.Every Expr.Climbs → left.Binds least → EndsAt s left →
        Climbed least (others.foldl Expr.combine left) t := by
  refine Gives.many (R := fun s others t => ∀ left : Expr, left.Every Expr.Climbs →
    left.Binds least → EndsAt s left → Climbed least (others.foldl Expr.combine left) t)
    (fun s => ?_) s
  refine (gives_operation? hself least s).mono fun r t hr => ?_
  cases r with
  | none =>
    obtain ⟨rfl, hstopped⟩ := hr
    exact fun left hleft hbinds _ => ⟨hleft, hbinds, hstopped⟩
  | some operation =>
    obtain ⟨op, right⟩ := operation
    obtain ⟨hop, hle, hright, hbinds, hstopped⟩ := hr
    intro others u hothers left hleft _ hends
    have hnode : (Expr.combine left (op, right)).Climbs := ⟨hends.binds hop, hbinds⟩
    exact hothers _ (Expr.Every.binary_iff.mpr ⟨hnode, hleft, hright⟩) hle hstopped

theorem gives_binaryExprOf (least : Nat) (s : List Char) :
    Gives (binaryExprOf self least) s (Climbed least) := by
  have hexpr : Yields (self 0) (Expr.Every Expr.Climbs) :=
    .of_gives fun s => (hself 0 s).mono fun _ _ h => h.1
  refine Gives.bind (.of_yields (climbs_unaryExpr hexpr)) fun first t ⟨hfirst, hbinary⟩ => ?_
  refine (gives_operations hself least t).bind fun others u hothers => .pure ?_
  exact hothers first hfirst (Expr.binds_of_isBinary hbinary) (endsAt_of_isBinary hbinary)

end

/-- Every constant expression that is read has the shape that precedence dictates. -/
theorem climbs_constantExpr : Yields constantExpr (Expr.Every Expr.Climbs) :=
  .of_gives fun s => (Gives.fix_of_forall (fun _ hself => gives_binaryExprOf hself) 0 s).mono
    fun _ _ h => h.1

end Grammar

end DeclGen
