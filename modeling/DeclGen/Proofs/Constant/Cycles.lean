import DeclGen.Proofs.Constant.Memo

/-!
# Circular definitions

An initializer rests on the members that it names, and a member on the nearest initializer at or
before it. An initializer from which a cycle can be reached has no value, and folding says that a
definition is circular only where there is such a cycle. In any case folding ends: it never has
more initializers open at a time than the enum has members.

## Main definitions

* `Fold.Node`, `Fold.DependsOn`: the graph of initializers and members
* `Fold.ReachesCycle`: a cycle can be reached
* `Fold.Closes`: a cycle is reached through the initializer of a member
* `Fold.memberValueTo`: the value of a member, computed with a bounded number of open initializers

## Main statements

* `Fold.memberValueTo_eq`: the bound is never reached
* `EnumDecl.cycles_found`: when folding fails, and when it says that a definition is circular
-/

namespace DeclGen

namespace Fold

open Relation

variable {d : EnumDecl} {i j a : Nat} {e : Expr} {α β : Type}

/-- What the value of an initializer may rest on: initializers and members. -/
inductive Node where
  | initializer (e : Expr)
  | member (i : Nat)

/-- An initializer depends on each member that a name in it means, and a member on the nearest
initializer at or before it. -/
inductive DependsOn (d : EnumDecl) : Node → Node → Prop where
  | name {e : Expr} {i : Nat} (named : i ∈ siblings d e) : DependsOn d (.initializer e) (.member i)
  | anchor {i a : Nat} {e : Expr} (anchor : anchor? d.members i = some (a, e)) :
      DependsOn d (.member i) (.initializer e)

/-- From the node a node is reached that depends on itself. -/
def ReachesCycle (d : EnumDecl) (n : Node) : Prop :=
  ∃ m, ReflTransGen (DependsOn d) n m ∧ TransGen (DependsOn d) m m

/-! ## Values rest on no cycle -/

/-- Nothing that a node depends on in finitely many steps reaches a cycle. -/
theorem not_reachesCycle_of_acc {n : Node} (h : Acc (fun m n => DependsOn d n m) n) :
    ¬ ReachesCycle d n := by
  rintro ⟨m, hreach, hcycle⟩
  have hacc : Acc (TransGen fun m n => DependsOn d n m) m := by
    refine Acc.transGen ?_
    clear hcycle
    induction hreach with
    | refl => exact h
    | tail _ hstep ih => exact ih.inv hstep
  have hself : TransGen (fun m n => DependsOn d n m) m m := transGen_swap.mp hcycle
  clear hcycle hreach
  induction hacc with
  | intro m _ ih => exact ih m hself hself

/-- A member with a value depends on other nodes in finitely many steps only. -/
theorem HasValue.acc_dependsOn {v : Int} (hv : HasValue d i v) :
    Acc (fun m n => DependsOn d n m) (.member i) := by
  induction hv with
  | counted none =>
    refine ⟨_, fun m hm => ?_⟩
    cases hm with
    | anchor anchor => simp [none] at anchor
  | @anchored i a e env c anchor siblings value fits ih =>
    refine ⟨_, fun m hm => ?_⟩
    cases hm with
    | anchor anchor' =>
      obtain ⟨rfl, rfl⟩ : a = _ ∧ e = _ := by simpa [anchor] using anchor'
      refine ⟨_, fun m hm => ?_⟩
      cases hm with
      | name named => exact ih _ named

/-- An initializer with a value reaches no cycle. -/
theorem Denotes.not_reachesCycle {c : Constant} (h : Denotes d e c) :
    ¬ ReachesCycle d (.initializer e) := by
  obtain ⟨env, hsiblings, -⟩ := h
  refine not_reachesCycle_of_acc ⟨_, fun m hm => ?_⟩
  cases hm with
  | name named => exact (hsiblings _ named).acc_dependsOn

/-! ## Where a definition is found to be circular -/

/-- The computation does not find a definition to be circular. -/
def NeverCircular (y : Except FoldError α) : Prop := ∀ name, y ≠ .error (.circular name)

namespace NeverCircular

variable {y : Except FoldError α} {f : α → Except FoldError β}

theorem ok (a : α) : NeverCircular (.ok a : Except FoldError α) := by
  rintro name ⟨⟩

theorem error {err : FoldError} (h : ∀ name, err ≠ .circular name) :
    NeverCircular (.error err : Except FoldError α) :=
  fun name heq => h name (Except.error.inj heq)

theorem bind (hy : NeverCircular y) (hf : ∀ a, NeverCircular (f a)) : NeverCircular (y >>= f) := by
  cases y with
  | error err => exact fun name heq => hy name (by cases heq; rfl)
  | ok a => exact hf a

theorem map (hy : NeverCircular y) (g : α → β) : NeverCircular (y.map g) := by
  cases y with
  | error err => exact fun name heq => hy name (by cases heq; rfl)
  | ok a => exact .ok (g a)

theorem checked (v : Int) : NeverCircular (Constant.checked v) := by
  unfold Constant.checked
  split
  · exact .ok v
  · exact .error (by simp)

theorem accumulate (base : Nat) (text : String) (n : Nat) (s : List Char) :
    NeverCircular (Constant.accumulate base (.invalidLiteral text) n s) := by
  fun_induction Constant.accumulate base (.invalidLiteral text) n s with
  | case1 n => exact .ok n
  | case2 => exact .error (by simp)
  | case3 n c s digit hdigit hlt ih => exact ih
  | case4 => exact .error (by simp)

theorem literalValue (text : String) : NeverCircular (Constant.literalValue text) := by
  have hdigits (base : Nat) (s : List Char) :
      NeverCircular (Constant.digitsValue base (.invalidLiteral text) s) := by
    unfold Constant.digitsValue
    split
    · exact .error (by simp)
    · exact .error (by simp)
    · exact accumulate _ _ _ _
    · exact accumulate _ _ _ _
  unfold Constant.literalValue
  refine map ?_ Int.ofNat
  split <;> exact hdigits _ _

theorem applyUnary (op : UnaryOperator) (c : Constant) :
    NeverCircular (Constant.applyUnary op c) := by
  cases op with
  | plus => exact .ok _
  | minus => exact (checked _).bind fun v => .ok _
  | complement => exact .ok _

theorem applyBinary (op : BinaryOperator) (l r : Constant) :
    NeverCircular (Constant.applyBinary op l r) := by
  have hshift : NeverCircular (Constant.shift op l r) := by
    unfold Constant.shift
    split
    · exact .ok _
    · exact .error (by simp)
  have hquotient (f : Int → Int → Int) : NeverCircular (Constant.quotient f l.value r.value) := by
    unfold Constant.quotient
    split
    · exact .error (by simp)
    · split
      · exact .ok _
      · exact .error (by simp)
  cases op with
  | shiftLeft | shiftRight | unsignedShiftRight => exact hshift
  | multiply | add | subtract => exact (checked _).map _
  | divide | remainder => exact (hquotient _).map _
  | bitAnd | bitXor | bitOr => exact (ok _).map _

end NeverCircular

/-- If the computation finds the definition of a member to be circular, then `P` holds of the
name of the member. -/
def Blames (x : FoldM α) (P : String → Prop) : Prop :=
  ∀ s name, x s = .error (.circular name) → P name

namespace Blames

variable {x : FoldM α} {f : α → FoldM β} {P Q : String → Prop}

theorem mono (h : Blames x P) (hPQ : ∀ name, P name → Q name) : Blames x Q :=
  fun s name hx => hPQ name (h s name hx)

theorem pure (a : α) : Blames (pure a : FoldM α) P := by
  rintro s name ⟨⟩

theorem get : Blames (get : FoldM Memo) P := by
  rintro s name ⟨⟩

theorem remember (i : Nat) (v : Int) : Blames (remember i v) P := by
  rintro s name ⟨⟩

theorem throw {err : FoldError} (h : ∀ name, err = .circular name → P name) :
    Blames (throw err : FoldM α) P := by
  rintro s name ⟨⟩
  exact h name rfl

theorem lift {y : Except FoldError α} (hy : NeverCircular y) : Blames (liftM y : FoldM α) P := by
  intro s name h
  cases y with
  | error err =>
    cases h
    exact absurd rfl (hy name)
  | ok a => cases h

theorem bind (hx : Blames x P) (hf : ∀ a, Blames (f a) P) : Blames (x >>= f) P := by
  intro s name h
  change (x s >>= fun p => f p.1 p.2) = .error (.circular name) at h
  cases hs : x s with
  | error err =>
    rw [hs] at h
    cases h
    exact hx s name hs
  | ok p =>
    rw [hs] at h
    exact hf p.1 p.2 name h

end Blames

/-- An expression is found to be circular only where one of the members it names is. -/
theorem blames_evaluate {member : Nat → FoldM Int} {P : String → Prop}
    (hm : ∀ j ∈ siblings d e, Blames (member j) P) : Blames (evaluate d member e) P := by
  induction e with
  | integer text span => exact .bind (.lift (.literalValue text)) fun v => .pure _
  | character c span => exact .pure _
  | name segments span =>
    unfold evaluate
    unfold siblings at hm
    split <;> rename_i meaning <;> simp only [meaning] at hm
    · exact .pure _
    · exact .bind (hm _ (List.mem_singleton_self _)) fun v => .pure _
    · exact .throw (by simp)
  | unary op operand span ih => exact .bind (ih hm) fun c => .lift (.applyUnary op c)
  | binary op left right span ihl ihr =>
    refine .bind (ihl fun j hj => hm j (List.mem_append_left _ hj)) fun l => ?_
    refine .bind (ihr fun j hj => hm j (List.mem_append_right _ hj)) fun r => ?_
    exact .lift (.applyBinary op l r)
  | parenthesized inner span ih => exact ih hm
  | cast type operand span ih =>
    refine .bind (ih hm) fun c => ?_
    split
    · exact .pure _
    · exact .pure _
  | overflowContext isChecked inner span ih => exact ih hm
  | unsupported text span => exact .throw (by simp)

/-- From the node the initializer of the member with the name is reached, and it depends on
itself. -/
def Closes (d : EnumDecl) (n : Node) (name : String) : Prop :=
  ∃ a e, anchor? d.members a = some (a, e) ∧ name = memberName d a ∧
    ReflTransGen (DependsOn d) n (.initializer e) ∧
      TransGen (DependsOn d) (.initializer e) (.initializer e)

theorem Closes.head {n m : Node} {name : String} (h : Closes d m name) (step : DependsOn d n m) :
    Closes d n name := by
  obtain ⟨a, e, anchor, hname, hreach, hcycle⟩ := h
  exact ⟨a, e, anchor, hname, hreach.head step, hcycle⟩

theorem Closes.reachesCycle {n : Node} {name : String} (h : Closes d n name) :
    ReachesCycle d n := by
  obtain ⟨a, e, -, -, hreach, hcycle⟩ := h
  exact ⟨_, hreach, hcycle⟩

/-- A member is found to be circular only where a cycle is reached from it, as long as every
initializer that is being computed depends on it. -/
theorem blames_memberValue (d : EnumDecl) (idle : List Nat) (i : Nat)
    (busy : ∀ b e, anchor? d.members b = some (b, e) → b ∉ idle →
      TransGen (DependsOn d) (.initializer e) (.member i)) :
    Blames (memberValue d idle i) (Closes d (.member i)) := by
  rw [memberValue]
  refine .bind .get fun s => ?_
  split
  · exact .pure _
  split
  · exact .remember _ _
  · rename_i a e anchor
    have self := anchor?_anchor anchor
    have step : DependsOn d (.member i) (.initializer e) := .anchor anchor
    have countOn (w : Int) : Blames (countOn d i a w) (Closes d (.member i)) :=
      .bind (.lift (.checked _)) fun v => .remember _ _
    refine .bind .get fun s => ?_
    split
    · exact .bind (.pure _) countOn
    split
    · rename_i hmem
      refine .bind ?_ fun c => .bind (.remember _ _) countOn
      refine blames_evaluate fun j named => ?_
      have below : DependsOn d (.initializer e) (.member j) := .name named
      have ih := blames_memberValue d (idle.erase a) j fun b e' anchor' hb => ?_
      · exact ih.mono fun name h => (h.head below).head step
      by_cases hab : b = a
      · subst hab
        rw [self] at anchor'
        cases anchor'
        exact .single below
      · have hidle : b ∉ idle := fun h => hb ((List.mem_erase_of_ne hab).mpr h)
        exact ((busy b e' anchor' hidle).tail step).tail below
    · rename_i hbusy
      refine .bind (.throw fun name hname => ?_) countOn
      cases hname
      have cycle := (busy a e self hbusy).tail step
      exact ⟨a, e, self, rfl, .single step, cycle⟩
termination_by idle.length
decreasing_by
  rename_i h
  exact length_erase_lt h

/-! ## Folding ends -/

/-- What `memberValue` does for the member at an index, where `self` gives the values of members
while the initializers at fewer indices are idle. -/
def memberValueOf (d : EnumDecl) (self : List Nat → Nat → FoldM Int) (idle : List Nat) (i : Nat) :
    FoldM Int := do
  match (← get).lookup i with
  | some v => return v
  | none =>
    match anchor? d.members i with
    | none => remember i (d.underlying.wrap i)
    | some (a, initializer) =>
      let base ← match (← get).lookup a with
        | some v => pure v
        | none =>
          if a ∈ idle then do
            let c ← evaluate d (self (idle.erase a)) initializer
            remember a (d.underlying.wrap c.value)
          else throw (.circular (memberName d a))
      let v ← (Constant.checked (base + (i - a : Nat)) : Except FoldError Int)
      remember i (d.underlying.wrap v)

/-- The value of the member at an index, computed with at most `depth` initializers open inside one
another. The values of members that would be asked for further inside are those that `inside`
gives. -/
def memberValueTo (d : EnumDecl) (inside : List Nat → Nat → FoldM Int) :
    (depth : Nat) → (idle : List Nat) → Nat → FoldM Int
  | 0 => inside
  | depth + 1 => memberValueOf d (memberValueTo d inside depth)

theorem memberValue_eq_of (d : EnumDecl) (idle : List Nat) (i : Nat) :
    memberValue d idle i = memberValueOf d (memberValue d) idle i := by
  rw [memberValue]
  rfl

/-- The value of a member asks for further members only where its anchor is no longer idle. -/
theorem memberValueOf_congr {self self' : List Nat → Nat → FoldM Int} {idle : List Nat}
    (h : ∀ a ∈ idle, self (idle.erase a) = self' (idle.erase a)) :
    memberValueOf d self idle = memberValueOf d self' idle := by
  funext i
  unfold memberValueOf
  congr 1
  funext s
  split
  · rfl
  split
  · rfl
  · congr 1
    funext s
    split
    · rfl
    split
    · rename_i hmem
      rw [h _ hmem]
    · rfl

/-- Never are more initializers open inside one another than were idle, so nothing hangs on the
values of members that would be asked for further inside. -/
theorem memberValueTo_eq (inside : List Nat → Nat → FoldM Int) {depth : Nat} {idle : List Nat}
    (h : idle.length < depth) : memberValueTo d inside depth idle = memberValue d idle := by
  induction depth generalizing idle with
  | zero => omega
  | succ depth ih =>
    rw [memberValueTo, funext fun i => memberValue_eq_of d idle i]
    refine memberValueOf_congr fun a ha => ih ?_
    have hlt := length_erase_lt ha
    omega

/-! ## Cycles and errors -/

/-- Folding an expression finds the definition of a member to be circular only where a cycle is
reached through the initializer of that member. -/
theorem closes_of_evaluateIn {name : String} (h : evaluateIn d e = .error (.circular name)) :
    Closes d (.initializer e) name := by
  have hrun : Blames (evaluate d (memberValue d (List.range d.members.length)) e)
      (Closes d (.initializer e)) := by
    refine blames_evaluate fun j named => ?_
    have member := blames_memberValue d (List.range d.members.length) j fun b e' anchor idle =>
      absurd (List.mem_range.mpr (anchor?_lt_length anchor)) idle
    exact member.mono fun name h => h.head (.name named)
  refine hrun [] name ?_
  change (evaluate d _ e [] >>= fun p => .ok p.1) = _ at h
  cases hs : evaluate d (memberValue d (List.range d.members.length)) e [] with
  | error err =>
    rw [hs] at h
    cases h
    rfl
  | ok p =>
    rw [hs] at h
    cases h

end Fold

namespace EnumDecl

open Fold

/-- Folding an initializer ends, with at most as many initializers open inside one another as the
enum has members. If a cycle can be reached from the initializer, the result is an error. And it is
the error that the definition of a member is circular only if such a cycle is reached, through the
initializer that gives this member its value. -/
theorem cycles_found (d : EnumDecl) (e : Expr) :
    (∀ inside, (evaluate d (memberValueTo d inside (d.members.length + 1)
        (List.range d.members.length)) e).run' [] = evaluateIn d e) ∧
    (ReachesCycle d (.initializer e) → ∃ err, d.constantText e = .error err) ∧
    (∀ name, d.constantText e = .error (.circular name) →
      ReachesCycle d (.initializer e) ∧ Closes d (.initializer e) name) := by
  refine ⟨fun inside => ?_, fun hcycle => ?_, fun name h => ?_⟩
  · rw [memberValueTo_eq inside (by simp), evaluateIn]
  · cases hfold : evaluateIn d e with
    | error err => exact ⟨err, by rw [constantText, constant, hfold]; rfl⟩
    | ok c => exact absurd hcycle (evaluateIn_eq_ok_iff.mp hfold).not_reachesCycle
  · have hfold : evaluateIn d e = .error (.circular name) := by
      rw [constantText, constant] at h
      cases hfold : evaluateIn d e with
      | error err =>
        rw [hfold] at h
        cases h
        rfl
      | ok c =>
        rw [hfold] at h
        cases h
    exact ⟨(closes_of_evaluateIn hfold).reachesCycle, closes_of_evaluateIn hfold⟩

/-- The enum `enum E { A = C, B, C = B }`: `C` is defined by `B`, which counts on from `A`. -/
def roundabout : EnumDecl where
  attributes := []
  modifiers := []
  identifier := ⟨"E", ⟨5, 6⟩⟩
  base := none
  members := [
    ⟨[], ⟨"A", ⟨9, 10⟩⟩, some (.name [⟨"C", ⟨13, 14⟩⟩] ⟨13, 14⟩), ⟨9, 14⟩⟩,
    ⟨[], ⟨"B", ⟨16, 17⟩⟩, none, ⟨16, 17⟩⟩,
    ⟨[], ⟨"C", ⟨19, 20⟩⟩, some (.name [⟨"B", ⟨23, 24⟩⟩] ⟨23, 24⟩), ⟨19, 24⟩⟩]
  span := ⟨0, 26⟩

theorem cycles_found_roundabout :
    ReachesCycle roundabout (.initializer (.name [⟨"B", ⟨23, 24⟩⟩] ⟨23, 24⟩)) ∧
      Closes roundabout (.initializer (.name [⟨"B", ⟨23, 24⟩⟩] ⟨23, 24⟩)) "A" ∧
      roundabout.constantText (.name [⟨"B", ⟨23, 24⟩⟩] ⟨23, 24⟩) = .error (.circular "A") := by
  have hfold : roundabout.constantText (.name [⟨"B", ⟨23, 24⟩⟩] ⟨23, 24⟩) =
      .error (.circular "A") := by
    rw [constantText, constant, ← (cycles_found roundabout _).1 fun _ _ => pure 0]
    rfl
  obtain ⟨hcycle, hcloses⟩ := (cycles_found roundabout _).2.2 "A" hfold
  exact ⟨hcycle, hcloses, hfold⟩

end EnumDecl

end DeclGen
