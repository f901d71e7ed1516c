import DeclGen.Proofs.Constant.Denotation

/-!
# Remembered values

Values that are remembered are values of their members, and a member that is being computed is used
by every member asked for meanwhile. So remembering values and refusing members that are being
computed does not show: the value computed for a member is the one it has.

## Main definitions

* `Fold.Memo.Sound`: a memo that holds values of members only
* `Fold.countOn`: the last step to the value of a member
* `Fold.Keeps`, `Fold.Gives`: what a computation does from a sound memo

## Main statements

* `EnumDecl.memberValue_eq_ok_iff`: the value computed for a member
* `Fold.evaluateIn_eq_ok_iff`: the value computed for an expression
-/

namespace DeclGen

namespace Fold

variable {d : EnumDecl} {α β : Type}

/-- The memo holds values of members only. -/
def Memo.Sound (d : EnumDecl) (s : Memo) : Prop := ∀ i v, s.lookup i = some v → HasValue d i v

theorem Memo.sound_nil : Memo.Sound d [] := by
  intro i v h
  simp at h

theorem Memo.Sound.cons {s : Memo} (hs : s.Sound d) {i : Nat} {v : Int} (hv : HasValue d i v) :
    Memo.Sound d ((i, v) :: s) := by
  intro j w hj
  rw [List.lookup_cons] at hj
  split at hj
  · simp_all
  · exact hs j w hj

/-- If the computation succeeds from a sound memo, then with a result of which `Q` holds and a
sound memo. -/
def Keeps (d : EnumDecl) (x : FoldM α) (Q : α → Prop) : Prop :=
  ∀ s a t, Memo.Sound d s → x s = .ok (a, t) → Q a ∧ Memo.Sound d t

/-- The computation succeeds from every sound memo, with the result `a` and a sound memo. -/
def Gives (d : EnumDecl) (x : FoldM α) (a : α) : Prop :=
  ∀ s, Memo.Sound d s → ∃ t, x s = .ok (a, t) ∧ Memo.Sound d t

theorem bind_eq_ok {x : FoldM α} {f : α → FoldM β} {s t : Memo} {b : β} :
    (x >>= f) s = .ok (b, t) ↔ ∃ a r, x s = .ok (a, r) ∧ f a r = .ok (b, t) := by
  change (x s >>= fun p => f p.1 p.2) = .ok (b, t) ↔ _
  cases x s with
  | error err => simp [bind, Except.bind]
  | ok p =>
    constructor
    · exact fun h => ⟨p.1, p.2, rfl, h⟩
    · rintro ⟨a, r, heq, h⟩
      cases heq
      exact h

/-! ## Computations that keep a memo sound -/

namespace Keeps

variable {x : FoldM α} {f : α → FoldM β} {P : α → Prop} {Q : β → Prop}

theorem pure {b : β} (h : Q b) : Keeps d (pure b : FoldM β) Q := by
  intro s b' t hs hx
  cases hx
  exact ⟨h, hs⟩

theorem throw (err : FoldError) : Keeps d (throw err : FoldM β) Q := by
  intro s b t hs hx
  cases hx

theorem lift {y : Except FoldError β} (h : ∀ b, y = .ok b → Q b) :
    Keeps d (liftM y : FoldM β) Q := by
  intro s b t hs hx
  cases y with
  | error err => cases hx
  | ok b' =>
    cases hx
    exact ⟨h b rfl, hs⟩

theorem bind (hx : Keeps d x P) (hf : ∀ a, P a → Keeps d (f a) Q) : Keeps d (x >>= f) Q := by
  intro s b t hs h
  obtain ⟨a, r, hxa, hfa⟩ := bind_eq_ok.mp h
  obtain ⟨ha, hr⟩ := hx s a r hs hxa
  exact hf a ha r b t hr hfa

theorem get_bind {f : Memo → FoldM β} (hf : ∀ s : Memo, s.Sound d → Keeps d (f s) Q) :
    Keeps d (get >>= f) Q := by
  intro s b t hs h
  exact hf s hs s b t hs h

theorem remember {i : Nat} {v : Int} (hv : HasValue d i v) :
    Keeps d (remember i v) (HasValue d i) := by
  intro s w t hs h
  cases h
  exact ⟨hv, hs.cons hv⟩

end Keeps

/-- If every member that is looked up has its value, what is found for an expression is denoted by
it. -/
theorem keeps_evaluate {member : Nat → FoldM Int} (hm : ∀ j, Keeps d (member j) (HasValue d j))
    (e : Expr) : Keeps d (evaluate d member e) (Denotes d e) := by
  induction e with
  | integer text span =>
    refine .bind (.lift fun _ h => h) fun v hv => .pure ⟨fun _ => 0, by simp [siblings], ?_⟩
    simp only [denote, hv]
    rfl
  | character c span => exact .pure ⟨fun _ => 0, by simp [siblings], rfl⟩
  | name segments span =>
    unfold evaluate
    split
    · rename_i c hc
      refine .pure ⟨fun _ => 0, by simp [siblings, hc], ?_⟩
      simp only [denote, hc]
      rfl
    · rename_i i hi
      refine .bind (hm i) fun v hv => .pure ⟨fun _ => v, by simpa [siblings, hi], ?_⟩
      simp only [denote, hi]
      rfl
    · exact .throw _
  | unary op operand span ih =>
    refine .bind ih fun c hc => .lift fun c' hc' => ?_
    obtain ⟨env, henv, hval⟩ := hc
    refine ⟨env, henv, ?_⟩
    simp only [denote, hval]
    exact hc'
  | binary op left right span ihl ihr =>
    refine .bind ihl fun l hl => .bind ihr fun r hr => .lift fun c hc => ?_
    obtain ⟨envl, hsl, hvl⟩ := hl
    obtain ⟨envr, hsr, hvr⟩ := hr
    obtain ⟨env, henv, hel, her⟩ := exists_common_env hsl hsr
    refine ⟨env, henv, ?_⟩
    simp only [denote, hel, her, hvl, hvr]
    exact hc
  | parenthesized inner span ih => exact ih
  | cast type operand span ih =>
    refine .bind ih fun c hc => ?_
    obtain ⟨env, henv, hval⟩ := hc
    split
    · rename_i target htarget
      refine .pure ⟨env, henv, ?_⟩
      simp only [denote, hval, htarget]
      rfl
    · rename_i htarget
      refine .pure ⟨env, henv, ?_⟩
      simp only [denote, hval, htarget]
      rfl
  | overflowContext isChecked inner span ih => exact ih
  | unsupported text span => exact .throw _

/-- The value of the member at an index, counted on from that of the initializer at another one. -/
def countOn (d : EnumDecl) (i a : Nat) (base : Int) : FoldM Int := do
  let v ← (Constant.checked (base + (i - a : Nat)) : Except FoldError Int)
  remember i (d.underlying.wrap v)

theorem keeps_countOn {i a : Nat} {e : Expr} {w : Int}
    (anchor : anchor? d.members i = some (a, e)) (hw : HasValue d a w) :
    Keeps d (countOn d i a w) (HasValue d i) := by
  refine .bind (.lift fun _ h => h) fun v hv => .remember ?_
  obtain ⟨fits, rfl⟩ := Constant.of_checked_eq_ok hv
  exact (hasValue_iff_counted anchor).mpr ⟨w, hw, fits, rfl⟩

/-- Fewer initializers are idle while one of them is being computed. -/
theorem length_erase_lt {idle : List Nat} {a : Nat} (h : a ∈ idle) :
    (idle.erase a).length < idle.length := by
  rw [List.length_erase_of_mem h]
  have := List.length_pos_of_mem h
  omega

/-- A value that is found for a member is the member's value. -/
theorem keeps_memberValue (d : EnumDecl) (idle : List Nat) (i : Nat) :
    Keeps d (memberValue d idle i) (HasValue d i) := by
  rw [memberValue]
  refine .get_bind fun s hs => ?_
  split
  · rename_i v hv
    exact .pure (hs i v hv)
  split
  · rename_i none
    exact .remember (.counted none)
  · rename_i a e anchor
    have self := anchor?_anchor anchor
    have countOn (w : Int) (hw : HasValue d a w) := keeps_countOn anchor hw
    refine .get_bind fun s hs => ?_
    split
    · rename_i w hw
      exact .bind (.pure (hs a w hw)) countOn
    split
    · rename_i hmem
      have ih := keeps_memberValue d (idle.erase a)
      refine .bind (keeps_evaluate ih e) fun c hc => .bind (.remember ?_) countOn
      exact (hasValue_iff_denotes self).mpr ⟨c, hc, rfl⟩
    · exact .bind (.throw _) countOn
termination_by idle.length
decreasing_by
  rename_i h
  exact length_erase_lt h

/-! ## Computations that succeed -/

namespace Gives

variable {x : FoldM α} {f : α → FoldM β} {a : α} {b : β}

theorem pure (b : β) : Gives d (pure b : FoldM β) b := fun s hs => ⟨s, rfl, hs⟩

theorem lift {y : Except FoldError β} (h : y = .ok b) : Gives d (liftM y : FoldM β) b := by
  cases h
  exact fun s hs => ⟨s, rfl, hs⟩

theorem bind (hx : Gives d x a) (hf : Gives d (f a) b) : Gives d (x >>= f) b := by
  intro s hs
  obtain ⟨r, hxr, hr⟩ := hx s hs
  obtain ⟨t, hft, ht⟩ := hf r hr
  exact ⟨t, bind_eq_ok.mpr ⟨a, r, hxr, hft⟩, ht⟩

theorem get_bind {f : Memo → FoldM β} (hf : ∀ s : Memo, s.Sound d → Gives d (f s) b) :
    Gives d (get >>= f) b := fun s hs => hf s hs s hs

theorem remember {i : Nat} {v : Int} (hv : HasValue d i v) : Gives d (remember i v) v :=
  fun s hs => ⟨(i, v) :: s, rfl, hs.cons hv⟩

end Gives

theorem exists_of_bind_eq_ok {y : Except FoldError α} {f : α → Except FoldError β} {b : β}
    (h : y >>= f = .ok b) : ∃ a, y = .ok a ∧ f a = .ok b := by
  cases y with
  | error err => cases h
  | ok a => exact ⟨a, rfl, h⟩

/-- Conversely, an expression that denotes a constant where its names have values is evaluated to
it. -/
theorem gives_evaluate {member : Nat → FoldM Int} {env : Nat → Int} {e : Expr} {c : Constant}
    (hm : ∀ j ∈ siblings d e, Gives d (member j) (env j)) (h : denote d env e = .ok c) :
    Gives d (evaluate d member e) c := by
  induction e generalizing c with
  | integer text span =>
    obtain ⟨v, hv, hc⟩ := exists_of_bind_eq_ok h
    cases hc
    exact .bind (.lift hv) (.pure _)
  | character ch span =>
    cases h
    exact .pure _
  | name segments span =>
    unfold evaluate
    unfold denote at h
    unfold siblings at hm
    split at h <;> rename_i heq <;> simp only [heq] at hm ⊢
    · cases h
      exact .pure _
    · cases h
      exact .bind (hm _ (List.mem_singleton_self _)) (.pure _)
    · cases h
  | unary op operand span ih =>
    obtain ⟨v, hv, hc⟩ := exists_of_bind_eq_ok h
    exact .bind (ih hm hv) (.lift hc)
  | binary op left right span ihl ihr =>
    obtain ⟨l, hl, h⟩ := exists_of_bind_eq_ok h
    obtain ⟨r, hr, hc⟩ := exists_of_bind_eq_ok h
    have left := ihl (fun j hj => hm j (List.mem_append_left _ hj)) hl
    have right := ihr (fun j hj => hm j (List.mem_append_right _ hj)) hr
    exact .bind left (.bind right (.lift hc))
  | parenthesized inner span ih => exact ih hm h
  | cast type operand span ih =>
    obtain ⟨v, hv, hc⟩ := exists_of_bind_eq_ok h
    refine .bind (ih hm hv) ?_
    cases htarget : Integral.ofType? type with
    | some target =>
      simp only [htarget] at hc
      cases hc
      exact .pure _
    | none =>
      simp only [htarget] at hc
      cases hc
      exact .pure _
  | overflowContext isChecked inner span ih => exact ih hm h
  | unsupported text span => cases h

/-- The value of a member is found, as long as each member being computed uses it. -/
theorem gives_memberValue {i : Nat} {v : Int} (hv : HasValue d i v) {idle : List Nat}
    (busy : ∀ b < d.members.length, b ∉ idle → Relation.TransGen (Uses d) i b) :
    Gives d (memberValue d idle i) v := by
  induction hv generalizing idle with
  | @counted i none =>
    rw [memberValue]
    refine .get_bind fun s hs => ?_
    split
    · rename_i v hv
      rw [(hs i v hv).unique (.counted none)]
      exact .pure _
    · simp only [none]
      exact .remember (.counted none)
  | @anchored i a e env c anchor siblings value fits ih =>
    have self := anchor?_anchor anchor
    have hi := HasValue.anchored anchor siblings value fits
    have ha : HasValue d a (d.underlying.wrap c.value) :=
      (hasValue_iff_denotes self).mpr ⟨c, ⟨env, siblings, value⟩, rfl⟩
    have countOn : Gives d (countOn d i a (d.underlying.wrap c.value)) _ :=
      .bind (.lift (Constant.checked_of_fits fits)) (.remember hi)
    rw [memberValue]
    refine .get_bind fun s hs => ?_
    split
    · rename_i v hv
      rw [(hs i v hv).unique hi]
      exact .pure _
    simp only [anchor]
    refine .get_bind fun s hs => ?_
    split
    · rename_i w hw
      rw [(hs a w hw).unique ha]
      exact .bind (.pure _) countOn
    -- Were the initializer being computed already, the member would use itself.
    have hmem : a ∈ idle := by
      refine Decidable.byContradiction fun hnot => ?_
      have huse := busy a (anchor?_lt_length anchor) hnot
      exact hi.not_transGen (transGen_of_anchor? self anchor huse)
    rw [if_pos hmem]
    refine .bind (gives_evaluate (fun j hj => ih j hj fun b hb hidle => ?_) value)
      (.bind (.remember ha) countOn)
    by_cases hab : b = a
    · exact .single ⟨a, e, hab ▸ self, hj⟩
    · have hb' := busy b hb fun h => hidle ((List.mem_erase_of_ne hab).mpr h)
      exact hb'.head ⟨a, e, anchor, hj⟩

/-! ## What is computed -/

theorem run'_eq_ok {x : FoldM α} {a : α} {s : Memo} :
    x.run' s = .ok a ↔ ∃ t, x s = .ok (a, t) := by
  change (x s >>= fun p => .ok p.1) = .ok a ↔ _
  constructor
  · intro h
    obtain ⟨p, hp, heq⟩ := exists_of_bind_eq_ok h
    cases heq
    exact ⟨p.2, hp⟩
  · rintro ⟨t, ht⟩
    rw [ht]
    rfl

theorem not_busy_at_start {i b : Nat} (hb : b < d.members.length)
    (hidle : b ∉ List.range d.members.length) : Relation.TransGen (Uses d) i b :=
  absurd (List.mem_range.mpr hb) hidle

/-- The value computed for an expression is the one its names give it. -/
theorem evaluateIn_eq_ok_iff {e : Expr} {c : Constant} :
    evaluateIn d e = .ok c ↔ Denotes d e c := by
  rw [evaluateIn, run'_eq_ok]
  constructor
  · rintro ⟨t, ht⟩
    exact (keeps_evaluate (keeps_memberValue d _) e [] c t Memo.sound_nil ht).1
  · rintro ⟨env, henv, hval⟩
    have hm j (hj : j ∈ siblings d e) := gives_memberValue (henv j hj) fun _ => not_busy_at_start
    obtain ⟨t, ht, -⟩ := gives_evaluate hm hval [] Memo.sound_nil
    exact ⟨t, ht⟩

end Fold

namespace EnumDecl

def memberValue (d : EnumDecl) (i : Nat) : Except FoldError Int :=
  (Fold.memberValue d (List.range d.members.length) i).run' []

/-- The value computed for a member is the one it has. -/
theorem memberValue_eq_ok_iff {d : EnumDecl} {i : Nat} {v : Int} :
    d.memberValue i = .ok v ↔ Fold.HasValue d i v := by
  rw [memberValue, Fold.run'_eq_ok]
  constructor
  · rintro ⟨t, ht⟩
    exact (Fold.keeps_memberValue d _ i [] v t Fold.Memo.sound_nil ht).1
  · intro h
    obtain ⟨t, ht, -⟩ :=
      Fold.gives_memberValue h (fun _ => Fold.not_busy_at_start) [] Fold.Memo.sound_nil
    exact ⟨t, ht⟩

end EnumDecl

end DeclGen
