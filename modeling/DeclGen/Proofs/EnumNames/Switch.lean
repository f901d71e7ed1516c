import DeclGen.Constant.Fold
import DeclGen.Proofs.EnumNames.Accounting
import Mathlib.Data.List.Nodup

/-!
# The switch of a method

The method of an enum is a switch with an arm for each value that occurs. The arm for a value is
that of the first member that has it, so the switch gives every value its first name and throws
exactly for the values that no member has.

## Main definitions

* `Ordinal.first?`: the first member with a value
* `Ordinal.switch`: what a switch does with a value

## Main statements

* `Ordinal.mem_distinct_iff`, `Ordinal.first?_distinct`: the members that get an arm
* `EnumTarget.switch_names`: the switch is the name function of the enum
-/

namespace DeclGen

namespace Ordinal

variable {seen : List Int} {os : List Ordinal} {o : Ordinal} {v : Int}

def first? (os : List Ordinal) (v : Int) : Option Ordinal := os.find? (·.value == v)

/-- The name that a switch with an arm for each of the members gives for a value. It takes the first
arm for the value, and throws if there is none. -/
def switch (arms : List Ordinal) (v : Int) : Option String :=
  (first? arms v).map (·.member.identifier.text)

theorem first?_eq_none_iff : first? os v = none ↔ ∀ o ∈ os, o.value ≠ v := by
  simp [first?, List.find?_eq_none]

theorem distinctFrom_sublist (seen : List Int) (os : List Ordinal) :
    (distinctFrom seen os).Sublist os := by
  fun_induction distinctFrom seen os with
  | case1 seen => exact .slnil
  | case2 seen o os hseen ih => exact .cons o ih
  | case3 seen o os hseen ih => exact .cons_cons o ih

/-- Behind values that have occurred, the first member of every other value is kept. -/
theorem first?_distinctFrom (hv : v ∉ seen) : first? (distinctFrom seen os) v = first? os v := by
  fun_induction distinctFrom seen os with
  | case1 seen => rfl
  | case2 seen o os hseen ih =>
    have hne : (o.value == v) = false := by grind
    rw [ih hv, first?, first?, List.find?_cons, hne]
  | case3 seen o os hseen ih =>
    unfold first? at ih ⊢
    grind

theorem value_notMem_of_mem_distinctFrom (ho : o ∈ distinctFrom seen os) : o.value ∉ seen := by
  fun_induction distinctFrom seen os <;> grind

theorem nodup_distinctFrom (seen : List Int) (os : List Ordinal) :
    ((distinctFrom seen os).map (·.value)).Nodup := by
  fun_induction distinctFrom seen os with
  | case1 seen => exact .nil
  | case2 seen o os hseen ih => exact ih
  | case3 seen o os hseen ih =>
    refine List.nodup_cons.mpr ⟨fun hmem => ?_, ih⟩
    obtain ⟨p, hp, hvalue⟩ := List.mem_map.mp hmem
    exact value_notMem_of_mem_distinctFrom hp (by simp [hvalue])

/-- Where no value occurs twice, or has occurred, all members are kept. -/
theorem distinctFrom_eq_self (hseen : ∀ o ∈ os, o.value ∉ seen) (h : (os.map (·.value)).Nodup) :
    distinctFrom seen os = os := by
  induction os generalizing seen with
  | nil => rfl
  | cons o os ih =>
    rw [List.map_cons, List.nodup_cons] at h
    have hnew : seen.contains o.value = false := by simpa using hseen o List.mem_cons_self
    have hrest : ∀ p ∈ os, p.value ∉ o.value :: seen := by
      intro p hp
      have hne : p.value ≠ o.value := fun heq => h.1 (heq ▸ List.mem_map_of_mem hp)
      exact fun hmem => (List.mem_cons.mp hmem).elim hne (hseen p (List.mem_cons_of_mem o hp))
    rw [distinctFrom, hnew, ih hrest h.2]
    rfl

/-- In a list without repeated values every member is the first of its value. -/
theorem first?_of_nodup (h : (os.map (·.value)).Nodup) (ho : o ∈ os) :
    first? os o.value = some o := by
  induction os with
  | nil => cases ho
  | cons p os ih =>
    rw [List.map_cons, List.nodup_cons] at h
    unfold first? at ih ⊢
    grind

@[simp] theorem first?_distinct (os : List Ordinal) (v : Int) :
    first? (distinct os) v = first? os v :=
  first?_distinctFrom List.not_mem_nil

/-- A member is kept exactly if it is the first of its value. -/
theorem mem_distinct_iff : o ∈ distinct os ↔ first? os o.value = some o := by
  constructor
  · intro ho
    rw [← first?_distinct]
    exact first?_of_nodup (nodup_distinctFrom [] os) ho
  · intro h
    rw [← first?_distinct] at h
    exact List.mem_of_find?_eq_some h

theorem mem_values_distinct_iff :
    v ∈ (distinct os).map (·.value) ↔ v ∈ os.map (·.value) := by
  have hmem (ps : List Ordinal) : v ∈ ps.map (·.value) ↔ first? ps v ≠ none := by
    simp [first?_eq_none_iff]
  rw [hmem, hmem, first?_distinct]

theorem distinct_distinct (os : List Ordinal) : distinct (distinct os) = distinct os :=
  distinctFrom_eq_self (fun _ _ => List.not_mem_nil) (nodup_distinctFrom [] os)

end Ordinal

/-! ## The switch of an enum -/

namespace Numbering

/-- A pass over members that does not fail gives each of them a value, in order. -/
theorem map_member_ordinals {evaluate : Expr → Except FoldError String} {previous : Option Int}
    {ms : List EnumMember} (h : (ofMembers evaluate previous ms).failure = none) :
    (ofMembers evaluate previous ms).ordinals.map (·.member) = ms := by
  fun_induction ofMembers evaluate previous ms with
  | case1 => rfl
  | case2 => cases h
  | case3 previous m ms v hv rest ih => rw [List.map_cons, ih h]

end Numbering

theorem EnumDecl.map_member_of_ordinals {d : EnumDecl} {evaluator : Evaluator} {os : List Ordinal}
    (h : d.ordinals evaluator = .ok os) : os.map (·.member) = d.members := by
  unfold ordinals at h
  split at h
  next => cases h
  next hnone =>
    cases h
    exact Numbering.map_member_ordinals hnone

namespace EnumTarget

open DeclGen.Ordinal

/-- The method of an enum whose members all have values is a switch, and this is the name function
of the enum. Its arms belong to members of the enum in the order of their declaration, with no two
of one value and with all values that occur; the line of each is the path of the enum, a dot and the
name of the member, and the same once more as what it gives. For every value the arm is that of the
first member with the value; there is none, and the last arm throws, exactly if no member has it.
Looking for repeated values once more changes nothing. -/
theorem switch_names (t : EnumTarget) {evaluator : Evaluator} {os : List Ordinal}
    (h : t.decl.ordinals evaluator = .ok os) :
    os.map (·.member) = t.decl.members ∧
      ∃ arms : List Ordinal,
        let x : EnumExtension := ⟨t.visibility, t.path, arms.map (·.member.identifier.text)⟩
        t.extension? evaluator = some x ∧
        (∀ methodName level, CodeStep.renderAt level (x.method methodName) = joinLines (
          [(level, x.headLine methodName), (level, "\x7b"),
            (level + 1, "return @enum switch"), (level + 1, "\x7b")] ++
          arms.map (fun o => (level + 2,
            "global::" ++ t.path.path ++ "." ++ o.member.identifier.text ++ " => nameof(global::" ++
              t.path.path ++ "." ++ o.member.identifier.text ++ "),")) ++
          [(level + 2,
              "_ => throw new System.ArgumentOutOfRangeException(nameof(@enum), @enum, null)"),
            (level + 1, "\x7d;"), (level, "\x7d")])) ∧
        (arms.map (·.value)).Nodup ∧
        (∀ v, v ∈ arms.map (·.value) ↔ v ∈ os.map (·.value)) ∧
        arms.Sublist os ∧
        (∀ o, o ∈ arms ↔ first? os o.value = some o) ∧
        (∀ v, switch arms v = (first? os v).map (·.member.identifier.text)) ∧
        (∀ v, switch arms v = none ↔ ∀ o ∈ os, o.value ≠ v) ∧
        distinct arms = arms := by
  refine ⟨EnumDecl.map_member_of_ordinals h, distinct os, ?_, fun methodName level => ?_,
    nodup_distinctFrom [] os, fun v => mem_values_distinct_iff, distinctFrom_sublist [] os,
    fun o => mem_distinct_iff, fun v => ?_, fun v => ?_, distinct_distinct os⟩
  · rw [extension?, h]
  · rw [EnumExtension.renderAt_method, EnumExtension.methodLines, List.map_map]
    rfl
  · rw [switch, first?_distinct]
  · rw [switch, first?_distinct, Option.map_eq_none_iff, first?_eq_none_iff]

/-- The enum `enum M { A, B = 5, C = -1, D, E = B }`, where `D` has the value of `A` again and `E`
that of `B`. -/
def aliased : EnumTarget where
  tree := default
  decl :=
    { (default : EnumDecl) with
      members := [
        ⟨[], ⟨"A", ⟨9, 10⟩⟩, none, ⟨9, 10⟩⟩,
        ⟨[], ⟨"B", ⟨12, 13⟩⟩, some (.integer "5" ⟨16, 17⟩), ⟨12, 17⟩⟩,
        ⟨[], ⟨"C", ⟨19, 20⟩⟩, some (.unary .minus (.integer "1" ⟨24, 25⟩) ⟨23, 25⟩), ⟨19, 25⟩⟩,
        ⟨[], ⟨"D", ⟨27, 28⟩⟩, none, ⟨27, 28⟩⟩,
        ⟨[], ⟨"E", ⟨30, 31⟩⟩, some (.name [⟨"B", ⟨34, 35⟩⟩] ⟨34, 35⟩), ⟨30, 35⟩⟩] }
  visibility := .publicMethod
  path := ⟨"M", []⟩

def aliasedMethod : EnumExtension := ⟨.publicMethod, ⟨"M", []⟩, ["A", "B", "C"]⟩

theorem switch_names_aliased :
    aliased.extension? EnumDecl.constantText = some aliasedMethod ∧
      CodeStep.renderAt 0 (aliasedMethod.method "Name") = joinLines [
        (0, "public static string Name(this global::M @enum)"),
        (0, "\x7b"),
        (1, "return @enum switch"),
        (1, "\x7b"),
        (2, "global::M.A => nameof(global::M.A),"),
        (2, "global::M.B => nameof(global::M.B),"),
        (2, "global::M.C => nameof(global::M.C),"),
        (2, "_ => throw new System.ArgumentOutOfRangeException(nameof(@enum), @enum, null)"),
        (1, "\x7d;"),
        (0, "\x7d")] ∧
      ∃ os arms, aliased.decl.ordinals EnumDecl.constantText = .ok os ∧
        os.map (fun o => (o.member.identifier.text, o.value)) =
          [("A", 0), ("B", 5), ("C", -1), ("D", 0), ("E", 5)] ∧
        arms.Sublist os ∧ switch arms 0 = some "A" ∧ switch arms 5 = some "B" ∧
        switch arms (-1) = some "C" ∧ switch arms 1 = none := by
  have hvalues : (aliased.decl.ordinals EnumDecl.constantText).toOption.map
      (·.map fun o => (o.member.identifier.text, o.value)) =
        some [("A", 0), ("B", 5), ("C", -1), ("D", 0), ("E", 5)] := by decide +kernel
  have hmethod : aliased.extension? EnumDecl.constantText = some aliasedMethod := by decide +kernel
  cases hos : aliased.decl.ordinals EnumDecl.constantText with
  | error failure =>
    rw [hos] at hvalues
    cases hvalues
  | ok os =>
    rw [hos] at hvalues
    have hvalues : os.map (fun o => (o.member.identifier.text, o.value)) =
        [("A", 0), ("B", 5), ("C", -1), ("D", 0), ("E", 5)] := Option.some.inj hvalues
    obtain ⟨-, arms, hx, htext, -, -, hsub, -, hswitch, -⟩ := switch_names aliased hos
    have hx := Option.some.inj (hx.symm.trans hmethod)
    have hnames : arms.map (·.member.identifier.text) = ["A", "B", "C"] :=
      congrArg EnumExtension.members hx
    have hlines (f : String → Nat × String) :
        arms.map (fun o => f o.member.identifier.text) = [f "A", f "B", f "C"] := by
      have hmap := congrArg (List.map f) hnames
      rwa [List.map_map] at hmap
    have htext := htext "Name" 0
    rw [hx, hlines fun m => (0 + 2, "global::" ++ aliased.path.path ++ "." ++ m ++
      " => nameof(global::" ++ aliased.path.path ++ "." ++ m ++ "),")] at htext
    have hname (v : Int) : switch arms v = ((os.map fun o =>
        (o.member.identifier.text, o.value)).find? (·.2 == v)).map (·.1) := by
      simp [hswitch, first?, List.find?_map, Function.comp_def]
    rw [hvalues] at hname
    exact ⟨hmethod, htext, os, arms, rfl, hvalues, hsub, hname 0, hname 5, hname (-1), hname 1⟩

end EnumTarget

end DeclGen
