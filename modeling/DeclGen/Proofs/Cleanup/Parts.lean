import DeclGen.Proofs.Cleanup.Accounting

/-!
# Other parts of a class

A class can be declared in several parts, in one file or in several. The hook is looked for in the
part that names the base type alone: this part never declares it when a unit is published, but
another part of the same class may.

## Main definitions

* `ClassKey`, `SourceSet.parts`: the parts of a class
* `TypeSite.DeclaresHook`: a part that the override would conflict with

## Main statements

* `Cleanup.conflict_iff_in_other_part`: when a published override has a conflict
* `Cleanup.exists_conflict_twoParts`: a published override with a conflict
-/

namespace DeclGen

/-- What the parts of a class have in common. -/
structure ClassKey where
  /-- The names of the namespace, the outermost first. -/
  namespaceNames : List String
  /-- The types around the class with the number of their type parameters. -/
  containers : List (String × Nat)
  name : String
  arity : Nat
deriving DecidableEq, Repr, Inhabited

def TypeHead.arity (t : TypeHead) : Nat := (t.typeParameters.map (·.parameters.length)).getD 0

namespace TypeSite

def key (site : TypeSite) : ClassKey where
  namespaceNames := (site.chain.filterMap Enclosing.namespace?).flatMap fun head =>
    head.name.segments.map (·.name)
  containers := (Enclosing.types site.chain).map fun t => (t.identifier.name, t.arity)
  name := site.head.identifier.name
  arity := site.head.arity

/-- The part declares a method that an override of the hook would repeat. -/
def DeclaresHook (hook : String) (site : TypeSite) : Prop :=
  ∃ m ∈ site.methods, m.TakesHook hook ∧ m.typeParameters = none

end TypeSite

instance (hook : String) (m : MethodDecl) : Decidable (m.TakesHook hook) :=
  decidable_of_iff _ HolderOutcome.isHook_iff

instance (hook : String) (site : TypeSite) : Decidable (site.DeclaresHook hook) :=
  inferInstanceAs (Decidable (∃ m ∈ site.methods, _))

def SourceSet.parts (set : SourceSet) (key : ClassKey) : List TypeSite :=
  set.trees.flatMap fun tree => (tree.root.sites.filterMap Site.typeSite?).filter
    fun site => site.head.kind = .classType ∧ site.key = key

/-- A holder is a part of its class. -/
theorem SourceSet.mem_parts_of_mem_holders {set : SourceSet} {settings : CleanupSettings}
    {h : Holder} (hh : h ∈ set.holders settings) : h.site ∈ set.parts h.site.key := by
  obtain ⟨tree, htree, hh⟩ := List.mem_flatMap.mp hh
  obtain ⟨site, hsite, rfl⟩ := List.mem_map.mp hh
  obtain ⟨hmem, hholder⟩ := List.mem_filter.mp hsite
  have hclass := (TypeSite.isHolder_iff.mp hholder).isClass
  exact List.mem_flatMap.mpr ⟨tree, htree, List.mem_filter.mpr ⟨hmem, by simp [hclass]⟩⟩

namespace HolderOutcome

variable {settings : CleanupSettings} {taken : List String} {h : Holder} {u : PublishedUnit}

/-- Only a class that another part can be added to gets a unit. -/
theorem attachable_of_unit? (hu : (ofHolder settings taken h).unit? = some u) :
    h.Attachable settings := by
  unfold ofHolder at hu
  by_cases hnone : h.handles = []
  · simp [hnone, unit?] at hu
  · rw [if_neg (by simpa using hnone)] at hu
    cases ho : obstacle? settings h with
    | none => exact attachable_of_obstacle? ho
    | some o =>
      rw [ho] at hu
      rw [unit?_of_obstacle? ho] at hu
      cases hu

end HolderOutcome

namespace Cleanup

open HolderOutcome

/-- Where a unit is published for a part of a class, this part declares no method that is the hook.
The override has a conflict exactly if a different part of the class declares the hook. -/
theorem conflict_iff_in_other_part (settings : CleanupSettings) (set : SourceSet)
    (taken : List String) {p : Holder × HolderOutcome} {u : PublishedUnit}
    (hp : p ∈ ofHolders settings taken (set.holders settings)) (hu : p.2.unit? = some u) :
    p.1.site ∈ set.parts p.1.site.key ∧
      (∀ m ∈ p.1.site.methods, ¬ m.TakesHook settings.hook) ∧
      ((∃ part ∈ set.parts p.1.site.key, part.DeclaresHook settings.hook) ↔
        ∃ part ∈ set.parts p.1.site.key, part ≠ p.1.site ∧ part.DeclaresHook settings.hook) := by
  obtain ⟨hholder, taken', htaken⟩ := mem_of_mem_ofHolders hp
  rw [htaken] at hu
  have hmethods := (attachable_of_unit? hu).methods
  refine ⟨SourceSet.mem_parts_of_mem_holders hholder, hmethods, ?_, ?_⟩
  · rintro ⟨part, hpart, hdeclares⟩
    refine ⟨part, hpart, ?_, hdeclares⟩
    rintro rfl
    obtain ⟨m, hm, htakes, -⟩ := hdeclares
    exact hmethods m hm htakes
  · rintro ⟨part, hpart, -, hdeclares⟩
    exact ⟨part, hpart, hdeclares⟩

/-- A class in two parts, one with the base type and a handle and one with the hook. -/
def twoParts : List (String × String) :=
  [("A.cs", "partial class S : SystemBase \x7b NativeList<int> a; \x7d"),
    ("B.cs", "partial class S \x7b void OnDestroy() \x7b \x7d \x7d")]

theorem conflict_iff_in_other_part_twoParts :
    let set := (SourceSet.ofFiles twoParts).1
    ∃ p ∈ ofHolders {} [] (set.holders {}), ∃ u, p.2.unit? = some u ∧
      p.1.site ∈ set.parts p.1.site.key ∧
      (∀ m ∈ p.1.site.methods, ¬ m.TakesHook "OnDestroy") ∧
      ((∃ part ∈ set.parts p.1.site.key, part.DeclaresHook "OnDestroy") ↔
        ∃ part ∈ set.parts p.1.site.key, part ≠ p.1.site ∧ part.DeclaresHook "OnDestroy") := by
  intro set
  have hpublished : ∃ p ∈ ofHolders {} [] (set.holders {}), p.2.unit?.isSome := by decide +kernel
  obtain ⟨p, hp, hsome⟩ := hpublished
  obtain ⟨u, hu⟩ := Option.isSome_iff_exists.mp hsome
  exact ⟨p, hp, u, hu, conflict_iff_in_other_part {} set [] hp hu⟩

/-- An override is published for the first of the two parts, and the second declares the hook. -/
theorem exists_conflict_twoParts :
    let set := (SourceSet.ofFiles twoParts).1
    (contribution {} set []).units.map (·.hint) = ["S.AutoDispose.g.cs"] ∧
      ∃ p ∈ ofHolders {} [] (set.holders {}), p.2.unit?.isSome ∧
        ∃ part ∈ set.parts p.1.site.key, part.DeclaresHook "OnDestroy" := by
  decide +kernel

end Cleanup

end DeclGen
