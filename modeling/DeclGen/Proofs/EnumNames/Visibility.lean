import DeclGen.Proofs.EnumNames.Faults
import Mathlib.Data.List.Basic

/-!
# How visible methods are

The walk over the types around an enum ends early, at the first type from the inside that is not
open. So it has a closed form: an enum is visible exactly if every type around it is open, and
otherwise the innermost type that is not open decides between an error and no method. Only the types
around the enum matter, and their order does not if all of them have an accessibility modifier.

## Main definitions

* `Enclosing.InnermostClosed`: the innermost type that is not open
* `Visibility.limitedBy`: the visibility that is left inside open types

## Main statements

* `EnumSite.access_closed_form`: the visibility of an enum, and what it does not depend on
-/

namespace DeclGen

/-- A modifier that sets accessibility is in a list if it is among those that do. -/
theorem Modifier.has_access {ms : List Modifier} {k : ModifierKind} (hk : k.isAccess = true) :
    has (access ms) k = has ms k := by
  rw [has, access, List.any_filter]
  congr 1
  funext m
  by_cases h : m.kind = k
  · simp [h, hk]
  · simp [h]

namespace TypeHead

theorem isOpen_iff {t : TypeHead} : t.IsOpen ↔ (Modifier.access t.modifiers).isEmpty = false ∧
    (Modifier.access t.modifiers).any (·.kind.isRestricting) = false := by
  constructor
  · rintro ⟨hmarked, hunrestricted⟩
    exact ⟨by simpa using hmarked, by simpa using hunrestricted⟩
  · rintro ⟨hmarked, hunrestricted⟩
    exact ⟨by simpa using hmarked, by simpa using hunrestricted⟩

instance (t : TypeHead) : Decidable t.IsOpen := decidable_of_iff _ isOpen_iff.symm

def isInternal (t : TypeHead) : Bool := Modifier.has t.modifiers .internalMod

end TypeHead

namespace Visibility

variable {v : Visibility} {ts inner outer : List TypeHead} {t : TypeHead}

/-- There are only two. -/
theorem eq_iff_public {w : Visibility} :
    v = w ↔ (v = publicMethod ↔ w = publicMethod) := by
  cases v <;> cases w <;> decide

def limitedBy (ts : List TypeHead) (v : Visibility) : Visibility :=
  if ts.any (·.isInternal) then internalMethod else v

/-- An open type lets the walk go on. -/
theorem within_cons_of_isOpen (ht : t.IsOpen) :
    v.within (t :: ts) = (v.limitedBy [t]).within ts := by
  obtain ⟨hmarked, hunrestricted⟩ := TypeHead.isOpen_iff.mp ht
  have hinternal : Modifier.has (Modifier.access t.modifiers) .internalMod = t.isInternal :=
    Modifier.has_access rfl
  rw [within]
  simp [hmarked, hunrestricted, hinternal, limitedBy]

theorem limitedBy_cons : v.limitedBy (t :: ts) = (v.limitedBy [t]).limitedBy ts := by
  cases h : t.isInternal <;> simp [limitedBy, h]

/-- Inside open types an enum is visible. -/
theorem within_of_isOpen (h : ∀ t ∈ ts, t.IsOpen) : v.within ts = .ok (some (v.limitedBy ts)) := by
  induction ts generalizing v with
  | nil => rfl
  | cons t ts ih =>
    obtain ⟨ht, hts⟩ := List.forall_mem_cons.mp h
    rw [within_cons_of_isOpen ht, ih hts, ← limitedBy_cons]

/-- The first type that is not open decides. -/
theorem within_of_not_isOpen (hinner : ∀ u ∈ inner, u.IsOpen) (ht : ¬ t.IsOpen) :
    v.within (inner ++ t :: outer) =
      if Modifier.access t.modifiers = [] then .error (.unmarked t.identifier) else .ok none := by
  induction inner generalizing v with
  | nil =>
    rw [TypeHead.isOpen_iff] at ht
    rw [List.nil_append, within]
    by_cases hmarked : Modifier.access t.modifiers = []
    · simp [hmarked]
    · have hrestricted : (Modifier.access t.modifiers).any (·.kind.isRestricting) = true := by
        simpa [hmarked] using ht
      simp [hmarked, hrestricted]
  | cons u us ih =>
    obtain ⟨hu, hus⟩ := List.forall_mem_cons.mp hinner
    rw [List.cons_append, within_cons_of_isOpen hu, ih hus]

end Visibility

namespace Enclosing

/-- The type is the innermost of the chain that is not open. -/
def InnermostClosed (chain : List Enclosing) (t : TypeHead) : Prop :=
  ∃ outer inner, types chain = outer ++ t :: inner ∧ ¬ t.IsOpen ∧ ∀ u ∈ inner, u.IsOpen

variable {chain : List Enclosing} {v : Visibility} {t : TypeHead}

/-- Either all types are open or there is an innermost one that is not. -/
theorem isOpen_or_exists_innermostClosed (chain : List Enclosing) :
    (∀ t ∈ types chain, t.IsOpen) ∨ ∃ t, InnermostClosed chain t := by
  cases hfind : (types chain).reverse.find? (fun t => !decide t.IsOpen) with
  | none => exact .inl (by simpa [List.find?_eq_none] using hfind)
  | some t =>
    obtain ⟨ht, inner, outer, hsplit, hinner⟩ := List.find?_eq_some_iff_append.mp hfind
    have hsplit : types chain = outer.reverse ++ t :: inner.reverse := by
      simpa using congrArg List.reverse hsplit
    exact .inr ⟨t, _, _, hsplit, by simpa using ht, by simpa using hinner⟩

theorem within_of_innermostClosed (h : InnermostClosed chain t) :
    v.within (types chain).reverse =
      if Modifier.access t.modifiers = [] then .error (.unmarked t.identifier) else .ok none := by
  obtain ⟨outer, inner, hsplit, ht, hinner⟩ := h
  have hreverse : (types chain).reverse = inner.reverse ++ t :: outer.reverse := by simp [hsplit]
  rw [hreverse]
  exact Visibility.within_of_not_isOpen (fun u hu => hinner u (List.mem_reverse.mp hu)) ht

theorem within_of_types_isOpen (h : ∀ t ∈ types chain, t.IsOpen) :
    v.within (types chain).reverse = .ok (some (v.limitedBy (types chain))) := by
  rw [Visibility.within_of_isOpen fun t ht => h t (List.mem_reverse.mp ht)]
  simp [Visibility.limitedBy]

theorem InnermostClosed.mem (h : InnermostClosed chain t) : t ∈ types chain := by
  obtain ⟨outer, inner, hsplit, -⟩ := h
  simp [hsplit]

theorem InnermostClosed.not_isOpen (h : InnermostClosed chain t) : ¬ t.IsOpen := by
  obtain ⟨outer, inner, -, ht, -⟩ := h
  exact ht

end Enclosing

namespace EnumSite

open Enclosing

variable {site : EnumSite} {v : Visibility} {t : TypeHead} {error : AccessError}

def IsListed (site : EnumSite) : Prop :=
  Modifier.has site.decl.modifiers .publicMod ≠ Modifier.has site.decl.modifiers .internalMod

def ownVisibility (site : EnumSite) : Visibility :=
  if Modifier.has site.decl.modifiers .internalMod then .internalMethod else .publicMethod

theorem access_eq_within (h : site.IsListed) :
    site.access = site.ownVisibility.within (types site.chain).reverse := by
  unfold IsListed at h
  cases hpublic : Modifier.has site.decl.modifiers .publicMod <;>
    cases hinternal : Modifier.has site.decl.modifiers .internalMod <;>
    simp_all [access, ownVisibility]

theorem access_of_isOpen (h : site.IsListed) (hopen : ∀ t ∈ types site.chain, t.IsOpen) :
    site.access = .ok (some (site.ownVisibility.limitedBy (types site.chain))) := by
  rw [access_eq_within h, within_of_types_isOpen hopen]

theorem access_of_innermostClosed (h : site.IsListed) (ht : InnermostClosed site.chain t) :
    site.access =
      if Modifier.access t.modifiers = [] then .error (.unmarked t.identifier) else .ok none := by
  rw [access_eq_within h, within_of_innermostClosed ht]

/-- What is left is public if the enum is and no type around it is internal. -/
theorem limitedBy_eq_public_iff (h : site.IsListed) :
    site.ownVisibility.limitedBy (types site.chain) = .publicMethod ↔
      Modifier.has site.decl.modifiers .publicMod = true ∧
        ∀ t ∈ types site.chain, t.isInternal = false := by
  unfold IsListed at h
  cases hinternal : Modifier.has site.decl.modifiers .internalMod <;>
    simp_all [ownVisibility, Visibility.limitedBy]

/-- There is a method exactly if all types around the enum are open; they limit its visibility. -/
theorem access_eq_some_iff (h : site.IsListed) : site.access = .ok (some v) ↔
    (∀ t ∈ types site.chain, t.IsOpen) ∧ v = site.ownVisibility.limitedBy (types site.chain) := by
  rcases isOpen_or_exists_innermostClosed site.chain with hopen | ⟨t, ht⟩
  · rw [access_of_isOpen h hopen]
    constructor
    · rintro ⟨⟩
      exact ⟨hopen, rfl⟩
    · rintro ⟨-, rfl⟩
      rfl
  · rw [access_of_innermostClosed h ht]
    constructor
    · intro heq
      split at heq <;> cases heq
    · rintro ⟨hopen, -⟩
      exact absurd (hopen t ht.mem) ht.not_isOpen

/-- An enum has a method unless some type around it keeps it from being seen. -/
theorem exists_innermostClosed (h : site.IsListed) (hnot : ∀ v, site.access ≠ .ok (some v)) :
    ∃ t, InnermostClosed site.chain t := by
  rcases isOpen_or_exists_innermostClosed site.chain with hopen | ht
  · exact absurd (access_of_isOpen h hopen) (hnot _)
  · exact ht

/-- Accessibility cannot be told exactly if the innermost type that is not open has no access
modifier. -/
theorem access_eq_error_iff (h : site.IsListed) : site.access = .error error ↔
    ∃ t, InnermostClosed site.chain t ∧ Modifier.access t.modifiers = [] ∧
      error = .unmarked t.identifier := by
  constructor
  · intro heq
    obtain ⟨t, ht⟩ := exists_innermostClosed h (by simp [heq])
    rw [access_of_innermostClosed h ht] at heq
    split at heq
    next hunmarked =>
      cases heq
      exact ⟨t, ht, hunmarked, rfl⟩
    next => cases heq
  · rintro ⟨t, ht, hunmarked, rfl⟩
    rw [access_of_innermostClosed h ht, if_pos hunmarked]

/-- An enum is hidden exactly if the innermost type around it that is not open has an access
modifier. -/
theorem access_eq_none_iff (h : site.IsListed) : site.access = .ok none ↔
    ∃ t, InnermostClosed site.chain t ∧ Modifier.access t.modifiers ≠ [] := by
  constructor
  · intro heq
    obtain ⟨t, ht⟩ := exists_innermostClosed h (by simp [heq])
    rw [access_of_innermostClosed h ht] at heq
    split at heq
    next => cases heq
    next hmarked => exact ⟨t, ht, hmarked⟩
  · rintro ⟨t, ht, hmarked⟩
    rw [access_of_innermostClosed h ht, if_neg hmarked]

/-- A closed type hides the enum if all types have an accessibility modifier. -/
theorem access_eq_none_of_not_isOpen (h : site.IsListed)
    (hmarked : ∀ t ∈ types site.chain, Modifier.access t.modifiers ≠ [])
    (hclosed : ¬ ∀ t ∈ types site.chain, t.IsOpen) : site.access = .ok none := by
  obtain ⟨t, ht⟩ := (isOpen_or_exists_innermostClosed site.chain).resolve_left hclosed
  exact (access_eq_none_iff h).mpr ⟨t, ht, hmarked t ht.mem⟩

/-- Only an enum that is declared public or internal can be seen. -/
theorem isListed_of_access (h : site.access = .ok (some v)) : site.IsListed := by
  unfold IsListed
  unfold access at h
  cases hpublic : Modifier.has site.decl.modifiers .publicMod <;>
    cases hinternal : Modifier.has site.decl.modifiers .internalMod <;> simp_all

/-! ## What the visibility does not depend on -/

/-- Namespaces make no difference. -/
theorem access_congr {decl : EnumDecl} {chain chain' : List Enclosing}
    (h : types chain = types chain') : access ⟨chain, decl⟩ = access ⟨chain', decl⟩ := by
  simp only [access, h]

/-- A method that is public stays public with one type less around the enum. -/
theorem access_of_insert {decl : EnumDecl} {outer inner : List Enclosing}
    (h : access ⟨outer ++ .ofType t :: inner, decl⟩ = .ok (some .publicMethod)) :
    access ⟨outer ++ inner, decl⟩ = .ok (some .publicMethod) := by
  have hlisted := isListed_of_access h
  obtain ⟨hopen, hpublic⟩ := (access_eq_some_iff hlisted).mp h
  obtain ⟨hown, hinternal⟩ := (limitedBy_eq_public_iff hlisted).mp hpublic.symm
  have hsub : ∀ u ∈ types (outer ++ inner), u ∈ types (outer ++ .ofType t :: inner) := by
    intro u hu
    simp only [types, List.filterMap_append, List.filterMap_cons, List.mem_append] at hu ⊢
    exact hu.imp_right (List.mem_cons_of_mem t)
  have hlisted' : IsListed ⟨outer ++ inner, decl⟩ := hlisted
  refine (access_eq_some_iff hlisted').mpr ⟨fun u hu => hopen u (hsub u hu), ?_⟩
  exact ((limitedBy_eq_public_iff hlisted').mpr
    ⟨hown, fun u hu => hinternal u (hsub u hu)⟩).symm

/-- An enum that is not declared either public or internal is judged by itself. -/
theorem access_of_not_isListed (h : ¬ site.IsListed) :
    site.access = if Modifier.has site.decl.modifiers .publicMod
      then .error (.contradictory site.decl.identifier) else .ok none := by
  unfold IsListed at h
  cases hpublic : Modifier.has site.decl.modifiers .publicMod <;>
    cases hinternal : Modifier.has site.decl.modifiers .internalMod <;> simp_all [access]

/-- The order of types makes no difference if all of them have an accessibility modifier. -/
theorem access_of_perm {decl : EnumDecl} {chain chain' : List Enclosing}
    (hperm : (types chain).Perm (types chain'))
    (hmarked : ∀ t ∈ types chain, Modifier.access t.modifiers ≠ []) :
    access ⟨chain, decl⟩ = access ⟨chain', decl⟩ := by
  by_cases hlisted : IsListed ⟨chain, decl⟩
  · have hlisted' : IsListed ⟨chain', decl⟩ := hlisted
    by_cases hopen : ∀ t ∈ types chain, t.IsOpen
    · have hopen' : ∀ t ∈ types chain', t.IsOpen := fun t ht => hopen t (hperm.mem_iff.mpr ht)
      have hany : (types chain).any (·.isInternal) = (types chain').any (·.isInternal) :=
        hperm.any_eq
      rw [access_of_isOpen hlisted hopen, access_of_isOpen hlisted' hopen']
      simp only [Visibility.limitedBy, hany]
      rfl
    · have hclosed : ¬ ∀ t ∈ types chain', t.IsOpen := fun hopen' =>
        hopen fun t ht => hopen' t (hperm.mem_iff.mp ht)
      have hmarked' : ∀ t ∈ types chain', Modifier.access t.modifiers ≠ [] := fun t ht =>
        hmarked t (hperm.mem_iff.mpr ht)
      rw [access_eq_none_of_not_isOpen hlisted hmarked hopen,
        access_eq_none_of_not_isOpen hlisted' hmarked' hclosed]
  · have hlisted' : ¬ IsListed ⟨chain', decl⟩ := hlisted
    rw [access_of_not_isListed hlisted, access_of_not_isListed hlisted']

/-- How visible the method of an enum is. An enum that is declared both public and internal is an
error, and one that is declared neither has no method. Otherwise there is a method exactly if all
types around the enum have an accessibility modifier and none of them is private, protected or
confined to a file; it is public exactly if the enum is and no type around it is internal. If some
type is not so, the innermost one decides: it is an error if the type has no accessibility modifier.
One more type around an enum never makes its method public, and namespaces make no difference, nor
does the order of the types if all of them have an accessibility modifier. -/
theorem access_closed_form (decl : EnumDecl) (chain : List Enclosing) :
    let listed (k : ModifierKind) := Modifier.has decl.modifiers k = true
    let result := access ⟨chain, decl⟩
    (listed .publicMod ∧ listed .internalMod →
      result = .error (.contradictory decl.identifier)) ∧
    (¬ listed .publicMod ∧ ¬ listed .internalMod → result = .ok none) ∧
    ((listed .publicMod ↔ ¬ listed .internalMod) →
      (∀ v, result = .ok (some v) ↔ (∀ t ∈ types chain, t.IsOpen) ∧
        (v = .publicMethod ↔ listed .publicMod ∧
          ∀ t ∈ types chain, Modifier.has t.modifiers .internalMod = false)) ∧
      (∀ error, result = .error error ↔ ∃ t, InnermostClosed chain t ∧
        Modifier.access t.modifiers = [] ∧ error = .unmarked t.identifier) ∧
      (result = .ok none ↔ ∃ t, InnermostClosed chain t ∧ Modifier.access t.modifiers ≠ [])) ∧
    (∀ outer inner t, chain = outer ++ inner →
      access ⟨outer ++ .ofType t :: inner, decl⟩ = .ok (some .publicMethod) →
        result = .ok (some .publicMethod)) ∧
    (∀ chain', types chain' = types chain → access ⟨chain', decl⟩ = result) ∧
    (∀ chain', (types chain').Perm (types chain) →
      (∀ t ∈ types chain, Modifier.access t.modifiers ≠ []) →
        access ⟨chain', decl⟩ = result) := by
  intro listed result
  refine ⟨fun ⟨hpublic, hinternal⟩ => ?_, fun ⟨hpublic, hinternal⟩ => ?_, fun hone => ?_, ?_,
    ?_, ?_⟩
  · have hlisted : ¬ IsListed ⟨chain, decl⟩ := not_not.mpr (hpublic.trans hinternal.symm)
    exact (access_of_not_isListed hlisted).trans (if_pos hpublic)
  · have hlisted : ¬ IsListed ⟨chain, decl⟩ :=
      not_not.mpr ((Bool.eq_false_iff.mpr hpublic).trans (Bool.eq_false_iff.mpr hinternal).symm)
    exact (access_of_not_isListed hlisted).trans (if_neg hpublic)
  · have hlisted : IsListed ⟨chain, decl⟩ := by
      intro heq
      have hsame : listed .publicMod ↔ listed .internalMod := Bool.eq_iff_iff.mp heq
      exact iff_not_self (hsame.symm.trans hone)
    refine ⟨fun v => ?_, fun error => access_eq_error_iff hlisted, access_eq_none_iff hlisted⟩
    refine (access_eq_some_iff hlisted).trans (and_congr_right fun _ => ?_)
    exact Visibility.eq_iff_public.trans (iff_congr Iff.rfl (limitedBy_eq_public_iff hlisted))
  · rintro outer inner t rfl h
    exact access_of_insert h
  · exact fun chain' h => access_congr h
  · exact fun chain' hperm hmarked =>
      access_of_perm hperm fun t ht => hmarked t (hperm.mem_iff.mp ht)

end EnumSite

end DeclGen
