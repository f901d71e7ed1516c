import DeclGen.EnumNames.Access
import DeclGen.EnumNames.Ordinals

/-!
# What is at fault with an enum

What an enum has to look like for each error about it: which name is at fault when its
accessibility cannot be told, and which member when it has no values.

## Main definitions

* `AccessError.Blames`: what has to hold of an enum for an error about its accessibility

## Main statements

* `EnumSite.blames_of_access`: the error that is reported is about what is at fault
* `EnumDecl.member_of_ordinals`: the member without a value is one of the enum
-/

namespace DeclGen

/-- The type has an accessibility modifier, and none that keeps it from being seen. -/
structure TypeHead.IsOpen (t : TypeHead) : Prop where
  marked : Modifier.access t.modifiers ≠ []
  unrestricted : ∀ m ∈ Modifier.access t.modifiers, m.kind.isRestricting = false

namespace AccessError

def identifier : AccessError → Identifier
  | contradictory enum => enum
  | unmarked container => container

theorem span_eq (error : AccessError) : error.span = error.identifier.span := by
  cases error <;> rfl

/-- What has to hold of an enum for an error about its accessibility. -/
inductive Blames (site : EnumSite) : AccessError → Prop where
  | contradictory (hpublic : Modifier.has site.decl.modifiers .publicMod = true)
      (hinternal : Modifier.has site.decl.modifiers .internalMod = true) :
      Blames site (.contradictory site.decl.identifier)
  /-- The type is the innermost without an accessibility modifier, and what is inside it can be
  seen. -/
  | unmarked {outer inner : List TypeHead} {t : TypeHead}
      (hsplit : Enclosing.types site.chain = outer ++ t :: inner)
      (ht : Modifier.access t.modifiers = []) (hinner : ∀ u ∈ inner, u.IsOpen) :
      Blames site (.unmarked t.identifier)

end AccessError

/-- The walk from the inside stops at the first type without an accessibility modifier. -/
theorem Visibility.exists_of_within {v : Visibility} {containers : List TypeHead}
    {error : AccessError} (h : v.within containers = .error error) :
    ∃ inner t outer, containers = inner ++ t :: outer ∧ error = .unmarked t.identifier ∧
      Modifier.access t.modifiers = [] ∧ ∀ u ∈ inner, u.IsOpen := by
  induction containers generalizing v with
  | nil => cases h
  | cons t ts ih =>
    rw [within] at h
    split at h
    next hempty =>
      cases h
      exact ⟨[], t, ts, rfl, rfl, List.isEmpty_iff.mp hempty, by rintro u ⟨⟩⟩
    next hmarked =>
      split at h
      next => cases h
      next hopen =>
        obtain ⟨inner, u, outer, rfl, herror, hu, hinner⟩ := ih h
        have ht : t.IsOpen := ⟨by simpa using hmarked, by simpa using hopen⟩
        exact ⟨t :: inner, u, outer, rfl, herror, hu, List.forall_mem_cons.mpr ⟨ht, hinner⟩⟩

/-- An error about the accessibility of an enum is about what is at fault. -/
theorem EnumSite.blames_of_access {site : EnumSite} {error : AccessError}
    (h : site.access = .error error) : error.Blames site := by
  have hwithin {v : Visibility}
      (h : v.within (Enclosing.types site.chain).reverse = .error error) :
      error.Blames site := by
    obtain ⟨inner, t, outer, hsplit, rfl, ht, hinner⟩ := Visibility.exists_of_within h
    have hsplit : Enclosing.types site.chain = outer.reverse ++ t :: inner.reverse := by
      simpa using congrArg List.reverse hsplit
    exact .unmarked hsplit ht fun u hu => hinner u (List.mem_reverse.mp hu)
  unfold access at h
  dsimp only at h
  split at h
  next hboth =>
    cases h
    obtain ⟨hpublic, hinternal⟩ := Bool.and_eq_true_iff.mp hboth
    exact .contradictory hpublic hinternal
  next =>
    split at h
    next => exact hwithin h
    next =>
      split at h
      next => exact hwithin h
      next => cases h

/-- The member without a value is one of those that are counted. -/
theorem Numbering.member_of_failure {evaluate : Expr → Except FoldError String}
    {previous : Option Int} {ms : List EnumMember} {failure : OrdinalFailure}
    (h : (ofMembers evaluate previous ms).failure = some failure) : failure.member ∈ ms := by
  induction ms generalizing previous with
  | nil => cases h
  | cons m ms ih =>
    rw [ofMembers] at h
    split at h
    next =>
      cases h
      exact List.mem_cons_self
    next => exact List.mem_cons_of_mem m (ih h)

theorem EnumDecl.member_of_ordinals {d : EnumDecl} {evaluator : Evaluator}
    {failure : OrdinalFailure} (h : d.ordinals evaluator = .error failure) :
    failure.member ∈ d.members := by
  unfold ordinals at h
  split at h
  next hfailure =>
    cases h
    exact Numbering.member_of_failure hfailure
  next => cases h

end DeclGen
