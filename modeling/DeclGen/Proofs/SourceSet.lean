import DeclGen.Cleanup.Holder
import DeclGen.EnumNames.Contribution
import DeclGen.Proofs.Grammar.WellNamed

/-!
# The names in sources

Whatever files a run is given, the enums and holders that are found in them have names that can be
read again, and so have all declarations around them.

## Main definitions

* `TypeSite.WellNamed`, `EnumSite.WellNamed`: the names of a type or enum and around it

## Main statements

* `SourceSet.wellNamed_of_mem_enums`, `SourceSet.wellNamed_of_mem_holders`
-/

namespace DeclGen

open DeclGen.Grammar

/-- The names of the enclosing declaration can be read back. -/
def Enclosing.WellNamed : Enclosing → Prop
  | ofNamespace head => IsDottedName head.name.text.toList
  | ofType head => head.WellNamed

/-- The names of the type, of its members and of what is around it can be read back. -/
structure TypeSite.WellNamed (site : TypeSite) : Prop where
  chain : ∀ e ∈ site.chain, e.WellNamed
  head : site.head.WellNamed
  members : AllWellNamed site.members

/-- The names of the enum, of its members and of what is around it can be read back. -/
structure EnumSite.WellNamed (site : EnumSite) : Prop where
  chain : ∀ e ∈ site.chain, e.WellNamed
  decl : site.decl.WellNamed

def Site.WellNamed : Site → Prop
  | ofType site => site.WellNamed
  | ofEnum site => site.WellNamed

theorem Enclosing.wellNamed_append {chain : List Enclosing} {e : Enclosing}
    (hchain : ∀ e ∈ chain, e.WellNamed) (he : e.WellNamed) : ∀ e' ∈ chain ++ [e], e'.WellNamed := by
  intro e' he'
  rcases List.mem_append.mp he' with h | h
  · exact hchain e' h
  · obtain rfl := List.mem_singleton.mp h
    exact he

mutual

theorem Member.WellNamed.sites {chain : List Enclosing} (hchain : ∀ e ∈ chain, e.WellNamed) :
    ∀ m : Member, m.WellNamed → ∀ s ∈ m.sites chain, s.WellNamed
  | .ofNamespace head members, .ofNamespace hname h =>
    AllWellNamed.sites (Enclosing.wellNamed_append (e := .ofNamespace head) hchain hname) members h
  | .ofType head members, .ofType hhead h => by
    intro s hs
    rw [Member.sites] at hs
    rcases List.mem_cons.mp hs with rfl | hs
    · exact ⟨hchain, hhead, h⟩
    · have hchain' := Enclosing.wellNamed_append (e := .ofType head) hchain hhead
      exact AllWellNamed.sites hchain' members h s hs
  | .ofEnum decl, .ofEnum h => by
    intro s hs
    obtain rfl := List.mem_singleton.mp hs
    exact ⟨hchain, h⟩
  | .ofField _, _ | .ofProperty _, _ | .ofMethod _, _ | .other _ _, _ => by
    rintro s ⟨⟩

theorem AllWellNamed.sites {chain : List Enclosing} (hchain : ∀ e ∈ chain, e.WellNamed) :
    ∀ ms : List Member, AllWellNamed ms → ∀ s ∈ sitesIn chain ms, s.WellNamed
  | [], _ => by
    rintro s ⟨⟩
  | m :: ms, h => by
    intro s hs
    rw [sitesIn] at hs
    rcases List.mem_append.mp hs with hs | hs
    · exact Member.WellNamed.sites hchain m (h m (by simp)) s hs
    · exact AllWellNamed.sites hchain ms (fun m' hm' => h m' (by simp [hm'])) s hs

end

namespace SourceSet

/-- Reading further files keeps what all trees have in common. -/
theorem forall_trees_addAll {P : CompilationUnit → Prop}
    (hparse : ∀ text u, CompilationUnit.parse text = .ok u → P u) (set : SourceSet)
    (files : List (String × String)) (hset : ∀ tree ∈ set.trees, P tree.root) :
    ∀ tree ∈ (set.addAll files).1.trees, P tree.root := by
  induction files generalizing set with
  | nil => exact hset
  | cons file files ih =>
    obtain ⟨path, text⟩ := file
    have hadd : ∀ tree ∈ (set.add path text).1.trees, P tree.root := by
      rw [add]
      split
      next root hroot =>
        intro tree htree
        rcases List.mem_append.mp htree with htree | htree
        · exact hset tree htree
        · obtain rfl := List.mem_singleton.mp htree
          exact hparse text root hroot
      next => exact hset
    rw [addAll]
    split
    next set' id heq => exact ih set' (by simpa [heq] using hadd)
    next set' d heq => exact ih set' (by simpa [heq] using hadd)

theorem wellNamed_trees (files : List (String × String)) :
    ∀ tree ∈ (ofFiles files).1.trees, ∀ s ∈ tree.root.sites, s.WellNamed := by
  intro tree htree
  have hroot := forall_trees_addAll (P := fun u => AllWellNamed u.members)
    (fun text u h => wellNamed_of_parse h) empty files (by rintro _ ⟨⟩) tree htree
  exact AllWellNamed.sites (by rintro _ ⟨⟩) tree.root.members hroot

theorem wellNamed_of_mem_enums {files : List (String × String)} {e : LocatedEnum}
    (he : e ∈ (ofFiles files).1.enums) : e.site.WellNamed := by
  obtain ⟨tree, htree, he⟩ := List.mem_flatMap.mp he
  obtain ⟨site, hsite, rfl⟩ := List.mem_map.mp he
  obtain ⟨s, hs, hsome⟩ := List.mem_filterMap.mp hsite
  have h := wellNamed_trees files tree htree s hs
  cases s with
  | ofType site => cases hsome
  | ofEnum site =>
    cases hsome
    exact h

theorem wellNamed_of_mem_holders {files : List (String × String)} {settings : CleanupSettings}
    {h : Holder} (hh : h ∈ (ofFiles files).1.holders settings) :
    h.site.WellNamed ∧ h.handles = h.site.handles settings.handleTypes := by
  obtain ⟨tree, htree, hh⟩ := List.mem_flatMap.mp hh
  obtain ⟨site, hsite, rfl⟩ := List.mem_map.mp hh
  obtain ⟨s, hs, hsome⟩ := List.mem_filterMap.mp (List.mem_filter.mp hsite).1
  have h := wellNamed_trees files tree htree s hs
  cases s with
  | ofType site =>
    cases hsome
    exact ⟨h, rfl⟩
  | ofEnum site => cases hsome

end SourceSet

end DeclGen
