import DeclGen.Proofs.SourceSet
import DeclGen.Proofs.Syntax.Walk

/-!
# The names of namespaces

The name of a namespace is kept as its parts. In a tree that was read from a text, every namespace
has at least one, and each part can be read again, at any depth.

## Main definitions

* `Enclosing.HasParts`: the name of a namespace has parts that can be read back
* `Member.NamesParts`: so have the names of all namespaces in a declaration

## Main statements

* `SourceSet.hasParts_of_mem_holders`: the namespaces around a holder
-/

namespace DeclGen

open DeclGen.Grammar DeclGen.Grammar.Parser

/-- The name has parts that can be read back, if it is that of a namespace. -/
def Enclosing.HasParts : Enclosing → Prop
  | ofNamespace head => head.name.WellNamed
  | ofType _ => True

/-- The names of the namespaces in the declaration have parts that can be read back. -/
def Member.NamesParts (m : Member) : Prop := ∀ d ∈ m.declarations, ∀ e ∈ d.enclosing?, e.HasParts

namespace Member.NamesParts

variable {m : Member}

theorem of_inner (he : ∀ e ∈ m.enclosing?, e.HasParts) (hinner : ∀ n ∈ m.inner, n.NamesParts) :
    m.NamesParts := by
  intro d hd
  rw [m.declarations_eq] at hd
  rcases List.mem_cons.mp hd with rfl | hd
  · exact he
  · obtain ⟨n, hn, hd⟩ := mem_declarationsIn.mp hd
    exact hinner n hn d hd

theorem of_isSimple (h : m.IsSimple) : m.NamesParts := by
  cases m with
  | ofNamespace | ofType | ofEnum => exact h.elim
  | ofField | ofProperty | ofMethod | other => exact of_inner nofun nofun

end Member.NamesParts

namespace Grammar

theorem namesParts_enumDeclaration (h : DeclHeader) :
    Yields (enumDeclaration h) Member.NamesParts := by
  refine .bind_right fun _ => .bind_right fun name => .bind_right fun _ => ?_
  refine .bind_right fun hasBase => ?_
  split
  all_goals
    refine .bind_right fun _ => .bind_right fun _ => .bind_right fun _ => .bind_right fun _ => ?_
    exact .bind_right fun _ => .pure (.of_inner nofun nofun)

theorem inherited_namesParts : Inherited Member.NamesParts where
  ofNamespace head members hname hmembers := by
    refine .of_inner ?_ hmembers
    rintro _ ⟨⟩
    exact hname
  ofType head members _ hmembers := by
    refine .of_inner ?_ hmembers
    rintro _ ⟨⟩
    exact trivial
  ofEnum := namesParts_enumDeclaration
  other _ _ := (simple_otherMember _ _).mono fun _ => .of_isSimple
  typed _ := (simple_typedMember _).mono fun _ => .of_isSimple

end Grammar

theorem Enclosing.wellNamed_of_mem_namespaces {chain : List Enclosing}
    (h : ∀ e ∈ chain, e.HasParts) : ∀ head ∈ chain.filterMap namespace?, head.name.WellNamed := by
  intro head hhead
  obtain ⟨e, he, hspace⟩ := List.mem_filterMap.mp hhead
  cases e with
  | ofNamespace head =>
    cases hspace
    exact h _ he
  | ofType head => cases hspace

/-- What is around a site of a text that is read. -/
theorem CompilationUnit.hasParts_of_mem_sites {text : String} {u : CompilationUnit}
    (h : CompilationUnit.parse text = .ok u) : ∀ s ∈ u.sites, ∀ e ∈ s.chain, e.HasParts := by
  intro s hs e he
  have hlaid := laidOut_of_parse h
  have hchain := chain_of_mem_sitesIn hlaid (fun m hm => (hlaid.each m hm).chain_of_mem_sites)
    [] s hs
  rw [hchain] at he
  obtain ⟨d, hd, he⟩ := List.mem_filterMap.mp he
  obtain ⟨m, hm, hd⟩ := mem_declarationsIn.mp (List.mem_filter.mp hd).1
  exact inherited_namesParts.forall_members h m hm d hd e he

/-- The namespaces around a holder have names with parts, whatever files are read. -/
theorem SourceSet.hasParts_of_mem_holders {files : List (String × String)}
    {settings : CleanupSettings} {h : Holder} (hh : h ∈ (ofFiles files).1.holders settings) :
    ∀ e ∈ h.site.chain, e.HasParts := by
  obtain ⟨tree, htree, hh⟩ := List.mem_flatMap.mp hh
  obtain ⟨site, hsite, rfl⟩ := List.mem_map.mp hh
  obtain ⟨s, hs, hsome⟩ := List.mem_filterMap.mp (List.mem_filter.mp hsite).1
  have hroot := forall_trees_addAll (P := fun u => ∀ s ∈ u.sites, ∀ e ∈ s.chain, e.HasParts)
    (fun text u => CompilationUnit.hasParts_of_mem_sites) empty files (by rintro _ ⟨⟩) tree htree
  cases s with
  | ofType site =>
    cases hsome
    exact hroot _ hs
  | ofEnum site => cases hsome

end DeclGen
