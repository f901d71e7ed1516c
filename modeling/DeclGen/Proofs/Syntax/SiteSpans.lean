import DeclGen.Cleanup.Holder
import DeclGen.Proofs.Grammar.EnumText

/-!
# Where the names of declarations stand

The names of types and enums, of the types around them and of their methods stand in the text of
their file at the offsets of their spans.

## Main definitions

* `Identifier.StandsIn`: the identifier is written where its span says
* `Site.StandsIn`: so are the names of a type or enum and of what is around it

## Main statements

* `standsIn_of_parse`: the names in a file stand in its text
-/

namespace DeclGen

open DeclGen.Grammar DeclGen.Text

variable {text : List Char}

/-- The identifier is written in the text where its span says. -/
def Identifier.StandsIn (text : List Char) (i : Identifier) : Prop :=
  Spells text i.span.start i.span.stop i.text.toList

/-- The names of the type, of its methods and of the types around it stand in the text. -/
structure TypeSite.StandsIn (text : List Char) (site : TypeSite) : Prop where
  containers : ∀ t ∈ Enclosing.types site.chain, t.identifier.StandsIn text
  identifier : site.head.identifier.StandsIn text
  methods : ∀ m ∈ site.methods, m.identifier.StandsIn text

/-- The names of the enum and of the types around it stand in the text. -/
structure EnumSite.StandsIn (text : List Char) (site : EnumSite) : Prop where
  containers : ∀ t ∈ Enclosing.types site.chain, t.identifier.StandsIn text
  identifier : site.decl.identifier.StandsIn text

def Site.StandsIn (text : List Char) : Site → Prop
  | ofType site => site.StandsIn text
  | ofEnum site => site.StandsIn text

/-- A node that is spelled stands where its span says. -/
theorem SpanTree.Exact.spells {span : Span} {s : String} {children : List SpanTree}
    (h : (SpanTree.node span (some s) children).Exact text) :
    Spells text span.start span.stop s.toList := by
  cases h with
  | node hle hsize hstart hstop hspelling =>
    obtain ⟨x, hx⟩ := exists_spells hstart hstop hle
    have hsame := hspelling s rfl
    rw [hx.slice?_eq] at hsame
    cases hsame
    exact hx

theorem SpanTree.Exact.children {span : Span} {spelling : Option String}
    {children : List SpanTree} (h : (SpanTree.node span spelling children).Exact text) :
    ∀ t ∈ children, t.Exact text := by
  cases h with
  | node _ _ _ _ _ _ _ hchildren => exact hchildren

theorem Identifier.standsIn_of_exact {i : Identifier} (h : i.spanTree.Exact text) :
    i.StandsIn text :=
  h.spells

theorem mem_memberTrees {m : Member} {ms : List Member} (h : m ∈ ms) :
    m.spanTree ∈ memberTrees ms := by
  rw [memberTrees_eq]
  exact List.mem_flatMap.mpr ⟨m, h, List.mem_singleton.mpr rfl⟩

/-- The methods of a type stand in a text in which its members do. -/
theorem methods_standIn {ms : List Member} (h : ∀ t ∈ memberTrees ms, t.Exact text) :
    ∀ m ∈ ms.filterMap (·.method?), m.identifier.StandsIn text := by
  intro method hmethod
  obtain ⟨m, hm, hsome⟩ := List.mem_filterMap.mp hmethod
  have hexact := h m.spanTree (mem_memberTrees hm)
  cases m with
  | ofMethod decl =>
    cases hsome
    exact Identifier.standsIn_of_exact (hexact.children _ (by simp))
  | ofNamespace | ofType | ofEnum | ofField | ofProperty | other => cases hsome

theorem types_append_standIn {chain : List Enclosing} {head : TypeHead}
    (hchain : ∀ t ∈ Enclosing.types chain, t.identifier.StandsIn text)
    (hhead : head.identifier.StandsIn text) :
    ∀ t ∈ Enclosing.types (chain ++ [.ofType head]), t.identifier.StandsIn text := by
  intro t ht
  rw [Enclosing.types, List.filterMap_append, List.mem_append] at ht
  rcases ht with ht | ht
  · exact hchain t ht
  · obtain rfl := List.mem_singleton.mp ht
    exact hhead

mutual

theorem Member.standsIn_of_exact {chain : List Enclosing}
    (hchain : ∀ t ∈ Enclosing.types chain, t.identifier.StandsIn text) :
    ∀ m : Member, m.spanTree.Exact text → ∀ s ∈ m.sites chain, s.StandsIn text
  | .ofNamespace head members, h => by
    have hmembers : ∀ t ∈ memberTrees members, t.Exact text := fun t ht =>
      h.children t (List.mem_append_right _ ht)
    refine standIn_of_exact ?_ members hmembers
    intro t ht
    rw [Enclosing.types, List.filterMap_append, List.mem_append] at ht
    exact ht.elim (hchain t) fun h => nomatch h
  | .ofType head members, h => by
    have hmembers : ∀ t ∈ memberTrees members, t.Exact text := fun t ht =>
      h.children t (List.mem_append_right _ ht)
    have hhead : head.identifier.StandsIn text := Identifier.standsIn_of_exact
      (h.children _ (List.mem_append_left _ (by simp [TypeHead.spanTrees])))
    intro s hs
    rw [Member.sites] at hs
    rcases List.mem_cons.mp hs with rfl | hs
    · exact ⟨hchain, hhead, methods_standIn hmembers⟩
    · exact standIn_of_exact (types_append_standIn hchain hhead) members hmembers s hs
  | .ofEnum decl, h => by
    intro s hs
    obtain rfl := List.mem_singleton.mp hs
    exact ⟨hchain, Identifier.standsIn_of_exact (h.children _ (by simp))⟩
  | .ofField _, _ | .ofProperty _, _ | .ofMethod _, _ | .other _ _, _ => by
    rintro s ⟨⟩

theorem standIn_of_exact {chain : List Enclosing}
    (hchain : ∀ t ∈ Enclosing.types chain, t.identifier.StandsIn text) :
    ∀ ms : List Member, (∀ t ∈ memberTrees ms, t.Exact text) →
      ∀ s ∈ sitesIn chain ms, s.StandsIn text
  | [], _ => by
    rintro s ⟨⟩
  | m :: ms, h => by
    rw [memberTrees, List.forall_mem_cons] at h
    intro s hs
    rw [sitesIn] at hs
    rcases List.mem_append.mp hs with hs | hs
    · exact Member.standsIn_of_exact hchain m h.1 s hs
    · exact standIn_of_exact hchain ms h.2 s hs

end

/-- The names of all types and enums of a file stand in its text. -/
theorem CompilationUnit.standsIn_of_parse {s : String} {u : CompilationUnit}
    (h : CompilationUnit.parse s = .ok u) : ∀ site ∈ u.sites, site.StandsIn s.toList := by
  obtain ⟨c, hread⟩ := exists_of_parse h
  obtain ⟨-, -, hstand⟩ := spans_compilationUnit 0 s.toList ⟨[], rfl, rfl⟩ u c hread
  have hexact := hstand.exact u.spanTree List.mem_cons_self
  refine standIn_of_exact (by rintro t ⟨⟩) u.members fun t ht => ?_
  exact hexact.children t (List.mem_append_right _ ht)

end DeclGen
