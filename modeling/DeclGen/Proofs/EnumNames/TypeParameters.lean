import DeclGen.Proofs.EnumNames.Unit
import DeclGen.Proofs.EnumNames.Verdicts
import DeclGen.Proofs.Grammar.TypeText
import Mathlib.Data.List.Nodup

/-!
# The type parameters of a method

A method takes the type parameters of all types around its enum, one list after the other. They are
the type arguments in the path of the enum, in order, so the path can be written inside the method.
No name occurs twice among them exactly if none does in a single list and no type declares a
parameter of an outer one again: the method of an enum inside such a type takes two parameters of
one name.

## Main definitions

* `Enclosing.Shadows`: a type declares a type parameter of an outer one again
* `TypeExpr.argumentTexts`: the type arguments of a named type
* `IsPathText`: segments of a path with the type arguments in them

## Main statements

* `EnumSite.WellNamed.exists_type`: the path of an enum is the text of a type
* `EnumNames.typeParameters_distinct`: the type parameters of methods
-/

namespace DeclGen

open DeclGen.Grammar

namespace Enclosing

/-- A type of the chain declares a type parameter of an outer one again. -/
def Shadows (chain : List Enclosing) : Prop :=
  ∃ outer inner, [outer, inner].Sublist chain ∧
    ∃ n ∈ outer.typeParameterNames, n ∈ inner.typeParameterNames

/-- Names that do not repeat in any list do not repeat at all if no type declares one again. -/
theorem nodup_typeParameterNames_iff {chain : List Enclosing}
    (h : ∀ e ∈ chain, e.typeParameterNames.Nodup) :
    (chain.flatMap (·.typeParameterNames)).Nodup ↔ ¬ Shadows chain := by
  rw [List.nodup_flatMap, and_iff_right h, List.pairwise_iff_forall_sublist]
  constructor
  · rintro hdisjoint ⟨outer, inner, hsub, n, houter, hinner⟩
    exact hdisjoint hsub houter hinner
  · intro hshadows outer inner hsub n houter hinner
    exact hshadows ⟨outer, inner, hsub, n, houter, hinner⟩

end Enclosing

/-! ## Paths as types -/

namespace TypeExpr

def argumentTexts : TypeExpr → List String
  | named _ segments _ => segments.flatMap fun g => g.arguments.map (·.text)
  | _ => []

def ofName (name : String) : TypeExpr :=
  if isPredefinedType name then .predefined name default
  else .named none [.mk ⟨name, default⟩ []] default

theorem text_ofName (name : String) : (ofName name).text = name := by
  unfold ofName
  split
  next => rfl
  next => simp [text, segmentTexts, segmentText]

theorem readable_ofName {name : String} (h : IsIdentifier name.toList) :
    (ofName name).Readable := by
  unfold ofName
  split
  next hname => exact .predefined hname
  next hname =>
    have hname : isPredefinedType name = false := by simpa using hname
    refine .named (by simp) ?_ hname ?_
    · simpa [NameSegment.identifier] using h
    · simp [NameSegment.arguments]

end TypeExpr

/-- The text is segments of a path, each behind a dot, with the names as type arguments. -/
def IsPathText (x : List Char) (names : List String) : Prop :=
  ∃ gs : List NameSegment, x = dotSegments gs ∧
    (∀ g ∈ gs, IsIdentifier g.identifier.text.toList ∧ ∀ t ∈ g.arguments, t.Readable) ∧
    gs.flatMap (fun g => g.arguments.map (·.text)) = names

namespace IsPathText

variable {x y : List Char} {ns ms : List String}

theorem nil : IsPathText [] [] := ⟨[], rfl, by simp, rfl⟩

theorem append (hx : IsPathText x ns) (hy : IsPathText y ms) : IsPathText (x ++ y) (ns ++ ms) := by
  obtain ⟨gs, rfl, hgs, rfl⟩ := hx
  obtain ⟨hs, rfl, hhs, rfl⟩ := hy
  refine ⟨gs ++ hs, by simp [dotSegments], fun g hg => ?_, List.flatMap_append⟩
  exact (List.mem_append.mp hg).elim (hgs g) (hhs g)

/-- An identifier with type arguments. -/
theorem segment {i : Identifier} (hi : IsIdentifier i.text.toList)
    (hns : ∀ n ∈ ns, IsIdentifier n.toList) :
    IsPathText ('.' :: (i.text.toList ++ argumentsText (ns.map TypeExpr.ofName))) ns := by
  refine ⟨[.mk i (ns.map TypeExpr.ofName)], ?_, ?_, ?_⟩
  · simp [dotSegments, NameSegment.identifier, NameSegment.arguments]
  · intro g hg
    obtain rfl := List.mem_singleton.mp hg
    refine ⟨hi, fun t ht => ?_⟩
    obtain ⟨n, hn, rfl⟩ := List.mem_map.mp ht
    exact TypeExpr.readable_ofName (hns n hn)
  · simp [NameSegment.arguments, TypeExpr.text_ofName, Function.comp_def]

theorem identifier (hx : IsIdentifier x) : IsPathText ('.' :: x) [] := by
  have hnone : ∀ n ∈ ([] : List String), IsIdentifier n.toList := by simp
  have h := segment (i := ⟨String.ofList x, default⟩) (by simpa using hx) hnone
  simpa [argumentsText] using h

theorem dottedName (hx : IsDottedName x) : IsPathText ('.' :: x) [] := by
  obtain ⟨z, zs, rfl, hz, hzs⟩ := hx
  refine (identifier hz).append ?_
  induction zs with
  | nil => exact nil
  | cons w ws ih =>
    have hrest := ih fun v hv => hzs v (List.mem_cons_of_mem w hv)
    exact (identifier (hzs w List.mem_cons_self)).append hrest

/-- Parts of a path that are written with dots between them. -/
theorem flatMap {α : Type} {as : List α} {f : α → String} {names : α → List String}
    (h : ∀ a ∈ as, IsPathText ('.' :: (f a).toList) (names a)) :
    IsPathText (as.flatMap fun a => '.' :: (f a).toList) (as.flatMap names) := by
  induction as with
  | nil => exact nil
  | cons a as ih =>
    exact (h a List.mem_cons_self).append (ih fun b hb => h b (List.mem_cons_of_mem a hb))

end IsPathText

/-- Names in angle brackets are type arguments. -/
theorem toList_inBrackets {ns : List String} (hne : ns ≠ []) :
    ("<" ++ ", ".intercalate ns ++ ">").toList = argumentsText (ns.map TypeExpr.ofName) := by
  cases ns with
  | nil => exact absurd rfl hne
  | cons n ns =>
    have htexts : TypeExpr.texts ((n :: ns).map TypeExpr.ofName) = n :: ns := by
      simp [texts_eq, TypeExpr.text_ofName, Function.comp_def]
    conv_lhs => rw [← htexts, List.map_cons]
    rw [String.toList_append, String.toList_append, toList_typeList]
    simp [argumentsText]

theorem Enclosing.WellNamed.isPathText {e : Enclosing} (h : e.WellNamed) :
    IsPathText ('.' :: e.pathSegment.toList) e.typeParameterNames := by
  cases e with
  | ofNamespace head => exact .dottedName h
  | ofType head =>
    have hnames := Enclosing.WellNamed.typeParameterNames (e := .ofType head) h
    rw [pathSegment]
    cases hps : head.typeParameters with
    | none =>
      rw [Enclosing.typeParameterNames, hps]
      exact .identifier h.1
    | some ps =>
      rw [Enclosing.typeParameterNames, hps] at hnames ⊢
      have hnames : ∀ n ∈ ps.names, IsIdentifier n.toList := hnames
      have hne : ps.names ≠ [] := by simpa [TypeParameters.names] using (h.2 ps hps).1
      have hsegment := IsPathText.segment (i := head.identifier) h.1 hnames
      rw [← toList_inBrackets hne] at hsegment
      simpa using hsegment

/-- Every part of the path of an enum, with a dot in front of each. -/
theorem EnumSite.toList_path (site : EnumSite) : '.' :: site.canonicalPath.path.toList =
    (site.chain.flatMap fun e => '.' :: e.pathSegment.toList) ++
      '.' :: site.decl.identifier.text.toList := by
  have hparts {parts : List String} (hne : parts ≠ []) :
      '.' :: (".".intercalate parts).toList = parts.flatMap fun p => '.' :: p.toList := by
    obtain ⟨p, ps, rfl⟩ := List.exists_cons_of_ne_nil hne
    rw [toList_intercalate]
    simp
  rw [canonicalPath, hparts (by simp), List.flatMap_append, List.flatMap_map]
  simp

/-- The path of an enum is the text of a type whose arguments are the type parameters around the
enum. -/
theorem EnumSite.WellNamed.exists_type {site : EnumSite} (h : site.WellNamed) :
    ∃ t : TypeExpr, t.Readable ∧ t.text = site.canonicalPath.qualified ∧
      t.argumentTexts = site.canonicalPath.typeParameters := by
  have hchain := IsPathText.flatMap fun e he => (h.chain e he).isPathText
  have hpath := hchain.append (.identifier h.decl.1)
  rw [List.append_nil] at hpath
  obtain ⟨gs, htext, hgs, harguments⟩ := hpath
  cases gs with
  | nil => simp [dotSegments] at htext
  | cons g gs =>
    refine ⟨.named (some ⟨"global", default⟩) (g :: gs) default, ?_, ?_, harguments⟩
    · have hglobal : isPredefinedType "global" = false := by decide
      refine .named ?_ (fun s hs => (hgs s hs).1) hglobal fun s hs => (hgs s hs).2
      rintro _ ⟨⟩
      exact .inl (by decide)
    · rw [← site.toList_path, dotSegments, List.flatMap_cons] at htext
      have hpath := (List.cons.inj htext).2
      apply String.ext
      rw [toList_text_named, CanonicalPath.qualified, String.toList_append, hpath]
      simp [namedText, dotSegments]

namespace EnumNames

/-- The type parameters of a method are the type arguments in the path of its enum, in order, and
the path is read as a type with these arguments. If no single list around the enum repeats a name,
none occurs twice among them exactly if no type around the enum declares a type parameter of an
outer one again. -/
theorem typeParameters_distinct {files : List (String × String)} {evaluator : Evaluator}
    {x : EnumExtension} (hx : x ∈ extensions (SourceSet.ofFiles files).1 evaluator) :
    ∃ e ∈ (SourceSet.ofFiles files).1.enums, x.path = e.site.canonicalPath ∧
      (∃ t : TypeExpr, t.text = x.path.qualified ∧ t.argumentTexts = x.path.typeParameters ∧
        ∀ s, Ahead typeEnds s →
          Reads typeExpr (x.path.qualified.toList ++ s) s (·.bare = t.bare)) ∧
      ((∀ a ∈ e.site.chain, a.typeParameterNames.Nodup) →
        (x.path.typeParameters.Nodup ↔ ¬ Enclosing.Shadows e.site.chain)) := by
  obtain ⟨t, ht, hmethod⟩ := List.mem_filterMap.mp hx
  obtain ⟨e, he, htarget⟩ := EnumVerdict.exists_of_mem_targets ht
  obtain ⟨-, -, hpath, -⟩ := LocatedEnum.parts_of_target? htarget
  rw [EnumVerdict.path_of_extension? hmethod, hpath]
  refine ⟨e, he, rfl, ?_, Enclosing.nodup_typeParameterNames_iff⟩
  obtain ⟨u, hu, htext, harguments⟩ := (SourceSet.wellNamed_of_mem_enums he).exists_type
  refine ⟨u, htext, harguments, fun s hs => ?_⟩
  rw [← htext]
  exact hu.reads .nil hs

/-- Two files with an enum inside generic types, which declare different names in the first file and
the same name in the second. -/
def genericTypes : List (String × String) :=
  [("A.cs", "public class Table<K, V>\x7bpublic class Cursor<T>\x7bpublic enum S\x7bA\x7d\x7d\x7d"),
    ("B.cs", "public class Outer<T>\x7bpublic class Inner<T>\x7bpublic enum E\x7bA\x7d\x7d\x7d")]

def cursorMethod : EnumExtension :=
  ⟨.publicMethod, ⟨"Table<K, V>.Cursor<T>.S", ["K", "V", "T"]⟩, ["A"]⟩

def innerMethod : EnumExtension :=
  ⟨.publicMethod, ⟨"Outer<T>.Inner<T>.E", ["T", "T"]⟩, ["A"]⟩

theorem extensions_genericTypes :
    extensions (SourceSet.ofFiles genericTypes).1 EnumDecl.constantText =
        [cursorMethod, innerMethod] ∧
      ∀ e ∈ (SourceSet.ofFiles genericTypes).1.enums, ∀ a ∈ e.site.chain,
        a.typeParameterNames.Nodup := by
  decide +kernel

theorem typeParameters_distinct_cursorMethod :
    cursorMethod ∈ extensions (SourceSet.ofFiles genericTypes).1 EnumDecl.constantText ∧
      ∃ e ∈ (SourceSet.ofFiles genericTypes).1.enums,
        cursorMethod.path = e.site.canonicalPath ∧
        (∀ a ∈ e.site.chain, a.typeParameterNames.Nodup) ∧ ¬ Enclosing.Shadows e.site.chain ∧
        cursorMethod.path.typeParameters.Nodup := by
  obtain ⟨hextensions, hlists⟩ := extensions_genericTypes
  have hx : cursorMethod ∈ extensions (SourceSet.ofFiles genericTypes).1 EnumDecl.constantText :=
    hextensions ▸ List.mem_cons_self
  have hnodup : cursorMethod.path.typeParameters.Nodup := by decide
  obtain ⟨e, he, hpath, -, hiff⟩ := typeParameters_distinct hx
  exact ⟨hx, e, he, hpath, hlists e he, (hiff (hlists e he)).mp hnodup, hnodup⟩

/-- The method of an enum inside types that declare the same name takes two parameters of it. -/
theorem exists_repeated_typeParameter :
    ∃ x ∈ extensions (SourceSet.ofFiles genericTypes).1 EnumDecl.constantText,
      (∀ e ∈ (SourceSet.ofFiles genericTypes).1.enums, ∀ a ∈ e.site.chain,
        a.typeParameterNames.Nodup) ∧
      x.path.genericSuffix = "<T, T>" ∧ ¬ x.path.typeParameters.Nodup := by
  obtain ⟨hextensions, hlists⟩ := extensions_genericTypes
  refine ⟨innerMethod, ?_, hlists, by decide, by decide⟩
  rw [hextensions]
  exact List.mem_cons_of_mem _ List.mem_cons_self

end EnumNames

end DeclGen
