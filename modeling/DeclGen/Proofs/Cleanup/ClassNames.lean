import DeclGen.Proofs.Cleanup.Hint
import DeclGen.Proofs.Cleanup.Parts
import DeclGen.Proofs.Hints
import DeclGen.Proofs.Syntax.NamespaceNames
import DeclGen.Proofs.Text.Split

/-!
# Units and classes

The name of a cleanup unit lists the namespace of the class part by part, the types around the class
and the class. From it one can tell the class: a name has no dot, and the number of type parameters
stands behind a mark that no name contains. But a part of a namespace is listed as it is written,
so a part of a class where it is written with `@` has a unit of another name than one without.

## Main definitions

* `PathPart`, `TypeSite.pathParts`: what a unit name lists
* `ClassKey.path`: the class as a path of names with their numbers of type parameters
* `TypeSite.verbatimMarks`: which of these names are listed with `@`

## Main statements

* `Cleanup.hint_determines_class`: what holders with the same unit name have in common
* `Cleanup.exists_two_units`: two units for one class
-/

namespace DeclGen

open DeclGen.Grammar DeclGen.Text

/-- A part of a path as a unit name lists it. -/
structure PathPart where
  /-- It is listed with `@`. -/
  isVerbatim : Bool
  name : String
  /-- The number of type parameters. -/
  arity : Nat
deriving DecidableEq, Repr

namespace PathPart

def ofIdentifier (i : Identifier) : PathPart := ⟨i.text.toList.head? == some '@', i.name, 0⟩

def ofHead (t : TypeHead) : PathPart := ⟨false, t.identifier.name, t.arity⟩

/-- A number of type parameters as it is listed behind a name. -/
def arityText (n : Nat) : List Char := if n = 0 then [] else '\x60' :: n.repr.toList

def text (p : PathPart) : List Char :=
  (if p.isVerbatim then ['@'] else []) ++ (p.name.toList ++ arityText p.arity)

end PathPart

/-- The names on the way to the class with their numbers of type parameters, the class last. -/
def ClassKey.path (key : ClassKey) : List (String × Nat) :=
  key.namespaceNames.map (·, 0) ++ key.containers ++ [(key.name, key.arity)]

namespace TypeSite

/-- The parts of the names of the namespaces around the type, the outermost first. -/
def namespaceParts (site : TypeSite) : List Identifier :=
  (site.chain.filterMap Enclosing.namespace?).flatMap (·.name.segments)

def pathParts (site : TypeSite) : List PathPart :=
  site.namespaceParts.map .ofIdentifier ++ (Enclosing.types site.chain ++ [site.head]).map .ofHead

/-- Which names on the way to the type a unit name lists with `@`: parts of a namespace that are
written so. -/
def verbatimMarks (site : TypeSite) : List Bool := site.pathParts.map (·.isVerbatim)

end TypeSite

/-! ## Parts of a path -/

namespace PathPart

theorem text_ofIdentifier {i : Identifier} (h : i.WellNamed) :
    (ofIdentifier i).text = i.text.toList := by
  rcases h with ⟨h, -⟩ | ⟨y, hy, h⟩
  · have hhead : i.text.toList.head? ≠ some '@' := by
      simpa using h.head?_ne (t := []) (c := '@') (by decide)
    simp [text, ofIdentifier, arityText, hhead, Identifier.name_of_isWord h]
  · simp [text, ofIdentifier, arityText, Identifier.name, hy]

theorem text_ofHead {t : TypeHead} (h : t.WellNamed) :
    (ofHead t).text = t.metadataName.toList := by
  rw [TypeHead.metadataName]
  cases hps : t.typeParameters with
  | none => simp [text, ofHead, arityText, TypeHead.arity, hps]
  | some ps =>
    have hne : ps.parameters ≠ [] := (h.2 ps hps).1
    simp [text, ofHead, arityText, TypeHead.arity, hps, hne]

theorem arityText_injective : Function.Injective arityText := by
  intro n k h
  have hrepr (n : Nat) : ofDigits 10 ((arityText n).drop 1) = n := by
    rw [arityText]
    split
    next hn => simp [hn, ofDigits]
    next => exact ofDigits_repr n
  rw [← hrepr n, h, hrepr]

/-- The name of a part ends where the number of its type parameters begins. -/
theorem takeWhile_isWordPart {x : List Char} (hx : IsWord x) (n : Nat) :
    (x ++ arityText n).takeWhile isWordPart = x := by
  rw [List.takeWhile_append_of_pos hx.forall_isWordPart, arityText]
  split
  next => simp
  next =>
    have hmark : isWordPart '\x60' = false := by decide
    simp [hmark]

/-- What is listed tells the part: a name starts with no mark and contains none. -/
theorem text_injective {p q : PathPart} (hp : IsWord p.name.toList) (hq : IsWord q.name.toList)
    (h : p.text = q.text) : p = q := by
  have hmark (p : PathPart) (hp : IsWord p.name.toList) :
      (p.text.head? == some '@') = p.isVerbatim := by
    have hhead : (p.name.toList ++ arityText p.arity).head? ≠ some '@' :=
      hp.head?_ne (by decide)
    rw [text]
    cases p.isVerbatim <;> simp_all
  have hverbatim : p.isVerbatim = q.isVerbatim := by rw [← hmark p hp, h, hmark q hq]
  have hbody : p.name.toList ++ arityText p.arity = q.name.toList ++ arityText q.arity := by
    simpa [text, hverbatim] using h
  have hname : p.name.toList = q.name.toList := by
    rw [← takeWhile_isWordPart hp, hbody, takeWhile_isWordPart hq]
  have harity : p.arity = q.arity := by
    rw [hname] at hbody
    exact arityText_injective (List.append_cancel_left hbody)
  obtain ⟨isVerbatim, name, arity⟩ := p
  obtain ⟨isVerbatim', name', arity'⟩ := q
  exact congr (congr (congrArg mk hverbatim) (String.toList_inj.mp hname)) harity

/-- The number of type parameters can be told from the name in the text of a part. -/
theorem eq_of_map_text {ps qs : List PathPart} (hps : ∀ p ∈ ps, IsWord p.name.toList)
    (hqs : ∀ q ∈ qs, IsWord q.name.toList) (h : ps.map (·.text) = qs.map (·.text)) : ps = qs := by
  induction ps generalizing qs with
  | nil => simpa using h.symm
  | cons p ps ih =>
    cases qs with
    | nil => simp at h
    | cons q qs =>
      simp only [List.map_cons, List.cons.injEq, List.forall_mem_cons] at h hps hqs
      exact congr (congrArg List.cons (text_injective hps.1 hqs.1 h.1)) (ih hps.2 hqs.2 h.2)

/-- No dot is listed for a part. -/
theorem notMem_text {p : PathPart} (hp : IsWord p.name.toList) : '.' ∉ p.text := by
  intro hdot
  have hdigit (n : Nat) : '.' ∉ arityText n := by
    rw [arityText]
    split
    next => simp
    next =>
      intro h
      rcases List.mem_cons.mp h with h | h
      · exact absurd h (by decide)
      · exact absurd (isDigit_of_mem_repr h) (by decide)
  rcases List.mem_append.mp hdot with h | h
  · split at h <;> simp at h
  · rcases List.mem_append.mp h with h | h
    · exact absurd (hp.forall_isWordPart _ h) (by decide)
    · exact hdigit _ h

end PathPart

/-! ## What a unit name lists -/

namespace TypeSite

variable {site site' : TypeSite}

theorem map_name_pathParts (site : TypeSite) :
    site.pathParts.map (fun p => (p.name, p.arity)) = site.key.path := by
  simp [pathParts, ClassKey.path, key, namespaceParts, List.map_flatMap, Function.comp_def,
    PathPart.ofIdentifier, PathPart.ofHead]

/-- The class and the marks tell all parts. -/
theorem pathParts_eq_iff : site.pathParts = site'.pathParts ↔
    site.key.path = site'.key.path ∧ site.verbatimMarks = site'.verbatimMarks := by
  have hzip (site : TypeSite) : site.pathParts =
      (site.verbatimMarks.zip site.key.path).map fun m => ⟨m.1, m.2.1, m.2.2⟩ := by
    simp [verbatimMarks, ← map_name_pathParts, List.zip_map', Function.comp_def]
  constructor
  · intro h
    rw [← map_name_pathParts, ← map_name_pathParts, verbatimMarks, verbatimMarks, h]
    exact ⟨rfl, rfl⟩
  · rintro ⟨hpath, hmarks⟩
    rw [hzip, hzip site', hpath, hmarks]

/-- The parts around a type with names that can be read back are words. -/
theorem isWord_of_mem_pathParts (hsite : site.WellNamed) (hparts : ∀ e ∈ site.chain, e.HasParts) :
    ∀ p ∈ site.pathParts, IsWord p.name.toList := by
  intro p hp
  rcases List.mem_append.mp hp with hp | hp
  · obtain ⟨i, hi, rfl⟩ := List.mem_map.mp hp
    obtain ⟨head, hhead, hi⟩ := List.mem_flatMap.mp hi
    exact ((Enclosing.wellNamed_of_mem_namespaces hparts head hhead).2 i hi).isWord_name
  · obtain ⟨t, ht, rfl⟩ := List.mem_map.mp hp
    rcases List.mem_append.mp ht with ht | ht
    · exact (Enclosing.wellNamed_types hsite.chain t ht).1.isWord_name
    · obtain rfl := List.mem_singleton.mp ht
      exact hsite.head.1.isWord_name

end TypeSite

namespace Holder

variable {h h' : Holder}

/-- A listed part is one piece between dots. -/
theorem splitAt_text {p : PathPart} (hp : IsWord p.name.toList) : splitAt '.' p.text = [p.text] :=
  splitAt_of_notMem (PathPart.notMem_text hp)

/-- No part of a namespace name has a dot in it, so cutting the joined name at dots gives the parts.
-/
theorem splitAt_namespaceName {chain : List Enclosing} (hparts : ∀ e ∈ chain, e.HasParts) :
    (Enclosing.namespaceName? chain).toList.flatMap (fun n => splitAt '.' n.toList) =
      ((chain.filterMap Enclosing.namespace?).flatMap (·.name.segments)).map
        fun i => (PathPart.ofIdentifier i).text := by
  have hheads := Enclosing.wellNamed_of_mem_namespaces hparts
  rw [Enclosing.namespaceName?]
  split
  next hnil => simp [hnil]
  next heads hne =>
    rw [Option.toList_some, List.flatMap_singleton, splitAt_intercalate rfl (by simpa using hne),
      List.flatMap_map, List.map_flatMap]
    refine List.flatMap_congr fun head hhead => ?_
    obtain ⟨hsegments, hnamed⟩ := hheads head hhead
    rw [DottedName.text, splitAt_intercalate rfl (by simpa using hsegments), List.flatMap_map,
      List.map_eq_flatMap]
    refine List.flatMap_congr fun i hi => ?_
    rw [← PathPart.text_ofIdentifier (hnamed i hi)]
    exact splitAt_text (hnamed i hi).isWord_name

/-- The unit name in front of its extension, cut at the dots. -/
theorem splitAt_name (hsite : h.site.WellNamed) (hparts : ∀ e ∈ h.site.chain, e.HasParts) :
    splitAt '.' (".".intercalate (h.namespaceName?.toList ++ h.containers.map (·.metadataName)
      ++ [h.site.head.metadataName])).toList = h.site.pathParts.map (·.text) := by
  have hhead {t : TypeHead} (ht : t.WellNamed) :
      splitAt '.' t.metadataName.toList = [(PathPart.ofHead t).text] := by
    rw [← PathPart.text_ofHead ht]
    exact splitAt_text ht.1.isWord_name
  have hcontainers : (h.containers.map (·.metadataName)).flatMap (fun n => splitAt '.' n.toList) =
      (Enclosing.types h.site.chain).map fun t => (PathPart.ofHead t).text := by
    rw [List.flatMap_map, List.map_eq_flatMap]
    exact List.flatMap_congr fun t ht => hhead (Enclosing.wellNamed_types hsite.chain t ht)
  rw [splitAt_intercalate rfl (by simp), List.flatMap_append, List.flatMap_append,
    namespaceName?, splitAt_namespaceName hparts, hcontainers, List.flatMap_singleton,
    hhead hsite.head]
  simp [TypeSite.pathParts, TypeSite.namespaceParts, Function.comp_def]

/-- The unit names of holders are the same if what they list is. -/
theorem hint_eq_iff (hsite : h.site.WellNamed) (hparts : ∀ e ∈ h.site.chain, e.HasParts)
    (hsite' : h'.site.WellNamed) (hparts' : ∀ e ∈ h'.site.chain, e.HasParts) :
    h.hint = h'.hint ↔ h.site.pathParts = h'.site.pathParts := by
  have hsplit := splitAt_name hsite hparts
  have hsplit' := splitAt_name hsite' hparts'
  have hextension : h.hint = h'.hint ↔
      h.site.pathParts.map (·.text) = h'.site.pathParts.map (·.text) := by
    rw [← hsplit, ← hsplit', hint, hint, String.append_left_inj]
    refine ⟨fun heq => by rw [heq], fun heq => String.toList_inj.mp ?_⟩
    rw [← join_splitAt '.' (String.toList _), heq, join_splitAt]
  rw [hextension]
  refine ⟨fun heq => ?_, fun heq => by rw [heq]⟩
  exact PathPart.eq_of_map_text (TypeSite.isWord_of_mem_pathParts hsite hparts)
    (TypeSite.isWord_of_mem_pathParts hsite' hparts') heq

end Holder

namespace Cleanup

open HolderOutcome

/-- Of two holders that get a unit, the names are different. -/
theorem pairwise_published (settings : CleanupSettings) (taken : List String) (hs : List Holder) :
    (ofHolders settings taken hs).Pairwise fun p q =>
      p.2.unit?.isSome → q.2.unit?.isSome → p.1.hint ≠ q.1.hint := by
  have haccepts : Publication.Accepts taken ((ofHolders settings taken hs).filterMap (·.2.unit?)) :=
    accepts_ofHolders settings hs
  have hnodup := haccepts.nodup
  rw [List.Nodup, List.pairwise_map, List.pairwise_filterMap] at hnodup
  have hname {p : Holder × HolderOutcome} {u : PublishedUnit}
      (hp : p ∈ ofHolders settings taken hs) (hu : p.2.unit? = some u) : u.hint = p.1.hint := by
    obtain ⟨-, taken', htaken⟩ := mem_of_mem_ofHolders hp
    rw [htaken] at hu
    rw [eq_of_unit? hu]
  refine hnodup.imp_of_mem fun {p q} hp hq hne hpsome hqsome => ?_
  obtain ⟨u, hu⟩ := Option.isSome_iff_exists.mp hpsome
  obtain ⟨v, hv⟩ := Option.isSome_iff_exists.mp hqsome
  rw [← hname hp hu, ← hname hq hv]
  exact hne u hu v hv

/-- Holders have the same unit name exactly if they are parts of one class and the parts of their
namespaces are written with `@` at the same places. So different classes get different units, and
two units for one class are units of holders that write the names of namespaces differently. -/
theorem hint_determines_class (settings : CleanupSettings) (files : List (String × String))
    (taken : List String) :
    let holders := (SourceSet.ofFiles files).1.holders settings
    (∀ h ∈ holders, ∀ h' ∈ holders, h.hint = h'.hint ↔
      h.site.key.path = h'.site.key.path ∧ h.site.verbatimMarks = h'.site.verbatimMarks) ∧
    (ofHolders settings taken holders).Pairwise fun p q =>
      p.2.unit?.isSome → q.2.unit?.isSome → p.1.site.key.path = q.1.site.key.path →
        p.1.site.verbatimMarks ≠ q.1.site.verbatimMarks := by
  intro holders
  have hiff : ∀ h ∈ holders, ∀ h' ∈ holders, h.hint = h'.hint ↔
      h.site.key.path = h'.site.key.path ∧ h.site.verbatimMarks = h'.site.verbatimMarks := by
    intro h hh h' hh'
    rw [Holder.hint_eq_iff (SourceSet.wellNamed_of_mem_holders hh).1
      (SourceSet.hasParts_of_mem_holders hh) (SourceSet.wellNamed_of_mem_holders hh').1
      (SourceSet.hasParts_of_mem_holders hh'), TypeSite.pathParts_eq_iff]
  refine ⟨hiff, (pairwise_published settings taken holders).imp_of_mem ?_⟩
  intro p q hp hq hne hpsome hqsome hpath hmarks
  have hp := (mem_of_mem_ofHolders hp).1
  have hq := (mem_of_mem_ofHolders hq).1
  exact hne hpsome hqsome ((hiff p.1 hp q.1 hq).mpr ⟨hpath, hmarks⟩)

/-- Two parts of a class that write the names of its namespaces alike, a generic class of the same
name, and a part of the first class that writes a name differently. -/
def spelledParts : List (String × String) :=
  [("A.cs", "namespace @M.N; partial class C : SystemBase \x7b NativeList<int> a; \x7d"),
    ("B.cs", "namespace @M \x7b namespace N \x7b "
      ++ "partial class C : SystemBase \x7b NativeList<int> b; \x7d "
      ++ "partial class C<T> : SystemBase \x7b NativeList<int> c; \x7d \x7d \x7d"),
    ("C.cs", "namespace M.N; partial class C : SystemBase \x7b NativeList<int> d; \x7d")]

theorem hint_determines_class_spelledParts :
    let outcomes := ofHolders {} [] ((SourceSet.ofFiles spelledParts).1.holders {})
    (∃ p ∈ outcomes, ∃ q ∈ outcomes, p.2.unit?.isSome ∧ q.2.unit?.isNone ∧ p.1.hint = q.1.hint ∧
      p.1.site.key.path = q.1.site.key.path ∧ p.1.site.verbatimMarks = q.1.site.verbatimMarks) ∧
    ∃ p ∈ outcomes[0]?, ∃ q ∈ outcomes[3]?, p.2.unit?.isSome ∧ q.2.unit?.isSome ∧
      p.1.site.key.path = q.1.site.key.path ∧ p.1.site.verbatimMarks ≠ q.1.site.verbatimMarks := by
  intro outcomes
  have hclass := hint_determines_class {} spelledParts []
  have hsame : ∃ p ∈ outcomes, ∃ q ∈ outcomes, p.2.unit?.isSome ∧ q.2.unit?.isNone ∧
      p.1.hint = q.1.hint := by decide +kernel
  have hspelled : ∃ p ∈ outcomes[0]?, ∃ q ∈ outcomes[3]?, p.2.unit?.isSome ∧ q.2.unit?.isSome ∧
      p.1.site.key.path = q.1.site.key.path := by decide +kernel
  constructor
  · obtain ⟨p, hp, q, hq, hpsome, hqnone, hint⟩ := hsame
    have hiff := hclass.1 p.1 (mem_of_mem_ofHolders hp).1 q.1 (mem_of_mem_ofHolders hq).1
    exact ⟨p, hp, q, hq, hpsome, hqnone, hint, hiff.mp hint⟩
  · obtain ⟨p, hp, q, hq, hpsome, hqsome, hpath⟩ := hspelled
    obtain ⟨hlt, rfl⟩ := List.getElem?_eq_some_iff.mp hp
    obtain ⟨hlt', rfl⟩ := List.getElem?_eq_some_iff.mp hq
    have hmarks := List.pairwise_iff_getElem.mp hclass.2 0 3 hlt hlt' (by decide)
    exact ⟨_, hp, _, hq, hpsome, hqsome, hpath, hmarks hpsome hqsome hpath⟩

/-- The first and the last part are parts of one class, and both get a unit. -/
theorem exists_two_units :
    let outcomes := ofHolders {} [] ((SourceSet.ofFiles spelledParts).1.holders {})
    ∃ p ∈ outcomes[0]?, ∃ q ∈ outcomes[3]?, p.1.site.key.path = q.1.site.key.path ∧
      p.1.hint = "@M.N.C.AutoDispose.g.cs" ∧ q.1.hint = "M.N.C.AutoDispose.g.cs" ∧
      p.2.unit?.isSome ∧ q.2.unit?.isSome := by
  decide +kernel

end Cleanup

end DeclGen
