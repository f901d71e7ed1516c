import DeclGen.EnumNames.Contribution
import DeclGen.Proofs.Code
import DeclGen.Proofs.EnumNames.Accounting
import DeclGen.Proofs.EnumNames.Numbering
import DeclGen.Proofs.Settings
import DeclGen.Proofs.SourceSet

/-!
# The unit of enum names

The text of the unit can be read again, and its tree is what the unit is meant to declare: one
public static class in one namespace, with a method for each enum in order.

## Main definitions

* `EnumExtension.WellNamed`: the names that a method mentions
* `EnumNames.DeclaresExtensions`: what the tree of the unit has to be

## Main statements

* `EnumNames.wellNamed_of_mem_extensions`: the names of the sources are well-formed
* `EnumNames.exists_parse_unit`: the unit declares the methods
-/

namespace DeclGen

open DeclGen.Grammar

/-! ## Names -/

namespace Enclosing

variable {e : Enclosing}

theorem WellNamed.typeParameterNames (h : e.WellNamed) :
    ∀ n ∈ e.typeParameterNames, IsIdentifier n.toList := by
  cases e with
  | ofNamespace head =>
    rintro n ⟨⟩
  | ofType head =>
    intro n hn
    rw [Enclosing.typeParameterNames] at hn
    cases hps : head.typeParameters with
    | none =>
      rw [hps] at hn
      cases hn
    | some ps =>
      rw [hps] at hn
      obtain ⟨p, hp, rfl⟩ := List.mem_map.mp hn
      exact (h.2 ps hps).2 p hp

/-- A search for a closing bracket steps over a segment of a path with its type parameters. -/
theorem WellNamed.balanced_pathSegment (h : e.WellNamed) : Balanced e.pathSegment.toList := by
  cases e with
  | ofNamespace head => exact IsDottedName.balanced h
  | ofType head =>
    have hid := IsIdentifier.balanced h.1
    have hnames := WellNamed.typeParameterNames (e := .ofType head) h
    rw [pathSegment]
    cases hps : head.typeParameters with
    | none => exact hid
    | some ps =>
      rw [Enclosing.typeParameterNames, hps] at hnames
      have hlist : Balanced (", ".intercalate ps.names).toList :=
        .intercalate (.of_all (by decide)) fun n hn => (hnames n hn).balanced
      simp only [String.toList_append]
      exact ((hid.append (.of_all (by decide))).append hlist).append (.of_all (by decide))

end Enclosing

namespace EnumSite

variable {site : EnumSite}

theorem WellNamed.balanced_path (h : site.WellNamed) : Balanced site.canonicalPath.path.toList := by
  refine .intercalate (.of_all (by decide)) fun s hs => ?_
  rcases List.mem_append.mp hs with hs | hs
  · obtain ⟨e, he, rfl⟩ := List.mem_map.mp hs
    exact (h.chain e he).balanced_pathSegment
  · obtain rfl := List.mem_singleton.mp hs
    exact IsIdentifier.balanced h.decl.1

theorem WellNamed.typeParameters (h : site.WellNamed) :
    ∀ n ∈ site.canonicalPath.typeParameters, IsIdentifier n.toList := by
  intro n hn
  obtain ⟨e, he, hn⟩ := List.mem_flatMap.mp hn
  exact (h.chain e he).typeParameterNames n hn

end EnumSite

theorem Ordinal.mem_of_mem_distinctFrom {seen : List Int} {os : List Ordinal} {o : Ordinal}
    (h : o ∈ distinctFrom seen os) : o ∈ os := by
  fun_induction distinctFrom seen os with
  | case1 seen => exact h
  | case2 seen p os hseen ih => exact List.mem_cons_of_mem p (ih h)
  | case3 seen p os hseen ih =>
    rcases List.mem_cons.mp h with rfl | h
    · exact List.mem_cons_self
    · exact List.mem_cons_of_mem p (ih h)

/-- Only members of an enum get values. -/
theorem EnumDecl.member_mem_of_ordinals {d : EnumDecl} {evaluator : Evaluator} {os : List Ordinal}
    {o : Ordinal} (h : d.ordinals evaluator = .ok os) (ho : o ∈ os) : o.member ∈ d.members := by
  rw [ordinals] at h
  split at h
  next => cases h
  next =>
    cases h
    obtain ⟨k, hk⟩ := List.mem_iff_getElem?.mp ho
    cases k with
    | zero => exact List.mem_of_getElem? (Numbering.ordinals_ofMembers_zero hk).1
    | succ k =>
      obtain ⟨p, -, hmember, -⟩ := Numbering.ordinals_ofMembers_succ hk
      exact List.mem_of_getElem? hmember

/-- The names that the method mentions can be read back. -/
structure EnumExtension.WellNamed (x : EnumExtension) : Prop where
  path : Balanced x.path.path.toList
  typeParameters : ∀ n ∈ x.path.typeParameters, IsIdentifier n.toList
  members : ∀ m ∈ x.members, IsIdentifier m.toList

namespace EnumVerdict

theorem mem_of_mem_ofSites {before : List EnumTarget} {es : List LocatedEnum}
    {p : LocatedEnum × EnumVerdict} (h : p ∈ ofSites before es) : p.1 ∈ es := by
  induction es generalizing before with
  | nil => cases h
  | cons e es ih =>
    rcases List.mem_cons.mp h with rfl | h
    · exact List.mem_cons_self
    · exact List.mem_cons_of_mem e (ih h)

end EnumVerdict

namespace EnumNames

/-- The methods for the enums of any sources mention names that can be read back. -/
theorem wellNamed_of_mem_extensions {files : List (String × String)} {evaluator : Evaluator}
    {x : EnumExtension} (hx : x ∈ extensions (SourceSet.ofFiles files).1 evaluator) :
    x.WellNamed := by
  obtain ⟨t, ht, hmethod⟩ := List.mem_filterMap.mp hx
  obtain ⟨⟨e, v⟩, hp, htarget⟩ := List.mem_filterMap.mp ht
  have he := SourceSet.wellNamed_of_mem_enums (EnumVerdict.mem_of_mem_ofSites hp)
  obtain ⟨before, hv⟩ := EnumVerdict.exists_ofSite_of_mem hp
  have htarget' : v = .target t := by
    cases v with
    | target t' =>
      cases htarget
      rfl
    | hidden | malformed | repeated => cases htarget
  obtain ⟨hdecl, hpath, -⟩ := EnumVerdict.parts_of_target (hv.symm.trans htarget')
  rw [EnumTarget.extension?] at hmethod
  split at hmethod
  next os hos =>
    cases hmethod
    refine ⟨hpath ▸ he.balanced_path, hpath ▸ he.typeParameters, fun m hm => ?_⟩
    obtain ⟨o, ho, rfl⟩ := List.mem_map.mp hm
    have hmember := EnumDecl.member_mem_of_ordinals hos (Ordinal.mem_of_mem_distinctFrom ho)
    exact he.decl.2 o.member (hdecl ▸ hmember)
  next => cases hmethod

end EnumNames

/-! ## Methods -/

def Visibility.modifier : Visibility → ModifierKind
  | publicMethod => .publicMod
  | internalMethod => .internalMod

def TypeParameters.ofNames? : List String → Option TypeParameters
  | [] => none
  | n :: ns => some ⟨(n :: ns).map fun name => ⟨none, ⟨name, default⟩⟩, default⟩

namespace TypeParameters

variable {names : List String}

theorem parametersText_ofNames? (names : List String) :
    parametersText (ofNames? names) = (CanonicalPath.inBrackets names).toList := by
  cases names with
  | nil => rfl
  | cons n ns =>
    have htexts :
        ((n :: ns).map fun name => (⟨none, ⟨name, default⟩⟩ : TypeParameter)).map (·.text) =
          n :: ns := by
      rw [List.map_map]
      exact List.map_id (n :: ns)
    rw [ofNames?, parametersText, TypeParameters.text, htexts]
    rfl

theorem isParameterList_ofNames? (h : ∀ n ∈ names, IsIdentifier n.toList) :
    ∀ ps ∈ ofNames? names, IsParameterList ps := by
  cases names with
  | nil =>
    rintro ps ⟨⟩
  | cons n ns =>
    rintro _ ⟨⟩
    refine ⟨by simp, fun p hp => ?_⟩
    obtain ⟨name, hname, rfl⟩ := List.mem_map.mp hp
    exact h name hname

/-- Type parameters that declare the same have the same names. -/
theorem names_of_declared? {ps : Option TypeParameters}
    (h : declared? ps = declared? (ofNames? names)) :
    (ps.map (·.names)).getD [] = names := by
  have hsnd (ps : Option TypeParameters) :
      (ps.map (·.names)).getD [] = ((declared? ps).map (·.map Prod.snd)).getD [] := by
    cases ps with
    | none => rfl
    | some ps => simp [declared?, declared, TypeParameters.names]
  rw [hsnd, h, ← hsnd]
  cases names with
  | nil => rfl
  | cons n ns =>
    simp only [ofNames?, Option.map_some, Option.getD_some, TypeParameters.names, List.map_map]
    exact List.map_id (n :: ns)

end TypeParameters

namespace EnumExtension

variable {x : EnumExtension}

/-- The method is what the extension is written as: visible and static, with the type parameters of
the types around the enum, and with a body. -/
structure DeclaredBy (methodName : String) (x : EnumExtension) (m : MethodDecl) : Prop where
  modifiers : m.modifiers.map (·.kind) = [x.visibility.modifier, .staticMod]
  explicitInterface : m.explicitInterface = none
  name : m.identifier.text = methodName
  typeParameters : (m.typeParameters.map (·.names)).getD [] = x.path.typeParameters
  hasBody : m.hasBody = true

theorem balanced_enum : Balanced "@enum".toList :=
  IsIdentifier.balanced (.inr ⟨"enum".toList, rfl, by decide⟩)

theorem WellNamed.balanced_qualified (hx : x.WellNamed) : Balanced x.path.qualified.toList := by
  rw [CanonicalPath.qualified, String.toList_append]
  exact (Balanced.of_all (by decide)).append hx.path

theorem WellNamed.balanced_constant (hx : x.WellNamed) {member : String} (hm : member ∈ x.members) :
    Balanced (x.constant member).toList := by
  rw [constant, String.toList_append, String.toList_append]
  exact (hx.balanced_qualified.append (.of_all (by decide))).append (hx.members member hm).balanced

theorem WellNamed.balanced_armLine (hx : x.WellNamed) {member : String} (hm : member ∈ x.members) :
    Balanced (x.armLine member).toList := by
  have hconstant := hx.balanced_constant hm
  have htext : (x.armLine member).toList = (x.constant member).toList ++ (" => nameof".toList ++
      '(' :: ((x.constant member).toList ++ ')' :: [','])) := by
    simp [armLine, constant, CanonicalPath.qualified]
  rw [htext]
  refine hconstant.append (.append (.of_all (by decide)) ?_)
  exact .bracket (by decide) (by decide) hconstant (.of_all (by decide))

theorem balanced_lastArm : Balanced lastArm.toList := by
  have htext : lastArm.toList = "_ => throw new System.ArgumentOutOfRangeException".toList ++
      '(' :: (("nameof".toList ++ '(' :: ("@enum".toList ++ ')' :: (", ".toList ++ "@enum".toList ++
        ", null".toList))) ++ ')' :: []) := by
    simp [lastArm]
  rw [htext]
  refine .append (.of_all (by decide)) (.bracket (by decide) (by decide) ?_ .nil)
  refine .append (.of_all (by decide)) (.bracket (by decide) (by decide) balanced_enum ?_)
  exact .append (.append (.of_all (by decide)) balanced_enum) (.of_all (by decide))

open CodeStep in
theorem WellNamed.balanced_arms (hx : x.WellNamed) (level : Nat) {members : List String}
    (hmembers : ∀ m ∈ members, m ∈ x.members) {ss : List CodeStep}
    (hss : Balanced (renderAt level ss).toList) :
    Balanced (renderAt level (members.map x.arm ++ ss)).toList := by
  induction members with
  | nil => exact hss
  | cons m ms ih =>
    rw [List.map_cons, arm_eq, List.cons_append]
    exact balanced_renderAt_line_cons (x.armLine_ne_empty m)
      (hx.balanced_armLine (hmembers m (by simp))) (ih fun m' hm' => hmembers m' (by simp [hm']))

open CodeStep in
/-- The braces of the switch stand on lines of their own. -/
theorem WellNamed.balanced_body (hx : x.WellNamed) (level : Nat) :
    Balanced (renderAt level x.body).toList := by
  have hlast : Balanced (renderAt (level + 1) [.line lastArm]).toList :=
    balanced_renderAt_line_cons (by decide) balanced_lastArm .nil
  have harms := hx.balanced_arms (level + 1) (fun m hm => hm) hlast
  have htext : (renderAt level x.body).toList = blanks level ++ ("return @enum switch".toList ++
      ('\n' :: (blanks level ++ '{' ::
        (('\n' :: (renderAt (level + 1) (x.members.map x.arm ++ [.line lastArm])).toList ++
          blanks level) ++ '}' :: [';', '\n'])))) := by
    have hbody : x.body = .line "return @enum switch" :: .line "\x7b" :: .indent ::
        ((x.members.map x.arm ++ [.line lastArm]) ++ [.closeBlock ";"]) := by
      simp [body]
    have hsettled : Settled (x.members.map x.arm ++ [.line lastArm]) :=
      (settled_arms x.members).append (.line_cons .nil)
    rw [hbody, toList_renderAt_line_cons (by decide), toList_renderAt_line_cons (by decide),
      renderAt, levelAfter, renderAt_append, hsettled]
    simp [renderAt, textAt]
  have hreturn : Balanced "return @enum switch".toList := by
    have hsplit : "return @enum switch".toList =
        "return ".toList ++ "@enum".toList ++ " switch".toList := by
      decide
    rw [hsplit]
    exact .append (.append (.of_all (by decide)) balanced_enum) (.of_all (by decide))
  rw [htext]
  refine (balanced_blanks level).append (hreturn.append (.plain (by decide) ?_))
  refine (balanced_blanks level).append (.bracket (by decide) (by decide) ?_ (.of_all (by decide)))
  exact .append (.plain (by decide) harms) (balanced_blanks level)

/-- Read back, the method is the one declaration that the enum asks for. -/
theorem declare_method {methodName : String} (hname : IsIdentifier methodName.toList)
    (hx : x.WellNamed) : CodeStep.Declare (x.method methodName)
      [fun m => ∃ decl, m = .ofMethod decl ∧ x.DeclaredBy methodName decl] := by
  have hheader : (x.signature methodName).toList =
      modifierText [x.visibility.modifier, .staticMod] ++ ("string".toList ++ ' ' ::
        (methodName.toList ++ (parametersText (TypeParameters.ofNames? x.path.typeParameters) ++
          '(' :: (("this ".toList ++ x.path.qualified.toList ++ " @enum".toList) ++ [')'])))) := by
    rw [TypeParameters.parametersText_ofNames?]
    cases hv : x.visibility <;>
      simp [signature, hv, modifierText, Visibility.modifier, Visibility.keyword,
        ModifierKind.text, CanonicalPath.genericSuffix]
  have hparameters : Balanced ("this ".toList ++ x.path.qualified.toList ++ " @enum".toList) :=
    .append (.append (.of_all (by decide)) hx.balanced_qualified)
      (.plain (c := ' ') (by decide) balanced_enum)
  have hks : .externMod ∉ [x.visibility.modifier, .staticMod] := by
    cases x.visibility <;> decide
  have hmethod := CodeStep.Declare.ofMethod hheader hks (.inl rfl) hname
    (TypeParameters.isParameterList_ofNames? hx.typeParameters) hparameters x.settled_body
    hx.balanced_body
  refine hmethod.mono ?_
  rintro m ⟨decl, rfl, hmods, hinterface, htext, hps, hbody⟩
  refine ⟨decl, rfl, hmods, hinterface, ?_, TypeParameters.names_of_declared? hps, hbody⟩
  rw [htext, String.ofList_toList]

theorem declare_methods {methodName : String} (hname : IsIdentifier methodName.toList)
    {xs : List EnumExtension} (hxs : ∀ x ∈ xs, x.WellNamed) :
    CodeStep.Declare (methods methodName xs)
      (xs.map fun x m => ∃ decl, m = .ofMethod decl ∧ x.DeclaredBy methodName decl) := by
  fun_induction methods methodName xs with
  | case1 => exact .nil
  | case2 x => exact declare_method hname (hxs x (by simp))
  | case3 x y xs ih =>
    have hrest := ih fun z hz => hxs z (List.mem_cons_of_mem x hz)
    exact (declare_method hname (hxs x (by simp))).append hrest.blank_cons

end EnumExtension

/-! ## The unit -/

namespace EnumNames

/-- The tree is one namespace in braces with one public static class, which has exactly one method
for each of the extensions, in their order. -/
def DeclaresExtensions (settings : EnumSettings) (xs : List EnumExtension)
    (tree : CompilationUnit) : Prop :=
  ∃ space head methods,
    tree.members = [.ofNamespace space [.ofType head (methods.map .ofMethod)]] ∧
    space.name.text = settings.namespaceName ∧ space.isFileScoped = false ∧
    head.modifiers.map (·.kind) = [.publicMod, .staticMod] ∧ head.kind = .classType ∧
    head.displayName = settings.className ∧
    List.Forall₂ (EnumExtension.DeclaredBy settings.methodName) xs methods

/-- Members that are each declared as a method are methods. -/
theorem exists_methods {R : EnumExtension → MethodDecl → Prop} {xs : List EnumExtension}
    {ms : List Member} (h : Each (xs.map fun x m => ∃ decl, m = .ofMethod decl ∧ R x decl) ms) :
    ∃ decls : List MethodDecl, ms = decls.map .ofMethod ∧ List.Forall₂ R xs decls := by
  induction xs generalizing ms with
  | nil =>
    cases h
    exact ⟨[], rfl, .nil⟩
  | cons x xs ih =>
    cases h with
    | cons hm hms =>
      obtain ⟨decl, rfl, hdecl⟩ := hm
      obtain ⟨decls, rfl, hdecls⟩ := ih hms
      exact ⟨decl :: decls, rfl, .cons hdecl hdecls⟩

/-- The text of the unit has a tree, which declares the methods. -/
theorem exists_parse_unit {settings : Settings} (hsettings : settings.WellNamed)
    {xs : List EnumExtension} (hxs : ∀ x ∈ xs, x.WellNamed) :
    ∃ tree, CompilationUnit.parse (EnumExtension.render settings.enums xs) = .ok tree ∧
      DeclaresExtensions settings.enums xs tree := by
  have hmethods := EnumExtension.declare_methods hsettings.methodName hxs
  have hclass : ("public static class " ++ settings.enums.className).toList =
      modifierText [.publicMod, .staticMod] ++ (TypeKind.classType.keyword.toList ++
        ' ' :: (settings.enums.className.toList ++ parametersText none)) := by
    simp [modifierText, ModifierKind.text, TypeKind.keyword, parametersText]
  have hspace : ("namespace " ++ settings.enums.namespaceName).toList =
      "namespace".toList ++ ' ' :: settings.enums.namespaceName.toList := by
    simp
  have hunit := CodeStep.Declare.ofNamespace hspace hsettings.namespaceName
    (.ofType hclass (by decide) hsettings.className (by simp) hmethods)
  obtain ⟨tree, htree, heach⟩ := CodeStep.exists_parse_render hunit
  obtain ⟨m, hmembers, space, ms, rfl, hname, hscoped, hms⟩ := heach.exists_eq_singleton
  obtain ⟨m, rfl, head, ds, rfl, hmods, hkind, hid, hps, hds⟩ := hms.exists_eq_singleton
  obtain ⟨decls, rfl, hdecls⟩ := exists_methods hds
  have hdisplay : head.displayName = settings.enums.className := by
    have hnone : head.typeParameters = none := Option.map_eq_none_iff.mp hps
    rw [TypeHead.displayName, hnone, hid, String.ofList_toList]
  rw [String.ofList_toList] at hname
  exact ⟨tree, htree, space, head, decls, hmembers, hname, hscoped, hmods, hkind, hdisplay, hdecls⟩

/-- Whatever names are taken, no other unit is published. -/
theorem eq_of_mem_units {settings : EnumSettings} {set : SourceSet} {evaluator : Evaluator}
    {taken : List String} {u : PublishedUnit}
    (hu : u ∈ (contribution settings set evaluator taken).units) :
    u = ⟨hint, EnumExtension.render settings (extensions set evaluator)⟩ := by
  have hconclusion : u ∈ (conclusion settings set taken (extensions set evaluator)).units := by
    simpa [contribution, EnumVerdict.units_contribution, EnumVerdict.units_target] using hu
  cases hxs : extensions set evaluator with
  | nil =>
    rw [hxs] at hconclusion
    cases hconclusion
  | cons x xs =>
    have hpublished : u ∈ (publishing settings set taken (x :: xs)).units := by
      simpa [hxs, conclusion, armEvents] using hconclusion
    unfold publishing at hpublished
    split at hpublished
    next => exact List.mem_singleton.mp hpublished
    next => split at hpublished <;> cases hpublished
    next => cases hpublished

end EnumNames

end DeclGen
