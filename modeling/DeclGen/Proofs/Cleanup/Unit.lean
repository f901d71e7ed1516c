import DeclGen.Cleanup.Contribution
import DeclGen.Proofs.Code
import DeclGen.Proofs.Publication
import DeclGen.Proofs.Settings
import DeclGen.Proofs.SourceSet

/-!
# The units of cleanup overrides

The text of the unit of a holder can be read again, and in its tree the holder is found at the same
place: in the same namespace, inside the same types, with the override as its only member.

## Main definitions

* `TypeHead.shape`: what another part of a type has to repeat
* `LeadsTo`: types around a declaration
* `Holder.DeclaresOverride`: what the part of a holder has to be

## Main statements

* `Holder.exists_parse_unit`: the unit of a holder declares the override
-/

namespace DeclGen

open DeclGen.Grammar

/-! ## Names -/

/-- The names of handles are names that were read in the sources. -/
theorem Member.WellNamed.handles {m : Member} (h : m.WellNamed) (handleTypes : List String) :
    ∀ i ∈ m.handles handleTypes, i.WellNamed := by
  intro i hi
  cases h with
  | ofField h =>
    rw [Member.handles] at hi
    split at hi
    next =>
      obtain ⟨d, hd, rfl⟩ := List.mem_map.mp hi
      exact h d hd
    next => cases hi
  | ofProperty h =>
    rw [Member.handles] at hi
    split at hi
    next =>
      obtain rfl := List.mem_singleton.mp hi
      exact h
    next => cases hi
  | ofNamespace | ofType | ofEnum | ofMethod | other => cases hi

theorem TypeSite.WellNamed.handles {site : TypeSite} (h : site.WellNamed)
    (handleTypes : List String) : ∀ i ∈ site.handles handleTypes, i.WellNamed := by
  intro i hi
  obtain ⟨m, hm, hi⟩ := List.mem_flatMap.mp hi
  exact (h.members m hm).handles handleTypes i hi

theorem Enclosing.wellNamed_types {chain : List Enclosing} (h : ∀ e ∈ chain, e.WellNamed) :
    ∀ t ∈ types chain, t.WellNamed := by
  intro t ht
  obtain ⟨e, he, htype⟩ := List.mem_filterMap.mp ht
  cases e with
  | ofNamespace head => cases htype
  | ofType head =>
    cases htype
    exact h _ he

/-- The names of namespaces inside each other, joined by dots, are one dotted name. -/
theorem Enclosing.isDottedName_namespaceName? {chain : List Enclosing}
    (h : ∀ e ∈ chain, e.WellNamed) : ∀ n ∈ namespaceName? chain, IsDottedName n.toList := by
  have hheads : ∀ head ∈ chain.filterMap namespace?, IsDottedName head.name.text.toList := by
    intro head hhead
    obtain ⟨e, he, hspace⟩ := List.mem_filterMap.mp hhead
    cases e with
    | ofNamespace head =>
      cases hspace
      exact h _ he
    | ofType head => cases hspace
  intro n hn
  rw [namespaceName?] at hn
  split at hn
  next => cases hn
  next hne =>
    cases hn
    refine .intercalate (by simpa using hne) fun s hs => ?_
    obtain ⟨head, hhead, rfl⟩ := List.mem_map.mp hs
    exact hheads head hhead

/-! ## Types around a declaration -/

/-- What every part of a type has to repeat: the kind, and the name with the type parameters. -/
def TypeHead.shape (t : TypeHead) : TypeKind × String := (t.kind, t.displayName)

theorem TypeParameters.text_of_declared {ps qs : TypeParameters}
    (h : declared ps.parameters = declared qs.parameters) : ps.text = qs.text := by
  have htexts (ps : TypeParameters) : ps.parameters.map (·.text) =
      (declared ps.parameters).map fun d => (⟨d.1, ⟨d.2, default⟩⟩ : TypeParameter).text := by
    rw [declared, List.map_map]
    refine List.map_congr_left fun p _ => ?_
    obtain ⟨variance, i⟩ := p
    cases variance <;> rfl
  rw [TypeParameters.text, TypeParameters.text, htexts, htexts, h]

theorem TypeHead.displayName_of_declared? {t u : TypeHead}
    (hid : t.identifier.text = u.identifier.text)
    (hps : declared? t.typeParameters = declared? u.typeParameters) :
    t.displayName = u.displayName := by
  rw [displayName, displayName, hid]
  cases ht : t.typeParameters with
  | none =>
    rw [ht] at hps
    rw [Option.map_eq_none_iff.mp hps.symm]
  | some ps =>
    rw [ht] at hps
    obtain ⟨qs, hu, hqs⟩ := Option.map_eq_some_iff.mp hps.symm
    rw [hu]
    exact congrArg (u.identifier.text ++ ·) (TypeParameters.text_of_declared hqs.symm)

theorem TypeHead.toList_displayName (t : TypeHead) :
    t.displayName.toList = t.identifier.text.toList ++ parametersText t.typeParameters := by
  rw [displayName]
  cases t.typeParameters with
  | none => simp [parametersText]
  | some ps => simp [parametersText]

/-- The member holds one of which `P` holds, inside types of the same shape as `ts`. -/
def LeadsTo (P : Member → Prop) : List TypeHead → Member → Prop
  | [], m => P m
  | t :: ts, m => ∃ head m', m = .ofType head [m'] ∧ head.shape = t.shape ∧ LeadsTo P ts m'

/-- The sites of what a member leads to are sites of the member. -/
theorem LeadsTo.exists_sites {P : Member → Prop} {ts : List TypeHead} {m : Member}
    (h : LeadsTo P ts m) (chain : List Enclosing) :
    ∃ (heads : List TypeHead) (m' : Member),
      heads.map TypeHead.shape = ts.map TypeHead.shape ∧ P m' ∧
      ∀ s ∈ m'.sites (chain ++ heads.map .ofType), s ∈ m.sites chain := by
  induction ts generalizing m chain with
  | nil => exact ⟨[], m, rfl, h, fun s hs => by simpa using hs⟩
  | cons t ts ih =>
    obtain ⟨head, m', rfl, hshape, h⟩ := h
    obtain ⟨heads, m'', hshapes, hP, hsites⟩ := ih h (chain ++ [.ofType head])
    refine ⟨head :: heads, m'', by simp [hshape, hshapes], hP, fun s hs => ?_⟩
    have hmem := hsites s (by simpa using hs)
    simp [Member.sites, sitesIn, hmem]

namespace Holder

/-- The steps inside the parts of the types around them. -/
theorem declare_parts {body : List CodeStep} {P : Member → Prop} (hbody : CodeStep.Declare body [P])
    {ts : List TypeHead} (hts : ∀ t ∈ ts, t.WellNamed) :
    CodeStep.Declare ((ts.map partHeader).foldr CodeStep.block body) [LeadsTo P ts] := by
  induction ts with
  | nil => exact hbody
  | cons t ts ih =>
    have hheader : (partHeader t).toList = modifierText [.partialMod] ++ (t.kind.keyword.toList ++
        ' ' :: (t.identifier.text.toList ++ parametersText t.typeParameters)) := by
      simp [partHeader, modifierText, ModifierKind.text, t.toList_displayName]
    obtain ⟨hid, hps⟩ := hts t (by simp)
    have hpart := CodeStep.Declare.ofType hheader (by decide) hid hps
      (ih fun u hu => hts u (by simp [hu]))
    refine hpart.mono ?_
    rintro m ⟨head, members, rfl, -, hkind, htext, hdeclared, hmembers⟩
    obtain ⟨m', rfl, hm'⟩ := hmembers.exists_eq_singleton
    rw [String.ofList_toList] at htext
    refine ⟨head, m', rfl, ?_, hm'⟩
    rw [TypeHead.shape, TypeHead.shape, hkind, TypeHead.displayName_of_declared? htext hdeclared]

/-! ## The class and the override -/

variable {settings : Settings} {h : Holder}

/-- The part of the class: another part of the same class, whose only member is the override. -/
structure DeclaresOverride (settings : CleanupSettings) (h : Holder) (site : TypeSite) : Prop where
  namespaceName? : Enclosing.namespaceName? site.chain = h.namespaceName?
  containers : (Enclosing.types site.chain).map TypeHead.shape = h.containers.map TypeHead.shape
  shape : site.head.shape = (.classType, h.site.head.displayName)
  modifiers : site.head.modifiers.map (·.kind) =
    (Modifier.access h.site.head.modifiers).map (·.kind) ++ [.partialMod]
  exists_method : ∃ m, site.members = [.ofMethod m] ∧ m.identifier.text = settings.hook ∧
    m.modifiers.map (·.kind) = [.protectedMod, .overrideMod]

/-- What is said of the part of the class, wherever it stands. -/
def IsPart (settings : CleanupSettings) (h : Holder) (m : Member) : Prop :=
  ∃ head decl, m = .ofType head [.ofMethod decl] ∧
    head.shape = (.classType, h.site.head.displayName) ∧
    head.modifiers.map (·.kind) =
      (Modifier.access h.site.head.modifiers).map (·.kind) ++ [.partialMod] ∧
    decl.identifier.text = settings.hook ∧
    decl.modifiers.map (·.kind) = [.protectedMod, .overrideMod]

/-- A call without arguments. -/
theorem balanced_call {r m : List Char} (hr : Balanced r) (hm : Balanced m) :
    Balanced (r ++ ('.' :: (m ++ '(' :: ([] ++ ')' :: [';'])))) :=
  hr.append (.plain (by decide) (hm.append
    (.bracket (by decide) (by decide) .nil (.of_all (by decide)))))

/-- The lines that release the handles, with further steps behind them. -/
theorem balanced_releases {is : List Identifier} (his : ∀ i ∈ is, i.WellNamed) {release : String}
    (hrelease : Balanced release.toList) {level : Nat} {ss : List CodeStep}
    (hss : Balanced (CodeStep.renderAt level ss).toList) :
    Balanced (CodeStep.renderAt level
      (is.map (fun i => .line (i.text ++ "." ++ release ++ "();")) ++ ss)).toList := by
  induction is with
  | nil => exact hss
  | cons i is ih =>
    have hne : i.text ++ "." ++ release ++ "();" ≠ "" := ne_of_apply_ne String.length (by simp)
    refine CodeStep.balanced_renderAt_line_cons hne ?_ (ih fun j hj => his j (by simp [hj]))
    have hcall := balanced_call (IsIdentifier.balanced (his i (by simp))) hrelease
    simpa using hcall

theorem settled_releases {is : List Identifier} {f : Identifier → String} {ss : List CodeStep}
    (hss : CodeStep.Settled ss) :
    CodeStep.Settled (is.map (fun i => .line (f i)) ++ ss) := by
  induction is with
  | nil => exact hss
  | cons i is ih => exact ih.line_cons

/-- Read back, the override is one protected method that overrides the hook. -/
theorem declare_override (hsettings : settings.WellNamed)
    (hhandles : ∀ i ∈ h.handles, i.WellNamed) :
    CodeStep.Declare (h.override settings.cleanup) [fun m => ∃ decl, m = .ofMethod decl ∧
      decl.identifier.text = settings.cleanup.hook ∧
      decl.modifiers.map (·.kind) = [.protectedMod, .overrideMod]] := by
  have hheader : ("protected override void " ++ settings.cleanup.hook ++ "()").toList =
      modifierText [.protectedMod, .overrideMod] ++ ("void".toList ++ ' ' ::
        (settings.cleanup.hook.toList ++ (parametersText none ++ '(' :: ([] ++ [')'])))) := by
    simp [modifierText, ModifierKind.text, parametersText]
  have hbase : Balanced ("base." ++ settings.cleanup.hook ++ "();").toList := by
    have hcall := balanced_call (r := "base".toList) (.of_all (by decide))
      hsettings.hook.balanced
    simpa using hcall
  have hbody (level : Nat) : Balanced (CodeStep.renderAt level
      (h.handles.map (fun i => .line (i.text ++ "." ++ settings.cleanup.releaseMethod ++ "();")) ++
        [.line ("base." ++ settings.cleanup.hook ++ "();")])).toList := by
    refine balanced_releases hhandles hsettings.releaseMethod.balanced ?_
    have hne : "base." ++ settings.cleanup.hook ++ "();" ≠ "" :=
      ne_of_apply_ne String.length (by simp)
    exact CodeStep.balanced_renderAt_line_cons hne hbase .nil
  have hmethod := CodeStep.Declare.ofMethod hheader (by decide) (.inr rfl) hsettings.hook (by simp)
    .nil (settled_releases (.line_cons .nil)) hbody
  refine hmethod.mono ?_
  rintro m ⟨decl, rfl, hmods, -, htext, -, -⟩
  exact ⟨decl, rfl, by rw [htext, String.ofList_toList], hmods⟩

/-- Modifiers written before a word are modifiers with a blank behind each. -/
theorem toList_intercalate_blank (ks : List ModifierKind) (word : String) :
    (" ".intercalate (ks.map (·.text) ++ [word])).toList = modifierText ks ++ word.toList := by
  induction ks with
  | nil => simp [modifierText]
  | cons k ks ih =>
    obtain ⟨z, zs, hzs⟩ := List.exists_cons_of_ne_nil (l := ks.map (·.text) ++ [word]) (by simp)
    have hmap : (k :: ks).map (·.text) ++ [word] = k.text :: z :: zs := by simp [← hzs]
    rw [hzs] at ih
    rw [hmap, String.intercalate_cons_cons, String.toList_append, String.toList_append, ih]
    simp [modifierText]

/-- Read back, the block of the class is one part of it that holds the override. -/
theorem declare_class (hsettings : settings.WellNamed) (hhead : h.site.head.WellNamed)
    (hhandles : ∀ i ∈ h.handles, i.WellNamed) :
    CodeStep.Declare (CodeStep.block (classHeader h.site.head) (h.override settings.cleanup))
      [IsPart settings.cleanup h] := by
  have hheader : (classHeader h.site.head).toList =
      modifierText ((Modifier.access h.site.head.modifiers).map (·.kind) ++ [.partialMod]) ++
        (TypeKind.classType.keyword.toList ++ ' ' :: (h.site.head.identifier.text.toList ++
          parametersText h.site.head.typeParameters)) := by
    have hmap := toList_intercalate_blank ((Modifier.access h.site.head.modifiers).map (·.kind))
      ("partial class " ++ h.site.head.displayName)
    rw [List.map_map] at hmap
    rw [classHeader]
    refine hmap.trans ?_
    simp [modifierText, ModifierKind.text, TypeKind.keyword, TypeHead.toList_displayName]
  have hks :
      .externMod ∉ (Modifier.access h.site.head.modifiers).map (·.kind) ++ [.partialMod] := by
    intro hmem
    rcases List.mem_append.mp hmem with hmem | hmem
    · obtain ⟨m, hm, hkind⟩ := List.mem_map.mp hmem
      have haccess := (List.mem_filter.mp hm).2
      rw [hkind] at haccess
      cases haccess
    · revert hmem
      decide
  obtain ⟨hid, hps⟩ := hhead
  have hclass := CodeStep.Declare.ofType hheader hks hid hps (declare_override hsettings hhandles)
  refine hclass.mono ?_
  rintro m ⟨head, members, rfl, hmods, hkind, htext, hdeclared, hmembers⟩
  obtain ⟨m', rfl, decl, rfl, hname, hdecl⟩ := hmembers.exists_eq_singleton
  rw [String.ofList_toList] at htext
  refine ⟨head, decl, rfl, ?_, hmods, hname, hdecl⟩
  rw [TypeHead.shape, hkind, TypeHead.displayName_of_declared? htext hdeclared]

/-! ## The unit -/

theorem types_append_ofType (chain : List Enclosing) (heads : List TypeHead) :
    Enclosing.types (chain ++ heads.map .ofType) = Enclosing.types chain ++ heads := by
  have htypes : (heads.map Enclosing.ofType).filterMap Enclosing.type? = heads := by
    rw [List.filterMap_map]
    exact List.filterMap_some
  rw [Enclosing.types, List.filterMap_append, htypes, Enclosing.types]

theorem namespaceName?_append_ofType (chain : List Enclosing) (heads : List TypeHead) :
    Enclosing.namespaceName? (chain ++ heads.map .ofType) = Enclosing.namespaceName? chain := by
  have hnone : (heads.map Enclosing.ofType).filterMap Enclosing.namespace? = [] := by
    rw [List.filterMap_map]
    exact List.filterMap_eq_nil_iff.mpr fun _ _ => rfl
  rw [Enclosing.namespaceName?, Enclosing.namespaceName?, List.filterMap_append, hnone,
    List.append_nil]

/-- The part of the class is found at the end of the parts of the types around it. -/
theorem exists_site_of_leadsTo {settings : CleanupSettings} {m : Member} (chain : List Enclosing)
    (hm : LeadsTo (IsPart settings h) h.containers m) (htypes : Enclosing.types chain = [])
    (hspace : Enclosing.namespaceName? chain = h.namespaceName?) :
    ∃ site, .ofType site ∈ m.sites chain ∧ h.DeclaresOverride settings site := by
  obtain ⟨heads, m', hshapes, ⟨head, decl, rfl, hshape, hmods, hname, hdecl⟩, hsites⟩ :=
    hm.exists_sites chain
  refine ⟨⟨chain ++ heads.map .ofType, head, [.ofMethod decl]⟩, hsites _ ?_, ?_⟩
  · rw [Member.sites]
    exact List.mem_cons_self
  · refine ⟨?_, ?_, hshape, hmods, decl, rfl, hname, hdecl⟩
    · rw [namespaceName?_append_ofType, hspace]
    · rw [types_append_ofType, htypes, List.nil_append, hshapes]

/-- The text of the unit has a tree, in which the override is found where the class was. -/
theorem exists_parse_unit (hsettings : settings.WellNamed) (hsite : h.site.WellNamed)
    (hhandles : ∀ i ∈ h.handles, i.WellNamed) :
    ∃ tree, CompilationUnit.parse (h.render settings.cleanup) = .ok tree ∧
      ∃ site, .ofType site ∈ tree.sites ∧ h.DeclaresOverride settings.cleanup site := by
  have hparts := declare_parts (declare_class hsettings hsite.head hhandles)
    (Enclosing.wellNamed_types hsite.chain)
  have hspaces := Enclosing.isDottedName_namespaceName? hsite.chain
  rw [render, steps, headers, List.append_assoc, List.foldr_append, List.foldr_append]
  cases hspace : h.namespaceName? with
  | none =>
    obtain ⟨tree, htree, heach⟩ := CodeStep.exists_parse_render hparts
    obtain ⟨m, hmembers, hm⟩ := heach.exists_eq_singleton
    obtain ⟨site, hmem, hsite⟩ := exists_site_of_leadsTo [] hm rfl hspace.symm
    refine ⟨tree, htree, site, ?_, hsite⟩
    rw [CompilationUnit.sites, hmembers]
    simp [sitesIn, hmem]
  | some n =>
    have hheader : ("namespace " ++ n).toList = "namespace".toList ++ ' ' :: n.toList := by simp
    have hunit := CodeStep.Declare.ofNamespace hheader (hspaces n hspace) hparts
    obtain ⟨tree, htree, heach⟩ := CodeStep.exists_parse_render hunit
    obtain ⟨m, hmembers, space, ms, rfl, hname, -, hms⟩ := heach.exists_eq_singleton
    obtain ⟨m, rfl, hm⟩ := hms.exists_eq_singleton
    have hspace' : Enclosing.namespaceName? [.ofNamespace space] = h.namespaceName? := by
      rw [hspace, ← String.ofList_toList (s := n), ← hname]
      rfl
    obtain ⟨site, hmem, hsite⟩ := exists_site_of_leadsTo [.ofNamespace space] hm rfl hspace'
    refine ⟨tree, htree, site, ?_, hsite⟩
    rw [CompilationUnit.sites, hmembers]
    simp [sitesIn, Member.sites, hmem]

end Holder

/-! ## The run -/

namespace HolderOutcome

variable {settings : CleanupSettings} {taken : List String} {hs : List Holder}

/-- An obstacle never leaves a unit. -/
theorem unit?_of_obstacle? {h : Holder} {o : HolderOutcome} (ho : obstacle? settings h = some o) :
    o.unit? = none := by
  unfold obstacle? at ho
  split at ho
  · cases ho
    rfl
  · split at ho
    · cases ho
      rfl
    · obtain ⟨m, -, rfl⟩ := Option.map_eq_some_iff.mp ho
      rfl

/-- The unit of a holder has its name and its text. -/
theorem eq_of_unit? {h : Holder} {u : PublishedUnit}
    (hu : (ofHolder settings taken h).unit? = some u) : u = ⟨h.hint, h.render settings⟩ := by
  unfold ofHolder at hu
  split at hu
  · cases hu
  · split at hu
    next o ho =>
      rw [unit?_of_obstacle? ho] at hu
      cases hu
    next =>
      split at hu
      · cases hu
        rfl
      · cases hu

/-- Each outcome is that of its holder where the names taken by then are taken. -/
theorem mem_of_mem_ofHolders {h : Holder} {o : HolderOutcome}
    (hmem : (h, o) ∈ ofHolders settings taken hs) :
    h ∈ hs ∧ ∃ taken', o = ofHolder settings taken' h := by
  induction hs generalizing taken with
  | nil => cases hmem
  | cons h' hs ih =>
    rcases List.mem_cons.mp hmem with heq | hmem
    · cases heq
      exact ⟨List.mem_cons_self, taken, rfl⟩
    · obtain ⟨hh, htaken⟩ := ih hmem
      exact ⟨List.mem_cons_of_mem h' hh, htaken⟩

theorem units_contribution (set : SourceSet) (h : Holder) (o : HolderOutcome) :
    (o.contribution settings set h).units = o.unit?.toList := by
  cases o with
  | refused error => cases error <;> rfl
  | idle | notPartial | containerNotPartial | hookDefined | published => rfl

end HolderOutcome

/-- Every unit is that of a holder. -/
theorem Cleanup.exists_of_mem_units {settings : CleanupSettings} {set : SourceSet}
    {taken : List String} {u : PublishedUnit} (hu : u ∈ (contribution settings set taken).units) :
    ∃ h ∈ set.holders settings, u = ⟨h.hint, h.render settings⟩ := by
  have hunits : ∃ h o, (h, o) ∈ HolderOutcome.ofHolders settings taken (set.holders settings) ∧
      o.unit? = some u := by
    simpa [contribution, foundEvent, summary, List.flatMap_map, HolderOutcome.units_contribution]
      using hu
  obtain ⟨h, o, hmem, hu⟩ := hunits
  obtain ⟨hh, taken', rfl⟩ := HolderOutcome.mem_of_mem_ofHolders hmem
  exact ⟨h, hh, HolderOutcome.eq_of_unit? hu⟩

end DeclGen
