import DeclGen.Proofs.EnumNames.Accounting

/-!
# Which enums verdicts are about

A verdict stands beside its enum, in the order of the sources. Whatever target it mentions is an
enum of the sources that can be seen: the enum itself, or the one that keeps it from being a target.

## Main statements

* `EnumVerdict.map_fst_ofSites`: there is a verdict for each enum
* `EnumVerdict.exists_of_mem_targets`, `EnumVerdict.exists_of_repeated`: the targets are enums
-/

namespace DeclGen

namespace EnumVerdict

variable {before : List EnumTarget} {es : List LocatedEnum} {e : LocatedEnum} {t : EnumTarget}

theorem map_fst_ofSites (before : List EnumTarget) (es : List LocatedEnum) :
    (ofSites before es).map (·.1) = es := by
  induction es generalizing before with
  | nil => rfl
  | cons e es ih => rw [ofSites, List.map_cons, ih]

theorem fst_mem_of_mem_ofSites {p : LocatedEnum × EnumVerdict} (h : p ∈ ofSites before es) :
    p.1 ∈ es := by
  have hmem := List.mem_map_of_mem (f := (·.1)) h
  rwa [map_fst_ofSites] at hmem

/-- An enum meets the targets before it. -/
theorem snd_of_ofSites_eq {front back : List (LocatedEnum × EnumVerdict)}
    {p : LocatedEnum × EnumVerdict} (h : ofSites before es = front ++ p :: back) :
    p.2 = ofSite (before ++ front.filterMap (·.2.target?)) p.1 := by
  induction es generalizing before front with
  | nil => simp [ofSites] at h
  | cons e es ih =>
    rw [ofSites] at h
    cases front with
    | nil =>
      obtain ⟨rfl, -⟩ := List.cons_eq_cons.mp h
      simp
    | cons q front =>
      obtain ⟨rfl, hrest⟩ := List.cons_eq_cons.mp h
      rw [ih hrest, List.append_assoc]
      congr 2
      cases hv : (ofSite before e).target? <;> simp [hv]

theorem target?_eq_of_ofSite (h : ofSite before e = target t) : e.target? = some t := by
  unfold ofSite at h
  unfold LocatedEnum.target?
  split at h
  · cases h
  · cases h
  · rename_i visibility haccess
    dsimp only at h
    split at h
    · cases h
    · cases h
      rw [haccess]

/-- The target that a repeated enum points back to is one of those before it. -/
theorem mem_of_ofSite_eq_repeated {path : String} (h : ofSite before e = repeated path t) :
    t ∈ before := by
  unfold ofSite at h
  split at h
  · cases h
  · cases h
  · dsimp only at h
    split at h
    · rename_i found
      cases h
      exact List.mem_of_find?_eq_some found
    · cases h

/-- A verdict that is a target is the target of its enum. -/
theorem target?_of_mem_ofSites {p : LocatedEnum × EnumVerdict} (hp : p ∈ ofSites before es)
    (ht : p.2.target? = some t) : p.1.target? = some t := by
  obtain ⟨before', hv⟩ := exists_ofSite_of_mem hp
  cases hp2 : p.2 with
  | target t' =>
    rw [hp2] at ht
    cases ht
    exact target?_eq_of_ofSite (hv.symm.trans hp2)
  | hidden | malformed | repeated => simp [hp2, target?] at ht

/-- The targets among verdicts are enums that can be seen. -/
theorem exists_of_mem_targets (h : t ∈ (ofSites before es).filterMap (·.2.target?)) :
    ∃ e ∈ es, e.target? = some t := by
  obtain ⟨p, hp, ht⟩ := List.mem_filterMap.mp h
  exact ⟨p.1, fst_mem_of_mem_ofSites hp, target?_of_mem_ofSites hp ht⟩

/-- An enum is repeated because of another that can be seen. -/
theorem exists_of_repeated {path : String} (h : (e, repeated path t) ∈ ofSites [] es) :
    ∃ kept ∈ es, kept.target? = some t := by
  obtain ⟨front, back, hsplit⟩ := List.append_of_mem h
  have hmem := mem_of_ofSite_eq_repeated (snd_of_ofSites_eq hsplit).symm
  have htarget : t ∈ (ofSites [] es).filterMap (·.2.target?) := by
    rw [hsplit, List.filterMap_append]
    exact List.mem_append_left _ hmem
  exact exists_of_mem_targets htarget

end EnumVerdict

/-- The target of an enum is the enum in its file. -/
theorem LocatedEnum.parts_of_target? {e : LocatedEnum} {t : EnumTarget} (h : e.target? = some t) :
    t.tree = e.tree ∧ t.decl = e.site.decl ∧ t.path = e.site.canonicalPath ∧
      e.site.access = .ok (some t.visibility) := by
  unfold target? at h
  split at h
  · rename_i visibility haccess
    cases h
    exact ⟨rfl, rfl, rfl, haccess⟩
  · cases h
  · cases h

end DeclGen
