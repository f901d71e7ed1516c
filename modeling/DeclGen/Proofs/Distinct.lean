import DeclGen.Proofs.Independence

/-!
# Enums and holders that do not meet

An earlier enum matters to a later one only if both can be seen and have one path, and an earlier
holder to a later one only if both have one hint name. Where that never happens, each of them comes
to what it comes to alone.

## Main definitions

* `SourceSet.Distinct`: no two visible enums have one path, and no two holders one hint name

## Main statements

* `EnumNames.outcomes_of_nodup`: what becomes of enums with different paths
* `HolderOutcome.ofHolders_of_nodup`: what becomes of holders with different hint names
-/

namespace DeclGen

namespace SourceSet

/-- The paths of the enums that can be seen, in order. -/
def visiblePaths (set : SourceSet) : List String :=
  (set.enums.filterMap LocatedEnum.target?).map (·.path.path)

/-- No two enums that can be seen have one path, and no two holders have one hint name. -/
structure Distinct (settings : CleanupSettings) (set : SourceSet) : Prop where
  paths : set.visiblePaths.Nodup
  hints : ((set.holders settings).map (·.hint)).Nodup

instance (settings : CleanupSettings) (set : SourceSet) : Decidable (set.Distinct settings) :=
  decidable_of_iff (set.visiblePaths.Nodup ∧ ((set.holders settings).map (·.hint)).Nodup)
    ⟨fun h => ⟨h.1, h.2⟩, fun h => ⟨h.paths, h.hints⟩⟩

end SourceSet

/-! ## Enums -/

namespace LocatedEnum

/-- Enums without the path of an enum make no difference to it. -/
theorem outcome_eq_alone {earlier : List LocatedEnum} {e : LocatedEnum}
    (h : ∀ t, e.target? = some t → ∀ other ∈ earlier.filterMap target?,
      other.path.path ≠ t.path.path) (evaluator : Evaluator) :
    e.outcome evaluator earlier = e.outcome evaluator [] := by
  unfold outcome
  cases haccess : e.site.access with
  | error error => rfl
  | ok visibility? =>
    cases visibility? with
    | none => rfl
    | some visibility =>
      have htarget : e.target? = some ⟨e.tree, e.site.decl, visibility, e.site.canonicalPath⟩ := by
        simp only [target?, haccess]
      have hnone : (earlier.filterMap target?).find?
          (·.path.path == e.site.canonicalPath.path) = none := by
        refine List.find?_eq_none.mpr fun other hother => ?_
        simpa using h _ htarget other hother
      simp only [hnone, List.filterMap_nil, List.find?_nil]

end LocatedEnum

/-- Where no two visible enums have one path, each comes to what it comes to alone. -/
theorem EnumNames.outcomes_of_nodup {set : SourceSet} (h : set.visiblePaths.Nodup)
    (evaluator : Evaluator) :
    outcomes set evaluator = set.enums.map fun e => (e, e.outcome evaluator []) := by
  refine List.ext_getElem (by simp [outcomes]) fun i hi hi' => ?_
  have hlt : i < set.enums.length := by simpa using hi'
  have hsplit : set.enums = set.enums.take i ++ set.enums[i] :: set.enums.drop (i + 1) := by simp
  have halone : set.enums[i].outcome evaluator (set.enums.take i) =
      set.enums[i].outcome evaluator [] := by
    refine LocatedEnum.outcome_eq_alone (fun t ht other hother heq => ?_) evaluator
    rw [SourceSet.visiblePaths, hsplit, List.filterMap_append, List.filterMap_cons_some ht,
      List.map_append, List.nodup_append] at h
    exact h.2.2 _ (List.mem_map_of_mem hother) _ List.mem_cons_self heq
  simp only [outcomes, List.getElem_mapIdx, List.getElem_map, halone]

/-! ## Holders -/

namespace HolderOutcome

/-- Where no two holders have one hint name, and none of theirs is taken, each comes to what it
comes to alone. -/
theorem ofHolders_of_nodup {settings : CleanupSettings} {taken : List String} {hs : List Holder}
    (htaken : ∀ h ∈ hs, h.hint ∉ taken) (hnodup : (hs.map (·.hint)).Nodup) :
    ofHolders settings taken hs = hs.map fun h => (h, ofHolder settings [] h) := by
  induction hs generalizing taken with
  | nil => rfl
  | cons h hs ih =>
    rw [List.map_cons, List.nodup_cons] at hnodup
    have halone : ofHolder settings taken h = ofHolder settings [] h := by
      have happend : ofHolder settings (taken ++ []) h = ofHolder settings [] h :=
        ofHolder_append settings (htaken h List.mem_cons_self)
      rwa [List.append_nil] at happend
    rw [ofHolders, List.map_cons, halone]
    refine congrArg _ (ih (fun x hx hin => ?_) hnodup.2)
    rcases List.mem_append.mp hin with hin | hin
    · exact htaken x (List.mem_cons_of_mem h hx) hin
    · -- The only name that is new is that of the unit for `h`.
      obtain ⟨u, hu, hname⟩ := Option.map_eq_some_iff.mp (Option.mem_toList.mp hin)
      have hown : u.hint = h.hint := by rw [eq_of_unit? hu]
      exact hnodup.1 (List.mem_map.mpr ⟨x, hx, hname.symm.trans hown⟩)

end HolderOutcome

end DeclGen
