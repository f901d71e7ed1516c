import DeclGen.Proofs.CommandLine.Changes
import DeclGen.Proofs.CommandLine.Recording
import DeclGen.Proofs.Hints

/-!
# Delivering units

The units of a run are written to a directory. The tree grows by generated files only, each of them
is in the record, and to deliver the same units once more leaves the tree as it is.

## Main definitions

* `Written`: the places of the files that were written
* `Session.Makes`: a session that makes a change to the tree
* `Session.Settled`: what is left after units were written

## Main statements

* `Session.exec_deliver_again`: units are delivered once more as they were the first time
-/

namespace DeclGen.CommandLine

open FileTree

/-- Where a record has files written in the tree that is left. -/
def Written (t : FileTree ByteArray) (accesses : List Access) (names : List String) : Prop :=
  ∃ path text, .write path text ∈ accesses ∧ t.resolve [] (pathSteps path) = .ok names

/-- Only files with the names of generated units are at the places. -/
def AllGenerated (written : List String → Prop) : Prop :=
  ∀ names, written names → ∃ front name, names = front ++ [name] ∧
    ".g.cs".toList <:+ name.toList

namespace Session

variable {s : Transcript} {r : Recording} {t t₁ t₂ : FileTree ByteArray} {directory : String}

/-! ## Sessions that change the tree -/

/-- The session makes a change to the tree, with the entries in the record, and prints the same each
time. Where the tree cannot be changed that way, it fails because of an access. -/
structure Makes (x : Session (StateM Recording) Unit)
    (change : FileTree ByteArray → Except FileFault (FileTree ByteArray))
    (entries : List Access) : Prop where
  exists_exec : ∃ g : Transcript → Transcript, ∀ s r t, change r.tree = .ok t →
    exec x s r = ((.ok (), g s), ⟨t, r.accesses ++ entries⟩)
  fails : ∀ s r fault, change r.tree = .error fault →
    ∃ failure s' r', exec x s r = ((.error failure, s'), r') ∧ failure.isAccess = true

namespace Makes

variable {x y : Session (StateM Recording) Unit}
  {change change' : FileTree ByteArray → Except FileFault (FileTree ByteArray)}
  {entries entries' : List Access}

/-- A session that only prints leaves the tree as it is. -/
theorem of_exec {g : Transcript → Transcript} (h : ∀ s r, exec x s r = ((.ok (), g s), r)) :
    Makes x .ok [] where
  exists_exec := by
    refine ⟨g, ?_⟩
    rintro s _ _ ⟨⟩
    rw [h, List.append_nil]
  fails := by rintro _ _ _ ⟨⟩

theorem print (text : String) : Makes (Session.print text) .ok [] := of_exec fun _ _ => rfl

theorem note (limit : Option LogLevel) (message : String) :
    Makes (Session.note limit message) .ok [] := by
  rw [Session.note, Session.log]
  split
  · exact of_exec fun _ _ => rfl
  · exact @of_exec _ id fun _ _ => rfl

theorem access {failure : FileFault → Failure} (hfailure : ∀ fault, (failure fault).isAccess) :
    Makes (orFail failure (recorded (changing change) fun _ => entries)) change entries where
  exists_exec := ⟨id, fun _ _ _ h => exec_orFail_of_ok (run_recorded _ (run_changing_of_ok h))⟩
  fails s _ fault h := ⟨failure fault, s, _,
    exec_orFail_of_error (run_recorded _ (run_changing_of_error h)), hfailure fault⟩

theorem bind (hx : Makes x change entries) (hy : Makes y change' entries') :
    Makes (x >>= fun _ => y) (fun t => (change t).bind change') (entries ++ entries') where
  exists_exec := by
    obtain ⟨g, hg⟩ := hx.exists_exec
    obtain ⟨g', hg'⟩ := hy.exists_exec
    refine ⟨g' ∘ g, fun s r t h => ?_⟩
    obtain ⟨t₁, hchange, hchange'⟩ := exists_of_bind_ok h
    rw [exec_bind_of_ok (hg _ _ _ hchange), hg' _ _ _ hchange', List.append_assoc]
    rfl
  fails s r fault h := by
    obtain ⟨g, hg⟩ := hx.exists_exec
    cases hchange : change r.tree with
    | error fault' =>
      obtain ⟨failure, s', r', hexec, haccess⟩ := hx.fails s r _ hchange
      exact ⟨failure, s', r', exec_bind_of_error hexec, haccess⟩
    | ok t₁ =>
      rw [hchange] at h
      rw [exec_bind_of_ok (hg _ _ _ hchange)]
      exact hy.fails _ _ fault h

theorem bind_print (hx : Makes x change entries) (text : String) :
    Makes (x >>= fun _ => Session.print text) change entries := by
  have h := hx.bind (.print text)
  have hchange : (fun t => (change t).bind .ok) = change := by
    funext t
    cases change t <;> rfl
  rwa [hchange, List.append_nil] at h

/-- If the session does not fail because of an access, it makes the change, and it does so once more
from a tree that allows it. -/
theorem exec_again (h : Makes x change entries) {accesses : List Access}
    {result : Except Failure Unit} {s' : Transcript} {r' : Recording}
    (hexec : exec x s ⟨t, accesses⟩ = ((result, s'), r'))
    (hfail : ∀ failure, result = .error failure → failure.isAccess = false) :
    ∃ t', change t = .ok t' ∧ r' = ⟨t', accesses ++ entries⟩ ∧
      ∀ t₁ t₂ accesses', change t₁ = .ok t₂ →
        exec x s ⟨t₁, accesses'⟩ = ((result, s'), ⟨t₂, accesses' ++ entries⟩) := by
  obtain ⟨g, hg⟩ := h.exists_exec
  cases hchange : change t with
  | error fault =>
    obtain ⟨failure, s₁, r₁, hexec', haccess⟩ := h.fails s ⟨t, accesses⟩ fault hchange
    rw [hexec'] at hexec
    cases hexec
    simp [haccess] at hfail
  | ok t' =>
    rw [hg s ⟨t, accesses⟩ t' hchange] at hexec
    cases hexec
    exact ⟨t', rfl, rfl, fun t₁ t₂ accesses' => hg s ⟨t₁, accesses'⟩ t₂⟩

end Makes

/-! ## Writing units -/

def writes (directory : String) (us : List PublishedUnit) : List Access :=
  us.map fun u => .write (joinPath directory u.hint) u.text

theorem makes_writeAll (limit : Option LogLevel) (directory : String) (us : List PublishedUnit) :
    Makes (writeAll limit directory us) (writeUnits directory us) (writes directory us) := by
  induction us with
  | nil => exact @Makes.of_exec _ id fun _ _ => rfl
  | cons u us ih => exact (Makes.access fun _ => rfl).bind ((Makes.note limit _).bind ih)

/-- Units are delivered to a directory that is created if it is not there. -/
theorem makes_deliver (limit : Option LogLevel) {report : Report}
    (hunits : report.publication.units.isEmpty = false) (directory : String) :
    Makes (deliver limit report (.write directory))
      (fun t => (t.makeDirectories (pathParts directory)).bind
        (writeUnits directory report.publication.units))
      (writes directory report.publication.units) := by
  rw [deliver, hunits, if_neg Bool.false_ne_true]
  exact (Makes.access fun _ => rfl).bind ((makes_writeAll limit directory _).bind_print _)

/-! ## Delivering once more -/

/-- What is left after units were written: a tree that has grown by generated files, each of which
is in the record. -/
structure Settled (t t' : FileTree ByteArray) (accesses : List Access) : Prop where
  wellFormed : t'.WellFormed
  grows : Grows (Written t' accesses) t t'
  generated : AllGenerated (Written t' accesses)
  not_read : ∀ path content, .read path content ∉ accesses

theorem Settled.refl (ht : t.WellFormed) : Settled t t [] where
  wellFormed := ht
  grows := .refl _ _
  generated := by
    rintro names ⟨path, text, hmem, -⟩
    cases hmem
  not_read := by
    rintro path content ⟨⟩

/-- The units have different names, which are names of generated files. -/
structure WellHinted (us : List PublishedUnit) : Prop where
  nodup : (us.map (·.hint)).Nodup
  slash : ∀ u ∈ us, '/' ∉ u.hint.toList
  generated : ∀ u ∈ us, ".g.cs".toList <:+ u.hint.toList

theorem wellHinted_ofFiles (settings : Settings) (files : List (String × String)) :
    WellHinted (Report.ofFiles settings files).publication.units := by
  have haccepts := Generator.accepts_run (Generator.ofSettings settings)
    (SourceSet.ofFiles files).1 EnumDecl.constantText
  refine ⟨haccepts.nodup, fun u hu hslash => ?_, fun u hu => Generator.isGenerated_of_mem_units hu⟩
  have hvalid := haccepts.isValidHint u hu
  rw [isValidHint, Bool.and_eq_true] at hvalid
  have hallowed := List.all_eq_true.mp hvalid.2 '/' hslash
  simp [forbiddenInHints] at hallowed

theorem suffix_of_generated {s : List Char} (h : ".g.cs".toList <:+ s) : ".cs".toList <:+ s :=
  List.IsSuffix.trans ⟨".g".toList, by decide +kernel⟩ h

namespace WellHinted

variable {us : List PublishedUnit} (h : WellHinted us) {u : PublishedUnit} (hu : u ∈ us)
include h hu

theorem pathParts_hint : pathParts u.hint = [u.hint] := by
  refine pathParts_of_notMem (h.slash u hu) fun hempty => ?_
  have hend := h.generated u hu
  rw [hempty] at hend
  exact absurd hend (by decide)

theorem pathSteps_joinPath (directory : String) :
    pathSteps (joinPath directory u.hint) = pathParts directory ++ [u.hint] := by
  have hend := getLast?_of_suffix (h.generated u hu) (c := 's') (by decide)
  rw [CommandLine.pathSteps_joinPath directory hend (by decide), h.pathParts_hint hu]

theorem isPlainStep : IsPlainStep u.hint :=
  isPlainStep_of_suffix (suffix_of_generated (h.generated u hu))

end WellHinted

/-- The places of the units are those that are recorded. -/
theorem written_iff {us : List PublishedUnit} (hus : WellHinted us) {names : List String}
    (hresolve : t.resolve [] (pathParts directory) = .ok names) (hholds : t.Holds names us)
    (place : List String) :
    Written t (writes directory us) place ↔ ∃ u ∈ us, place = names ++ [u.hint] := by
  have hplace (u : PublishedUnit) (hu : u ∈ us) :
      t.resolve [] (pathSteps (joinPath directory u.hint)) = .ok (names ++ [u.hint]) := by
    rw [hus.pathSteps_joinPath hu, resolve_append, hresolve]
    change t.resolve names [u.hint] = _
    rw [resolve_plain hholds.directory (hus.isPlainStep hu), hholds.files u hu]
    rfl
  constructor
  · rintro ⟨path, text, hmem, hpath⟩
    obtain ⟨u, hu, heq⟩ := List.mem_map.mp hmem
    cases heq
    rw [hplace u hu] at hpath
    cases hpath
    exact ⟨u, hu, rfl⟩
  · rintro ⟨u, hu, rfl⟩
    exact ⟨_, u.text, List.mem_map_of_mem hu, hplace u hu⟩

/-- Units that were written to a directory are there, and can be written again. -/
theorem settled_of_writeUnits {us : List PublishedUnit} (ht : t.WellFormed) (hus : WellHinted us)
    (hne : us ≠ []) (hcreate : t.makeDirectories (pathParts directory) = .ok t₁)
    (hwrite : writeUnits directory us t₁ = .ok t₂) :
    Settled t t₂ (writes directory us) ∧
      t₂.makeDirectories (pathParts directory) = .ok t₂ ∧ writeUnits directory us t₂ = .ok t₂ := by
  have hcreated := created_of_makeDirectories hcreate
  have hparts (u : PublishedUnit) (hu : u ∈ us) := hus.pathParts_hint hu
  obtain ⟨names, hresolve, hdir⟩ : ∃ names, t₁.resolve [] (pathParts directory) = .ok names ∧
      t₁.kind? names = some .directory := by
    obtain ⟨u, us, rfl⟩ := List.exists_cons_of_ne_nil hne
    obtain ⟨t', hfirst, -⟩ := exists_of_bind_ok hwrite
    obtain ⟨names, hresolve, hdir, -⟩ := exists_of_write (hparts u List.mem_cons_self) hfirst
    exact ⟨names, hresolve, hdir⟩
  obtain ⟨hwell, hgrows, hholds⟩ :=
    writeUnits_spec (hcreated.wellFormed ht) hus.nodup hparts hdir hresolve hwrite
  have hresolve' := hgrows.resolve hresolve
  have hwritten := written_iff hus hresolve' hholds
  refine ⟨⟨hwell, ?_, ?_, ?_⟩, makeDirectories_again hcreate hgrows,
    writeUnits_again hwell hparts hresolve' hholds⟩
  · exact (hcreated.grows.mono fun _ => False.elim).trans
      (hgrows.mono fun place hplace => (hwritten place).mpr hplace)
  · intro place hplace
    obtain ⟨u, hu, rfl⟩ := (hwritten place).mp hplace
    exact ⟨names, u.hint, rfl, hus.generated u hu⟩
  · intro path content hmem
    obtain ⟨u, -, heq⟩ := List.mem_map.mp hmem
    cases heq

/-- Delivering once more from the tree that is left is like the first time. -/
theorem exec_deliver_again {limit : Option LogLevel} {report : Report} {action : Action}
    (ht : t.WellFormed) (hunits : WellHinted report.publication.units) {accesses : List Access}
    {result : Except Failure Unit} {s' : Transcript} {r' : Recording}
    (h : exec (deliver limit report action) s ⟨t, accesses⟩ = ((result, s'), r'))
    (hfail : ∀ failure, result = .error failure → failure.isAccess = false) :
    ∃ t₂ new, r' = ⟨t₂, accesses ++ new⟩ ∧ Settled t t₂ new ∧
      ∀ accesses', exec (deliver limit report action) s ⟨t₂, accesses'⟩ =
        ((result, s'), ⟨t₂, accesses' ++ new⟩) := by
  have hprint {text : String}
      (hdeliver : (deliver limit report action : Session (StateM Recording) Unit) = print text) :
      ∃ t₂ new, r' = ⟨t₂, accesses ++ new⟩ ∧ Settled t t₂ new ∧
        ∀ accesses', exec (deliver limit report action) s ⟨t₂, accesses'⟩ =
          ((result, s'), ⟨t₂, accesses' ++ new⟩) := by
    rw [hdeliver] at h ⊢
    obtain ⟨_, ⟨⟩, rfl, hagain⟩ := (Makes.print text).exec_again h hfail
    exact ⟨t, [], rfl, .refl ht, fun accesses' => hagain t t accesses' rfl⟩
  cases action with
  | check => exact hprint rfl
  | print => exact hprint rfl
  | write directory =>
    cases hempty : report.publication.units.isEmpty with
    | true => exact hprint (by rw [deliver, hempty, if_pos rfl])
    | false =>
      obtain ⟨t₂, hchange, rfl, hagain⟩ :=
        (makes_deliver limit hempty directory).exec_again h hfail
      obtain ⟨t₁, hcreate, hwrite⟩ := exists_of_bind_ok hchange
      have hne : report.publication.units ≠ [] := by simpa using hempty
      obtain ⟨hsettled, hcreate', hwrite'⟩ := settled_of_writeUnits ht hunits hne hcreate hwrite
      refine ⟨t₂, _, rfl, hsettled, fun accesses' => hagain t₂ t₂ accesses' ?_⟩
      rw [hcreate']
      exact hwrite'

end Session

end DeclGen.CommandLine
