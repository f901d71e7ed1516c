import DeclGen.CommandLine.Session

/-!
# Recorded sessions

A session on a tree of files in memory that also keeps a record of what it reads and writes. Two
such sessions are compared: one that starts from another tree and finds the same things there prints
the same, ends alike and leaves the same record.

## Main definitions

* `Access`, `Recording`: what is recorded, with an instance of `FileStore`
* `Session.exec`: what a session does from a state
* `Session.Repeats`: a session that changes nothing does the same on another tree

## Main statements

* `Session.Repeats.bind`: one step after the other
-/

namespace DeclGen.CommandLine

/-- An access to the content of a file. -/
inductive Access where
  | read (path : String) (content : Except FileFault ByteArray)
  | write (path text : String)

/-- A tree of files with a record of the accesses to it. -/
structure Recording where
  tree : FileTree ByteArray
  accesses : List Access

def recorded {β : Type} (access : StateM (FileTree ByteArray) β) (entries : β → List Access) :
    StateM Recording β :=
  fun r =>
    let (b, tree) := access.run r.tree
    (b, ⟨tree, r.accesses ++ entries b⟩)

instance : FileStore (StateM Recording) where
  tree? path := recorded (FileStore.tree? path) fun _ => []
  read path := recorded (FileStore.read path) fun content => [.read path content]
  createDirectories path := recorded (FileStore.createDirectories path) fun _ => []
  write path text := recorded (FileStore.write path text) fun _ => [.write path text]

/-- Whether a file or directory could not be accessed. -/
def Failure.isAccess : Failure → Bool
  | settings _ => false
  | settingsFile _ _ | missingInput _ | source _ _ | directory _ _ | unit _ _ => true

namespace Session

variable {β γ : Type}

/-- How a recorded session ends, what it has printed then and what it leaves. -/
def exec (x : Session (StateM Recording) β) (s : Transcript) (r : Recording) :
    (Except Failure β × Transcript) × Recording :=
  StateT.run (StateT.run (ExceptT.run x) s) r

variable {x : Session (StateM Recording) β} {f : β → Session (StateM Recording) γ}
  {s : Transcript} {r : Recording}

@[simp] theorem exec_pure (b : β) :
    exec (pure b : Session (StateM Recording) β) s r = ((.ok b, s), r) := rfl

@[simp] theorem exec_throw (failure : Failure) :
    exec (throw failure : Session (StateM Recording) β) s r = ((.error failure, s), r) := rfl

theorem exec_bind_of_ok {b : β} {s' : Transcript} {r' : Recording}
    (h : exec x s r = ((.ok b, s'), r')) : exec (x >>= f) s r = exec (f b) s' r' := by
  rw [exec] at h
  rw [exec, ExceptT.run_bind, StateT.run_bind, StateT.run_bind, h]
  rfl

theorem exec_bind_of_error {failure : Failure} {s' : Transcript} {r' : Recording}
    (h : exec x s r = ((.error failure, s'), r')) :
    exec (x >>= f) s r = ((.error failure, s'), r') := by
  rw [exec] at h
  rw [exec, ExceptT.run_bind, StateT.run_bind, StateT.run_bind, h]
  rfl

/-- Either the first step fails, or the second one follows. -/
theorem exec_bind_cases {result : Except Failure γ} {s' : Transcript} {r' : Recording}
    (h : exec (x >>= f) s r = ((result, s'), r')) :
    (∃ failure, exec x s r = ((.error failure, s'), r') ∧ result = .error failure) ∨
      ∃ b s₁ r₁, exec x s r = ((.ok b, s₁), r₁) ∧ exec (f b) s₁ r₁ = ((result, s'), r') := by
  obtain ⟨⟨resultx, s₁⟩, r₁, hx⟩ : ∃ p r₁, exec x s r = (p, r₁) := ⟨_, _, rfl⟩
  cases resultx with
  | error failure =>
    rw [exec_bind_of_error hx] at h
    cases h
    exact .inl ⟨failure, hx, rfl⟩
  | ok b =>
    rw [exec_bind_of_ok hx] at h
    exact .inr ⟨b, s₁, r₁, hx, h⟩

/-- A step whose result is only mapped. -/
theorem exec_bind_pure (g : β → γ) {result : Except Failure β} {s' : Transcript} {r' : Recording}
    (h : exec x s r = ((result, s'), r')) :
    exec (x >>= fun b => pure (g b)) s r = ((result.map g, s'), r') := by
  cases result with
  | error failure => exact exec_bind_of_error h
  | ok b => exact exec_bind_of_ok h

@[simp] theorem exec_ofAccess (access : StateM Recording β) :
    exec (ofAccess access) s r = ((.ok (access.run r).1, s), (access.run r).2) := rfl

theorem exec_orFail_of_ok {failure : FileFault → Failure}
    {access : StateM Recording (Except FileFault β)} {b : β} {r' : Recording}
    (h : access.run r = (.ok b, r')) : exec (orFail failure access) s r = ((.ok b, s), r') := by
  have haccess : exec (ofAccess access) s r = ((.ok (.ok b), s), r') := by rw [exec_ofAccess, h]
  rw [orFail, exec_bind_of_ok haccess, exec_pure]

theorem exec_orFail_of_error {failure : FileFault → Failure}
    {access : StateM Recording (Except FileFault β)} {fault : FileFault} {r' : Recording}
    (h : access.run r = (.error fault, r')) :
    exec (orFail failure access) s r = ((.error (failure fault), s), r') := by
  have haccess : exec (ofAccess access) s r = ((.ok (.error fault), s), r') := by
    rw [exec_ofAccess, h]
  rw [orFail, exec_bind_of_ok haccess, exec_throw]

@[simp] theorem exec_tree? (path : String) :
    exec (tree? path) s r = ((.ok ((r.tree.find? path).map (·.shape)), s), r) := by
  change ((_, s), (⟨r.tree, r.accesses ++ []⟩ : Recording)) = _
  rw [List.append_nil]

theorem run_read (path : String) : StateT.run (FileStore.read path : StateM Recording _) r =
    (r.tree.read path, ⟨r.tree, r.accesses ++ [.read path (r.tree.read path)]⟩) := rfl

end Session

/-! ## Changes to the tree -/

theorem run_changing_of_ok {change : FileTree ByteArray → Except FileFault (FileTree ByteArray)}
    {t t' : FileTree ByteArray} (h : change t = .ok t') :
    StateT.run (changing change) t = (.ok (), t') := by
  simp only [changing, StateT.run_bind, StateT.run_get, pure_bind, h]
  rfl

theorem run_changing_of_error
    {change : FileTree ByteArray → Except FileFault (FileTree ByteArray)} {t : FileTree ByteArray}
    {fault : FileFault} (h : change t = .error fault) :
    StateT.run (changing change) t = (.error fault, t) := by
  simp only [changing, StateT.run_bind, StateT.run_get, pure_bind, h]
  rfl

theorem run_recorded {β : Type} {access : StateM (FileTree ByteArray) β} {r : Recording} {b : β}
    {t : FileTree ByteArray} (entries : β → List Access) (h : access.run r.tree = (b, t)) :
    StateT.run (recorded access entries) r = (b, ⟨t, r.accesses ++ entries b⟩) := by
  rw [StateT.run, recorded, h]

namespace Session

variable {β γ : Type} {x : Session (StateM Recording) β} {f : β → Session (StateM Recording) γ}
  {s : Transcript} {r : Recording}

/-! ## Sessions that change nothing -/

/-- From the tree `t` the session changes nothing, makes only the accesses that are allowed and has
results with the property. From the tree `t'` it ends alike and leaves the same record. -/
def Repeats (t t' : FileTree ByteArray) (allowed : Access → Prop)
    (x : Session (StateM Recording) β) (P : β → Prop) : Prop :=
  ∀ s accesses result s' r', exec x s ⟨t, accesses⟩ = ((result, s'), r') →
    (∀ failure, result = .error failure → failure.isAccess = false) →
    ∃ new, (∀ a ∈ new, allowed a) ∧ r' = ⟨t, accesses ++ new⟩ ∧ (∀ b, result = .ok b → P b) ∧
      exec x s ⟨t', accesses⟩ = ((result, s'), ⟨t', accesses ++ new⟩)

namespace Repeats

variable {t t' : FileTree ByteArray} {allowed : Access → Prop} {P : β → Prop} {Q : γ → Prop}

protected theorem pure {b : β} (h : P b) :
    Repeats t t' allowed (pure b : Session (StateM Recording) β) P := by
  rintro s accesses result s' r' hexec -
  cases hexec
  refine ⟨[], by simp, by simp, ?_, by simp⟩
  rintro _ ⟨⟩
  exact h

theorem throw (failure : Failure) :
    Repeats t t' allowed (throw failure : Session (StateM Recording) β) P := by
  rintro s accesses result s' r' hexec -
  cases hexec
  refine ⟨[], by simp, by simp, ?_, by simp⟩
  rintro _ ⟨⟩

/-- The first session ends alike from both trees, so the second is started with the same value. -/
theorem bind (hx : Repeats t t' allowed x P) (hf : ∀ b, P b → Repeats t t' allowed (f b) Q) :
    Repeats t t' allowed (x >>= f) Q := by
  intro s accesses result s' r' hexec hfail
  rcases exec_bind_cases hexec with ⟨failure, hexecx, rfl⟩ | ⟨b, s₁, r₁, hexecx, hexecf⟩
  · obtain ⟨new, hallowed, hr, -, hagain⟩ := hx _ _ _ _ _ hexecx fun g hg => hfail g (by
      cases hg
      rfl)
    exact ⟨new, hallowed, hr, by rintro _ ⟨⟩, exec_bind_of_error hagain⟩
  · obtain ⟨new, hallowed, rfl, hP, hagain⟩ := hx _ _ _ _ _ hexecx (by rintro _ ⟨⟩)
    obtain ⟨new', hallowed', rfl, hQ, hagain'⟩ := hf b (hP b rfl) _ _ _ _ _ hexecf hfail
    refine ⟨new ++ new', ?_, by rw [List.append_assoc], hQ, ?_⟩
    · intro a ha
      exact (List.mem_append.mp ha).elim (hallowed a) (hallowed' a)
    · rw [exec_bind_of_ok hagain, hagain', List.append_assoc]

/-- What is printed is the same. -/
theorem complain (text : String) :
    Repeats t t' allowed (Session.complain text) fun _ => True := by
  rintro s accesses result s' r' hexec -
  cases hexec
  refine ⟨[], by simp, by simp, by simp, ?_⟩
  rw [List.append_nil]
  rfl

theorem log (limit : Option LogLevel) (e : LogEvent) :
    Repeats t t' allowed (Session.log limit e) fun _ => True := by
  rw [Session.log]
  split
  · exact complain _
  · exact .pure trivial

theorem logs (limit : Option LogLevel) (events : List LogEvent) :
    Repeats t t' allowed (events.forM (Session.log limit)) fun _ => True := by
  induction events with
  | nil => exact .pure trivial
  | cons e events ih =>
    rw [List.forM]
    exact (log limit e).bind fun _ _ => ih

/-- What is at a path may differ if the session does not care. -/
theorem tree?_bind {path : String} {f : Option (FileTree Unit) → Session (StateM Recording) γ}
    (hsame : f ((t'.find? path).map (·.shape)) = f ((t.find? path).map (·.shape)))
    (hf : Repeats t t' allowed (f ((t.find? path).map (·.shape))) Q) :
    Repeats t t' allowed (tree? path >>= f) Q := by
  intro s accesses result s' r' hexec hfail
  rw [exec_bind_of_ok (exec_tree? path)] at hexec
  obtain ⟨new, hallowed, hr, hQ, hagain⟩ := hf _ _ _ _ _ hexec hfail
  refine ⟨new, hallowed, hr, hQ, ?_⟩
  rw [exec_bind_of_ok (exec_tree? path), hsame, hagain]

/-- A file with the same content is read. -/
theorem readText {failure : FileFault → Failure} (hfailure : ∀ fault, (failure fault).isAccess)
    {path : String} (hread : ∀ content, t.read path = .ok content →
      t'.read path = .ok content ∧ allowed (.read path (.ok content))) :
    Repeats t t' allowed (Session.readText failure path) fun _ => True := by
  intro s accesses result s' r' hexec hfail
  cases hcontent : t.read path with
  | error fault =>
    have hstart := run_read (r := ⟨t, accesses⟩) path
    rw [hcontent] at hstart
    rw [Session.readText, exec_bind_of_error (exec_orFail_of_error hstart)] at hexec
    cases hexec
    simp [hfailure] at hfail
  | ok content =>
    obtain ⟨hcontent', hallowed⟩ := hread content hcontent
    have hstart := run_read (r := ⟨t, accesses⟩) path
    have hstart' := run_read (r := ⟨t', accesses⟩) path
    rw [hcontent] at hstart
    rw [hcontent'] at hstart'
    rw [Session.readText, exec_bind_of_ok (exec_orFail_of_ok hstart)] at hexec
    rw [Session.readText, exec_bind_of_ok (exec_orFail_of_ok hstart')]
    cases htext : String.fromUTF8? content with
    | none =>
      rw [htext] at hexec
      cases hexec
      simp [hfailure] at hfail
    | some text =>
      rw [htext] at hexec
      cases hexec
      exact ⟨[_], by simpa using hallowed, rfl, by simp, by simp⟩

end Repeats

end Session

end DeclGen.CommandLine
