import DeclGen.Proofs.CommandLine.Recording

/-!
# Sessions without a record

A recorded session prints the same, ends alike and leaves the same tree as one on the tree alone, so
what is shown of recorded sessions holds of those without a record.

## Main definitions

* `Records`, `Session.Records`: a computation does what a plain one does, and keeps a record

## Main statements

* `Session.records_run`: a whole session with a record does what it does without
-/

namespace DeclGen.CommandLine

variable {β γ : Type}

/-- Whatever the record is, `x` gives what `y` gives and leaves the same tree. -/
def Records (x : StateM Recording β) (y : StateM (FileTree ByteArray) β) : Prop :=
  ∀ r, ((x.run r).1, (x.run r).2.tree) = y.run r.tree

namespace Records

variable {x : StateM Recording β} {y : StateM (FileTree ByteArray) β}
  {f : β → StateM Recording γ} {g : β → StateM (FileTree ByteArray) γ}

protected theorem pure (b : β) : Records (pure b) (pure b) := fun _ => rfl

theorem bind (hx : Records x y) (hf : ∀ b, Records (f b) (g b)) :
    Records (x >>= f) (y >>= g) := by
  intro r
  rw [StateT.run_bind, StateT.run_bind, ← hx r]
  exact hf _ _

theorem recorded (access : StateM (FileTree ByteArray) β) (entries : β → List Access) :
    Records (CommandLine.recorded access entries) access := fun _ => rfl

end Records

namespace Session

/-- Whatever was printed before, `x` does what `y` does and keeps a record. -/
def Records (x : Session (StateM Recording) β) (y : Session (StateM (FileTree ByteArray)) β) :
    Prop :=
  ∀ s, CommandLine.Records (StateT.run (ExceptT.run x) s) (StateT.run (ExceptT.run y) s)

namespace Records

variable {x : Session (StateM Recording) β} {y : Session (StateM (FileTree ByteArray)) β}
  {f : β → Session (StateM Recording) γ} {g : β → Session (StateM (FileTree ByteArray)) γ}

protected theorem pure (b : β) : Records (pure b) (pure b) := fun _ => .pure _

theorem throw (failure : Failure) : Records (throw failure : Session _ β) (throw failure) :=
  fun _ => .pure _

theorem bind (hx : Records x y) (hf : ∀ b, Records (f b) (g b)) :
    Records (x >>= f) (y >>= g) := by
  intro s
  rw [ExceptT.run_bind, ExceptT.run_bind, StateT.run_bind, StateT.run_bind]
  apply (hx s).bind
  rintro ⟨result, s'⟩
  cases result with
  | ok b => exact hf b s'
  | error failure => exact .pure _

theorem ofAccess {access : StateM Recording β} {access' : StateM (FileTree ByteArray) β}
    (h : CommandLine.Records access access') :
    Records (Session.ofAccess access) (Session.ofAccess access') :=
  fun s r => congrArg (fun p => ((Except.ok p.1, s), p.2)) (h r)

theorem print (text : String) : Records (Session.print text) (Session.print text) :=
  fun _ => .pure _

theorem complain (text : String) : Records (Session.complain text) (Session.complain text) :=
  fun _ => .pure _

theorem log (limit : Option LogLevel) (e : LogEvent) :
    Records (Session.log limit e) (Session.log limit e) := by
  rw [Session.log, Session.log]
  split
  · exact complain _
  · exact .pure ()

theorem forM {l : List γ} {f : γ → Session (StateM Recording) PUnit}
    {g : γ → Session (StateM (FileTree ByteArray)) PUnit} (h : ∀ c, Records (f c) (g c)) :
    Records (l.forM f) (l.forM g) := by
  induction l with
  | nil => exact .pure _
  | cons c l ih => exact (h c).bind fun _ => ih

theorem orFail (failure : FileFault → Failure) {access : StateM Recording (Except FileFault β)}
    {access' : StateM (FileTree ByteArray) (Except FileFault β)}
    (h : CommandLine.Records access access') :
    Records (Session.orFail failure access) (Session.orFail failure access') := by
  apply (ofAccess h).bind
  rintro (fault | b)
  · exact .throw _
  · exact .pure b

theorem readText (failure : FileFault → Failure) (path : String) :
    Records (Session.readText failure path) (Session.readText failure path) := by
  apply (orFail failure (.recorded _ _)).bind
  intro content
  cases String.fromUTF8? content with
  | some text => exact .pure text
  | none => exact .throw _

theorem tree? (path : String) : Records (Session.tree? path) (Session.tree? path) :=
  ofAccess (.recorded _ _)

end Records

variable (limit : Option LogLevel) (command : Command)

/-! ## The steps of a session -/

theorem records_settingsIn (path : String) :
    Records (settingsIn limit path) (settingsIn limit path) := by
  apply (Records.readText _ path).bind
  intro text
  apply (Records.log limit _).bind
  intro _
  cases Settings.parse text with
  | ok settings => exact .pure settings
  | error e => exact .throw _

theorem records_loadSettings :
    Records (loadSettings limit command) (loadSettings limit command) := by
  have hfile (path : String) : Records (do return restrict command.only (← settingsIn limit path))
      (do return restrict command.only (← settingsIn limit path)) :=
    (records_settingsIn limit path).bind fun _ => .pure _
  rw [loadSettings, loadSettings]
  cases command.config with
  | some path => exact hfile path
  | none =>
    apply (Records.tree? defaultSettingsPath).bind
    rintro (_ | ⟨content⟩ | ⟨entries⟩)
    · exact .pure _
    · exact hfile defaultSettingsPath
    · exact .pure _

theorem records_collect (inputs : List String) : Records (collect inputs) (collect inputs) := by
  induction inputs with
  | nil => exact .pure []
  | cons path paths ih =>
    apply (Records.tree? path).bind
    rintro (_ | ⟨content⟩ | ⟨entries⟩)
    · exact .throw _
    · exact ih.bind fun _ => .pure _
    · exact ih.bind fun _ => .pure _

theorem records_readAll (paths : List String) : Records (readAll paths) (readAll paths) := by
  induction paths with
  | nil => exact .pure []
  | cons path paths ih => exact (Records.readText _ path).bind fun _ => ih.bind fun _ => .pure _

theorem records_generate (inColor : Bool) :
    Records (generate limit inColor command) (generate limit inColor command) := by
  apply (records_loadSettings limit command).bind
  intro settings
  apply (records_collect command.inputs).bind
  intro paths
  apply (Records.log limit _).bind
  intro _
  apply (records_readAll paths).bind
  intro files
  apply (Records.log limit _).bind
  intro _
  apply (Records.forM (Records.log limit)).bind
  intro _
  exact (Records.complain _).bind fun _ => .pure _

theorem records_writeAll (directory : String) (us : List PublishedUnit) :
    Records (writeAll limit directory us) (writeAll limit directory us) := by
  induction us with
  | nil => exact .pure ()
  | cons u us ih =>
    apply (Records.orFail _ (.recorded _ _)).bind
    intro _
    exact (Records.log limit _).bind fun _ => ih

theorem records_deliver (report : Report) (action : Action) :
    Records (deliver limit report action) (deliver limit report action) := by
  cases action with
  | check => exact .print _
  | print => exact .print _
  | write directory =>
    rw [deliver, deliver]
    split
    · exact .print _
    · apply (Records.orFail _ (.recorded _ _)).bind
      intro _
      exact (records_writeAll limit directory _).bind fun _ => .print _

/-- A recorded session gives the same outcome and the same tree as one without a record. -/
theorem records_run (inColor : Bool) : CommandLine.Records (run command inColor)
    (run command inColor) := by
  have hperform : Records (perform command inColor) (perform command inColor) := by
    apply (records_generate _ command _).bind
    intro report
    exact (records_deliver _ report command.action).bind fun _ => .pure _
  apply (hperform {}).bind
  rintro ⟨failure | isClean, s⟩ <;> exact .pure _

end Session

end DeclGen.CommandLine
