import DeclGen.Proofs.Grammar.CappedDeclarations
import DeclGen.Proofs.Grammar.Declarations
import DeclGen.Proofs.Grammar.ParsedTypes

/-!
# Namespaces with and without braces

A file-scoped namespace and a namespace in braces around the same text declare the same, if no
declaration of the text is read at the end of a file only. If one is, the namespace in braces is not
read.

## Main definitions

* `fileScopedText`, `bracesText`: the two forms of a namespace
* `namespaceRest`: a namespace declaration behind its name

## Main statements

* `exists_compilationUnit`: a file that starts with a namespace declaration
* `braceBody_of_fileScopedBody`: the bodies of the two forms
* `CompilationUnit.braces_of_fileScoped`: the namespace in braces
-/

namespace DeclGen.Grammar

open DeclGen.Grammar.Parser DeclGen.Text

variable {α : Type} {text s t : List Char} {o : Nat}

/-! ## A file with one namespace -/

/-- What is read is known, so what comes next starts behind it. -/
theorem Reads.bind_at {p : Parser α} {P : α → Prop} {R : α → Nat → Prop} (h : Reads p s t P)
    (hs : Rest text o s) (hmoves : Moves text o p R) :
    ∃ a o', P a ∧ Rest text o' t ∧
      ∀ {β : Type} (f : α → Parser β), (p >>= f) ⟨o, s⟩ = f a ⟨o', t⟩ := by
  obtain ⟨a, o', hp, ha⟩ := h o
  have hout := (hmoves s hs).2
  rw [hp] at hout
  refine ⟨a, o', ha, hout.1, fun f => ?_⟩
  rw [bind_apply, hp]

def namespaceRest (start : Nat) (name : DottedName) : Parser Member := do
  trivia
  let isFileScoped ← acceptHere ";"
  let (usings, members) ← if isFileScoped then fileScopedBody membersIn else blockBody membersIn
  return .ofNamespace ⟨name, isFileScoped, usings, ← spanFrom start⟩ members

/-- Where the word and the name of a namespace are read, the rest of the declaration decides. -/
theorem exists_memberDeclaration {u v : List Char} {P : DottedName → Prop}
    (hname : Reads dottedName (' ' :: u) t P) (hv : "namespace".toList ++ ' ' :: u = v)
    (hs : Rest text o v) :
    ∃ start name o', P name ∧ Rest text o' t ∧
      memberDeclaration none ⟨o, v⟩ = namespaceRest start name ⟨o', t⟩ := by
  have hword : IsWord "namespace".toList := by decide
  have htrivia : Reads trivia v v fun _ => True := hv ▸ reads_trivia .nil hword.stops
  have hattributes : Reads attributeLists v v (· = []) :=
    hv ▸ reads_attributeLists_nil .nil hword.stops (hword.head?_ne (by decide))
  have hmodifiers : Reads modifiers v v fun ms => ms.map (·.kind) = [] :=
    hv ▸ reads_modifiers [] (k := "namespace") .nil hword (by decide)
  have hpeek : Reads peekWord v v (· = some "namespace") :=
    hv ▸ reads_peekWord .nil hword wordEnds_blank
  have hkeyword : Reads (keyword "namespace") v (' ' :: u) fun _ => True :=
    hv ▸ reads_keyword .nil hword wordEnds_blank
  obtain ⟨_, o₁, -, hs, htrivia⟩ := htrivia.bind_at hs moves_trivia
  obtain ⟨as, o₂, -, hs, hattributes⟩ := hattributes.bind_at hs moves_attributeLists
  obtain ⟨ms, o₃, -, hs, hmodifiers⟩ := hmodifiers.bind_at hs moves_modifiers
  obtain ⟨_, o₄, rfl, hs, hpeek⟩ := hpeek.bind_at hs moves_peekWord
  obtain ⟨_, o₅, -, hs, hkeyword⟩ := hkeyword.bind_at hs (moves_keyword _)
  have hlabel : Reads (label "namespace name" dottedName) (' ' :: u) t P := hname.label
  obtain ⟨name, o₆, hname, hs, hdotted⟩ := hlabel.bind_at hs moves_dottedName.label
  refine ⟨o₁, name, o₆, hname, hs, ?_⟩
  calc memberDeclaration none ⟨o, v⟩
    _ = _ := htrivia _
    _ = _ := hattributes _
    _ = _ := hmodifiers _
    _ = _ := hpeek _
    _ = _ := hkeyword _
    _ = _ := hdotted _

theorem stops_of_namespace {u v : List Char} (hv : "namespace".toList ++ ' ' :: u = v) :
    Stops v := by
  have hword : IsWord "namespace".toList := by decide
  exact hv ▸ hword.stops

/-- Such a declaration is the next member, and its rest decides. -/
theorem exists_member {u v : List Char} {P : DottedName → Prop}
    (hname : Reads dottedName (' ' :: u) t P) (hv : "namespace".toList ++ ' ' :: u = v)
    (hs : Rest text o v) :
    ∃ start name o', P name ∧ Rest text o' t ∧ member? membersIn none ⟨o, v⟩ =
      (namespaceRest start name >>= fun m => pure (some m)) ⟨o', t⟩ := by
  have hword : IsWord "namespace".toList := by decide
  obtain ⟨_, o₁, -, hs, hsemicolons⟩ :=
    (reads_straySemicolons .nil (stops_of_namespace hv) (hv ▸ hword.head?_ne (by decide))).bind_at
      hs moves_straySemicolons
  obtain ⟨start, name, o₂, hP, hrest, hdeclaration⟩ := exists_memberDeclaration hname hv hs
  obtain ⟨v, rfl⟩ : ∃ v', v = 'n' :: v' := ⟨"amespace".toList ++ ' ' :: u, hv.symm⟩
  refine ⟨start, name, o₂, hP, hrest, (hsemicolons _).trans ?_⟩
  change (memberDeclaration none >>= fun m => pure (some m)) ⟨o₁, 'n' :: v⟩ = _
  rw [bind_apply, bind_apply, hdeclaration]

/-- A file that starts with a namespace is the list of its declarations. -/
theorem exists_members {u : List Char} (hv : "namespace".toList ++ ' ' :: u = s) :
    ∃ o, Rest s o s ∧ compilationUnit ⟨0, s⟩ = (do
      let members ← many (member? membersIn none)
      label "a declaration" endOfText
      return (⟨[], members, ← spanFrom 0⟩ : CompilationUnit)) ⟨o, s⟩ := by
  have hword : IsWord "namespace".toList := by decide
  have hfails (k : String) (hk : k ∈ openingWords) : Fails (keyword k) s := by
    refine hv ▸ fails_keyword (w := []) .nil hword wordEnds_blank ?_
    rintro rfl
    revert hk
    decide
  have haliases : Reads externAliases s s fun _ => True := by
    refine .bind (.many_nil ?_) fun _ _ => .pure trivial
    exact (Reads.attempt_none (.bind_left (hfails "extern" (by decide)))).bind_eq (.pure rfl)
  have hs : Rest s 0 s := ⟨[], rfl, rfl⟩
  obtain ⟨_, o₁, -, hs, haliases⟩ := haliases.bind_at hs moves_externAliases
  obtain ⟨_, o₂, rfl, hs, husings⟩ :=
    (reads_usingDirectives .nil (stops_of_namespace hv) hfails).bind_at hs moves_usingDirectives
  have hmembers : membersIn none ⟨o₂, s⟩ = many (member? membersIn none) ⟨o₂, s⟩ :=
    (descends_membersIn _ membersIn (fun _ _ _ => rfl) none).symm
  refine ⟨o₂, hs, (haliases _).trans ((husings _).trans ?_)⟩
  rw [bind_apply, bind_apply, hmembers]

theorem many_of_error {p : Parser (Option α)} {c : Cursor} {e : SyntaxError}
    (h : p c = .error e) : many p c = .error e := by
  rw [many, rounds, manyRound, bind_apply, h]

/-- An element behind which there is no further one. -/
theorem many_of_last {p : Parser (Option α)} {c c' c'' : Cursor} {a : α}
    (h : p c = .ok (some a, c')) (hlt : c'.rest.length < c.rest.length)
    (hlast : many p c' = .ok ([], c'')) : many p c = .ok ([a], c'') := by
  have hround : manyRound p c = .ok (.more a, c') := by
    rw [manyRound, bind_apply, h]
    rfl
  rw [many] at hlast ⊢
  rw [rounds, hround]
  simp only [hlt, hlast, if_true]

/-- A file that starts with a namespace is read if nothing is left behind the namespace, and is not
read if the namespace is not. -/
theorem exists_compilationUnit {u : List Char} {P : DottedName → Prop}
    (hname : Reads dottedName (' ' :: u) t P) (hv : "namespace".toList ++ ' ' :: u = s) :
    ∃ start name o, P name ∧ Rest s o t ∧
      (∀ e, namespaceRest start name ⟨o, t⟩ = .error e →
        ∃ e', compilationUnit ⟨0, s⟩ = .error e') ∧
      ∀ m c, namespaceRest start name ⟨o, t⟩ = .ok (m, c) → c.rest = [] →
        ∃ span c', compilationUnit ⟨0, s⟩ = .ok (⟨[], [m], span⟩, c') := by
  obtain ⟨o₁, hs, hunit⟩ := exists_members hv
  obtain ⟨start, name, o₂, hP, hrest, hmember⟩ := exists_member hname hv hs
  rw [bind_apply] at hmember
  refine ⟨start, name, o₂, hP, hrest, fun e he => ?_, fun m c hm hc => ?_⟩
  · rw [he] at hmember
    refine ⟨e, ?_⟩
    rw [hunit, bind_apply, many_of_error hmember]
  · obtain ⟨o₃, back⟩ := c
    obtain rfl : back = [] := hc
    have hend : Reads (many (member? membersIn none)) [] [] (· = []) := by
      refine .many_nil ((reads_straySemicolons (w := []) .nil .nil (by simp)).bind fun _ _ => ?_)
      exact .ahead_bind (.pure rfl)
    obtain ⟨_, o₄, hnone, rfl⟩ := hend o₃
    rw [hm] at hmember
    have hlt : ([] : List Char).length < s.length := by
      rw [← hv]
      exact Nat.succ_pos _
    refine ⟨⟨0, o₄⟩, ⟨o₄, []⟩, ?_⟩
    rw [hunit, bind_apply, many_of_last hmember hlt hnone]
    rfl

/-! ## The two bodies -/

def braceBody : Parser (List UsingDirective × List Member) := do
  let usings ← usingDirectives
  let members ← membersIn none
  label "'\x7d' closing the namespace" (symbol "\x7d")
  let _ ← accept ";"
  return (usings, members)

theorem reads_closingBrace (hst : Capped [] t) : Reads (symbol "\x7d") t [] fun _ => True := by
  rcases hst.eq_of_nil with rfl | rfl
  · exact reads_symbol (w := ['\n']) (t := []) (.of_all (by decide)) (.cons (by decide))
  · exact reads_symbol (w := []) (t := []) .nil (.cons (by decide))

theorem eq_of_endOfText {what : String} {c c' : Cursor} {a : Unit}
    (h : label what endOfText c = .ok (a, c')) : c' = c ∧ c.rest = [] := by
  obtain ⟨o, s⟩ := c
  cases s with
  | nil =>
    cases h
    exact ⟨rfl, rfl⟩
  | cons d s => cases h

/-- What the body of a file-scoped namespace declares, the body in braces declares, unless something
in it is read at the end of the text only. Then the body in braces is not read. -/
theorem braceBody_of_fileScopedBody {us : List UsingDirective} {ms : List Member} {c : Cursor}
    (hs : Rest text o s) (h : fileScopedBody membersIn ⟨o, s⟩ = .ok ((us, ms), c)) (o' : Nat) :
    c.rest = [] ∧
      ((∀ m ∈ ms, ¬ HoldsOpenEnded text m) → ∃ us' ms' o'',
        braceBody ⟨o', s ++ ['\n', '}']⟩ = .ok ((us', ms'), ⟨o'', []⟩) ∧
          us.map (·.bare) = us'.map (·.bare) ∧ ms.map (·.bare) = ms'.map (·.bare)) ∧
      ((∃ m ∈ ms, HoldsOpenEnded text m) → ∃ e, braceBody ⟨o', s ++ ['\n', '}']⟩ = .error e) := by
  obtain ⟨us, c₁, hus, h⟩ := exists_of_bind_eq_ok h
  obtain ⟨ms, c₂, hms, h⟩ := exists_of_bind_eq_ok h
  obtain ⟨_, c₃, hend, h⟩ := exists_of_bind_eq_ok h
  cases h
  obtain ⟨rfl, hend⟩ := eq_of_endOfText hend
  have hfirm : Alike False usingDirectives usingDirectives fun us us' =>
      us.map (·.bare) = us'.map (·.bare) := alike_usingDirectives
  obtain ⟨us', d₁, hus', hbare, hcd⟩ := (hfirm s _ (.inside s) o o').exists_of_ok hus
  have hrest := (moves_usingDirectives s hs).2
  rw [hus] at hrest
  refine ⟨hend, ?_⟩
  obtain ⟨hgood, hbad⟩ :=
    carries_membersIn none c₁.offset c₁.rest d₁.rest hrest.1 hcd d₁.offset ms c hms
  rw [braceBody, bind_apply, hus']
  refine ⟨fun hclosed => ?_, fun hopen => ?_⟩
  · obtain ⟨-, ms', d₂, hms', hV, hcd'⟩ := hgood fun ⟨m, hm, hopen⟩ => hclosed m hm hopen
    have hclosing : Reads (do
        label "'\x7d' closing the namespace" (symbol "\x7d")
        let _ ← accept ";"
        return (us', ms')) d₂.rest [] (· = (us', ms')) := by
      refine (reads_closingBrace (hend ▸ hcd')).label.bind fun _ _ => ?_
      exact (reads_accept_false (w := []) .nil .nil rfl).bind_eq (.pure rfl)
    obtain ⟨_, o'', hread, rfl⟩ := hclosing d₂.offset
    refine ⟨us', ms', o'', ?_, hbare, map_eq_of_forall₂ hV⟩
    change (membersIn none >>= _) d₁ = _
    rw [bind_apply, hms']
    exact hread
  · change ∃ e, (membersIn none >>= _) d₁ = _
    rw [bind_apply]
    cases hms' : membersIn none d₁ with
    | error e => exact ⟨e, rfl⟩
    | ok r =>
      obtain ⟨ms', o₂, rest⟩ := r
      obtain rfl : rest = [] := hbad hopen ms' _ hms'
      have hfails : Fails (symbol "\x7d") [] := fails_symbol (w := []) .nil .nil rfl
      obtain ⟨e, he⟩ := hfails o₂
      refine ⟨e.within "'\x7d' closing the namespace", ?_⟩
      change (label "'\x7d' closing the namespace" (symbol "\x7d") >>= _) ⟨o₂, []⟩ = _
      rw [bind_apply, label, he]

variable {start : Nat} {name : DottedName}

/-- Behind its name and a semicolon, a file-scoped namespace is its body. -/
theorem exists_fileScopedBody {m : Member} {c : Cursor} (hs : Rest text o (';' :: s))
    (h : namespaceRest start name ⟨o, ';' :: s⟩ = .ok (m, c)) :
    ∃ o' us ms span, Rest text o' s ∧ fileScopedBody membersIn ⟨o', s⟩ = .ok ((us, ms), c) ∧
      m = .ofNamespace ⟨name, true, us, span⟩ ms := by
  obtain ⟨_, o₁, -, hs, htrivia⟩ :=
    (reads_trivia (t := ';' :: s) .nil (.cons (by decide))).bind_at hs moves_trivia
  obtain ⟨_, o₂, rfl, hs, haccept⟩ :=
    (reads_acceptHere ";" s).bind_at hs (moves_acceptHere (by decide))
  have hrest := ((htrivia _).trans (haccept _)).symm.trans h
  obtain ⟨⟨us, ms⟩, c', hbody, hend⟩ := exists_of_bind_eq_ok hrest
  cases hend
  exact ⟨o₂, us, ms, _, hs, hbody, rfl⟩

/-- Behind its name and an opening brace, a namespace in braces is its body. -/
theorem namespaceRest_braces (start : Nat) (name : DottedName) (hs : Rest text o ('{' :: s)) :
    ∃ o', namespaceRest start name ⟨o, '{' :: s⟩ = (do
      let (us, ms) ← braceBody
      return Member.ofNamespace ⟨name, false, us, ← spanFrom start⟩ ms) ⟨o', s⟩ := by
  have hstops : Stops ('{' :: s) := .cons (by decide)
  obtain ⟨_, o₁, -, hs, htrivia⟩ := (reads_trivia .nil hstops).bind_at hs moves_trivia
  obtain ⟨_, o₂, rfl, hs, haccept⟩ :=
    (reads_acceptHere_false (x := ";") rfl).bind_at hs (moves_acceptHere (by decide))
  have hbrace : Reads (symbol "\x7b") ('{' :: s) s fun _ => True :=
    reads_symbol (w := []) .nil hstops
  obtain ⟨_, o₃, -, hs, hopen⟩ := hbrace.label.bind_at hs (moves_symbol (by decide)).label
  refine ⟨o₃, (htrivia _).trans ((haccept _).trans ?_)⟩
  have hblock : blockBody membersIn ⟨o₂, '{' :: s⟩ = braceBody ⟨o₃, s⟩ := hopen _
  change (blockBody membersIn >>= _) _ = (braceBody >>= _) _
  rw [bind_apply, bind_apply, hblock]

/-! ## The two forms of a namespace -/

def fileScopedText (name body : String) : String := "namespace " ++ name ++ ";" ++ body

/-- The text of a namespace in braces, of which the closing one stands on a new line. -/
def bracesText (name body : String) : String :=
  "namespace " ++ name ++ "\x7b" ++ body ++ "\n\x7d"

/-- The name of a namespace is read in front of what opens the body. -/
theorem reads_namespaceName {y : List Char} {ys : List (List Char)} (hy : IsIdentifier y)
    (hys : ∀ z ∈ ys, IsIdentifier z) {c : Char} (hc : c = ';' ∨ c = '{') :
    Reads dottedName (' ' :: (y ++ dottedTailText ys ++ c :: s)) (c :: s) fun n =>
      n.segments.map (·.text) = (y :: ys).map String.ofList := by
  rcases hc with rfl | rfl <;>
    exact reads_segments (w := []) trivia_blank hy hys .nil (.cons (by decide)) (.cons (by decide))
      (by simp)

end DeclGen.Grammar

namespace DeclGen

open DeclGen.Grammar DeclGen.Grammar.Parser

theorem DottedName.bare_eq_of_segments {n n' : DottedName}
    (h : n.segments.map (·.text) = n'.segments.map (·.text)) : n.bare = n'.bare := by
  have hbare (n : DottedName) :
      n.segments.map (·.bare) = (n.segments.map (·.text)).map fun x => ⟨x, default⟩ := by
    rw [List.map_map]
    rfl
  rw [DottedName.bare, DottedName.bare, hbare, hbare, h]

/-- A file-scoped namespace that is read is the only declaration of its file. The namespace in
braces around the same text declares the same, if no declaration inside is read at the end of a text
only. If one is, the file with the namespace in braces is not read. -/
theorem CompilationUnit.braces_of_fileScoped {name body : String} {u : CompilationUnit}
    (hname : IsDottedName name.toList) (h : parse (fileScopedText name body) = .ok u) :
    ∃ head members span, u = ⟨[], [.ofNamespace head members], span⟩ ∧
      head.isFileScoped = true ∧
      ((∀ d ∈ declarationsIn members, ¬ d.OpenEnded (fileScopedText name body).toList) →
        ∃ head' members' span',
          parse (bracesText name body) = .ok ⟨[], [.ofNamespace head' members'], span'⟩ ∧
          head'.bare = { head.bare with isFileScoped := false } ∧
          bareMembers members' = bareMembers members) ∧
      ((∃ d ∈ declarationsIn members, d.OpenEnded (fileScopedText name body).toList) →
        ∃ e, parse (bracesText name body) = .error e) := by
  obtain ⟨y, ys, hx, hy, hys⟩ := hname
  obtain ⟨c, hread⟩ := exists_of_parse h
  -- The file-scoped namespace is its body up to the end of the text.
  have htext : "namespace".toList ++ ' ' :: (y ++ dottedTailText ys ++ ';' :: body.toList) =
      (fileScopedText name body).toList := by simp [fileScopedText, hx]
  obtain ⟨start, n, o, hn, hrest, herror, hok⟩ :=
    exists_compilationUnit (reads_namespaceName hy hys (.inl rfl)) htext
  obtain ⟨m, c₁, hm⟩ : ∃ m c₁, namespaceRest start n ⟨o, ';' :: body.toList⟩ = .ok (m, c₁) := by
    cases hm : namespaceRest start n ⟨o, ';' :: body.toList⟩ with
    | ok r => exact ⟨r.1, r.2, rfl⟩
    | error e =>
      obtain ⟨e', he⟩ := herror e hm
      cases he.symm.trans hread
  obtain ⟨o', us, ms, nspan, hs, hbody, rfl⟩ := exists_fileScopedBody hrest hm
  -- The namespace in braces is the same body up to the closing brace.
  have htext' : "namespace".toList ++
      ' ' :: (y ++ dottedTailText ys ++ '{' :: (body.toList ++ ['\n', '}'])) =
      (bracesText name body).toList := by simp [bracesText, hx]
  obtain ⟨start', n', o₁, hn', hrest', herror', hok'⟩ :=
    exists_compilationUnit (reads_namespaceName hy hys (.inr rfl)) htext'
  obtain ⟨o₂, hbraces⟩ := namespaceRest_braces start' n' hrest'
  obtain ⟨hend, hgood, hbad⟩ := braceBody_of_fileScopedBody hs hbody o₂
  obtain ⟨span, c₂, hunit⟩ := hok _ _ hm hend
  cases hunit.symm.trans hread
  refine ⟨_, ms, span, rfl, rfl, fun hclosed => ?_, ?_⟩
  · obtain ⟨us', ms', o₃, hbody', hus, hms⟩ := hgood fun m hm ⟨d, hd, hopen⟩ =>
      hclosed d (mem_declarationsIn.mpr ⟨m, hm, hd⟩) hopen
    rw [bind_apply, hbody'] at hbraces
    obtain ⟨span', c₃, hunit'⟩ := hok' _ _ hbraces rfl
    refine ⟨⟨n', false, us', ⟨start', o₃⟩⟩, ms', span', ?_, ?_, by simp [hms]⟩
    · rw [parse, Cursor.ofString, hunit']
      rfl
    · simp only [NamespaceHead.bare, DottedName.bare_eq_of_segments (hn'.trans hn.symm), hus]
  · rintro ⟨d, hd, hopen⟩
    obtain ⟨m, hm, hd⟩ := mem_declarationsIn.mp hd
    obtain ⟨e, he⟩ := hbad ⟨m, hm, d, hd, hopen⟩
    rw [bind_apply, he] at hbraces
    obtain ⟨e', hunit'⟩ := herror' e hbraces
    refine ⟨e', ?_⟩
    rw [parse, Cursor.ofString, hunit']
    rfl

def valuedEnum : String := "enum E \x7b X = 1, Y \x7d"

theorem CompilationUnit.braces_of_fileScoped_valuedEnum :
    ∃ head members span head' members' span',
      parse (fileScopedText "A.B" valuedEnum) =
        .ok ⟨[], [.ofNamespace head members], span⟩ ∧
      parse (bracesText "A.B" valuedEnum) =
        .ok ⟨[], [.ofNamespace head' members'], span'⟩ ∧
      head'.bare = { head.bare with isFileScoped := false } ∧
      bareMembers members' = bareMembers members := by
  have hparse : (parse (fileScopedText "A.B" valuedEnum)).toOption.any (fun u =>
      (declarationsIn (u.members.flatMap (·.inner))).all (·.isClosed)) = true := by decide +kernel
  obtain ⟨u, hread, hclosed⟩ := exists_of_any_parse hparse
  have hfirst : IsIdentifier ['A'] := .inl (by decide)
  have hsecond : IsIdentifier ['B'] := .inl (by decide)
  have hname : IsDottedName "A.B".toList := hfirst.isDottedName.append hsecond.isDottedName
  obtain ⟨head, members, span, rfl, -, hbraces, -⟩ := braces_of_fileScoped hname hread
  obtain ⟨head', members', span', hread', hhead, hmembers⟩ := hbraces fun d hd =>
    d.not_openEnded_of_isClosed (List.all_eq_true.mp hclosed d (by simpa [Member.inner] using hd))
  exact ⟨head, members, span, head', members', span', hread, hread', hhead, hmembers⟩

/-- An enum with a line that starts with `#` behind an initializer. The line is trivia behind an
expression, but not in a text that is kept. -/
def directiveEnum : String := "enum E \x7b A = 1\n#if , B \x7d"

/-- In braces, everything from the initializer up to the closing brace is an expression and trivia,
so the enum lacks its own brace. -/
theorem CompilationUnit.exists_braces_unread :
    ∃ u, parse (fileScopedText "N" directiveEnum) = .ok u ∧
      (∀ m ∈ u.members, ∀ d ∈ declarationsIn m.inner, ∀ head members,
        d = .ofNamespace head members → head.isFileScoped = false) ∧
      ∀ v, parse (bracesText "N" directiveEnum) ≠ .ok v := by
  have hparse : (parse (fileScopedText "N" directiveEnum)).toOption.any (fun u =>
      u.members.all fun m => (declarationsIn m.inner).all (·.isTypeOrEnum)) = true := by
    decide +kernel
  have hbraces : (parse (bracesText "N" directiveEnum)).toOption.isNone = true := by
    decide +kernel
  obtain ⟨u, hread, hu⟩ := exists_of_any_parse hparse
  refine ⟨u, hread, ?_, fun v hv => ?_⟩
  · rintro m hm d hd head members rfl
    cases List.all_eq_true.mp (List.all_eq_true.mp hu m hm) _ hd
  · rw [hv] at hbraces
    cases hbraces

end DeclGen
