import DeclGen.Proofs.Grammar.Members
import Mathlib.Data.List.Forall2

/-!
# Reading declarations

Declarations of generated code, one by one and in lists, and the files they make.

## Main definitions

* `IsDeclaration`, `AreDeclarations`: the texts of one declaration and of several

## Main statements

* `IsDeclaration.ofMethod`, `IsDeclaration.ofType`, `IsDeclaration.ofNamespace`
* `exists_parse_eq_ok`: a file of declarations is read
-/

namespace DeclGen.Grammar

open DeclGen.Grammar.Parser DeclGen.Text

variable {α : Type} {v w x y s t : List Char}

/-! ## Declarations -/

/-- What stands before a declaration; the word behind the modifiers is seen, but not read. -/
theorem reads_declHeader {f : Nat → List AttributeList → List Modifier → Option String → Parser α}
    {k : String} {u : List Char} {Q : α → Prop} (ks : List ModifierKind) (hk : IsWord k.toList)
    (hnone : ModifierKind.ofText? k = none)
    (hf : ∀ start as ms, ms.map (·.kind) = ks →
      Reads (f start as ms (some k)) (k.toList ++ ' ' :: t) u Q) :
    Reads (do trivia
              let start ← offset
              let as ← attributeLists
              let ms ← modifiers
              f start as ms (← peekWord)) (modifierText ks ++ (k.toList ++ ' ' :: t)) u Q := by
  obtain ⟨j, z, htext, hj, -⟩ := exists_word_of_modifierText ks hk t
  have hmods := reads_modifiers (t := t) ks .nil hk hnone
  have hpeek := reads_peekWord .nil hk (wordEnds_blank (t := t))
  rw [String.ofList_toList] at hpeek
  have hattributes := reads_attributeLists_nil .nil (hj.stops (t := ' ' :: z))
    (hj.head?_ne (by decide))
  rw [htext] at hmods ⊢
  refine .of_stops hj.stops (.offset_bind fun start => ?_)
  exact hattributes.bind fun as _ => hmods.bind fun ms hms => hpeek.bind_eq (hf start as ms hms)

def openingWords : List String := ["extern", "global", "using"]

/-- The text is a declaration; what is declared satisfies `Q`. -/
structure IsDeclaration (x : List Char) (Q : Member → Prop) : Prop where
  startsWord : ∃ j u, x = j.toList ++ ' ' :: u ∧ IsWord j.toList ∧ j ∉ openingWords
  reads : ∀ container n t, Fails (symbol ";") t → (x ++ t).length ≤ n →
    Reads (memberDeclarationOf (selfBelow membersOf n) container) (x ++ t) t Q

theorem exists_opening_of_modifierText {ks : List ModifierKind} {k : String}
    (hks : .externMod ∉ ks) (hk : IsWord k.toList) (hopen : k ∉ openingWords) (t : List Char) :
    ∃ j u, modifierText ks ++ (k.toList ++ ' ' :: t) = j.toList ++ ' ' :: u ∧
      IsWord j.toList ∧ j ∉ openingWords := by
  obtain ⟨j, u, htext, hj, hjk⟩ := exists_word_of_modifierText ks hk t
  refine ⟨j, u, htext, hj, ?_⟩
  rcases hjk with rfl | ⟨m, hm, rfl⟩
  · exact hopen
  · have hne : m ≠ .externMod := fun heq => hks (heq ▸ hm)
    revert hne
    cases m <;> decide

/-- No constructor starts with a reserved word. -/
theorem reads_acceptConstructor_false {r : String} (container : Option String)
    (hr : IsWord r.toList) (hkey : isKeyword r = true) (ht : WordEnds t) :
    Reads (acceptConstructor container) (r.toList ++ t) (r.toList ++ t) (· = false) := by
  cases container with
  | none => exact .pure rfl
  | some name =>
    have hfails : Fails identifier (r.toList ++ t) :=
      fails_identifier (w := []) .nil hr (by rwa [String.ofList_toList]) ht
    exact (Reads.attempt_none hfails.bind_left).bind_eq (.pure rfl)

/-- What starts with a reserved word is neither a destructor nor a constructor. -/
theorem reads_unmarkedMember {r : String} {h : DeclHeader} {u : List Char}
    {Q : Member → Prop} (container : Option String) (hr : IsWord r.toList)
    (hkey : isKeyword r = true) (ht : WordEnds t)
    (htyped : Reads (typedMember h) (r.toList ++ t) u Q) :
    Reads (do
        if ← nextIs '~' then
          let _ ← label "destructor" (takeUntil (· == '('))
          let _ ← parenthesized
          otherMember h.start .destructor
        else if ← acceptConstructor container then
          let _ ← parenthesized
          otherMember h.start .constructor
        else typedMember h) (r.toList ++ t) u Q := by
  refine (reads_nextIs '~' _).bind_eq ?_
  rw [beq_eq_false_iff_ne.mpr (hr.head?_ne (by decide)), if_neg (by decide)]
  refine (reads_acceptConstructor_false container hr hkey ht).bind_eq ?_
  rw [if_neg (by decide)]
  exact htyped

/-- A built-in type, a name and a body declare a method. -/
theorem IsDeclaration.ofMethod {r : String} {ps : Option TypeParameters} {ks : List ModifierKind}
    (hks : .externMod ∉ ks) (hr : r = "string" ∨ r = "void") (hname : IsIdentifier v)
    (hps : ∀ qs ∈ ps, IsParameterList qs) (hx : Balanced x) (hw : Trivia w) (hy : Balanced y) :
    IsDeclaration
      (modifierText ks ++ (r.toList ++ ' ' :: (v ++ (parametersText ps ++
        '(' :: (x ++ ')' :: (w ++ '{' :: (y ++ ['}'])))))))
      fun m => ∃ decl, m = .ofMethod decl ∧ decl.modifiers.map (·.kind) = ks ∧
        decl.explicitInterface = none ∧ decl.identifier.text = String.ofList v ∧
        declared? decl.typeParameters = declared? ps ∧ decl.hasBody = true := by
  have hword : IsWord r.toList := by rcases hr with rfl | rfl <;> decide
  have hnone : ModifierKind.ofText? r = none := by rcases hr with rfl | rfl <;> decide
  have hpre : isPredefinedType r = true := by rcases hr with rfl | rfl <;> decide
  have hkey : isKeyword r = true := by rcases hr with rfl | rfl <;> decide
  have hopen : r ∉ openingWords := by rcases hr with rfl | rfl <;> decide
  constructor
  · exact exists_opening_of_modifierText hks hword hopen _
  · intro container n t _ _
    simp only [List.append_assoc, List.cons_append, List.nil_append]
    refine reads_declHeader ks hword hnone fun start as ms hms => ?_
    have htyped := reads_typedMember (h := ⟨start, as, ms⟩) (t := t) hword hpre hname hps hx hw hy
    have hrest := reads_unmarkedMember container hword hkey wordEnds_blank htyped
    refine Reads.mono (by rcases hr with rfl | rfl <;> exact hrest) ?_
    rintro m ⟨decl, rfl, hmods, h⟩
    exact ⟨decl, rfl, by rw [hmods, hms], h⟩

/-! ## Lists of declarations -/

/-- The text is a list of declarations with trivia between them. What each of them declares
satisfies the predicate in its place. -/
inductive AreDeclarations : List Char → List (Member → Prop) → Prop where
  | nil {w : List Char} (hw : Trivia w) : AreDeclarations w []
  | cons {w x y : List Char} {P : Member → Prop} {Ps : List (Member → Prop)} (hw : Trivia w)
      (hx : IsDeclaration x P) (hy : AreDeclarations y Ps) :
      AreDeclarations (w ++ (x ++ y)) (P :: Ps)

/-- The members satisfy the predicates in their places. -/
def Each (Ps : List (Member → Prop)) (ms : List Member) : Prop :=
  List.Forall₂ (fun P m => P m) Ps ms

theorem Each.exists_eq_singleton {P : Member → Prop} {ms : List Member} (h : Each [P] ms) :
    ∃ m, ms = [m] ∧ P m := by
  cases h with
  | cons hm hrest =>
    cases hrest
    exact ⟨_, rfl, hm⟩

theorem AreDeclarations.trivia_append {Ps : List (Member → Prop)} (hv : Trivia v)
    (h : AreDeclarations x Ps) : AreDeclarations (v ++ x) Ps := by
  cases h with
  | nil hw => exact .nil (hv.append hw)
  | cons hw hx hy =>
    rw [← List.append_assoc]
    exact .cons (hv.append hw) hx hy

/-- Declarations behind declarations. -/
theorem AreDeclarations.append {Ps Qs : List (Member → Prop)} (hx : AreDeclarations x Ps)
    (hy : AreDeclarations y Qs) : AreDeclarations (x ++ y) (Ps ++ Qs) := by
  induction hx with
  | nil hw => exact hy.trivia_append hw
  | cons hw hx _ ih =>
    rw [List.append_assoc, List.append_assoc]
    exact .cons hw hx ih

theorem AreDeclarations.append_trivia {Ps : List (Member → Prop)} (h : AreDeclarations x Ps)
    (hw : Trivia w) : AreDeclarations (x ++ w) Ps := by
  have happend := h.append (.nil hw)
  rwa [List.append_nil] at happend

theorem IsDeclaration.mono {P Q : Member → Prop} (h : IsDeclaration x P) (hPQ : ∀ m, P m → Q m) :
    IsDeclaration x Q :=
  ⟨h.startsWord, fun container n t ht hn => (h.reads container n t ht hn).mono hPQ⟩

theorem AreDeclarations.mono {Ps Qs : List (Member → Prop)} (h : AreDeclarations x Ps)
    (hPQ : List.Forall₂ (fun P Q => ∀ m, P m → Q m) Ps Qs) : AreDeclarations x Qs := by
  induction h generalizing Qs with
  | nil hw =>
    cases hPQ
    exact .nil hw
  | cons hw hx hy ih =>
    cases hPQ with
    | cons hP hPs => exact .cons hw (hx.mono hP) (ih hPs)

/-- Declarations end at the end of the text or at a closing brace. -/
def EndsMembers (t : List Char) : Prop := ∀ c, t.head? = some c → c = '}'

theorem EndsMembers.nil : EndsMembers [] := by
  intro c hc
  cases hc

theorem EndsMembers.brace : EndsMembers ('}' :: t) := by
  intro c hc
  cases hc
  rfl

theorem EndsMembers.stops (ht : EndsMembers t) : Stops t := by
  cases t with
  | nil => exact .nil
  | cons c t =>
    obtain rfl := ht c rfl
    exact .cons (by decide)

theorem EndsMembers.noWord (ht : EndsMembers t) : NoWord t := by
  intro c hc
  rw [ht c hc]
  decide

theorem EndsMembers.head?_ne (ht : EndsMembers t) : t.head? ≠ some ';' := by
  intro hc
  have := ht _ hc
  revert this
  decide

namespace IsDeclaration

variable {P : Member → Prop}

theorem stops (hx : IsDeclaration x P) : Stops (x ++ t) := by
  obtain ⟨j, u, rfl, hj, -⟩ := hx.startsWord
  rw [List.append_assoc]
  exact hj.stops

theorem head?_ne {c : Char} (hx : IsDeclaration x P) (hc : isWordStart c = false) :
    (x ++ t).head? ≠ some c := by
  obtain ⟨j, u, rfl, hj, -⟩ := hx.startsWord
  rw [List.append_assoc]
  exact hj.head?_ne hc

theorem fails_keyword {k : String} (hk : k ∈ openingWords) (hx : IsDeclaration x P) :
    Fails (keyword k) (x ++ t) := by
  obtain ⟨j, u, rfl, hj, hopen⟩ := hx.startsWord
  rw [List.append_assoc]
  refine Grammar.fails_keyword (w := []) .nil hj wordEnds_blank ?_
  rw [String.ofList_toList]
  rintro rfl
  exact hopen hk

end IsDeclaration

theorem reads_straySemicolons (hw : Trivia w) (hs : Stops s) (hne : s.head? ≠ some ';') :
    Reads straySemicolons (w ++ s) s fun _ => True := by
  have hnone : Fails (literal ";") s := fails_literal (isPrefixOf_of_head?_ne (y := []) hne)
  have hmany : Reads (many (do trivia; attempt (literal ";"))) (w ++ s) s (· = []) :=
    .many_nil (.skip hw (.of_stops hs (.attempt_none hnone)))
  exact hmany.bind_eq (.pure trivial)

section

variable {Ps : List (Member → Prop)}

/-- No semicolon that could belong to what comes before stands in front. -/
theorem AreDeclarations.fails_semicolon (h : AreDeclarations x Ps) (ht : EndsMembers t) :
    Fails (symbol ";") (x ++ t) := by
  cases h with
  | nil hw => exact fails_symbol hw ht.stops (isPrefixOf_of_head?_ne (y := []) ht.head?_ne)
  | cons hw hx hy =>
    rw [List.append_assoc, List.append_assoc]
    exact fails_symbol hw hx.stops (isPrefixOf_of_head?_ne (y := []) (hx.head?_ne (by decide)))

/-- Each round reads one declaration; the last one finds the end. -/
theorem AreDeclarations.reads_membersOf {container : Option String} {n : Nat}
    (h : AreDeclarations x Ps) (ht : EndsMembers t) (hn : (x ++ t).length ≤ n) :
    Reads (membersOf (selfBelow membersOf n) container) (x ++ t) t (Each Ps) := by
  induction h with
  | nil hw =>
    refine (Reads.many_nil ((reads_straySemicolons hw ht.stops ht.head?_ne).bind fun _ _ =>
      .ahead_bind ?_)).mono fun _ h => h ▸ .nil
    cases t with
    | nil => exact .pure rfl
    | cons c t =>
      obtain rfl := ht c rfl
      exact .pure rfl
  | @cons w x y P Ps hw hx hy ih =>
    simp only [List.append_assoc, List.length_append] at hn ih ⊢
    have hlength : (x ++ (y ++ t)).length ≤ n := by
      simp only [List.length_append]
      omega
    have hpos : 0 < x.length := by
      obtain ⟨j, u, rfl, hj, -⟩ := hx.startsWord
      have := hj.length_pos
      simp only [List.length_append]
      omega
    have hmember := hx.reads container n (y ++ t) (hy.fails_semicolon ht) hlength
    have hround : Reads (member? (selfBelow membersOf n) container) (w ++ (x ++ (y ++ t)))
        (y ++ t) fun r => ∃ m, r = some m ∧ P m := by
      refine (reads_straySemicolons hw hx.stops (hx.head?_ne (by decide))).bind fun _ _ =>
        .ahead_bind ?_
      have hbrace := hx.head?_ne (t := y ++ t) (c := '}') (by decide)
      split
      next heq =>
        have := congrArg List.length heq
        simp only [List.length_append, List.length_nil] at this
        omega
      next heq => exact absurd (by rw [heq]; rfl) hbrace
      next => exact hmember.bind fun m hm => .pure ⟨m, rfl, hm⟩
    refine (Reads.many_cons hround ?_ (ih (by omega))).mono ?_
    · simp only [List.length_append]
      omega
    · rintro _ ⟨m, ms, rfl, hm, hms⟩
      exact .cons hm hms

theorem AreDeclarations.reads_membersIn {container : Option String} (h : AreDeclarations x Ps)
    (ht : EndsMembers t) : Reads (membersIn container) (x ++ t) t (Each Ps) :=
  .fix (h.reads_membersOf ht (Nat.le_refl _))

/-- Inside other declarations the declarations are read by the parser itself. -/
theorem AreDeclarations.reads_selfBelow {container : Option String} {n : Nat}
    (h : AreDeclarations x Ps) (ht : EndsMembers t) (hn : (x ++ t).length < n) :
    Reads (selfBelow membersOf n container) (x ++ t) t (Each Ps) :=
  .selfBelow (h.reads_membersIn ht) hn

/-- Without the trivia in front, declarations stand before something that opens neither a using
directive nor an extern alias. -/
theorem AreDeclarations.exists_trivia (h : AreDeclarations x Ps) :
    ∃ w y, x = w ++ y ∧ Trivia w ∧ AreDeclarations y Ps ∧ ∀ t, EndsMembers t →
      Stops (y ++ t) ∧ ∀ k ∈ openingWords, Fails (keyword k) (y ++ t) := by
  cases h with
  | nil hw =>
    refine ⟨x, [], by simp, hw, .nil .nil, fun t ht => ⟨ht.stops, fun k _ => ?_⟩⟩
    exact fails_keyword_of_noWord .nil ht.stops ht.noWord
  | @cons w x y P Ps hw hx hy =>
    refine ⟨w, x ++ y, rfl, hw, .cons .nil hx hy, fun t _ => ?_⟩
    rw [List.append_assoc]
    exact ⟨hx.stops, fun k hk => hx.fails_keyword hk⟩

theorem reads_usingDirectives (hw : Trivia w) (hs : Stops s)
    (hopen : ∀ k ∈ openingWords, Fails (keyword k) s) :
    Reads usingDirectives (w ++ s) s (· = []) := by
  have hfails : Fails usingOpening s :=
    .bind_eq (reads_acceptKeyword_false (hopen "global" (by decide)))
      (.bind_left (hopen "using" (by decide)))
  refine .many_nil (.skip hw (.of_stops hs (.offset_bind fun start => ?_)))
  exact (Reads.attempt_none hfails).bind_eq (.pure rfl)

end

/-! ## Types and namespaces -/

def typeWords : List String := ["class", "struct", "interface", "record"]

theorem exists_word_of_typeKind (kind : TypeKind) (t : List Char) :
    ∃ k u, kind.keyword.toList ++ ' ' :: t = k.toList ++ ' ' :: u ∧ k ∈ typeWords := by
  cases kind with
  | classType => exact ⟨"class", t, rfl, by decide⟩
  | structType => exact ⟨"struct", t, rfl, by decide⟩
  | interfaceType => exact ⟨"interface", t, rfl, by decide⟩
  | recordClass => exact ⟨"record", t, rfl, by decide⟩
  | recordStruct => exact ⟨"record", "struct".toList ++ ' ' :: t, rfl, by decide⟩

/-- A type declaration with its members. -/
theorem IsDeclaration.ofType {ks : List ModifierKind} (kind : TypeKind)
    {ps : Option TypeParameters} {Ps : List (Member → Prop)} (hks : .externMod ∉ ks)
    (hname : IsIdentifier v) (hps : ∀ qs ∈ ps, IsParameterList qs) (hw : Trivia w)
    (hy : AreDeclarations y Ps) :
    IsDeclaration
      (modifierText ks ++ (kind.keyword.toList ++ ' ' :: (v ++ (parametersText ps ++
        (w ++ '{' :: (y ++ ['}']))))))
      fun m => ∃ head members, m = .ofType head members ∧ head.modifiers.map (·.kind) = ks ∧
        head.kind = kind ∧ head.identifier.text = String.ofList v ∧
        declared? head.typeParameters = declared? ps ∧ Each Ps members := by
  have htype : ∀ k ∈ typeWords, IsWord k.toList ∧ ModifierKind.ofText? k = none ∧
      k ∉ openingWords := by decide
  constructor
  · obtain ⟨k, u, htext, hk⟩ := exists_word_of_typeKind kind
      (v ++ (parametersText ps ++ (w ++ '{' :: (y ++ ['}']))))
    rw [htext]
    exact exists_opening_of_modifierText hks (htype k hk).1 (htype k hk).2.2 u
  · intro container n t _ hn
    simp only [List.append_assoc, List.cons_append, List.nil_append] at hn ⊢
    have hself (c : Option String) :
        Reads (selfBelow membersOf n c) (y ++ '}' :: t) ('}' :: t) (Each Ps) := by
      refine hy.reads_selfBelow .brace ?_
      simp only [List.length_append, List.length_cons] at hn ⊢
      omega
    obtain ⟨k, u, htext, hk⟩ := exists_word_of_typeKind kind
      (v ++ (parametersText ps ++ (w ++ '{' :: (y ++ '}' :: t))))
    have hread (start : Nat) (as : List AttributeList) (ms : List Modifier) :=
      reads_typeDeclaration kind (h := ⟨start, as, ms⟩) hname hps hw hself
    rw [htext] at hread ⊢
    refine reads_declHeader ks (htype k hk).1 (htype k hk).2.1 fun start as ms hms => ?_
    simp only [typeWords, List.mem_cons, List.not_mem_nil, or_false] at hk
    refine Reads.mono (by rcases hk with rfl | rfl | rfl | rfl <;> exact hread start as ms) ?_
    rintro m ⟨head, members, rfl, hmods, h⟩
    exact ⟨head, members, rfl, by rw [hmods, hms], h⟩

/-- Declarations in braces. -/
theorem reads_blockBody {n : Nat} {Ps : List (Member → Prop)} (hy : AreDeclarations y Ps)
    (ht : Fails (symbol ";") t) (hn : (y ++ '}' :: t).length < n) :
    Reads (blockBody (selfBelow membersOf n)) ('{' :: (y ++ '}' :: t)) t fun r => Each Ps r.2 := by
  obtain ⟨w, z, rfl, hw, hz, hfront⟩ := hy.exists_trivia
  obtain ⟨hstops, hopen⟩ := hfront ('}' :: t) .brace
  rw [List.append_assoc] at hn ⊢
  have hself : Reads (selfBelow membersOf n none) (z ++ '}' :: t) ('}' :: t) (Each Ps) := by
    refine hz.reads_selfBelow .brace ?_
    simp only [List.length_append] at hn ⊢
    omega
  refine (reads_labelled (k := "\x7b") stops_brace).bind fun _ _ => ?_
  refine (reads_usingDirectives hw hstops hopen).bind fun usings _ => ?_
  refine hself.bind fun members hmembers => ?_
  refine (reads_labelled (k := "\x7d") EndsMembers.brace.stops).bind fun _ _ => ?_
  have hnone : Reads (accept ";") t t (· = false) := (Reads.attempt_none ht).bind_eq (.pure rfl)
  exact hnone.bind fun _ _ => .pure hmembers

/-- A namespace in braces with its members. -/
theorem IsDeclaration.ofNamespace {Ps : List (Member → Prop)} (hname : IsDottedName v)
    (hw : Trivia w) (hy : AreDeclarations y Ps) :
    IsDeclaration ("namespace".toList ++ ' ' :: (v ++ (w ++ '{' :: (y ++ ['}']))))
      fun m => ∃ head members, m = .ofNamespace head members ∧ head.name.text = String.ofList v ∧
        head.isFileScoped = false ∧ Each Ps members := by
  have hword : IsWord "namespace".toList := by decide
  constructor
  · exact ⟨"namespace", _, rfl, hword, by decide⟩
  · intro container n t ht hn
    simp only [List.append_assoc, List.cons_append, List.nil_append] at hn ⊢
    have hbody : Reads (blockBody (selfBelow membersOf n)) ('{' :: (y ++ '}' :: t)) t
        fun r => Each Ps r.2 := by
      refine reads_blockBody hy ht ?_
      simp only [List.length_append, List.length_cons] at hn ⊢
      omega
    have hends : WordEnds (w ++ '{' :: (y ++ '}' :: t)) := hw.wordEnds (.cons (by decide))
    refine reads_declHeader [] hword (by decide) fun start as ms _ => ?_
    refine (reads_keyword .nil hword wordEnds_blank).bind fun _ _ => ?_
    refine (reads_dottedName trivia_blank hname hw stops_brace hends (by simp)).label.bind
      fun name hname => ?_
    refine .skip hw (.of_stops stops_brace ?_)
    have hsemicolon : Reads (acceptHere ";") ('{' :: (y ++ '}' :: t)) ('{' :: (y ++ '}' :: t))
        (· = false) :=
      reads_acceptHere_false rfl
    refine hsemicolon.bind_eq ?_
    rw [if_neg (by decide)]
    refine hbody.bind fun r hmembers => ?_
    obtain ⟨usings, members⟩ := r
    exact (reads_spanFrom start t).bind fun _ _ => .pure ⟨_, members, rfl, hname, rfl, hmembers⟩

/-! ## Files -/

/-- A file of declarations is read. -/
theorem reads_compilationUnit {Ps : List (Member → Prop)} (h : AreDeclarations x Ps) :
    Reads compilationUnit x [] fun u => Each Ps u.members := by
  obtain ⟨w, y, rfl, hw, hy, hfront⟩ := h.exists_trivia
  obtain ⟨hstops, hopen⟩ := hfront [] .nil
  rw [List.append_nil] at hstops hopen
  have halias : Fails externAliasOpening (w ++ y) :=
    .bind_left (.skip hw (hopen "extern" (by decide)))
  have haliases : Reads externAliases (w ++ y) (w ++ y) fun _ => True := by
    refine .bind (.many_nil ?_) fun _ _ => .pure trivial
    exact (Reads.attempt_none halias).bind_eq (.pure rfl)
  have hmembers : Reads (membersIn none) (y ++ []) [] (Each Ps) := hy.reads_membersIn .nil
  rw [List.append_nil] at hmembers
  have hend : Reads (label "a declaration" endOfText) [] [] fun _ => True :=
    Reads.label (.ahead_bind (.pure trivial))
  refine .offset_bind fun start => haliases.bind fun _ _ => ?_
  refine (reads_usingDirectives hw hstops hopen).bind fun usings _ => ?_
  refine hmembers.bind fun members hP => hend.bind fun _ _ => ?_
  exact (reads_spanFrom start []).bind fun _ _ => .pure hP

/-- A text of declarations has a tree. -/
theorem exists_parse_eq_ok {text : String} {Ps : List (Member → Prop)}
    (h : AreDeclarations text.toList Ps) :
    ∃ tree, CompilationUnit.parse text = .ok tree ∧ Each Ps tree.members := by
  obtain ⟨tree, o, hread, hP⟩ := reads_compilationUnit h 0
  refine ⟨tree, ?_, hP⟩
  rw [CompilationUnit.parse, Cursor.ofString, hread]
  rfl

end DeclGen.Grammar
