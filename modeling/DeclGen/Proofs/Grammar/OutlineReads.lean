import DeclGen.Proofs.Grammar.Declarations
import DeclGen.Proofs.Grammar.OutlineHeads

/-!
# Reading outlines back

The declarations of an outline are read back from their tokens, whatever trivia stands between
them, one by one, in lists and as a file.

## Main definitions

* `Opens`: the tokens that may come at the start of a list of declarations
* `Outline.Declares`: the outline is read back from its tokens

## Main statements

* `CompilationUnit.exists_parse_of_layout`: a file that is laid out from an outline has its tree
-/

namespace DeclGen

namespace Grammar

open DeclGen.Grammar.Parser DeclGen.Text DeclGen.Outline

variable {α : Type} {b : Bool} {n : Nat} {d : Char} {k x : String} {ts us : List String}
  {s t u w : List Char}

/-! ## What comes before and between declarations -/

def headWords : List String :=
  ["namespace", "class", "struct", "interface", "record", "enum"] ++
    ModifierKind.all.map (·.text)

/-- The declarations end: at a closing brace or at the end of the text. -/
inductive Closes : List String → Prop where
  | nil : Closes []
  | brace (ts : List String) : Closes ("\x7d" :: ts)

/-- A declaration of an outline comes next. Behind `extern` it goes on with another such word. -/
inductive Starts : List String → Prop where
  | word {x : String} {ts : List String} (hx : x ∈ headWords)
      (hnext : x = "extern" → ∃ y us, ts = y :: us ∧ y ∈ headWords) : Starts (x :: ts)

/-- The declarations end, or a declaration of an outline comes next. -/
inductive Opens : List String → Prop where
  | closes {ts : List String} (hts : Closes ts) : Opens ts
  | starts {ts : List String} (hts : Starts ts) : Opens ts

theorem isWord_of_mem_headWords (hx : x ∈ headWords) : IsWord x.toList := by
  have hall : ∀ x ∈ headWords, IsWord x.toList := by decide
  exact hall x hx

theorem modifier_mem_headWords (m : ModifierKind) : m.text ∈ headWords :=
  List.mem_append_right _ (List.mem_map_of_mem (ModifierKind.mem_all m))

theorem Closes.fails_keyword (h : Closes ts) (hs : Layout b ts s) : Fails (keyword k) s := by
  obtain ⟨w, u, rfl, hw, hu⟩ := hs.exists_here
  cases h with
  | nil =>
    cases hu
    exact fails_keyword_of_noWord hw .nil (by rintro c ⟨⟩)
  | brace ts =>
    cases hu
    exact fails_keyword_of_noWord hw (.cons (by decide)) (.cons (by decide))

theorem Starts.avoids (h : Starts ts) (hd : isWordStart d = false) : Avoids d ts := by
  cases h with
  | word hx _ => exact avoids_of_isWord (isWord_of_mem_headWords hx) hd

theorem Starts.ne_nil (h : Starts ts) (hs : Here ts s) : s ≠ [] := by
  cases hs with
  | nil => cases h
  | cons _ =>
    cases h with
    | word hx _ =>
      have hpos := (isWord_of_mem_headWords hx).length_pos
      intro heq
      have hlength := congrArg List.length heq
      simp only [List.length_append, List.length_nil] at hlength
      omega

namespace Opens

theorem avoids (h : Opens ts) (hd : isWordStart d = false) (hbrace : '}' ≠ d) : Avoids d ts := by
  cases h with
  | closes hts =>
    cases hts with
    | nil => exact .nil
    | brace ts => exact .cons rfl rfl hbrace
  | starts hts => exact hts.avoids hd

/-- No other word comes next. -/
theorem fails_keyword (h : Opens ts) (hs : Layout b ts s) (hk : k ∉ headWords) :
    Fails (keyword k) s := by
  obtain hts | ⟨hx, -⟩ := h
  · exact hts.fails_keyword hs
  · refine hs.fails_keyword (isWord_of_mem_headWords hx) ?_
    rintro rfl
    exact hk hx

/-- Behind `extern` no alias is declared. -/
theorem fails_externAliasOpening (h : Opens ts) (hs : Layout b ts s) :
    Fails externAliasOpening s := by
  obtain hts | @⟨x, us, hx, hnext⟩ := h
  · exact .bind_left (hts.fails_keyword hs)
  · by_cases hextern : x = "extern"
    · subst hextern
      obtain ⟨y, vs, rfl, hy⟩ := hnext rfl
      obtain ⟨w, u, rfl, hw, hu⟩ := hs.uncons
      rw [endsWord_of_isWord (x := "extern") (by decide)] at hu
      refine .bind (reads_keyword hw (by decide) hu.wordEnds) fun _ _ => ?_
      refine hu.fails_keyword (isWord_of_mem_headWords hy) ?_
      rintro rfl
      revert hy
      decide
    · exact .bind_left (hs.fails_keyword (isWord_of_mem_headWords hx) hextern)

end Opens

/-- A word that starts a declaration stands behind modifiers. -/
theorem starts_modifiers (ks : List ModifierKind) (hk : k ∈ headWords) (hne : k ≠ "extern")
    (ts : List String) : Starts (ks.map (·.text) ++ k :: ts) := by
  cases ks with
  | nil => exact .word hk fun heq => absurd heq hne
  | cons m ks =>
    refine .word (modifier_mem_headWords m) fun _ => ?_
    cases ks with
    | nil => exact ⟨k, ts, rfl, hk⟩
    | cons m' ks => exact ⟨m'.text, ks.map (·.text) ++ k :: ts, rfl, modifier_mem_headWords m'⟩

theorem takes_usingDirectives (h : Layout b ts s) (hts : Opens ts) :
    Takes usingDirectives s fun us t => us = [] ∧ Here ts t ∧ t.length ≤ s.length := by
  have hsolid : Solid ts := (hts.avoids (d := ';') (by decide) (by decide)).solid
  refine .many_nil ((h.takes_trivia hsolid).bind ?_)
  rintro _ t ⟨ht, hle⟩
  have hno (kw : String) (hkw : kw ∉ headWords) := hts.fails_keyword ht.layout hkw
  have hnone : Fails usingOpening t :=
    .bind_eq (reads_acceptKeyword_false (hno "global" (by decide)))
      (.bind_left (hno "using" (by decide)))
  refine .offset_bind fun start => .bind_eq (.attempt_none hnone) ?_
  exact .pure ⟨rfl, rfl, ht, hle⟩

theorem takes_straySemicolons (h : Layout b ts s) (hts : Avoids ';' ts) :
    Takes straySemicolons s fun _ t => Here ts t ∧ t.length ≤ s.length := by
  obtain ⟨w, u, rfl, hw, hu⟩ := h.exists_here
  refine (reads_straySemicolons hw (hu.stops hts.solid) (hu.head?_ne hts)).takes ?_
  intro _ _
  exact ⟨hu, by simp⟩

/-- What stands before a declaration; the word behind the modifiers is seen, but not read. -/
theorem takes_declHeader {f : Nat → List AttributeList → List Modifier → Option String → Parser α}
    {R : α → List Char → Prop} (ks : List ModifierKind) (hk : k ∈ headWords)
    (hnone : ModifierKind.ofText? k = none) (h : Layout b (ks.map (·.text) ++ k :: ts) s)
    (hf : ∀ start ms t, ms.map (·.bare) = Outline.modifiers ks → Layout false (k :: ts) t →
      t.length ≤ s.length → Takes (f start [] ms (some k)) t R) :
    Takes (do trivia
              let start ← offset
              let as ← attributeLists
              let ms ← modifiers
              f start as ms (← peekWord)) s R := by
  have hword := isWord_of_mem_headWords hk
  have hne : k ≠ "extern" := by
    rintro rfl
    revert hnone
    decide
  have hstart := (starts_modifiers ks hk hne ts).avoids (d := '[') (by decide)
  refine (h.takes_trivia hstart.solid).bind ?_
  rintro _ t ⟨ht, hle⟩
  refine .offset_bind fun start => (ht.layout.takes_attributeLists hstart).bind ?_
  rintro _ u ⟨rfl, hu, hle'⟩
  refine (takes_modifiers ks hword hnone hu.layout).bind ?_
  rintro ms v ⟨hms, hv, hle''⟩
  exact .bind_eq (hv.layout.reads_peekWord hword) (hf start ms v hms hv.layout (by omega))

/-! ## Enums -/

/-- The underlying type of an enum, if it has one. -/
theorem takes_underlying (base : Option {word : String // isPredefinedType word = true})
    {f : Option TypeExpr → Parser α} {R : α → List Char → Prop}
    (h : Layout b (underlyingTokens base ++ "\x7b" :: ts) s)
    (hf : ∀ r t, r.map (·.bare) = base.map (fun word => .predefined word.val default) →
      Layout false ("\x7b" :: ts) t → t.length ≤ s.length → Takes (f r) t R) :
    Takes (do
      trivia
      let hasBase ← acceptHere ":"
      let r ← if hasBase then some <$> label "underlying enum type" typeExpr else pure none
      f r) s R := by
  cases base with
  | none =>
    have hopen : Avoids ':' ("\x7b" :: ts) := .cons rfl rfl (by decide)
    change Layout b ("\x7b" :: ts) s at h
    refine (h.takes_trivia hopen.solid).bind ?_
    rintro _ t ⟨ht, hle⟩
    refine .bind_eq (ht.reads_acceptHere_false rfl hopen) ?_
    rw [if_neg (by decide)]
    exact .bind_eq (.pure rfl) (hf none t rfl ht.layout hle)
  | some word =>
    have hcolon : Solid (":" :: word.val :: "\x7b" :: ts) := .cons rfl rfl
    have htype : (TypeExpr.predefined word.val default).Readable := .predefined word.property
    change Layout b (":" :: word.val :: "\x7b" :: ts) s at h
    refine (h.takes_trivia hcolon).bind ?_
    rintro _ t ⟨ht, hle⟩
    refine (ht.takes_acceptHere hcolon).bind ?_
    rintro _ u ⟨rfl, hu, hlt⟩
    rw [if_pos rfl]
    refine (takes_typeExpr htype hu fun b t ht => ht.ahead rfl (by decide)).label.map_bind ?_
    rintro e v ⟨he, hv, hle'⟩
    exact hf (some e) v (congrArg some he) hv (by omega)

theorem takes_enumDeclaration (e : Outline.Enum) (header : DeclHeader)
    (hattributes : header.attributes = [])
    (hmodifiers : header.modifiers.map (·.bare) = Outline.modifiers e.modifiers)
    (h : Layout b (e.tokens ++ ts) s) (hts : Avoids ';' ts) :
    Takes (enumDeclaration header) s fun m t => m.bare = .ofEnum e.decl ∧ Layout false ts t ∧
      t.length < s.length := by
  rw [Enum.tokens] at h
  simp only [List.cons_append, List.append_assoc, List.nil_append] at h
  refine (h.takes_keyword (by decide)).bind ?_
  rintro _ t ⟨ht, hlt⟩
  refine (takes_name ht).label.bind ?_
  rintro i u ⟨hi, hu, hlt'⟩
  refine takes_underlying e.base hu fun r v hr hv hle => ?_
  refine (hv.takes_symbol (.cons rfl rfl)).label.bind ?_
  rintro _ w ⟨hw, hlt''⟩
  refine (takes_enumMembers e.items hw).bind ?_
  rintro ms y ⟨hms, hy, hlt'''⟩
  refine .bind_eq (hy.reads_accept_false rfl hts) ?_
  refine .bind_reads (reads_spanFrom header.start y) fun span _ => .pure ⟨?_, hy, by omega⟩
  rw [Member.bare, EnumDecl.bare, hattributes, hmodifiers, hi, hr, hms]
  rfl

/-! ## Types -/

/-- A parser that goes by the word that comes next. -/
theorem takes_firstWord {f : Nat → String → Parser α} {R : α → List Char → Prop}
    (h : Layout b (k :: ts) s) (hk : IsWord k.toList)
    (hf : ∀ o t, Layout true ts t → t.length < s.length → Takes (f o k) t R) :
    Takes (do
      trivia
      let start ← offset
      f start (← word)) s R := by
  refine (h.takes_trivia (solid_of_isWord hk)).bind ?_
  rintro _ t ⟨ht, hle⟩
  refine .offset_bind fun start => (ht.takes_word hk).bind ?_
  rintro _ u ⟨rfl, hu, hlt⟩
  exact hf start u hu (by omega)

/-- The words of a type kind in front of the name. -/
theorem takes_typeKind (kind : TypeKind) (h : Layout b (kind.words ++ x :: ts) s)
    (hx : IsIdentifier x.toList) :
    Takes typeKind s fun k t => k = kind ∧ Layout true (x :: ts) t ∧ t.length < s.length := by
  unfold typeKind
  cases kind with
  | classType | structType | interfaceType =>
    exact takes_firstWord h (by decide) fun o t ht hlt => .pure ⟨rfl, ht, hlt⟩
  | recordClass =>
    change Layout b ("record" :: x :: ts) s at h
    refine takes_firstWord h (by decide) fun o t ht hlt => ?_
    have hno (k : String) (hk : isKeyword k = true) :=
      ht.reads_acceptKeyword_of_isIdentifier hx hk
    refine .bind_eq (hno "struct" (by decide)) ?_
    rw [if_neg (by decide)]
    exact .bind_eq (hno "class" (by decide)) (.pure ⟨rfl, ht, hlt⟩)
  | recordStruct =>
    change Layout b ("record" :: "struct" :: x :: ts) s at h
    refine takes_firstWord h (by decide) fun o t ht hlt => ?_
    refine (ht.takes_acceptKeyword (by decide)).bind ?_
    rintro _ u ⟨rfl, hu, hlt'⟩
    rw [if_pos rfl]
    exact .pure ⟨rfl, hu, by omega⟩

/-- What follows the type parameters starts no further list. -/
theorem avoids_baseTokens (es : List {t : TypeExpr // t.Readable}) (hd : d ∉ [':', '{']) :
    Avoids d (baseTokens es ++ "\x7b" :: ts) := by
  simp only [List.mem_cons, List.not_mem_nil, or_false, not_or] at hd
  cases es with
  | nil => exact .cons rfl rfl (Ne.symm hd.2)
  | cons e es => exact .cons rfl rfl (Ne.symm hd.1)

/-- The body of a type, where `self` reads its members. -/
theorem takes_typeBody {self : Option String → Parser (List Member)} (name : Identifier)
    {P : List Member → Prop} (h : Here ("\x7b" :: us) s)
    (hself : ∀ c t, Layout false us t → t.length < s.length → Takes (self c) t fun ms u =>
      P ms ∧ Layout false ("\x7d" :: ts) u ∧ u.length ≤ t.length) :
    Takes (typeBody self name) s fun ms t => P ms ∧ Layout false ts t ∧ t.length < s.length := by
  have hopen : Avoids ';' ("\x7b" :: us) := .cons rfl rfl (by decide)
  refine .bind_eq (h.reads_acceptHere_false rfl hopen) ?_
  rw [if_neg (by decide)]
  refine (h.layout.takes_symbol hopen.solid).label.bind ?_
  rintro _ t ⟨ht, hlt⟩
  refine (hself _ t ht.weaken hlt).bind ?_
  rintro ms u ⟨hms, hu, hle⟩
  refine (hu.takes_symbol (.cons rfl rfl)).label.bind ?_
  rintro _ v ⟨hv, hlt'⟩
  exact .pure ⟨hms, hv.weaken, by omega⟩

/-- The members are read by `self`, from the shorter text behind the opening brace. -/
theorem takes_typeDeclaration (head : Outline.Head) (header : DeclHeader)
    {self : Option String → Parser (List Member)} {P : List Member → Prop}
    (hattributes : header.attributes = [])
    (hmodifiers : header.modifiers.map (·.bare) = Outline.modifiers head.modifiers)
    (h : Layout b (head.tokens ++ "\x7b" :: us) s)
    (hself : ∀ c t, Layout false us t → t.length < s.length → Takes (self c) t fun ms u =>
      P ms ∧ Layout false ("\x7d" :: ts) u ∧ u.length ≤ t.length) :
    Takes (typeDeclaration self header) s fun m t =>
      (∃ h ms, m = .ofType h ms ∧ h.bare = head.head ∧ P ms) ∧ Layout false ts t ∧
        t.length < s.length := by
  rw [Head.tokens] at h
  simp only [List.cons_append, List.append_assoc] at h
  refine (takes_typeKind head.kind h head.name.isIdentifier).bind ?_
  rintro _ t ⟨rfl, ht, hlt⟩
  refine (takes_name ht).label.bind ?_
  rintro i u ⟨hi, hu, hlt'⟩
  refine (takes_typeParameters head.parameters hu (avoids_baseTokens _ (by decide))).bind ?_
  rintro ps v ⟨hps, hv, hle⟩
  refine (hv.takes_trivia (avoids_baseTokens (d := ';') _ (by decide)).solid).bind ?_
  rintro _ w ⟨hw, hle'⟩
  have hconstructor : Reads primaryConstructor w w (· = none) := by
    refine (hw.reads_nextIs_false (avoids_baseTokens _ (by decide))).bind_eq ?_
    rw [if_neg (by decide)]
    exact .pure rfl
  refine .bind_eq hconstructor ((takes_baseList head.bases hw.layout).bind ?_)
  rintro bs y ⟨hbs, hy, hle''⟩
  have hclauses : Reads constraintClauses y y fun _ => True := by
    cases hy
    exact reads_constraintClauses .nil
  refine .bind_reads hclauses fun _ _ => (hy.layout.takes_trivia (.cons rfl rfl)).bind ?_
  rintro _ z ⟨hz, hle'''⟩
  have hbody := takes_typeBody i hz fun c t ht hlt => hself c t ht (by omega)
  refine hbody.bind ?_
  rintro ms r ⟨hms, hr, hlt''⟩
  refine .bind_reads (reads_spanFrom header.start r) fun span _ => .pure ⟨?_, hr, by omega⟩
  refine ⟨_, ms, rfl, ?_, hms⟩
  rw [TypeHead.bare, hattributes, hmodifiers, hi, hps, hbs]
  rfl

/-! ## Namespaces -/

/-- The body of a namespace in braces, where `self` reads its members. -/
theorem takes_blockBody {self : Option String → Parser (List Member)} {P : List Member → Prop}
    (h : Here ("\x7b" :: us) s) (hus : Opens us) (hts : Avoids ';' ts)
    (hself : ∀ t, Layout false us t → t.length < s.length → Takes (self none) t fun ms u =>
      P ms ∧ Layout false ("\x7d" :: ts) u ∧ u.length ≤ t.length) :
    Takes (blockBody self) s fun r t => (r.1 = [] ∧ P r.2) ∧ Layout false ts t ∧
      t.length < s.length := by
  refine (h.layout.takes_symbol (.cons rfl rfl)).label.bind ?_
  rintro _ t ⟨ht, hlt⟩
  refine (takes_usingDirectives ht hus).bind ?_
  rintro _ u ⟨rfl, hu, hle⟩
  refine (hself u hu.layout (by omega)).bind ?_
  rintro ms v ⟨hms, hv, hle'⟩
  refine (hv.takes_symbol (.cons rfl rfl)).label.bind ?_
  rintro _ w ⟨hw, hlt'⟩
  refine .bind_eq (hw.reads_accept_false rfl hts) ?_
  exact .pure ⟨⟨rfl, hms⟩, hw.weaken, by omega⟩

/-- The members are read by `self`, from the shorter text behind the opening brace. -/
theorem takes_namespaceDeclaration (first : Outline.Name) (others : List Outline.Name)
    {self : Option String → Parser (List Member)} {start : Nat} {P : List Member → Prop}
    (h : Layout b ("namespace" :: first.text :: (dotTokens others ++ "\x7b" :: us)) s)
    (hus : Opens us) (hts : Avoids ';' ts)
    (hself : ∀ t, Layout false us t → t.length < s.length → Takes (self none) t fun ms u =>
      P ms ∧ Layout false ("\x7d" :: ts) u ∧ u.length ≤ t.length) :
    Takes (namespaceDeclaration self start) s fun m t =>
      (∃ h ms, m = .ofNamespace h ms ∧ h.bare = namespaceHead first others ∧ P ms) ∧
        Layout false ts t ∧ t.length < s.length := by
  have hopen (d : Char) (hd : '{' ≠ d) : Avoids d ("\x7b" :: us) := .cons rfl rfl hd
  refine (h.takes_keyword (by decide)).bind ?_
  rintro _ t ⟨ht, hlt⟩
  refine (takes_dottedName first others ht (hopen '.' (by decide))).label.bind ?_
  rintro name u ⟨hname, hu, hlt'⟩
  refine (hu.takes_trivia (hopen ';' (by decide)).solid).bind ?_
  rintro _ v ⟨hv, hle⟩
  refine .bind_eq (hv.reads_acceptHere_false rfl (hopen ';' (by decide))) ?_
  rw [if_neg (by decide)]
  refine (takes_blockBody hv hus hts fun t ht hlt => hself t ht (by omega)).bind ?_
  rintro ⟨_, ms⟩ w ⟨⟨rfl, hms⟩, hw, hlt''⟩
  refine .bind_reads (reads_spanFrom start w) fun span _ => .pure ⟨?_, hw, by omega⟩
  refine ⟨_, ms, rfl, ?_, hms⟩
  rw [NamespaceHead.bare, hname]
  rfl

/-! ## Declarations in a row -/

theorem exists_words_eq_cons (kind : TypeKind) :
    ∃ k us, kind.words = k :: us ∧ k ∈ typeWords := by
  cases kind with
  | classType => exact ⟨"class", [], rfl, by decide⟩
  | structType => exact ⟨"struct", [], rfl, by decide⟩
  | interfaceType => exact ⟨"interface", [], rfl, by decide⟩
  | recordClass => exact ⟨"record", [], rfl, by decide⟩
  | recordStruct => exact ⟨"record", ["struct"], rfl, by decide⟩

theorem typeWords_subset : ∀ k ∈ typeWords, k ∈ headWords ∧ k ≠ "extern" ∧
    ModifierKind.ofText? k = none := by
  decide

/-- The outline starts a declaration, whatever comes behind it. -/
theorem starts_tokens (o : Outline) (ts : List String) : Starts (o.tokens ++ ts) := by
  cases o with
  | ofNamespace first others members =>
    rw [tokens, List.cons_append]
    exact .word (by decide) fun heq => absurd heq (by decide)
  | ofType head members =>
    obtain ⟨k, us, hwords, hk⟩ := exists_words_eq_cons head.kind
    obtain ⟨hhead, hne, -⟩ := typeWords_subset k hk
    rw [tokens, Head.tokens, hwords]
    simp only [List.append_assoc, List.cons_append]
    exact starts_modifiers _ hhead hne _
  | ofEnum decl =>
    rw [tokens, Enum.tokens]
    simp only [List.append_assoc, List.cons_append]
    exact starts_modifiers _ (by decide) (by decide) _

theorem opens_forestTokens (os : List Outline) (hts : Opens ts) :
    Opens (forestTokens os ++ ts) := by
  cases os with
  | nil => exact hts
  | cons o os =>
    rw [forestTokens, List.append_assoc]
    exact .starts (starts_tokens o _)

/-- The outline is read back from its tokens, in any container. -/
def Declares (o : Outline) : Prop :=
  ∀ (b : Bool) (s : List Char) (ts : List String) (container : Option String) (n : Nat),
    Layout b (o.tokens ++ ts) s → Opens ts → s.length ≤ n →
      Takes (memberDeclarationOf (selfBelow membersOf n) container) s fun m t =>
        m.bare = o.member ∧ Layout false ts t ∧ t.length < s.length

/-- Each round reads one declaration; the last one finds the end. -/
theorem takes_membersOf {os : List Outline} {container : Option String}
    (hos : ∀ o ∈ os, Declares o) (h : Layout b (forestTokens os ++ ts) s) (hts : Closes ts)
    (hn : s.length ≤ n) :
    Takes (membersOf (selfBelow membersOf n) container) s fun ms t =>
      ms.map (·.bare) = forest os ∧ Here ts t ∧ t.length ≤ s.length := by
  induction os generalizing b s with
  | nil =>
    have hend : Avoids ';' ts := (Opens.closes hts).avoids (by decide) (by decide)
    refine .many_nil ((takes_straySemicolons h hend).bind ?_)
    rintro _ t ⟨ht, hle⟩
    refine .ahead_bind ?_
    cases hts with
    | nil =>
      cases ht
      exact .pure ⟨rfl, rfl, .nil, hle⟩
    | brace ts =>
      cases ht with
      | cons hs => exact .pure ⟨rfl, rfl, .cons hs, hle⟩
  | cons o os ih =>
    rw [forestTokens, List.append_assoc] at h
    have hstarts := starts_tokens o (forestTokens os ++ ts)
    refine .many_cons ((takes_straySemicolons h (hstarts.avoids (by decide))).bind ?_)
    rintro _ t ⟨ht, hle⟩
    have hbrace := ht.head?_ne (hstarts.avoids (d := '}') (by decide))
    have hmember := hos o (by simp) false t _ container n ht.layout
      (opens_forestTokens os (.closes hts)) (by omega)
    refine .ahead_bind ?_
    split
    next => exact absurd rfl (hstarts.ne_nil ht)
    next heq => exact absurd rfl hbrace
    next =>
      refine hmember.bind ?_
      rintro m u ⟨hm, hu, hlt⟩
      refine .pure ⟨m, rfl, by omega, ?_⟩
      refine (ih (fun p hp => hos p (List.mem_cons_of_mem o hp)) hu (by omega)).mono ?_
      rintro ms v ⟨hms, hv, hle'⟩
      refine ⟨?_, hv, by omega⟩
      rw [List.map_cons, hm, hms, forest]

/-- Where something was read, the members of a declaration are read by the parser itself. -/
theorem takes_selfBelow {os : List Outline} (container : Option String)
    (hos : ∀ o ∈ os, Declares o) (h : Layout b (forestTokens os ++ ts) s) (hts : Closes ts)
    (hn : s.length < n) :
    Takes (selfBelow membersOf n container) s fun ms t =>
      ms.map (·.bare) = forest os ∧ Layout false ts t ∧ t.length ≤ s.length := by
  refine .selfBelow (.fix ((takes_membersOf hos h hts (Nat.le_refl _)).mono ?_)) hn
  rintro ms t ⟨hms, ht, hle⟩
  exact ⟨hms, ht.layout, hle⟩

theorem declares_ofNamespace (first : Outline.Name) (others : List Outline.Name)
    {members : List Outline} (hmembers : ∀ o ∈ members, Declares o) :
    Declares (.ofNamespace first others members) := by
  intro b s ts container n h hts hn
  rw [tokens] at h
  simp only [List.cons_append, List.append_assoc, List.nil_append] at h
  refine takes_declHeader [] (by decide) (by decide) h fun start ms t _ ht hle => ?_
  refine (takes_namespaceDeclaration first others ht (opens_forestTokens members
    (.closes (.brace ts))) (hts.avoids (by decide) (by decide)) fun u hu hlt =>
      takes_selfBelow none hmembers hu (.brace ts) (by omega)).mono ?_
  rintro _ u ⟨⟨head, ms, rfl, hhead, hms⟩, hu, hlt⟩
  refine ⟨?_, hu, by omega⟩
  rw [Member.bare, bareMembers_eq, hhead, hms, member]

/-- An outline of a type is read back if those of its members are, in whatever container. -/
theorem declares_ofType (head : Outline.Head) {members : List Outline}
    (hmembers : ∀ o ∈ members, Declares o) : Declares (.ofType head members) := by
  intro b s ts container n h hts hn
  obtain ⟨k, us, hwords, hk⟩ := exists_words_eq_cons head.kind
  obtain ⟨hhead, -, hnone⟩ := typeWords_subset k hk
  have htokens : head.tokens ++ "\x7b" :: (forestTokens members ++ "\x7d" :: ts) =
      k :: (us ++ head.name.text :: (parameterTokens head.parameters ++ (baseTokens head.bases ++
        "\x7b" :: (forestTokens members ++ "\x7d" :: ts)))) := by
    rw [Head.tokens, hwords]
    simp
  rw [tokens] at h
  simp only [List.cons_append, List.append_assoc, List.nil_append] at h
  rw [htokens] at h
  refine takes_declHeader _ hhead hnone h fun start ms t hms ht hle => ?_
  rw [← htokens] at ht
  have hread := takes_typeDeclaration head ⟨start, [], ms⟩ rfl hms ht
    fun c u hu hlt => takes_selfBelow (n := n) c hmembers hu (.brace ts) (by omega)
  simp only [typeWords, List.mem_cons, List.not_mem_nil, or_false] at hk
  refine Takes.mono (by rcases hk with rfl | rfl | rfl | rfl <;> exact hread) ?_
  rintro _ u ⟨⟨hd, ms, rfl, hhd, hms⟩, hu, hlt⟩
  refine ⟨?_, hu, by omega⟩
  rw [Member.bare, bareMembers_eq, hhd, hms, member]

theorem declares_ofEnum (decl : Outline.Enum) : Declares (.ofEnum decl) := by
  intro b s ts container n h hts hn
  rw [tokens, List.append_assoc] at h
  refine takes_declHeader (k := "enum") _ (by decide) (by decide) h fun start ms t hms ht hle => ?_
  refine (takes_enumDeclaration decl ⟨start, [], ms⟩ rfl hms ht
    (hts.avoids (by decide) (by decide))).mono ?_
  rintro m u ⟨hm, hu, hlt⟩
  exact ⟨by rw [hm, member], hu, by omega⟩

/-- Every outline is read back from its tokens. -/
theorem declares (o : Outline) : Declares o := by
  cases o with
  | ofNamespace first others members =>
    exact declares_ofNamespace first others fun o _ => declares o
  | ofType head members => exact declares_ofType head fun o _ => declares o
  | ofEnum decl => exact declares_ofEnum decl
termination_by o

/-! ## Files -/

theorem takes_compilationUnit {os : List Outline} (h : Layout false (forestTokens os) s) :
    Takes compilationUnit s fun u _ => u.usings = [] ∧ u.members.map (·.bare) = forest os := by
  have hopens := opens_forestTokens os (.closes .nil)
  rw [List.append_nil] at hopens
  have hnone := Reads.attempt_none (hopens.fails_externAliasOpening h)
  have haliases : Reads externAliases s s fun _ => True :=
    .bind (.many_nil (hnone.bind_eq (.pure rfl))) fun _ _ => .pure trivial
  refine .offset_bind fun start => .bind_reads haliases fun _ _ => ?_
  refine (takes_usingDirectives h hopens).bind ?_
  rintro _ t ⟨rfl, ht, -⟩
  have hlayout := ht.layout
  rw [← List.append_nil (forestTokens os)] at hlayout
  refine (Takes.fix (takes_membersOf (fun o _ => declares o) hlayout .nil (Nat.le_refl _))).bind ?_
  rintro ms u ⟨hms, hu, -⟩
  cases hu
  have hend : Reads (label "a declaration" endOfText) [] [] fun _ => True :=
    Reads.label (.ahead_bind (.pure trivial))
  refine .bind_reads hend fun _ _ => .bind_reads (reads_spanFrom start []) fun span _ => ?_
  exact .pure ⟨rfl, hms⟩

end Grammar

open Grammar

/-- A file that is laid out from the tokens of an outline is read, whatever trivia stands between
them, and its tree declares what the outline does, and nothing else. -/
theorem CompilationUnit.exists_parse_of_layout {os : List Outline} {text : String}
    (h : Layout false (Outline.forestTokens os) text.toList) :
    ∃ u, parse text = .ok u ∧ u.usings = [] ∧ u.members.map (·.bare) = Outline.forest os := by
  obtain ⟨u, o, t, hread, husings, hmembers⟩ := takes_compilationUnit h 0
  refine ⟨u, ?_, husings, hmembers⟩
  rw [parse, Cursor.ofString, hread]
  rfl

/-- A namespace with a verbatim name and an enum, with each kind of trivia somewhere. -/
theorem CompilationUnit.exists_parse_of_layout_smallFile :
    ∃ u, parse "#if X\nnamespace @int\x7benum/*,*/C\x7bD=1\x7d\x7d//\n" = .ok u ∧ u.usings = [] ∧
      u.members.map (·.bare) = Outline.forest
        [.ofNamespace ⟨"@int", .inr ⟨"int".toList, rfl, by decide⟩⟩ []
          [.ofEnum ⟨[], ⟨"C", .inl (by decide)⟩, none,
            [⟨⟨"D", .inl (by decide)⟩, some ⟨"1", '1', [], [], rfl, by decide, by simp,
              by simp⟩⟩]⟩]] := by
  have hhash : IsTrivia ('#' :: "if X".toList ++ ['\n'] ++ []) := .hashLine (by decide) .nil
  have hspace : IsTrivia [' '] := .space rfl .nil
  have hcomment : IsTrivia ('/' :: '*' :: [','] ++ ['*', '/'] ++ []) :=
    .blockComment (by decide) .nil
  have hline : IsTrivia ('/' :: '/' :: [] ++ ['\n'] ++ []) := .lineComment (by simp) .nil
  -- only between a word and the name behind it the trivia must not be empty
  exact exists_parse_of_layout (.cons hhash (by simp) (.cons hspace (by simp) (.cons .nil
    (by decide) (.cons .nil (by decide) (.cons hcomment (by simp) (.cons .nil (by decide) (.cons
      .nil (by decide) (.cons .nil (by decide) (.cons .nil (by decide) (.cons .nil (by decide)
        (.cons .nil (by decide) (.nil hline))))))))))))

end DeclGen
