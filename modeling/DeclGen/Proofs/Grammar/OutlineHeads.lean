import DeclGen.Proofs.Grammar.Layout
import DeclGen.Proofs.Grammar.Outline

/-!
# Reading the heads of outlines

The modifiers, names, type parameters, base types and enum members of an outline are read back from
their tokens, whatever trivia stands between them.

## Main statements

* `takes_modifiers`, `takes_dottedName`, `takes_typeParameters`, `takes_baseList`,
  `takes_enumMembers`
-/

namespace DeclGen.Grammar

open DeclGen.Grammar.Parser DeclGen.Text DeclGen.Outline

variable {α : Type} {b : Bool} {k x : String} {ts : List String} {s t u w : List Char}

/-! ## Modifiers and names -/

theorem takes_modifier {m : ModifierKind} (h : Here (m.text :: x :: ts) s)
    (hx : IsWord x.toList) :
    Takes modifier s fun md t => md.bare = ⟨m, default⟩ ∧ Layout true (x :: ts) t ∧
      t.length < s.length := by
  refine .offset_bind fun start => (h.takes_word (isWord_modifier m)).bind ?_
  rintro _ t ⟨rfl, ht, hlt⟩
  simp only [ModifierKind.ofText?_text]
  refine .bind_eq (ht.reads_peekWord hx) ?_
  simp only [Option.isNone_some, Bool.and_false, Bool.false_eq_true, if_false]
  exact .bind_reads (reads_spanFrom start t) fun _ _ => .pure ⟨rfl, ht, hlt⟩

theorem fails_modifier_of_here (h : Here (k :: ts) s) (hk : IsWord k.toList)
    (hnone : ModifierKind.ofText? k = none) : Fails modifier s := by
  cases h with
  | cons hs =>
    rw [endsWord_of_isWord hk] at hs
    exact fails_modifier hk (by rwa [String.ofList_toList]) hs.wordEnds

/-- Modifiers and the word behind them start with a word. -/
theorem exists_word_of_modifiers (ks : List ModifierKind) (hk : IsWord k.toList)
    (ts : List String) :
    ∃ j us, ks.map (·.text) ++ k :: ts = j :: us ∧ IsWord j.toList := by
  cases ks with
  | nil => exact ⟨k, ts, rfl, hk⟩
  | cons m ks => exact ⟨m.text, ks.map (·.text) ++ k :: ts, rfl, isWord_modifier m⟩

/-- Modifiers are read up to the first word that is none. -/
theorem takes_modifiers (ks : List ModifierKind) (hk : IsWord k.toList)
    (hnone : ModifierKind.ofText? k = none) (h : Layout b (ks.map (·.text) ++ k :: ts) s) :
    Takes modifiers s fun ms t => ms.map (·.bare) = Outline.modifiers ks ∧ Here (k :: ts) t ∧
      t.length ≤ s.length := by
  induction ks generalizing b s with
  | nil =>
    refine .many_nil ((h.takes_trivia (solid_of_isWord hk)).bind ?_)
    rintro _ t ⟨ht, hle⟩
    exact (Reads.attempt_none (fails_modifier_of_here ht hk hnone)).takes
      fun _ hr => ⟨hr, rfl, ht, hle⟩
  | cons m ks ih =>
    obtain ⟨j, us, htokens, hj⟩ := exists_word_of_modifiers ks hk ts
    rw [List.map_cons, List.cons_append, htokens] at h
    refine .many_cons ((h.takes_trivia (solid_of_isWord (isWord_modifier m))).bind ?_)
    rintro _ t ⟨ht, hle⟩
    refine (takes_modifier ht hj).attempt.mono ?_
    rintro _ u ⟨md, rfl, hmd, hu, hlt⟩
    rw [← htokens] at hu
    refine ⟨md, rfl, by omega, (ih hu).mono ?_⟩
    rintro ms v ⟨hms, hv, hle⟩
    refine ⟨?_, hv, by omega⟩
    rw [List.map_cons, hmd, hms]
    rfl

theorem bare_of_text_eq {i : Identifier} {n : Name} (h : i.text = n.text) :
    i.bare = n.identifier := by
  rw [Identifier.bare_eq, h, Name.identifier]

/-- An identifier as a name of the outline. -/
theorem takes_name {n : Name} (h : Layout b (n.text :: ts) s) :
    Takes identifier s fun i t => i.bare = n.identifier ∧ Layout true ts t ∧
      t.length < s.length := by
  refine (h.takes_identifier n.isIdentifier).mono ?_
  rintro i t ⟨hi, ht⟩
  exact ⟨bare_of_text_eq hi, ht⟩

/-- The identifiers of a dotted name behind the first one. -/
theorem takes_dottedTail (names : List Name) (h : Layout b (dotTokens names ++ ts) s)
    (hts : Avoids '.' ts) :
    Takes dottedTail s fun is t => is.map (·.bare) = names.map (·.identifier) ∧
      Layout false ts t ∧ t.length ≤ s.length := by
  induction names generalizing b s with
  | nil =>
    refine .many_nil (.bind_eq (h.reads_accept_false rfl hts) ?_)
    exact .pure ⟨rfl, rfl, h.weaken, Nat.le_refl _⟩
  | cons n names ih =>
    have hdot : Solid ("." :: n.text :: (dotTokens names ++ ts)) := .cons rfl rfl
    refine .many_cons ((h.takes_accept hdot).bind ?_)
    rintro _ t ⟨rfl, ht, hlt⟩
    refine (takes_name ht).bind ?_
    rintro i u ⟨hi, hu, hlt'⟩
    refine .pure ⟨i, rfl, by omega, (ih hu).mono ?_⟩
    rintro is v ⟨his, hv, hle⟩
    exact ⟨by rw [List.map_cons, hi, his, List.map_cons], hv, by omega⟩

theorem takes_dottedName (n : Name) (names : List Name)
    (h : Layout b (n.text :: (dotTokens names ++ ts)) s) (hts : Avoids '.' ts) :
    Takes dottedName s fun d t => d.bare = (namespaceHead n names).name ∧ Layout false ts t ∧
      t.length < s.length := by
  refine (takes_name h).bind ?_
  rintro i t ⟨hi, ht, hlt⟩
  refine (takes_dottedTail names ht hts).bind ?_
  rintro is u ⟨his, hu, hle⟩
  refine .pure ⟨?_, hu, by omega⟩
  rw [DottedName.bare, List.map_cons, hi, his, namespaceHead, List.map_cons]

/-! ## Type parameters -/

theorem commas_cons_cons (ts us : List String) (groups : List (List String)) :
    commas (ts :: us :: groups) = ts ++ "," :: commas (us :: groups) := rfl

/-- The name behind the variance of a type parameter, whichever it is. -/
theorem takes_parameterName (v : Option Variance) {n : Name} (h : Layout b (n.text :: ts) s) :
    Takes (do return ⟨v, ← label "type parameter" identifier⟩) s fun (q : TypeParameter) t =>
      q.bare = (Parameter.mk v n).parameter ∧ Layout true ts t ∧ t.length < s.length := by
  refine (takes_name h).label.bind ?_
  rintro i t ⟨hi, ht, hlt⟩
  refine .pure ⟨?_, ht, hlt⟩
  rw [TypeParameter.bare, hi, Parameter.parameter]

theorem takes_typeParameter (p : Parameter) (h : Layout b (p.tokens ++ ts) s) :
    Takes typeParameter s fun q t => q.bare = p.parameter ∧ Layout true ts t ∧
      t.length < s.length := by
  obtain ⟨variance, n⟩ := p
  cases variance with
  | none =>
    have hstart : Avoids '[' (n.text :: ts) :=
      avoids_of_isIdentifier n.isIdentifier (by decide) (by decide)
    change Layout b (n.text :: ts) s at h
    refine (h.takes_attributeLists hstart).bind ?_
    rintro _ t ⟨-, ht, hle⟩
    have hno (kw : String) (hkw : isKeyword kw = true) :=
      ht.layout.reads_acceptKeyword_of_isIdentifier n.isIdentifier hkw
    refine .bind_eq (hno "in" (by decide)) ?_
    rw [if_neg (by decide)]
    refine .bind_eq (hno "out" (by decide)) ?_
    rw [if_neg (by decide)]
    exact (takes_parameterName none ht.layout).mono fun q u ⟨hq, hu, hlt⟩ => ⟨hq, hu, by omega⟩
  | some v =>
    have hstart : Avoids '[' (v.text :: n.text :: ts) :=
      avoids_of_isWord (isWord_variance v) (by decide)
    change Layout b (v.text :: n.text :: ts) s at h
    refine (h.takes_attributeLists hstart).bind ?_
    rintro _ t ⟨-, ht, hle⟩
    cases v with
    | contravariant =>
      refine (ht.layout.takes_acceptKeyword (k := "in") (by decide)).bind ?_
      rintro _ u ⟨rfl, hu, hlt⟩
      rw [if_pos rfl]
      refine (takes_parameterName (some .contravariant) hu).mono ?_
      exact fun q v ⟨hq, hv, hlt'⟩ => ⟨hq, hv, by omega⟩
    | covariant =>
      have hno : Reads (acceptKeyword "in") t t (· = false) :=
        reads_acceptKeyword_false (ht.layout.fails_keyword (x := "out") (by decide) (by decide))
      refine .bind_eq hno ?_
      rw [if_neg (by decide)]
      refine (ht.layout.takes_acceptKeyword (k := "out") (by decide)).bind ?_
      rintro _ u ⟨rfl, hu, hlt⟩
      rw [if_pos rfl]
      refine (takes_parameterName (some .covariant) hu).mono ?_
      exact fun q v ⟨hq, hv, hlt'⟩ => ⟨hq, hv, by omega⟩

/-- Type parameters with commas between them, up to the closing bracket. -/
theorem takes_parameters (p : Parameter) (ps : List Parameter)
    (h : Layout b (commas ((p :: ps).map (·.tokens)) ++ ">" :: ts) s) :
    Takes (sepBy typeParameter (accept ",")) s fun qs t =>
      qs.map (·.bare) = (p :: ps).map (·.parameter) ∧ Layout true (">" :: ts) t ∧
        t.length < s.length := by
  induction ps generalizing p b s with
  | nil =>
    refine .sepBy_last ((takes_typeParameter p h).mono ?_)
    rintro q t ⟨hq, ht, hlt⟩
    have hclose : Avoids ',' (">" :: ts) := .cons rfl rfl (by decide)
    refine (ht.reads_accept_false rfl hclose).takes fun r hr => ⟨hr, ?_, ht, hlt⟩
    rw [List.map_singleton, hq, List.map_singleton]
  | cons r rs ih =>
    rw [List.map_cons, List.map_cons, commas_cons_cons, List.append_assoc, List.cons_append] at h
    refine .sepBy_more ((takes_typeParameter p h).mono ?_)
    rintro q t ⟨hq, ht, hlt⟩
    refine (ht.takes_accept (.cons rfl rfl)).mono ?_
    rintro _ u ⟨hcomma, hu, hlt'⟩
    refine ⟨hcomma, by omega, (ih r hu).mono ?_⟩
    rintro qs v ⟨hqs, hv, hlt''⟩
    refine ⟨?_, hv, by omega⟩
    rw [List.map_cons, hq, hqs]
    rfl

/-- Type parameters in angle brackets, or none. -/
theorem takes_typeParameters (ps : List Parameter) (h : Layout b (parameterTokens ps ++ ts) s)
    (hts : Avoids '<' ts) :
    Takes typeParameters? s fun qs t => qs.map (·.bare) = parameters? ps ∧ Layout false ts t ∧
      t.length ≤ s.length := by
  cases ps with
  | nil =>
    refine (h.takes_trivia hts.solid).bind ?_
    rintro _ t ⟨ht, hle⟩
    refine .offset_bind fun start => .bind_eq (ht.reads_acceptHere_false rfl hts) ?_
    rw [if_neg (by decide)]
    exact .pure ⟨rfl, ht.layout, hle⟩
  | cons p ps =>
    have hopen : Solid (parameterTokens (p :: ps) ++ ts) := .cons rfl rfl
    refine (h.takes_trivia hopen).bind ?_
    rintro _ t ⟨ht, hle⟩
    refine .offset_bind fun start => ?_
    rw [parameterTokens, List.cons_append, List.append_assoc] at ht
    refine (ht.takes_acceptHere (.cons rfl rfl)).bind ?_
    rintro _ u ⟨rfl, hu, hlt⟩
    rw [if_pos rfl]
    refine (takes_parameters p ps hu).bind ?_
    rintro qs v ⟨hqs, hv, hlt'⟩
    refine (hv.takes_symbol (.cons rfl rfl)).label.bind ?_
    rintro _ w ⟨hw, hlt''⟩
    refine .bind_reads (reads_spanFrom start w) fun span _ => .pure ⟨?_, hw.weaken, by omega⟩
    rw [Option.map_some, TypeParameters.bare, hqs]
    rfl

/-! ## Base types -/

theorem Layout.ahead {c : Char} {cs y : List Char} (h : Layout b (x :: ts) s)
    (hx : x.toList = c :: y) (hc : c ∈ cs) : Ahead cs s := by
  obtain ⟨w, u, rfl, hw, -⟩ := h.uncons
  exact ⟨w, c, y ++ u, by rw [hx]; rfl, hw, hc⟩

/-- A type is read from its token if what follows ends a type. -/
theorem takes_typeExpr {e : TypeExpr} (he : e.Readable) (h : Layout b (e.text :: ts) s)
    (hts : ∀ b t, Layout b ts t → Ahead typeEnds t) :
    Takes typeExpr s fun t u => t.bare = e.bare ∧ Layout false ts u ∧ u.length ≤ s.length := by
  obtain ⟨w, u, rfl, hw, hu⟩ := h.uncons
  refine (he.reads hw (hts _ u hu)).takes fun t ht => ⟨ht, hu.weaken, ?_⟩
  simp only [List.length_append]
  omega

/-- The tokens behind a base type: a comma, or what opens the body. -/
theorem takes_baseType {e : TypeExpr} {c : Char} (he : e.Readable)
    (h : Layout b (e.text :: x :: ts) s) (hx : x.toList = [c]) (hc : c ∈ [',', '{']) :
    Takes baseType s fun t u => t.bare = e.bare ∧ Here (x :: ts) u ∧ u.length ≤ s.length := by
  obtain ⟨hends, hopens, hne⟩ : c ∈ typeEnds ∧ opensTrivia c = false ∧ c ≠ '(' := by
    simp only [List.mem_cons, List.not_mem_nil, or_false] at hc
    rcases hc with rfl | rfl <;> decide
  refine (takes_typeExpr he h fun b t ht => ht.ahead hx hends).label.bind ?_
  rintro t u ⟨ht, hu, hle⟩
  refine (hu.takes_trivia (.cons hx hopens)).bind ?_
  rintro _ v ⟨hv, hle'⟩
  refine .bind_eq (hv.reads_nextIs_false (.cons hx hopens hne)) ?_
  rw [if_neg (by decide)]
  refine (hv.layout.takes_trivia (.cons hx hopens)).bind ?_
  rintro _ w ⟨hw, hle''⟩
  exact .pure ⟨ht, hw, by omega⟩

theorem takes_baseTypes (e : {t : TypeExpr // t.Readable}) (es : List {t : TypeExpr // t.Readable})
    (h : Layout b (commas ((e :: es).map fun u => [u.val.text]) ++ "\x7b" :: ts) s) :
    Takes (sepBy baseType (acceptHere ",")) s fun us t =>
      us.map (·.bare) = (e :: es).map (·.val.bare) ∧ Here ("\x7b" :: ts) t ∧
        t.length ≤ s.length := by
  induction es generalizing e b s with
  | nil =>
    refine .sepBy_last ((takes_baseType e.property h rfl (by decide)).mono ?_)
    rintro t u ⟨ht, hu, hle⟩
    have hopen : Avoids ',' ("\x7b" :: ts) := .cons rfl rfl (by decide)
    refine (hu.reads_acceptHere_false rfl hopen).takes fun r hr => ⟨hr, ?_, hu, hle⟩
    rw [List.map_singleton, ht, List.map_singleton]
  | cons f fs ih =>
    rw [List.map_cons, List.map_cons, commas_cons_cons, List.append_assoc, List.cons_append] at h
    refine .sepBy_more ((takes_baseType e.property h rfl (by decide)).mono ?_)
    rintro t u ⟨ht, hu, hle⟩
    refine (hu.takes_acceptHere (.cons rfl rfl)).mono ?_
    rintro _ v ⟨hcomma, hv, hlt⟩
    refine ⟨hcomma, by omega, (ih f hv).mono ?_⟩
    rintro us w ⟨hus, hw, hle'⟩
    refine ⟨?_, hw, by omega⟩
    rw [List.map_cons, ht, hus]
    rfl

/-- Base types behind a colon, or none. -/
theorem takes_baseList (es : List {t : TypeExpr // t.Readable})
    (h : Layout b (baseTokens es ++ "\x7b" :: ts) s) :
    Takes baseList s fun us t => us.map (·.bare) = es.map (·.val.bare) ∧
      Here ("\x7b" :: ts) t ∧ t.length ≤ s.length := by
  cases es with
  | nil =>
    have hopen : Avoids ':' ("\x7b" :: ts) := .cons rfl rfl (by decide)
    change Layout b ("\x7b" :: ts) s at h
    refine (h.takes_trivia hopen.solid).bind ?_
    rintro _ t ⟨ht, hle⟩
    refine .bind_eq (ht.reads_acceptHere_false rfl hopen) ?_
    rw [if_neg (by decide)]
    exact .pure ⟨rfl, ht, hle⟩
  | cons e es =>
    have hcolon : Solid (baseTokens (e :: es) ++ "\x7b" :: ts) := .cons rfl rfl
    refine (h.takes_trivia hcolon).bind ?_
    rintro _ t ⟨ht, hle⟩
    rw [baseTokens, List.cons_append] at ht
    refine (ht.takes_acceptHere (.cons rfl rfl)).bind ?_
    rintro _ u ⟨rfl, hu, hlt⟩
    rw [if_pos rfl]
    refine (takes_baseTypes e es hu).mono ?_
    rintro us v ⟨hus, hv, hle'⟩
    exact ⟨hus, hv, by omega⟩

/-! ## Enum members -/

/-- What may give a member of an enum its value, up to the token that ends the member. -/
theorem takes_initializer {c : Char} {v : Literal} (h : Layout b (v.text :: x :: ts) s)
    (hx : x.toList = [c]) (hc : c ∈ itemEnds) :
    Takes initializerExpr s fun e t => e.bare = .integer v.text default ∧
      Layout false (x :: ts) t ∧ t.length ≤ s.length := by
  obtain ⟨w, u, rfl, hw, hu⟩ := h.uncons
  have hread := reads_initializerExpr hw v.isDecimal (hu.ahead hx hc)
  rw [String.ofList_toList] at hread
  refine hread.takes fun e he => ⟨he, hu.weaken, ?_⟩
  simp only [List.length_append]
  omega

/-- A member of an enum up to the token that ends it. -/
theorem takes_enumMember {c : Char} (i : EnumItem) (h : Layout b (i.tokens ++ x :: ts) s)
    (hx : x.toList = [c]) (hc : c ∈ itemEnds) :
    Takes enumMember s fun m t => m.bare = i.member ∧ Layout false (x :: ts) t ∧
      t.length < s.length := by
  obtain ⟨hopens, hassign⟩ : opensTrivia c = false ∧ c ≠ '=' := by
    simp only [itemEnds, List.mem_cons, List.not_mem_nil, or_false] at hc
    rcases hc with rfl | rfl <;> decide
  obtain ⟨n, value⟩ := i
  have hstart (us : List String) : Avoids '[' (n.text :: us) :=
    avoids_of_isIdentifier n.isIdentifier (by decide) (by decide)
  refine (h.takes_trivia (hstart _).solid).bind ?_
  rintro _ t ⟨ht, hle⟩
  refine .offset_bind fun start => (ht.layout.takes_attributeLists (hstart _)).bind ?_
  rintro as u ⟨rfl, hu, hle'⟩
  refine (takes_name hu.layout).bind ?_
  rintro j v ⟨hj, hv, hlt⟩
  cases value with
  | none =>
    have hend : Avoids '=' (x :: ts) := .cons hx hopens hassign
    change Layout true (x :: ts) v at hv
    refine .bind_eq (hv.reads_accept_false rfl hend) ?_
    rw [if_neg (by decide)]
    refine .bind_eq (.pure rfl) (.bind_reads (reads_spanFrom start v) fun span _ => .pure ?_)
    refine ⟨?_, hv.weaken, by omega⟩
    rw [EnumMember.bare, hj]
    rfl
  | some l =>
    change Layout true ("=" :: l.text :: x :: ts) v at hv
    refine (hv.takes_accept (.cons rfl rfl)).bind ?_
    rintro _ w ⟨rfl, hw, hlt'⟩
    rw [if_pos rfl]
    refine (takes_initializer hw hx hc).map_bind ?_
    rintro e y ⟨he, hy, hle''⟩
    refine .bind_reads (reads_spanFrom start y) fun span _ => .pure ⟨?_, hy, by omega⟩
    rw [EnumMember.bare, hj, Option.map_some, he]
    rfl

/-- A round of the members of an enum, up to the token behind the member. -/
theorem takes_enumRound {f : EnumMember → Parser (Round EnumMember)}
    {R : Round EnumMember → List Char → Prop} {c : Char} (i : EnumItem)
    (h : Layout b (i.tokens ++ x :: ts) s) (hx : x.toList = [c]) (hc : c ∈ itemEnds)
    (hf : ∀ m t, m.bare = i.member → Layout false (x :: ts) t → t.length < s.length →
      Takes (f m) t R) :
    Takes (do
      trivia
      if ← acceptHere "\x7d" then return .stop
      else f (← label "enum member" enumMember)) s R := by
  have hstart (us : List String) : Avoids '}' (i.name.text :: us) :=
    avoids_of_isIdentifier i.name.isIdentifier (by decide) (by decide)
  refine (h.takes_trivia (hstart _).solid).bind ?_
  rintro _ t ⟨ht, hle⟩
  refine .bind_eq (ht.reads_acceptHere_false rfl (hstart _)) ?_
  rw [if_neg (by decide)]
  refine (takes_enumMember i ht.layout hx hc).label.bind ?_
  rintro m u ⟨hm, hu, hlt⟩
  exact hf m u hm hu (by omega)

/-- Members of an enum with commas between them and the brace behind them. -/
theorem takes_enumItems (i : EnumItem) (items : List EnumItem)
    (h : Layout b (commas ((i :: items).map (·.tokens)) ++ "\x7d" :: ts) s) :
    Takes enumMembers s fun ms t => ms.map (·.bare) = (i :: items).map (·.member) ∧
      Layout false ts t ∧ t.length < s.length := by
  induction items generalizing i b s with
  | nil =>
    have hclose : Avoids ',' ("\x7d" :: ts) := .cons rfl rfl (by decide)
    refine .rounds_last (takes_enumRound i h rfl (by decide) fun m t hm ht hlt => ?_)
    refine .bind_eq (ht.reads_accept_false rfl hclose) ?_
    rw [if_neg (by decide)]
    refine (ht.takes_symbol hclose.solid).label.bind ?_
    rintro _ u ⟨hu, hlt'⟩
    refine .pure ⟨m, rfl, ?_, hu.weaken, by omega⟩
    rw [List.map_singleton, hm, List.map_singleton]
  | cons j items ih =>
    rw [List.map_cons, List.map_cons, commas_cons_cons, List.append_assoc, List.cons_append] at h
    refine .rounds_more (takes_enumRound i h rfl (by decide) fun m t hm ht hlt => ?_)
    refine (ht.takes_accept (.cons rfl rfl)).bind ?_
    rintro _ u ⟨rfl, hu, hlt'⟩
    rw [if_pos rfl]
    refine .pure ⟨m, rfl, by omega, (ih j hu).mono ?_⟩
    rintro ms v ⟨hms, hv, hlt''⟩
    refine ⟨?_, hv, by omega⟩
    rw [List.map_cons, hm, hms]
    rfl

/-- The members of an enum and the brace behind them. -/
theorem takes_enumMembers (items : List EnumItem)
    (h : Layout b (commas (items.map (·.tokens)) ++ "\x7d" :: ts) s) :
    Takes enumMembers s fun ms t => ms.map (·.bare) = items.map (·.member) ∧
      Layout false ts t ∧ t.length < s.length := by
  cases items with
  | nil =>
    have hclose : Solid ("\x7d" :: ts) := .cons rfl rfl
    change Layout b ("\x7d" :: ts) s at h
    refine .rounds_stop ((h.takes_trivia hclose).bind ?_)
    rintro _ t ⟨ht, hle⟩
    refine (ht.takes_acceptHere hclose).bind ?_
    rintro _ u ⟨rfl, hu, hlt⟩
    exact .pure ⟨rfl, rfl, hu.weaken, by omega⟩
  | cons i items => exact takes_enumItems i items h

end DeclGen.Grammar
