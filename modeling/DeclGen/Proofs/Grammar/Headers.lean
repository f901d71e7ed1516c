import DeclGen.Grammar.TypeExpr
import DeclGen.Proofs.Grammar.Tokens

/-!
# Reading what stands before and between declarations

Modifiers, dotted names and type parameters, as they are written out.

## Main definitions

* `modifierText`: modifiers with a blank behind each
* `IsDottedName`, `IsParameterList`: the texts of dotted names and of type parameters

## Main statements

* `reads_modifiers`, `reads_dottedName`, `reads_typeParameters`
-/

namespace DeclGen.Grammar

open DeclGen.Grammar.Parser DeclGen.Text

variable {α : Type} {w x s t : List Char}

/-- Reserved words are not read from identifiers. -/
theorem fails_keyword_of_isIdentifier {kw : String} (hw : Trivia w) (hx : IsIdentifier x)
    (ht : WordEnds t) (hkw : isKeyword kw = true) : Fails (keyword kw) (w ++ (x ++ t)) := by
  rcases hx with ⟨hx, hplain⟩ | ⟨y, rfl, -⟩
  · refine fails_keyword hw hx ht ?_
    rintro rfl
    rw [hplain] at hkw
    cases hkw
  · exact fails_keyword_of_noWord hw (.cons (by decide)) (.cons (by decide))

/-! ## Attribute lists and modifiers -/

theorem reads_attributeLists_nil (hw : Trivia w) (hs : Stops s) (hne : s.head? ≠ some '[') :
    Reads attributeLists (w ++ s) s (· = []) := by
  refine .many_nil ((reads_trivia hw hs).bind fun _ _ => (reads_nextIs '[' s).bind_eq ?_)
  rw [beq_eq_false_iff_ne.mpr hne]
  exact .pure rfl

theorem isWord_modifier (k : ModifierKind) : IsWord k.text.toList := by cases k <;> decide

def modifierText (ks : List ModifierKind) : List Char :=
  ks.flatMap fun k => k.text.toList ++ [' ']

theorem wordEnds_blank : WordEnds (' ' :: t) := .cons (by decide)

theorem trivia_blank : Trivia [' '] := .of_all (by decide)

/-- Modifiers and the word behind them start with a word. -/
theorem exists_word_of_modifierText (ks : List ModifierKind) {k : String} (hk : IsWord k.toList)
    (t : List Char) :
    ∃ j u, modifierText ks ++ (k.toList ++ ' ' :: t) = j.toList ++ ' ' :: u ∧
      IsWord j.toList ∧ (j = k ∨ ∃ m ∈ ks, j = m.text) := by
  cases ks with
  | nil => exact ⟨k, t, rfl, hk, .inl rfl⟩
  | cons m ks =>
    refine ⟨m.text, modifierText ks ++ (k.toList ++ ' ' :: t), ?_, isWord_modifier m,
      .inr ⟨m, by simp, rfl⟩⟩
    simp [modifierText]

theorem reads_modifier (k : ModifierKind) (hx : IsWord x) (ht : WordEnds t) :
    Reads modifier (k.text.toList ++ ' ' :: (x ++ t)) (' ' :: (x ++ t)) (·.kind = k) := by
  refine .offset_bind fun start => (reads_word (isWord_modifier k) wordEnds_blank).bind_eq ?_
  simp only [String.ofList_toList, ModifierKind.ofText?_text]
  refine (reads_peekWord trivia_blank hx ht).bind_eq ?_
  simp only [Option.isNone_some, Bool.and_false, Bool.false_eq_true, if_false]
  exact (reads_spanFrom start _).bind fun _ _ => .pure rfl

theorem fails_modifier (hx : IsWord x) (hnone : ModifierKind.ofText? (String.ofList x) = none)
    (ht : WordEnds t) : Fails modifier (x ++ t) := by
  refine .offset_bind fun start => .bind_eq (reads_word hx ht) ?_
  simp only [hnone]
  exact .fail

/-- Modifiers are read up to the first word that is none. -/
theorem reads_modifiers (ks : List ModifierKind) {k : String} (hw : Trivia w)
    (hk : IsWord k.toList) (hnone : ModifierKind.ofText? k = none) :
    Reads modifiers (w ++ (modifierText ks ++ (k.toList ++ ' ' :: t))) (k.toList ++ ' ' :: t)
      fun ms => ms.map (·.kind) = ks := by
  induction ks generalizing w with
  | nil =>
    have hfails : Fails modifier (k.toList ++ ' ' :: t) :=
      fails_modifier hk (by rwa [String.ofList_toList]) wordEnds_blank
    refine (Reads.many_nil (.skip hw (.of_stops hk.stops ?_))).mono fun _ h => by simp [h]
    exact .attempt_none hfails
  | cons m ks ih =>
    obtain ⟨j, u, htext, hj, -⟩ := exists_word_of_modifierText ks hk t
    have hrest := ih trivia_blank
    rw [htext] at hrest
    have hsplit : modifierText (m :: ks) ++ (k.toList ++ ' ' :: t) =
        m.text.toList ++ ' ' :: (j.toList ++ ' ' :: u) := by
      rw [← htext]
      simp [modifierText]
    rw [hsplit]
    refine (Reads.many_cons (.skip hw (.of_stops (isWord_modifier m).stops
      (reads_modifier m hj wordEnds_blank).attempt)) ?_ hrest).mono ?_
    · have := (isWord_modifier m).length_pos
      simp only [List.length_append, List.length_cons, List.length_nil]
      omega
    · rintro _ ⟨a, as, rfl, ha, has⟩
      simp [ha, has]

/-! ## Dotted names -/

def dottedTailText (xs : List (List Char)) : List Char := xs.flatMap ('.' :: ·)

theorem reads_dottedTail {xs : List (List Char)} (hxs : ∀ y ∈ xs, IsIdentifier y) (hw : Trivia w)
    (hs : Stops s) (hends : WordEnds (w ++ s)) (hdot : s.head? ≠ some '.') :
    Reads dottedTail (dottedTailText xs ++ (w ++ s)) (w ++ s)
      fun is => is.map (·.text) = xs.map String.ofList := by
  induction xs with
  | nil =>
    have hnone := reads_accept_false (x := ".") hw hs (isPrefixOf_of_head?_ne hdot)
    refine (Reads.many_nil (hnone.bind_eq ?_)).mono fun _ h => by simp [h]
    exact .pure rfl
  | cons y ys ih =>
    have hends' : WordEnds (dottedTailText ys ++ (w ++ s)) := by
      cases ys with
      | nil => exact hends
      | cons z zs => exact .cons (by decide)
    have hsplit : dottedTailText (y :: ys) ++ (w ++ s) =
        ".".toList ++ (y ++ (dottedTailText ys ++ (w ++ s))) := by
      simp [dottedTailText]
    have haccept := reads_accept (x := ".") (t := y ++ (dottedTailText ys ++ (w ++ s))) .nil
      (.cons (by decide))
    have hname := reads_identifier .nil (hxs y (by simp)) hends'
    rw [hsplit]
    refine (Reads.many_cons (haccept.bind_eq (hname.bind fun i hi => .pure ⟨i, rfl, hi⟩)) ?_
      (ih fun z hz => hxs z (by simp [hz]))).mono ?_
    · simp only [List.length_append]
      have : ".".toList.length = 1 := rfl
      omega
    · rintro _ ⟨i, is, rfl, hi, his⟩
      simp [hi, his]

theorem intercalate_dot (x : List Char) (xs : List (List Char)) :
    ".".intercalate ((x :: xs).map String.ofList) = String.ofList (x ++ dottedTailText xs) := by
  induction xs generalizing x with
  | nil => simp [dottedTailText]
  | cons y ys ih =>
    rw [List.map_cons, List.map_cons, String.intercalate_cons_cons, ← List.map_cons, ih]
    apply String.ext
    simp [dottedTailText]

/-- The text is one or more identifiers with dots between them. -/
def IsDottedName (x : List Char) : Prop :=
  ∃ y ys, x = y ++ dottedTailText ys ∧ IsIdentifier y ∧ ∀ z ∈ ys, IsIdentifier z

theorem IsIdentifier.isDottedName (h : IsIdentifier x) : IsDottedName x :=
  ⟨x, [], by simp [dottedTailText], h, by simp⟩

theorem IsDottedName.append {y : List Char} (hx : IsDottedName x) (hy : IsDottedName y) :
    IsDottedName (x ++ '.' :: y) := by
  obtain ⟨a, as, rfl, ha, has⟩ := hx
  obtain ⟨b, bs, rfl, hb, hbs⟩ := hy
  refine ⟨a, as ++ b :: bs, by simp [dottedTailText], ha, ?_⟩
  intro z hz
  rcases List.mem_append.mp hz with hz | hz
  · exact has z hz
  · rcases List.mem_cons.mp hz with rfl | hz
    · exact hb
    · exact hbs z hz

/-- What holds of texts and of two with the separator between them holds of all with separators
between them. -/
theorem intercalate_induction {P : List Char → Prop} {sep : String} {ys : List String}
    (hjoin : ∀ u v, P u → P v → P (u ++ (sep.toList ++ v))) (hne : ys ≠ [])
    (h : ∀ y ∈ ys, P y.toList) : P (sep.intercalate ys).toList := by
  induction ys with
  | nil => exact absurd rfl hne
  | cons y ys ih =>
    have hy := h y List.mem_cons_self
    cases ys with
    | nil => rwa [String.intercalate_singleton]
    | cons z zs =>
      have hrest := ih (List.cons_ne_nil z zs) fun u hu => h u (List.mem_cons_of_mem y hu)
      rw [String.intercalate_cons_cons, String.toList_append, String.toList_append,
        List.append_assoc]
      exact hjoin _ _ hy hrest

/-- Dotted names with dots between them are a dotted name. -/
theorem IsDottedName.intercalate {ys : List String} (hne : ys ≠ [])
    (h : ∀ y ∈ ys, IsDottedName y.toList) : IsDottedName (".".intercalate ys).toList :=
  intercalate_induction (fun _ _ hu hv => hu.append hv) hne h

/-- A dotted name is read up to something other than a dot, identifier by identifier. -/
theorem reads_segments {v y : List Char} {ys : List (List Char)} (hv : Trivia v)
    (hy : IsIdentifier y) (hys : ∀ z ∈ ys, IsIdentifier z) (hw : Trivia w) (hs : Stops s)
    (hends : WordEnds (w ++ s)) (hdot : s.head? ≠ some '.') :
    Reads dottedName (v ++ (y ++ dottedTailText ys ++ (w ++ s))) (w ++ s) fun n =>
      n.segments.map (·.text) = (y :: ys).map String.ofList := by
  have hends' : WordEnds (dottedTailText ys ++ (w ++ s)) := by
    cases ys with
    | nil => exact hends
    | cons z zs => exact .cons (by decide)
  rw [List.append_assoc]
  refine (reads_identifier hv hy hends').bind fun i hi => ?_
  refine (reads_dottedTail hys hw hs hends hdot).bind fun is his => .pure ?_
  rw [List.map_cons, hi, his, List.map_cons]

theorem reads_dottedName {v : List Char} (hv : Trivia v) (hx : IsDottedName x) (hw : Trivia w)
    (hs : Stops s) (hends : WordEnds (w ++ s)) (hdot : s.head? ≠ some '.') :
    Reads dottedName (v ++ (x ++ (w ++ s))) (w ++ s) (·.text = String.ofList x) := by
  obtain ⟨y, ys, rfl, hy, hys⟩ := hx
  refine (reads_segments hv hy hys hw hs hends hdot).mono fun n hn => ?_
  rw [DottedName.text, ← intercalate_dot, ← hn]

/-! ## Type parameters -/

/-- The text of a type parameter can be read back. -/
def IsParameter (p : TypeParameter) : Prop := IsIdentifier p.identifier.text.toList

/-- The text of a list of type parameters can be read back: there is one, and each can be. -/
def IsParameterList (ps : TypeParameters) : Prop :=
  ps.parameters ≠ [] ∧ ∀ p ∈ ps.parameters, IsParameter p

/-- What type parameters declare, wherever they stand. -/
def declared (ps : List TypeParameter) : List (Option Variance × String) :=
  ps.map fun p => (p.variance, p.identifier.text)

theorem isWord_variance (v : Variance) : IsWord v.text.toList := by cases v <;> decide

theorem reads_typeParameter {p : TypeParameter} (hw : Trivia w) (hp : IsParameter p)
    (ht : WordEnds t) :
    Reads typeParameter (w ++ (p.text.toList ++ t)) t fun q =>
      (q.variance, q.identifier.text) = (p.variance, p.identifier.text) := by
  obtain ⟨variance, i⟩ := p
  have hname {v : List Char} (hv : Trivia v) :
      Reads (label "type parameter" identifier) (v ++ (i.text.toList ++ t)) t
        (·.text = i.text) := by
    have h : Reads (label "type parameter" identifier) (v ++ (i.text.toList ++ t)) t
        (·.text = String.ofList i.text.toList) := (reads_identifier hv hp ht).label
    rwa [String.ofList_toList] at h
  cases variance with
  | none =>
    have hstart := IsIdentifier.head?_ne hp (t := t) (c := '[') (by decide) (by decide)
    have hno (kw : String) (hkw : isKeyword kw = true) :=
      reads_acceptKeyword_false (fails_keyword_of_isIdentifier .nil hp ht hkw)
    refine (reads_attributeLists_nil hw (IsIdentifier.stops hp) hstart).bind fun _ _ => ?_
    refine (hno "in" (by decide)).bind_eq ?_
    simp only [Bool.false_eq_true, if_false]
    refine (hno "out" (by decide)).bind_eq ?_
    simp only [Bool.false_eq_true, if_false]
    exact .pure_bind ((hname .nil).bind fun j hj => .pure (by rw [hj]))
  | some v =>
    have htext : (TypeParameter.text ⟨some v, i⟩).toList ++ t =
        v.text.toList ++ ' ' :: (i.text.toList ++ t) := by
      simp [TypeParameter.text]
    have hstart : (v.text.toList ++ ' ' :: (i.text.toList ++ t)).head? ≠ some '[' := by
      cases v <;> simp [Variance.text]
    rw [htext]
    refine (reads_attributeLists_nil hw (isWord_variance v).stops hstart).bind fun _ _ => ?_
    cases v with
    | contravariant =>
      refine (reads_acceptKeyword .nil (by decide) wordEnds_blank).bind_eq ?_
      simp only [if_true]
      exact .pure_bind ((hname trivia_blank).bind fun j hj => .pure (by rw [hj]))
    | covariant =>
      have hno : Fails (keyword "in") ([] ++ ("out".toList ++ ' ' :: (i.text.toList ++ t))) :=
        fails_keyword .nil (by decide) wordEnds_blank (by decide)
      refine (reads_acceptKeyword_false hno).bind_eq ?_
      simp only [Bool.false_eq_true, if_false]
      refine (reads_acceptKeyword .nil (by decide) wordEnds_blank).bind_eq ?_
      simp only [if_true]
      exact .pure_bind ((hname trivia_blank).bind fun j hj => .pure (by rw [hj]))

/-- Type parameters with commas between them, up to the closing bracket. -/
theorem reads_parameters {p : TypeParameter} {ps : List TypeParameter}
    (hps : ∀ q ∈ p :: ps, IsParameter q) (hw : Trivia w) :
    Reads (sepBy typeParameter (accept ","))
      (w ++ ((", ".intercalate ((p :: ps).map (·.text))).toList ++ '>' :: t)) ('>' :: t)
      fun qs => declared qs = declared (p :: ps) := by
  induction ps generalizing p w with
  | nil =>
    have hend : WordEnds ('>' :: t) := .cons (by decide)
    have hstop := reads_accept_false (x := ",") (s := '>' :: t) .nil
      (.cons (by decide)) rfl
    have hp := reads_typeParameter hw (hps p (by simp)) hend
    rw [List.map_singleton, String.intercalate_singleton]
    refine (Reads.sepBy_last hp hstop).mono ?_
    rintro _ ⟨q, rfl, hq⟩
    simpa [declared] using hq
  | cons q qs ih =>
    have hsplit : (", ".intercalate ((p :: q :: qs).map (·.text))).toList ++ '>' :: t =
        p.text.toList ++ (",".toList ++
          ([' '] ++ ((", ".intercalate ((q :: qs).map (·.text))).toList ++ '>' :: t))) := by
      simp only [List.map_cons, String.intercalate_cons_cons, String.toList_append,
        List.append_assoc]
      rfl
    have hp := reads_typeParameter hw (hps p (by simp))
      (t := ",".toList ++ ([' '] ++
        ((", ".intercalate ((q :: qs).map (·.text))).toList ++ '>' :: t))) (.cons (by decide))
    have hcomma := reads_accept (x := ",")
      (t := [' '] ++ ((", ".intercalate ((q :: qs).map (·.text))).toList ++ '>' :: t)) .nil
      (.cons (by decide))
    rw [hsplit]
    refine (Reads.sepBy_more hp hcomma ?_ (ih (fun r hr => hps r (by simp [hr]))
      trivia_blank)).mono ?_
    · have : ",".toList.length = 1 := rfl
      simp only [List.length_append]
      omega
    · rintro _ ⟨r, rs, rfl, hr, hrs⟩
      simpa [declared, hr] using hrs

/-- Type parameters in angle brackets are read. -/
theorem reads_typeParameters {ps : TypeParameters} (hps : IsParameterList ps) (hw : Trivia w) :
    Reads typeParameters? (w ++ (ps.text.toList ++ t)) t
      fun r => ∃ qs, r = some qs ∧ declared qs.parameters = declared ps.parameters := by
  obtain ⟨parameters, span⟩ := ps
  obtain ⟨hne, hps⟩ := hps
  obtain ⟨p, ps, rfl⟩ := List.exists_cons_of_ne_nil hne
  have hsplit : (TypeParameters.text ⟨p :: ps, span⟩).toList ++ t =
      "<".toList ++ ([] ++ ((", ".intercalate ((p :: ps).map (·.text))).toList ++ '>' :: t)) := by
    simp [TypeParameters.text]
  rw [hsplit]
  refine .skip hw (.of_stops (.cons (by decide))
    (.offset_bind fun start => ?_))
  refine (reads_acceptHere "<" _).bind_eq ?_
  simp only [if_true]
  refine (reads_parameters hps .nil).bind fun qs hqs => ?_
  refine (reads_symbol (x := ">") .nil (.cons (by decide))).label.bind
    fun _ _ => ?_
  exact (reads_spanFrom start t).bind fun _ _ => .pure ⟨_, rfl, hqs⟩

theorem reads_typeParameters_none (hw : Trivia w) (hs : Stops s) (hne : s.head? ≠ some '<') :
    Reads typeParameters? (w ++ s) s (· = none) := by
  refine (reads_trivia hw hs).bind fun _ _ => .offset_bind fun start => ?_
  refine (reads_acceptHere_false (x := "<") (isPrefixOf_of_head?_ne hne)).bind_eq ?_
  simp only [Bool.false_eq_true, if_false]
  exact .pure rfl

def parametersText (ps : Option TypeParameters) : List Char :=
  match ps with
  | some ps => ps.text.toList
  | none => []

def declared? (ps : Option TypeParameters) : Option (List (Option Variance × String)) :=
  ps.map fun ps => declared ps.parameters

theorem head?_parametersText (ps : TypeParameters) (t : List Char) :
    (parametersText (some ps) ++ t).head? = some '<' := by
  simp [parametersText, TypeParameters.text]

theorem wordEnds_parametersText (ps : Option TypeParameters) (ht : WordEnds t) :
    WordEnds (parametersText ps ++ t) := by
  cases ps with
  | none => exact ht
  | some ps =>
    intro c hc
    rw [head?_parametersText] at hc
    cases hc
    decide

theorem stops_parametersText (ps : Option TypeParameters) (ht : Stops t) :
    Stops (parametersText ps ++ t) := by
  cases ps with
  | none => exact ht
  | some ps =>
    obtain ⟨u, hu⟩ := List.head?_eq_some_iff.mp (head?_parametersText ps t)
    rw [hu]
    exact .cons (by decide)

/-- Type parameters, if there are any, and the trivia behind them. -/
theorem Reads.typeParameters_bind {ps : Option TypeParameters}
    {f : Option TypeParameters → Parser α} {Q : α → Prop} (hps : ∀ qs ∈ ps, IsParameterList qs)
    (hw : Trivia w) (hs : Stops s) (hne : s.head? ≠ some '<')
    (hf : ∀ qs, declared? qs = declared? ps → Reads (f qs) s t Q) :
    Reads (do
      let qs ← typeParameters?
      trivia
      f qs) (parametersText ps ++ (w ++ s)) t Q := by
  cases ps with
  | none => exact (reads_typeParameters_none hw hs hne).bind_eq (.of_stops hs (hf none rfl))
  | some ps =>
    refine (reads_typeParameters (hps ps rfl) .nil).bind fun r hr => .skip hw (.of_stops hs ?_)
    obtain ⟨qs, rfl, hqs⟩ := hr
    exact hf (some qs) (congrArg some hqs)

end DeclGen.Grammar
