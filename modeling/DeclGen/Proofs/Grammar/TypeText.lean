import DeclGen.Proofs.Grammar.Members
import DeclGen.Proofs.Syntax.Bare

/-!
# Reading types back

The text of a type is read back as that type, suffixes and type arguments included, if what follows
ends a type.

## Main definitions

* `TypeExpr.Readable`: the types that their text stands for
* `Ahead`: which characters may come next behind trivia

## Main statements

* `TypeExpr.Readable.reads`: the text of a type is read as the type
-/

namespace DeclGen

open Grammar

/-- The type is one that its text stands for. Names are identifiers, and the first one is not read
as a built-in type; tuples have at least two elements and arrays at least one dimension. The parser
of types gives only such types. -/
inductive TypeExpr.Readable : TypeExpr → Prop where
  | predefined {name : String} {span : Span} (hname : isPredefinedType name = true) :
      Readable (.predefined name span)
  | named {qualifier : Option Identifier} {g : NameSegment} {gs : List NameSegment} {span : Span}
      (hqualifier : ∀ a ∈ qualifier, IsIdentifier a.text.toList)
      (hnames : ∀ h ∈ g :: gs, IsIdentifier h.identifier.text.toList)
      (hfirst : isPredefinedType (qualifier.getD g.identifier).text = false)
      (harguments : ∀ h ∈ g :: gs, ∀ t ∈ h.arguments, Readable t) :
      Readable (.named qualifier (g :: gs) span)
  | nullable {inner : TypeExpr} {span : Span} (hinner : Readable inner) :
      Readable (.nullable inner span)
  | array {element : TypeExpr} {rank : Nat} {span : Span} (hrank : 1 ≤ rank)
      (helement : Readable element) : Readable (.array element rank span)
  | pointer {inner : TypeExpr} {span : Span} (hinner : Readable inner) :
      Readable (.pointer inner span)
  | tuple {elements : List TypeExpr} {span : Span} (hlength : 2 ≤ elements.length)
      (helements : ∀ t ∈ elements, Readable t) : Readable (.tuple elements span)

namespace Grammar

open DeclGen.Grammar.Parser DeclGen.Text

variable {α : Type} {n : Nat} {span : Span} {c d : Char} {cs : List Char} {k : String}
  {r s t w x : List Char}

/-! ## What follows a type -/

/-- Behind trivia comes one of the characters. -/
def Ahead (cs s : List Char) : Prop := ∃ w c t, s = w ++ c :: t ∧ Trivia w ∧ c ∈ cs

def typeEnds : List Char := [',', '{', '>', ')']

/-- The characters that end a type or close the block that it is the end of. -/
def blockEnds : List Char := '}' :: typeEnds

def coreEnds : List Char := '?' :: '*' :: '[' :: blockEnds

theorem Ahead.cons (hc : c ∈ cs) : Ahead cs (c :: t) := ⟨[], c, t, rfl, .nil, hc⟩

theorem Ahead.mono {ds : List Char} (h : Ahead cs s) (hcs : cs ⊆ ds) : Ahead ds s := by
  obtain ⟨w, c, t, rfl, hw, hc⟩ := h
  exact ⟨w, c, t, rfl, hw, hcs hc⟩

theorem Ahead.wordEnds (h : Ahead cs s) (hcs : cs.all (!isWordPart ·) = true) : WordEnds s := by
  obtain ⟨w, c, t, rfl, hw, hc⟩ := h
  have hword : isWordPart c = false := by simpa using List.all_eq_true.mp hcs c hc
  exact hw.wordEnds (.cons hword)

/-- A symbol that starts with none of the characters does not come next. -/
theorem Ahead.fails_symbol {y : List Char} (h : Ahead cs s) (hk : k.toList = d :: y)
    (hcs : cs.all (fun c => !opensTrivia c && c != d) = true) : Fails (symbol k) s := by
  obtain ⟨w, c, t, rfl, hw, hc⟩ := h
  obtain ⟨hopens, hne⟩ : opensTrivia c = false ∧ c ≠ d := by
    simpa using List.all_eq_true.mp hcs c hc
  refine Grammar.fails_symbol hw (.cons hopens) ?_
  rw [hk]
  exact isPrefixOf_of_head?_ne (by simpa using hne)

theorem Ahead.reads_accept_false {y : List Char} (h : Ahead cs s) (hk : k.toList = d :: y)
    (hcs : cs.all (fun c => !opensTrivia c && c != d) = true) : Reads (accept k) s s (· = false) :=
  (Reads.attempt_none (h.fails_symbol hk hcs)).bind_eq (.pure rfl)

/-! ## Lists of types -/

/-- Texts with a separator between them, the first one apart. -/
theorem toList_intercalate (sep x : String) (xs : List String) :
    (sep.intercalate (x :: xs)).toList =
      x.toList ++ xs.flatMap fun y => sep.toList ++ y.toList := by
  induction xs generalizing x with
  | nil => simp
  | cons y ys ih => simp [String.intercalate_cons_cons, ih]

theorem texts_eq (ts : List TypeExpr) : TypeExpr.texts ts = ts.map (·.text) := by
  induction ts with
  | nil => rfl
  | cons t ts ih => rw [TypeExpr.texts, ih, List.map_cons]

theorem segmentTexts_eq (gs : List NameSegment) :
    TypeExpr.segmentTexts gs = gs.map TypeExpr.segmentText := by
  induction gs with
  | nil => rfl
  | cons g gs ih => rw [TypeExpr.segmentTexts, ih, List.map_cons]

def commaTypes (ts : List TypeExpr) : List Char := ts.flatMap fun t => [',', ' '] ++ t.text.toList

theorem toList_typeList (t : TypeExpr) (ts : List TypeExpr) :
    (", ".intercalate (TypeExpr.texts (t :: ts))).toList = t.text.toList ++ commaTypes ts := by
  rw [texts_eq, List.map_cons, toList_intercalate, List.flatMap_map]
  rfl

/-- The parser reads each of the types back where fewer than `n` characters are left. -/
def ReadsTypes (p : Parser TypeExpr) (n : Nat) (ts : List TypeExpr) : Prop :=
  ∀ t ∈ ts, ∀ w s, Trivia w → Ahead typeEnds s → (w ++ (t.text.toList ++ s)).length < n →
    Reads p (w ++ (t.text.toList ++ s)) s (·.bare = t.bare)

theorem ahead_commaTypes (ts : List TypeExpr) (hs : Ahead typeEnds s) :
    Ahead typeEnds (commaTypes ts ++ s) := by
  cases ts with
  | nil => exact hs
  | cons t ts => exact .cons (by decide)

/-- Types with commas between them. -/
theorem reads_typeList {p : Parser TypeExpr} {t : TypeExpr} {ts : List TypeExpr}
    (hp : ReadsTypes p n (t :: ts)) (hw : Trivia w) (hs : Ahead ['>', ')'] s)
    (hn : (w ++ (t.text.toList ++ (commaTypes ts ++ s))).length < n) :
    Reads (sepBy p (accept ",")) (w ++ (t.text.toList ++ (commaTypes ts ++ s))) s
      fun us => us.map (·.bare) = (t :: ts).map (·.bare) := by
  have hends : Ahead typeEnds s := hs.mono (by decide)
  have hfirst := hp t (by simp) w (commaTypes ts ++ s) hw (ahead_commaTypes ts hends) hn
  induction ts generalizing t w with
  | nil =>
    have hstop := hs.reads_accept_false (k := ",") rfl (by decide)
    refine (Reads.sepBy_last hfirst hstop).mono ?_
    rintro _ ⟨u, rfl, hu⟩
    simpa using hu
  | cons u us ih =>
    have hsplit : commaTypes (u :: us) ++ s =
        ",".toList ++ ([' '] ++ (u.text.toList ++ (commaTypes us ++ s))) := by
      simp [commaTypes]
    rw [hsplit] at hn hfirst ⊢
    simp only [List.length_append] at hn
    have hcomma := reads_accept (x := ",")
      (t := [' '] ++ (u.text.toList ++ (commaTypes us ++ s))) .nil (.cons (by decide))
    have hlength : ([' '] ++ (u.text.toList ++ (commaTypes us ++ s))).length < n := by
      simp only [List.length_append]
      omega
    have hu := hp u (by simp) [' '] _ trivia_blank (ahead_commaTypes us hends) hlength
    have hrest := ih (fun v hv => hp v (List.mem_cons_of_mem t hv)) trivia_blank hlength hu
    refine (Reads.sepBy_more hfirst hcomma ?_ hrest).mono ?_
    · have : ",".toList.length = 1 := rfl
      simp only [List.length_append]
      omega
    · rintro _ ⟨v, vs, rfl, hv, hvs⟩
      rw [List.map_cons, hv, hvs]
      rfl

/-! ## Named types -/

def argumentsText : List TypeExpr → List Char
  | [] => []
  | t :: ts => '<' :: (t.text.toList ++ (commaTypes ts ++ ['>']))

theorem toList_segmentText (g : NameSegment) :
    (TypeExpr.segmentText g).toList = g.identifier.text.toList ++ argumentsText g.arguments := by
  obtain ⟨i, ts⟩ := g
  cases ts with
  | nil => simp [TypeExpr.segmentText, NameSegment.identifier, NameSegment.arguments, argumentsText]
  | cons t ts =>
    simp only [TypeExpr.segmentText, String.toList_append, toList_typeList, List.append_assoc]
    rfl

def dotSegments (gs : List NameSegment) : List Char :=
  gs.flatMap fun g => '.' :: (g.identifier.text.toList ++ argumentsText g.arguments)

theorem toList_segments (g : NameSegment) (gs : List NameSegment) :
    (".".intercalate (TypeExpr.segmentTexts (g :: gs))).toList =
      g.identifier.text.toList ++ (argumentsText g.arguments ++ dotSegments gs) := by
  rw [segmentTexts_eq, List.map_cons, toList_intercalate, List.flatMap_map, toList_segmentText,
    List.append_assoc]
  simp [dotSegments, toList_segmentText]

theorem ahead_dotSegments (gs : List NameSegment) (hr : Ahead coreEnds r) :
    Ahead ('.' :: coreEnds) (dotSegments gs ++ r) := by
  cases gs with
  | nil => exact hr.mono (by decide)
  | cons g gs => exact .cons (by decide)

theorem ahead_arguments (ts : List TypeExpr) (hr : Ahead ('.' :: coreEnds) r) :
    Ahead ('<' :: '.' :: coreEnds) (argumentsText ts ++ r) := by
  cases ts with
  | nil => exact hr.mono (by decide)
  | cons t ts => exact .cons (by decide)

theorem reads_optionalTypeArguments {self : Parser TypeExpr} {ts : List TypeExpr}
    (hself : ReadsTypes self n ts) (hr : Ahead ('.' :: coreEnds) r)
    (hn : (argumentsText ts ++ r).length ≤ n) :
    Reads (optionalTypeArguments self) (argumentsText ts ++ r) r
      fun us => us.map (·.bare) = ts.map (·.bare) := by
  cases ts with
  | nil =>
    have hnone : Fails (typeArgumentsOf self) r := .bind_left (hr.fails_symbol rfl (by decide))
    exact (Reads.attempt_none hnone).bind_eq (.pure rfl)
  | cons t ts =>
    have hsplit : argumentsText (t :: ts) ++ r =
        "<".toList ++ ([] ++ (t.text.toList ++ (commaTypes ts ++ '>' :: r))) := by
      simp [argumentsText]
    rw [hsplit] at hn ⊢
    have hlist := reads_typeList hself (w := []) (s := '>' :: r) .nil (.cons (by decide)) (by
      have : "<".toList.length = 1 := rfl
      simp only [List.length_append] at hn ⊢
      omega)
    have harguments : Reads (typeArgumentsOf self)
        ("<".toList ++ ([] ++ (t.text.toList ++ (commaTypes ts ++ '>' :: r)))) r
        fun us => us.map (·.bare) = (t :: ts).map (·.bare) := by
      refine (reads_symbol (x := "<") .nil (.cons (by decide))).bind fun _ _ => ?_
      refine hlist.bind fun us hus => ?_
      exact (reads_symbol (x := ">") .nil (.cons (by decide))).label.bind fun _ _ => .pure hus
    refine harguments.attempt.bind fun o ho => ?_
    obtain ⟨us, rfl, hus⟩ := ho
    exact .pure hus

theorem bareSegment_eq {i : Identifier} {us : List TypeExpr} {g : NameSegment}
    (hi : i.text = g.identifier.text) (hus : us.map (·.bare) = g.arguments.map (·.bare)) :
    TypeExpr.bareSegment (.mk i us) = TypeExpr.bareSegment g := by
  obtain ⟨j, ts⟩ := g
  change i.text = j.text at hi
  change us.map (·.bare) = ts.map (·.bare) at hus
  simp [TypeExpr.bareSegment, Identifier.bare_eq, hi, hus]

theorem reads_identifier_text {i : Identifier} (hw : Trivia w) (hi : IsIdentifier i.text.toList)
    (ht : WordEnds t) : Reads identifier (w ++ (i.text.toList ++ t)) t (·.text = i.text) := by
  have h := reads_identifier hw hi ht
  rwa [String.ofList_toList] at h

theorem reads_dottedIdentifier {i : Identifier} (hi : IsIdentifier i.text.toList)
    (ht : WordEnds t) :
    Reads dottedIdentifier (".".toList ++ ([] ++ (i.text.toList ++ t))) t (·.text = i.text) :=
  (reads_symbol (x := ".") .nil (.cons (by decide))).bind fun _ _ =>
    reads_identifier_text .nil hi ht

/-- The segments behind the first one. -/
theorem reads_segmentTail {self : Parser TypeExpr} {gs : List NameSegment}
    (hnames : ∀ g ∈ gs, IsIdentifier g.identifier.text.toList)
    (hself : ∀ g ∈ gs, ReadsTypes self n g.arguments) (hr : Ahead coreEnds r)
    (hn : (dotSegments gs ++ r).length ≤ n) :
    Reads (segmentTail self) (dotSegments gs ++ r) r
      fun hs => hs.map TypeExpr.bareSegment = gs.map TypeExpr.bareSegment := by
  induction gs with
  | nil =>
    have hnone : Fails dottedIdentifier r :=
      .bind_left (hr.fails_symbol rfl (by decide))
    refine (Reads.many_nil ((Reads.attempt_none hnone).bind_eq ?_)).mono fun _ h => by rw [h]
    exact .pure rfl
  | cons g gs ih =>
    have hsplit : dotSegments (g :: gs) ++ r = ".".toList ++ ([] ++ (g.identifier.text.toList ++
        (argumentsText g.arguments ++ (dotSegments gs ++ r)))) := by
      simp [dotSegments]
    rw [hsplit] at hn ⊢
    simp only [List.length_append] at hn
    have htail := ahead_dotSegments gs hr
    have hends := (ahead_arguments g.arguments htail).wordEnds (by decide)
    have hdotted := reads_dottedIdentifier (hnames g (by simp)) hends
    have harguments := reads_optionalTypeArguments (hself g (by simp)) htail (by
      simp only [List.length_append]
      omega)
    have hrest := ih (fun h hh => hnames h (List.mem_cons_of_mem g hh))
      (fun h hh => hself h (List.mem_cons_of_mem g hh)) (by
        simp only [List.length_append]
        omega)
    refine (Reads.many_cons (Q := fun h => TypeExpr.bareSegment h = TypeExpr.bareSegment g)
      (hdotted.attempt.bind fun o ho => ?_) ?_ hrest).mono ?_
    · obtain ⟨i, rfl, hi⟩ := ho
      exact harguments.bind fun us hus => .pure ⟨_, rfl, bareSegment_eq hi hus⟩
    · have : ".".toList.length = 1 := rfl
      simp only [List.length_append]
      omega
    · rintro _ ⟨h, hs, rfl, hh, hhs⟩
      rw [List.map_cons, hh, hhs, List.map_cons]

/-- A named type behind its qualifier. -/
theorem reads_namedTail {self : Parser TypeExpr} {g : NameSegment} {gs : List NameSegment}
    {f : List TypeExpr → List NameSegment → Parser TypeExpr} {Q : TypeExpr → Prop}
    (hnames : ∀ h ∈ gs, IsIdentifier h.identifier.text.toList)
    (hself : ∀ h ∈ g :: gs, ReadsTypes self n h.arguments) (hr : Ahead coreEnds r)
    (hn : (argumentsText g.arguments ++ (dotSegments gs ++ r)).length ≤ n)
    (hf : ∀ us hs, us.map (·.bare) = g.arguments.map (·.bare) →
      hs.map TypeExpr.bareSegment = gs.map TypeExpr.bareSegment → Reads (f us hs) r r Q) :
    Reads (do
      let us ← optionalTypeArguments self
      let hs ← segmentTail self
      f us hs) (argumentsText g.arguments ++ (dotSegments gs ++ r)) r Q := by
  have htail := reads_segmentTail hnames (fun h hh => hself h (List.mem_cons_of_mem g hh)) hr (by
    simp only [List.length_append] at hn ⊢
    omega)
  refine (reads_optionalTypeArguments (hself g (by simp)) (ahead_dotSegments gs hr) hn).bind
    fun us hus => ?_
  exact htail.bind fun hs hhs => hf us hs hus hhs

def namedText (qualifier : Option Identifier) (g : NameSegment) (gs : List NameSegment) :
    List Char :=
  (match qualifier with
    | some a => a.text.toList ++ "::".toList
    | none => []) ++
  (g.identifier.text.toList ++ (argumentsText g.arguments ++ dotSegments gs))

theorem toList_text_named (qualifier : Option Identifier) (g : NameSegment)
    (gs : List NameSegment) (span : Span) :
    (TypeExpr.named qualifier (g :: gs) span).text.toList = namedText qualifier g gs := by
  cases qualifier with
  | none =>
    rw [TypeExpr.text, String.toList_append, toList_segments]
    rfl
  | some a =>
    rw [TypeExpr.text, String.toList_append, String.toList_append, toList_segments]
    rfl

/-- The arguments are shorter than the type that they stand in, so `n` bounds their texts as well.
-/
theorem reads_namedType {self : Parser TypeExpr} {qualifier : Option Identifier} {g : NameSegment}
    {gs : List NameSegment} (hqualifier : ∀ a ∈ qualifier, IsIdentifier a.text.toList)
    (hnames : ∀ h ∈ g :: gs, IsIdentifier h.identifier.text.toList)
    (hself : ∀ h ∈ g :: gs, ReadsTypes self n h.arguments) (hr : Ahead coreEnds r)
    (hn : (namedText qualifier g gs ++ r).length ≤ n) :
    Reads (namedTypeOf self) (namedText qualifier g gs ++ r) r
      fun t => ∀ span, t.bare = (TypeExpr.named qualifier (g :: gs) span).bare := by
  have hnext := ahead_arguments g.arguments (ahead_dotSegments gs hr)
  have hends := hnext.wordEnds (by decide)
  have hg := hnames g (by simp)
  have hgs (h : NameSegment) (hh : h ∈ gs) := hnames h (List.mem_cons_of_mem g hh)
  cases qualifier with
  | none =>
    simp only [namedText, List.nil_append, List.append_assoc, List.length_append] at hn ⊢
    have hfirst := reads_identifier_text .nil hg hends
    refine .of_stops hg.stops (.offset_bind fun start => hfirst.label.bind fun i hi => ?_)
    refine (hnext.reads_accept_false (k := "::") rfl (by decide)).bind_eq ?_
    rw [if_neg (by decide)]
    refine .pure_bind (reads_namedTail hgs hself hr ?_ fun us hs hus hhs => ?_)
    · simp only [List.length_append]
      omega
    refine (reads_spanFrom start r).bind fun _ _ => .pure fun span => ?_
    simp only [TypeExpr.bare, TypeExpr.bareSegments_eq, List.map_cons, bareSegment_eq hi hus, hhs]
    rfl
  | some a =>
    have hsplit : namedText (some a) g gs ++ r = a.text.toList ++ ("::".toList ++
        (g.identifier.text.toList ++ (argumentsText g.arguments ++ (dotSegments gs ++ r)))) := by
      simp [namedText]
    rw [hsplit] at hn ⊢
    simp only [List.length_append] at hn
    have ha := hqualifier a rfl
    have hfirst := reads_identifier_text .nil ha (t := "::".toList ++
      (g.identifier.text.toList ++ (argumentsText g.arguments ++ (dotSegments gs ++ r))))
      (.cons (by decide))
    have hhead := reads_identifier_text .nil hg hends
    refine .of_stops ha.stops (.offset_bind fun start => hfirst.label.bind fun i hi => ?_)
    refine (reads_accept (x := "::") .nil (.cons (by decide))).bind_eq ?_
    rw [if_pos rfl]
    refine hhead.label.bind fun j hj => ?_
    refine reads_namedTail hgs hself hr ?_ fun us hs hus hhs => ?_
    · simp only [List.length_append]
      omega
    refine (reads_spanFrom start r).bind fun _ _ => .pure fun span => ?_
    simp only [if_pos, TypeExpr.bare, TypeExpr.bareSegments_eq, List.map_cons,
      bareSegment_eq hj hus, hhs, Option.map_some, Identifier.bare_eq, hi]

/-! ## Tuples and built-in types -/

/-- The name of a tuple element is missing. -/
theorem readsTypes_tupleElement {self : Parser TypeExpr} {ts : List TypeExpr}
    (hself : ReadsTypes self n ts) : ReadsTypes (tupleElement self) n ts := by
  intro t ht w s hw hs hn
  have hname : Fails identifier s := by
    obtain ⟨v, c, u, rfl, hv, hc⟩ := hs
    have hall : typeEnds.all (fun c => !opensTrivia c && !isWordStart c && c != '@') = true := by
      decide
    obtain ⟨⟨hopens, hstart⟩, hat⟩ :
        (opensTrivia c = false ∧ isWordStart c = false) ∧ c ≠ '@' := by
      simpa using List.all_eq_true.mp hall c hc
    refine .skip hv (.of_stops (.cons hopens) (.offset_bind fun start => ?_))
    refine .bind_eq (reads_acceptHere_false (isPrefixOf_of_head?_ne (c := '@') (y := []) ?_)) ?_
    · simpa using hat
    · exact .bind_left (fails_word (.cons hstart))
  refine (hself t ht w s hw hs hn).bind fun u hu => ?_
  exact (Reads.attempt_none hname).bind fun _ _ => .pure hu

/-- The elements are shorter than the tuple, so `n` bounds their texts as well. -/
theorem reads_tupleType {self : Parser TypeExpr} {elements : List TypeExpr}
    (hlength : 2 ≤ elements.length) (hself : ReadsTypes self n elements)
    (hn : ((TypeExpr.tuple elements span).text.toList ++ r).length ≤ n) :
    Reads (tupleType self) ((TypeExpr.tuple elements span).text.toList ++ r) r
      fun t => t.bare = (TypeExpr.tuple elements span).bare := by
  cases elements with
  | nil => simp at hlength
  | cons t ts =>
    have hsplit : (TypeExpr.tuple (t :: ts) span).text.toList ++ r =
        "(".toList ++ ([] ++ (t.text.toList ++ (commaTypes ts ++ ')' :: r))) := by
      simp only [TypeExpr.text, String.toList_append, toList_typeList, List.append_assoc]
      rfl
    rw [hsplit] at hn ⊢
    have hlist := reads_typeList (readsTypes_tupleElement hself) (w := []) (s := ')' :: r) .nil
      (.cons (by decide)) (by
        have : "(".toList.length = 1 := rfl
        simp only [List.length_append] at hn ⊢
        omega)
    refine .offset_bind fun start => (reads_symbol (x := "(") .nil (.cons (by decide))).bind
      fun _ _ => .offset_bind fun first => hlist.bind fun us hus => ?_
    refine (reads_symbol (x := ")") .nil (.cons (by decide))).label.bind fun _ _ => ?_
    have hmany : ¬us.length < 2 := by
      have := congrArg List.length hus
      simp only [List.length_map] at this
      omega
    rw [if_neg hmany]
    refine (reads_spanFrom start r).bind fun _ _ => .pure ?_
    simp only [TypeExpr.bare, TypeExpr.bareTypes_eq, hus]

theorem isWord_of_isPredefinedType {name : String} (h : isPredefinedType name = true) :
    IsWord name.toList := by
  have hall : ∀ k ∈ predefinedTypes, IsWord k.toList := by decide
  exact hall name (List.contains_iff_mem.mp h)

theorem reads_predefinedType_text {name : String} (span : Span)
    (hname : isPredefinedType name = true) (hr : WordEnds r) :
    Reads predefinedType (name.toList ++ r) r
      (·.bare = (TypeExpr.predefined name span).bare) := by
  refine .offset_bind fun start => ?_
  refine (reads_word (isWord_of_isPredefinedType hname) hr).bind_eq ?_
  simp only [String.ofList_toList, hname, if_true]
  exact (reads_spanFrom start r).bind fun _ _ => .pure rfl

/-- An identifier that names no built-in type is not read as one. -/
theorem fails_predefinedType (hx : IsIdentifier x)
    (hname : isPredefinedType (String.ofList x) = false) (hr : WordEnds r) :
    Fails predefinedType (x ++ r) := by
  refine .offset_bind fun start => ?_
  rcases hx with ⟨hx, -⟩ | ⟨y, rfl, -⟩
  · refine .bind_eq (reads_word hx hr) ?_
    rw [hname]
    exact .failAt start _
  · exact .bind_left (fails_word (.cons (by decide)))

/-! ## Suffixes -/

def TypeSuffix.text : TypeSuffix → List Char
  | .nullable => ['?']
  | .pointer => ['*']
  | .array rank => '[' :: (List.replicate (rank - 1) ',' ++ [']'])

def TypeSuffix.Valid : TypeSuffix → Prop
  | .array rank => 1 ≤ rank
  | _ => True

/-- The type that a suffix makes of a type, without places. -/
def TypeSuffix.extend (t : TypeExpr) : TypeSuffix → TypeExpr
  | .nullable => .nullable t default
  | .pointer => .pointer t default
  | .array rank => .array t rank default

theorem bare_foldl_apply (start : Nat) (t : TypeExpr) (as : List (TypeSuffix × Nat)) :
    (as.foldl (TypeSuffix.apply start) t).bare = (as.map (·.1)).foldl TypeSuffix.extend t.bare := by
  induction as generalizing t with
  | nil => rfl
  | cons a as ih =>
    rw [List.foldl_cons, ih, List.map_cons, List.foldl_cons]
    obtain ⟨k, stop⟩ := a
    cases k with
    | nullable | pointer | array => rfl

theorem arrayRank_replicate (rank seen m : Nat) (s : List Char) :
    arrayRank rank seen (List.replicate m ',' ++ ']' :: s) = some (rank + m, seen + m + 1) := by
  induction m generalizing rank seen with
  | zero => simp [arrayRank]
  | succ m ih =>
    rw [List.replicate_succ, List.cons_append, arrayRank, if_pos (by decide), ih]
    congr 2
    · omega
    · omega

theorem reads_typeSuffix {k : TypeSuffix} (hk : k.Valid) :
    Reads typeSuffix (k.text ++ r) r (·.1 = k) := by
  cases k with
  | nullable =>
    refine .of_stops (.cons (by decide)) (.ahead_bind ?_)
    exact (Reads.take_append ['?']).bind fun _ _ => .offset_bind fun _ => .pure rfl
  | pointer =>
    refine .of_stops (.cons (by decide)) (.ahead_bind ?_)
    exact (Reads.take_append ['*']).bind fun _ _ => .offset_bind fun _ => .pure rfl
  | array rank =>
    have hpos : 1 ≤ rank := hk
    have hsplit : TypeSuffix.text (.array rank) ++ r =
        '[' :: (List.replicate (rank - 1) ',' ++ ']' :: r) := by
      simp [TypeSuffix.text]
    have hlength : rank + 1 = (TypeSuffix.text (.array rank)).length := by
      simp only [TypeSuffix.text, List.length_cons, List.length_append, List.length_replicate,
        List.length_nil]
      omega
    have htake := Reads.take_append (t := r) (TypeSuffix.text (.array rank))
    have hrank := arrayRank_replicate 1 0 (rank - 1) r
    have hone : 1 + (rank - 1) = rank := by omega
    have hend : 0 + (rank - 1) + 1 = rank := by omega
    rw [hone, hend] at hrank
    rw [← hlength] at htake
    rw [hsplit] at htake ⊢
    refine .of_stops (.cons (by decide)) (.ahead_bind ?_)
    simp only [hrank]
    exact htake.bind fun _ _ => .offset_bind fun _ => .pure rfl

theorem fails_typeSuffix_of_head (hw : Trivia w) (hstops : Stops (c :: t))
    (hc : c ∉ ['?', '*', '[']) : Fails typeSuffix (w ++ c :: t) := by
  simp only [List.mem_cons, List.not_mem_nil, or_false, not_or] at hc
  obtain ⟨hquestion, hstar, hbracket⟩ := hc
  refine .skip hw (.of_stops hstops (.ahead_bind ?_))
  split
  next heq => exact absurd (List.cons.inj heq).1 hquestion
  next heq => exact absurd (List.cons.inj heq).1 hstar
  next heq => exact absurd (List.cons.inj heq).1 hbracket
  next => exact .fail

theorem fails_typeSuffix_of_ahead (hs : Ahead blockEnds s) : Fails typeSuffix s := by
  obtain ⟨w, c, t, rfl, hw, hc⟩ := hs
  have hall : blockEnds.all (fun c => !opensTrivia c && !(['?', '*', '['].contains c)) = true := by
    decide
  obtain ⟨hopens, hsuffix⟩ : opensTrivia c = false ∧ c ∉ ['?', '*', '['] := by
    simpa using List.all_eq_true.mp hall c hc
  exact fails_typeSuffix_of_head hw (.cons hopens) hsuffix

def suffixText (ks : List TypeSuffix) : List Char := ks.flatMap TypeSuffix.text

theorem ahead_suffixText (ks : List TypeSuffix) (hs : Ahead blockEnds s) :
    Ahead coreEnds (suffixText ks ++ s) := by
  cases ks with
  | nil => exact hs.mono (by decide)
  | cons k ks =>
    cases k with
    | nullable | pointer | array => exact .cons (by decide)

/-- Suffixes up to what ends the type. -/
theorem reads_typeSuffixes {ks : List TypeSuffix} (hks : ∀ k ∈ ks, k.Valid)
    (hs : Ahead blockEnds s) :
    Reads (many (attempt typeSuffix)) (suffixText ks ++ s) s fun as => as.map (·.1) = ks := by
  induction ks with
  | nil =>
    refine (Reads.many_nil (.attempt_none (fails_typeSuffix_of_ahead hs))).mono fun _ h => ?_
    rw [h, List.map_nil]
  | cons k ks ih =>
    have hfirst := reads_typeSuffix (r := suffixText ks ++ s) (hks k (by simp))
    have hsplit : suffixText (k :: ks) ++ s = k.text ++ (suffixText ks ++ s) := by
      simp [suffixText]
    rw [hsplit]
    refine (Reads.many_cons hfirst.attempt ?_
      (ih fun j hj => hks j (List.mem_cons_of_mem k hj))).mono ?_
    · have : 0 < k.text.length := by
        cases k with
        | nullable | pointer | array => exact Nat.succ_pos _
      simp only [List.length_append]
      omega
    · rintro _ ⟨a, as, rfl, ha, has⟩
      rw [List.map_cons, ha, has]

/-! ## Types -/

/-- A type is read if what is left of it without its suffixes is. -/
theorem reads_typeExpr_of_core {e : TypeExpr} {ks : List TypeSuffix} (hw : Trivia w)
    (hx : Stops (x ++ (suffixText ks ++ s))) (hks : ∀ k ∈ ks, k.Valid) (hs : Ahead blockEnds s)
    (hcore : Reads (coreType (selfBelow (fun self _ => suffixedType (self ()))
      (w ++ (x ++ (suffixText ks ++ s))).length ())) (x ++ (suffixText ks ++ s))
      (suffixText ks ++ s) (·.bare = e)) :
    Reads typeExpr (w ++ (x ++ (suffixText ks ++ s))) s
      (·.bare = ks.foldl TypeSuffix.extend e) := by
  refine .fix (.skip hw (.of_stops hx (.offset_bind fun start => hcore.bind fun t ht => ?_)))
  refine (reads_typeSuffixes hks hs).bind fun as has => .pure ?_
  rw [bare_foldl_apply, has, ht]

/-- Where something was read, the parser of types reads types by itself. -/
theorem readsTypes_selfBelow {ts : List TypeExpr}
    (h : ∀ t ∈ ts, ∀ w s, Trivia w → Ahead typeEnds s →
      Reads typeExpr (w ++ (t.text.toList ++ s)) s (·.bare = t.bare)) :
    ReadsTypes (selfBelow (fun self _ => suffixedType (self ())) n ()) n ts :=
  fun t ht w s hw hs hn => .selfBelow (h t ht w s hw hs) hn

/-- A named type starts with an identifier, the one that must not name a built-in type. -/
theorem exists_identifier_of_namedText {qualifier : Option Identifier} {g : NameSegment}
    (gs : List NameSegment) (hqualifier : ∀ a ∈ qualifier, IsIdentifier a.text.toList)
    (hg : IsIdentifier g.identifier.text.toList)
    (hfirst : isPredefinedType (qualifier.getD g.identifier).text = false)
    (hr : Ahead coreEnds r) :
    ∃ i t, namedText qualifier g gs ++ r = i ++ t ∧ IsIdentifier i ∧
      isPredefinedType (String.ofList i) = false ∧ WordEnds t := by
  cases qualifier with
  | none =>
    have hnext := ahead_arguments g.arguments (ahead_dotSegments gs hr)
    exact ⟨_, argumentsText g.arguments ++ (dotSegments gs ++ r), by simp [namedText], hg,
      by rwa [String.ofList_toList], hnext.wordEnds (by decide)⟩
  | some a =>
    exact ⟨a.text.toList, "::".toList ++ (g.identifier.text.toList ++
      (argumentsText g.arguments ++ (dotSegments gs ++ r))), by simp [namedText], hqualifier a rfl,
      by rwa [String.ofList_toList], .cons (by decide)⟩

section Core

variable {self : Parser TypeExpr}

theorem reads_coreType_predefined {name : String} (hname : isPredefinedType name = true)
    (hr : WordEnds r) :
    Reads (coreType self) (name.toList ++ r) r (·.bare = .predefined name default) := by
  have hword := isWord_of_isPredefinedType hname
  refine (reads_nextIs '(' _).bind_eq ?_
  rw [beq_eq_false_iff_ne.mpr (hword.head?_ne (by decide)), if_neg (by decide)]
  refine (reads_predefinedType_text default hname hr).attempt.bind fun o ho => ?_
  obtain ⟨t, rfl, ht⟩ := ho
  exact .pure ht

theorem reads_coreType_named {qualifier : Option Identifier} {g : NameSegment}
    {gs : List NameSegment} (hqualifier : ∀ a ∈ qualifier, IsIdentifier a.text.toList)
    (hnames : ∀ h ∈ g :: gs, IsIdentifier h.identifier.text.toList)
    (hfirst : isPredefinedType (qualifier.getD g.identifier).text = false)
    (hself : ∀ h ∈ g :: gs, ReadsTypes self n h.arguments) (hr : Ahead coreEnds r)
    (hn : (namedText qualifier g gs ++ r).length ≤ n) :
    Reads (coreType self) (namedText qualifier g gs ++ r) r
      (·.bare = (TypeExpr.named qualifier (g :: gs) span).bare) := by
  obtain ⟨i, t, htext, hi, hname, ht⟩ :=
    exists_identifier_of_namedText gs hqualifier (hnames g (by simp)) hfirst hr
  have hread := reads_namedType hqualifier hnames hself hr hn
  rw [htext] at hread ⊢
  refine (reads_nextIs '(' _).bind_eq ?_
  rw [beq_eq_false_iff_ne.mpr (hi.head?_ne (by decide) (by decide)), if_neg (by decide)]
  refine (Reads.attempt_none (fails_predefinedType hi hname ht)).bind_eq ?_
  exact hread.mono fun u hu => hu span

theorem reads_coreType_tuple {elements : List TypeExpr} (hlength : 2 ≤ elements.length)
    (hself : ReadsTypes self n elements)
    (hn : ((TypeExpr.tuple elements span).text.toList ++ r).length ≤ n) :
    Reads (coreType self) ((TypeExpr.tuple elements span).text.toList ++ r) r
      (·.bare = (TypeExpr.tuple elements span).bare) := by
  refine (reads_nextIs '(' _).bind_eq ?_
  have hopen : ((TypeExpr.tuple elements span).text.toList ++ r).head? = some '(' := by
    simp [TypeExpr.text]
  rw [hopen, beq_self_eq_true, if_pos rfl]
  exact reads_tupleType hlength hself hn

end Core

theorem toList_text_array (element : TypeExpr) (rank : Nat) (span : Span) :
    (TypeExpr.array element rank span).text.toList =
      element.text.toList ++ (TypeSuffix.array rank).text := by
  simp [TypeExpr.text, TypeSuffix.text]

/-- A suffix in front of others. -/
theorem suffixText_cons (k : TypeSuffix) (ks : List TypeSuffix) (s : List Char) :
    k.text ++ (suffixText ks ++ s) = suffixText (k :: ks) ++ s := by
  simp [suffixText]

/-- A type in front of more suffixes. The induction hands the last suffix of the type over to them,
until the type has none. -/
theorem reads_suffixed {t : TypeExpr} (ht : t.Readable) (ks : List TypeSuffix)
    (hks : ∀ k ∈ ks, k.Valid) (hw : Trivia w) (hs : Ahead blockEnds s) :
    Reads typeExpr (w ++ (t.text.toList ++ (suffixText ks ++ s))) s
      (·.bare = ks.foldl TypeSuffix.extend t.bare) := by
  induction ht generalizing ks w s with
  | predefined hname =>
    have hends := (ahead_suffixText ks hs).wordEnds (by decide)
    exact reads_typeExpr_of_core hw (isWord_of_isPredefinedType hname).stops hks hs
      (reads_coreType_predefined hname hends)
  | @named qualifier g gs span hqualifier hnames hfirst _ ih =>
    have hr := ahead_suffixText ks hs
    obtain ⟨i, t, htext, hi, -, -⟩ :=
      exists_identifier_of_namedText gs hqualifier (hnames g (by simp)) hfirst hr
    have hstops : Stops (namedText qualifier g gs ++ (suffixText ks ++ s)) := by
      rw [htext]
      exact hi.stops
    rw [toList_text_named]
    refine reads_typeExpr_of_core hw hstops hks hs ?_
    refine reads_coreType_named hqualifier hnames hfirst (fun h hh => readsTypes_selfBelow ?_) hr
      (by simp)
    intro t ht v u hv hu
    exact ih h hh t ht [] (by simp) hv (hu.mono (by decide))
  | nullable _ ih =>
    have h := ih (.nullable :: ks) (List.forall_mem_cons.mpr ⟨trivial, hks⟩) hw hs
    rw [← suffixText_cons] at h
    rwa [TypeExpr.text, String.toList_append, List.append_assoc]
  | array hrank _ ih =>
    have h := ih (.array _ :: ks) (List.forall_mem_cons.mpr ⟨hrank, hks⟩) hw hs
    rw [← suffixText_cons] at h
    rwa [toList_text_array, List.append_assoc]
  | pointer _ ih =>
    have h := ih (.pointer :: ks) (List.forall_mem_cons.mpr ⟨trivial, hks⟩) hw hs
    rw [← suffixText_cons] at h
    rwa [TypeExpr.text, String.toList_append, List.append_assoc]
  | @tuple elements span hlength _ ih =>
    have hstops : Stops ((TypeExpr.tuple elements span).text.toList ++ (suffixText ks ++ s)) := by
      simp only [TypeExpr.text, String.toList_append]
      exact .cons (by decide)
    refine reads_typeExpr_of_core hw hstops hks hs ?_
    refine reads_coreType_tuple hlength (readsTypes_selfBelow ?_) (by simp)
    intro t ht v u hv hu
    exact ih t ht [] (by simp) hv (hu.mono (by decide))

end Grammar

namespace TypeExpr.Readable

variable {t : TypeExpr} {s w : List Char}

/-- The text of a type is read as the type, also at the end of a block. -/
theorem reads_in_block (ht : t.Readable) (hw : Trivia w) (hs : Ahead blockEnds s) :
    Reads typeExpr (w ++ (t.text.toList ++ s)) s (·.bare = t.bare) :=
  reads_suffixed ht [] (by simp) hw hs

/-- The text of a type is read as the type. -/
theorem reads (ht : t.Readable) (hw : Trivia w) (hs : Ahead typeEnds s) :
    Reads typeExpr (w ++ (t.text.toList ++ s)) s (·.bare = t.bare) :=
  ht.reads_in_block hw (hs.mono (by decide))

end TypeExpr.Readable

end DeclGen
