import DeclGen.Cleanup.Holder
import DeclGen.Proofs.Grammar.Gaps
import DeclGen.Proofs.Grammar.ParsedTypes
import Mathlib.Data.List.Basic

/-!
# Properties with storage of their own

Whether a property has storage is decided on the text between its braces: there is storage unless a
brace or an arrow shows. An accessor without a body shows neither, but an attribute list or a
comment may, and then the property is taken for one that computes its value.

## Main definitions

* `WrittenAccessor`, `accessorsText`: accessors without bodies, with attribute lists, modifiers,
  blanks and comments
* `ShowsBody`: a brace or an arrow in a text

## Main statements

* `Balanced.of_isAttributeList`: a search steps over an attribute list
* `storage_of_accessors`: which properties with such accessors have storage
-/

namespace DeclGen

open Grammar Grammar.Parser Text

/-- The words that name an accessor of a property. -/
inductive AccessorKind where
  | get | set | init

def AccessorKind.text : AccessorKind → List Char
  | get => "get".toList
  | set => "set".toList
  | init => "init".toList

/-- An accessor without a body. Behind each attribute list, each modifier, the word that names the
accessor and the semicolon stands what separates it from what comes next. -/
structure WrittenAccessor where
  attributes : List (List Char × List Char)
  modifiers : List (ModifierKind × List Char)
  kind : AccessorKind
  beforeSemicolon : List Char
  behind : List Char

/-- A text that the parser of attribute lists reads as one, whatever follows it. -/
def IsAttributeList (x : List Char) : Prop :=
  ∀ o t, bracketed ⟨o, x ++ t⟩ = .ok (x, ⟨o + size x, t⟩)

/-- A brace that opens a body or an arrow in front of one stands in the text. -/
def ShowsBody (x : List Char) : Prop := '{' ∈ x ∨ hasArrow x = true

instance : DecidablePred ShowsBody := fun _ => inferInstanceAs (Decidable (_ ∨ _))

namespace WrittenAccessor

def parts (a : WrittenAccessor) : List (List Char) :=
  a.attributes.flatMap (fun l => [l.1, l.2]) ++
    a.modifiers.flatMap (fun m => [m.1.text.toList, m.2]) ++
    [a.kind.text, a.beforeSemicolon, [';'], a.behind]

/-- The attribute lists of the accessor and what stands between its tokens. -/
def asides (a : WrittenAccessor) : List (List Char) :=
  a.attributes.flatMap (fun l => [l.1, l.2]) ++ a.modifiers.map (·.2) ++
    [a.beforeSemicolon, a.behind]

/-- The attribute lists can be read, and between the tokens are blanks and comments. -/
structure WellFormed (a : WrittenAccessor) : Prop where
  attributes : ∀ l ∈ a.attributes, IsAttributeList l.1 ∧ IsGap l.2
  modifiers : ∀ m ∈ a.modifiers, IsGap m.2
  beforeSemicolon : IsGap a.beforeSemicolon
  behind : IsGap a.behind

end WrittenAccessor

/-- The text between the braces of a property; `before` stands in front of the first accessor. -/
def accessorsText (before : List Char) (as : List WrittenAccessor) : List Char :=
  (before :: as.flatMap (·.parts)).flatten

/-- What stands between the braces besides the words and semicolons of the accessors. -/
def accessorAsides (before : List Char) (as : List WrittenAccessor) : List (List Char) :=
  before :: as.flatMap (·.asides)

namespace Grammar

variable {x y : List Char} {o k : Char}

/-! ## Attribute lists -/

/-- An attribute list is a region, closed by its last character. -/
theorem exists_of_isAttributeList (h : IsAttributeList x) :
    ∃ y, x = '[' :: y ∧ ∀ t, ∃ n, scan (· == ']') 0 0 (y ++ t) = some n ∧ n + 1 = y.length := by
  have hregion (t : List Char) : ∃ s n, x ++ t = '[' :: s ∧ scan (· == ']') 0 0 s = some n ∧
      n + 2 = x.length := by
    obtain ⟨s, n, hs, hscan, hx, -⟩ := exists_scan_of_delimited (h 0 t)
    change x ++ t = '[' :: s at hs
    refine ⟨s, n, hs, hscan, ?_⟩
    obtain ⟨c, u, hu, -⟩ := exists_of_scan hscan
    have hlt : n < s.length := by
      have := congrArg List.length hu
      simp only [List.length_drop, List.length_cons] at this
      omega
    have hlength : x.length = ((x ++ t).take (n + 2)).length := congrArg List.length hx
    rw [hs, List.length_take, List.length_cons] at hlength
    omega
  obtain ⟨s, n, hs, -, hlength⟩ := hregion []
  rw [List.append_nil] at hs
  refine ⟨s, hs, fun t => ?_⟩
  obtain ⟨s', n', hs', hscan', hlength'⟩ := hregion t
  obtain rfl : s ++ t = s' := by
    rw [hs] at hs'
    exact (List.cons.inj hs').2
  refine ⟨n', hscan', ?_⟩
  rw [hs, List.length_cons] at hlength'
  omega

/-- A search steps over an attribute list. -/
theorem Balanced.of_isAttributeList (h : IsAttributeList x) : Balanced x := by
  intro k hk depth seen t
  obtain ⟨y, rfl, hscan⟩ := exists_of_isAttributeList h
  obtain ⟨n, hn, hlength⟩ := hscan t
  have hopening : isOpening '[' = true := by decide
  have hstop : (fun c => c == k) '[' = false := (Stopping.beq_closing hk).not_opening hopening
  rw [List.cons_append, scan_opening (· == k) (fun _ => hstop) hopening,
    scan_inside (by decide) hn (· == k) depth, hlength, List.drop_left, List.length_cons]
  congr 1
  omega

/-- Items in square brackets are an attribute list. -/
theorem isAttributeList_of_items (items : List Item) :
    IsAttributeList ('[' :: (itemsText items ++ [']'])) := by
  intro o t
  have havoids : ∀ i ∈ items, i.Avoids (· == ']') := by
    rintro ⟨x, hx⟩ -
    · rintro c hc
      rw [beq_eq_false_iff_ne]
      rintro rfl
      exact absurd (hx _ hc) (by decide)
    all_goals trivial
  have hsteps : Steps (· == ']') 0 (itemsText items) :=
    steps_itemsText items (Stopping.beq_closing (by decide)) fun _ => havoids
  have h := delimited_of_steps (o := '[') hsteps (by decide) o t
  have htext : '[' :: (itemsText items ++ [']']) ++ t = '[' :: (itemsText items ++ ']' :: t) := by
    simp
  rw [htext]
  exact h

/-! ## Arrows and braces -/

theorem hasArrow_eq_false (h : '=' ∉ x) : hasArrow x = false := by
  fun_induction hasArrow x with
  | case1 => simp at h
  | case2 _ _ _ ih => exact ih fun hmem => h (List.mem_cons_of_mem _ hmem)
  | case3 => rfl

/-- No arrow lies across the seam, as the second text does not start with `>`. -/
theorem hasArrow_append (hy : y.head? ≠ some '>') :
    hasArrow (x ++ y) = (hasArrow x || hasArrow y) := by
  fun_induction hasArrow x with
  | case1 => rfl
  | case2 c s harrow ih =>
    rw [← ih, List.cons_append, hasArrow]
    intro t ht hs
    cases s with
    | nil =>
      rw [List.nil_append] at hs
      rw [hs] at hy
      exact hy rfl
    | cons d s => exact harrow s ht (by simpa using (List.cons.inj hs).1 ▸ rfl)
  | case3 => rfl

theorem head?_append_ne (hx : x.head? ≠ some o) (hy : y.head? ≠ some o) :
    (x ++ y).head? ≠ some o := by
  cases x with
  | nil => exact hy
  | cons c x => simpa using hx

/-- A text shows a body if one of its parts does, where no part starts in the middle of an arrow. -/
theorem showsBody_flatten {xs : List (List Char)} (h : ∀ x ∈ xs, x.head? ≠ some '>') :
    (ShowsBody xs.flatten ↔ ∃ x ∈ xs, ShowsBody x) ∧ xs.flatten.head? ≠ some '>' := by
  induction xs with
  | nil => exact ⟨by simp [ShowsBody, hasArrow], by simp⟩
  | cons x xs ih =>
    rw [List.forall_mem_cons] at h
    obtain ⟨hshows, hhead⟩ := ih h.2
    refine ⟨?_, head?_append_ne h.1 hhead⟩
    rw [List.flatten_cons, List.exists_mem_cons_iff, ← hshows, ShowsBody, hasArrow_append hhead]
    simp only [ShowsBody, List.mem_append, Bool.or_eq_true]
    exact or_or_or_comm

theorem not_showsBody_of_isWord (hx : IsWord x) : ¬ ShowsBody x := by
  have hne {d : Char} (hd : isWordPart d = false) : d ∉ x := fun hmem =>
    ne_of_isWordPart (hx.forall_isWordPart d hmem) hd rfl
  rintro (hbrace | harrow)
  · exact hne (by decide) hbrace
  · rw [hasArrow_eq_false (hne (by decide))] at harrow
    cases harrow

theorem IsGap.head?_ne (hx : IsGap x) : x.head? ≠ some '>' := by
  cases hx with
  | nil => simp
  | blank hc => simpa using ne_of_isBlank hc (by decide)
  | blockComment | lineComment => simp

end Grammar

/-! ## Accessors -/

theorem AccessorKind.isWord_text (k : AccessorKind) : IsWord k.text := by cases k <;> decide

namespace WrittenAccessor

variable {a : WrittenAccessor} {x : List Char}

/-- The parts besides words and the semicolon are those aside. -/
theorem mem_parts (hx : x ∈ a.parts) : x ∈ a.asides ∨ IsWord x ∨ x = [';'] := by
  simp only [parts, List.mem_append, List.mem_flatMap, List.mem_cons, List.not_mem_nil,
    or_false] at hx
  simp only [asides, List.mem_append, List.mem_flatMap, List.mem_map, List.mem_cons,
    List.not_mem_nil, or_false]
  rcases hx with (hlist | ⟨m, hm, rfl | rfl⟩) | rfl | rfl | rfl | rfl
  · exact .inl (.inl (.inl hlist))
  · exact .inr (.inl (isWord_modifier m.1))
  · exact .inl (.inl (.inr ⟨m, hm, rfl⟩))
  · exact .inr (.inl a.kind.isWord_text)
  · exact .inl (.inr (.inl rfl))
  · exact .inr (.inr rfl)
  · exact .inl (.inr (.inr rfl))

theorem mem_parts_of_mem_asides (hx : x ∈ a.asides) : x ∈ a.parts := by
  simp only [asides, List.mem_append, List.mem_flatMap, List.mem_map, List.mem_cons,
    List.not_mem_nil, or_false] at hx
  simp only [parts, List.mem_append, List.mem_flatMap, List.mem_cons, List.not_mem_nil, or_false]
  rcases hx with (hlist | ⟨m, hm, rfl⟩) | rfl | rfl
  · exact .inl (.inl hlist)
  · exact .inl (.inr ⟨m, hm, .inr rfl⟩)
  · exact .inr (.inr (.inl rfl))
  · exact .inr (.inr (.inr (.inr rfl)))

theorem WellFormed.aside (ha : a.WellFormed) (hx : x ∈ a.asides) :
    IsAttributeList x ∨ IsGap x := by
  simp only [asides, List.mem_append, List.mem_flatMap, List.mem_map, List.mem_cons,
    List.not_mem_nil, or_false] at hx
  rcases hx with (⟨l, hl, rfl | rfl⟩ | ⟨m, hm, rfl⟩) | rfl | rfl
  · exact .inl (ha.attributes l hl).1
  · exact .inr (ha.attributes l hl).2
  · exact .inr (ha.modifiers m hm)
  · exact .inr ha.beforeSemicolon
  · exact .inr ha.behind

theorem WellFormed.balanced (ha : a.WellFormed) (hx : x ∈ a.parts) : Balanced x := by
  rcases mem_parts hx with haside | hword | rfl
  · rcases ha.aside haside with hlist | hgap
    · exact .of_isAttributeList hlist
    · exact hgap.balanced
  · exact hword.balanced
  · exact .of_all (by decide)

theorem WellFormed.head?_ne (ha : a.WellFormed) (hx : x ∈ a.parts) : x.head? ≠ some '>' := by
  rcases mem_parts hx with haside | hword | rfl
  · rcases ha.aside haside with hlist | hgap
    · obtain ⟨y, rfl, -⟩ := exists_of_isAttributeList hlist
      simp
    · exact hgap.head?_ne
  · simpa using hword.head?_ne (t := []) (c := '>') (by decide)
  · simp

/-- Of an accessor without a body, only what stands aside shows one. -/
theorem exists_showsBody_iff : (∃ x ∈ a.parts, ShowsBody x) ↔ ∃ x ∈ a.asides, ShowsBody x := by
  constructor
  · rintro ⟨x, hx, hshows⟩
    rcases mem_parts hx with haside | hword | rfl
    · exact ⟨x, haside, hshows⟩
    · exact absurd hshows (not_showsBody_of_isWord hword)
    · exact absurd hshows (by decide)
  · rintro ⟨x, hx, hshows⟩
    exact ⟨x, mem_parts_of_mem_asides hx, hshows⟩

end WrittenAccessor

section

variable {before : List Char} {as : List WrittenAccessor}

/-- What stands between the braces is put together from a gap and the parts of accessors. -/
theorem forall_parts {P : List Char → Prop} (hbefore : P before)
    (has : ∀ a ∈ as, ∀ x ∈ a.parts, P x) : ∀ x ∈ before :: as.flatMap (·.parts), P x := by
  rw [List.forall_mem_cons]
  refine ⟨hbefore, fun x hx => ?_⟩
  obtain ⟨a, ha, hx⟩ := List.mem_flatMap.mp hx
  exact has a ha x hx

theorem balanced_accessorsText (hbefore : IsGap before) (has : ∀ a ∈ as, a.WellFormed) :
    Balanced (accessorsText before as) := by
  rw [accessorsText, ← List.flatMap_id]
  exact .flatMap (forall_parts hbefore.balanced fun a ha x hx => (has a ha).balanced hx)

theorem showsBody_accessorsText (hbefore : IsGap before) (has : ∀ a ∈ as, a.WellFormed) :
    ShowsBody (accessorsText before as) ↔ ∃ x ∈ accessorAsides before as, ShowsBody x := by
  have hheads : ∀ x ∈ before :: as.flatMap (·.parts), x.head? ≠ some '>' :=
    forall_parts hbefore.head?_ne fun a ha x hx => (has a ha).head?_ne hx
  have hexists {f : WrittenAccessor → List (List Char)} :
      (∃ x ∈ as.flatMap f, ShowsBody x) ↔ ∃ a ∈ as, ∃ x ∈ f a, ShowsBody x := by
    simp only [List.mem_flatMap]
    grind
  rw [accessorsText, (showsBody_flatten hheads).1, accessorAsides, List.exists_mem_cons_iff,
    List.exists_mem_cons_iff, hexists, hexists]
  simp only [WrittenAccessor.exists_showsBody_iff]

end

/-! ## Properties -/

namespace Grammar

/-- What may follow the accessors of a property: an initializer. -/
def propertyEnd (isAuto : Bool) : Parser Bool := do
  trivia
  if ← nextIsAssignment then
    let _ ← take 1
    throughSemicolon "';' after the property initializer"
  return isAuto

def propertyRest (h : DeclHeader) (type : TypeExpr) (name : MemberName) (isAuto : Bool) :
    Parser Member := do
  let isAuto ← propertyEnd isAuto
  return .ofProperty ⟨h.attributes, h.modifiers, type, name.explicitInterface, name.identifier,
    isAuto, ← spanFrom h.start⟩

theorem propertyDeclaration_eq {x : List Char} {c c' : Cursor} (h : DeclHeader) (type : TypeExpr)
    (name : MemberName) (hopen : c.rest.head? = some '{') (hblock : braced c = .ok (x, c')) :
    propertyDeclaration h type name c =
      propertyRest h type name (isAutoAccessors h.modifiers x) c' := by
  have hbody : propertyBody h.modifiers c = propertyEnd (isAutoAccessors h.modifiers x) c' := by
    refine (bind_of_eq_ok (nextIs_of_head? hopen)).trans ?_
    exact bind_of_eq_ok hblock
  rw [propertyDeclaration, bind_apply, hbody, propertyRest, bind_apply]

/-- What is known of a property from its head and its accessors. -/
theorem yields_propertyRest (h : DeclHeader) (type : TypeExpr) (name : MemberName)
    (isAuto : Bool) :
    Yields (propertyRest h type name isAuto) fun m => ∃ decl, m = .ofProperty decl ∧
      decl.type = type ∧ decl.explicitInterface = name.explicitInterface ∧
      decl.identifier = name.identifier ∧ decl.isAuto = isAuto := by
  have hend : Yields (propertyEnd isAuto) (· = isAuto) := by
    refine .bind_right fun _ => .bind_right fun isAssignment => ?_
    split
    next => exact .bind_right fun _ => .bind_right fun _ => .pure rfl
    next => exact .pure rfl
  refine hend.bind fun b hb => .bind_right fun _ => .pure ⟨_, rfl, rfl, rfl, rfl, hb⟩

variable {before : List Char} {as : List WrittenAccessor}

/-- The accessors are read as a region. -/
theorem braced_accessorsText (hbefore : IsGap before) (has : ∀ a ∈ as, a.WellFormed) (o : Nat)
    (s : List Char) :
    braced ⟨o, '{' :: (accessorsText before as ++ '}' :: s)⟩ =
      .ok ('{' :: (accessorsText before as ++ ['}']),
        ⟨o + size ('{' :: (accessorsText before as ++ ['}'])), s⟩) :=
  delimited_of_steps ((balanced_accessorsText hbefore has).steps (by decide)) (by decide) o s

theorem isAutoAccessors_iff (hbefore : IsGap before) (has : ∀ a ∈ as, a.WellFormed)
    (ms : List Modifier) :
    isAutoAccessors ms ('{' :: (accessorsText before as ++ ['}'])) = true ↔
      (∀ x ∈ accessorAsides before as, ¬ ShowsBody x) ∧ Modifier.has ms .abstractMod = false ∧
        Modifier.has ms .externMod = false := by
  have hinner : inner ('{' :: (accessorsText before as ++ ['}'])) = accessorsText before as := by
    simp [inner]
  have hquiet : (∀ x ∈ accessorAsides before as, ¬ ShowsBody x) ↔
      ¬ ShowsBody (accessorsText before as) := by
    rw [showsBody_accessorsText hbefore has]
    simp
  rw [hquiet]
  simp [isAutoAccessors, hinner, ShowsBody, and_assoc]

/-- The accessors of a property, if none has a body, are read to the brace that closes them. There
is storage exactly if neither an attribute list nor what stands between the tokens shows a brace or
an arrow and the property is neither abstract nor extern. The handles that the property declares
follow from that. -/
theorem storage_of_accessors (hbefore : IsGap before) (has : ∀ a ∈ as, a.WellFormed)
    (h : DeclHeader) (type : TypeExpr) (name : MemberName) (o : Nat) (s : List Char) :
    let block := '{' :: (accessorsText before as ++ ['}'])
    let isAuto := isAutoAccessors h.modifiers block
    propertyDeclaration h type name ⟨o, block ++ s⟩ =
      propertyRest h type name isAuto ⟨o + size block, s⟩ ∧
    (isAuto = true ↔ (∀ x ∈ accessorAsides before as, ¬ ShowsBody x) ∧
      Modifier.has h.modifiers .abstractMod = false ∧
      Modifier.has h.modifiers .externMod = false) ∧
    ∀ m c' handleTypes, propertyDeclaration h type name ⟨o, block ++ s⟩ = .ok (m, c') →
      m.handles handleTypes =
        (if isAuto && name.explicitInterface.isNone && type.isHandle handleTypes
          then [name.identifier] else []) ∧
      ∀ site : TypeSite, m ∈ site.members → isAuto = true → name.explicitInterface = none →
        type.isHandle handleTypes = true → name.identifier ∈ site.handles handleTypes := by
  intro block isAuto
  have hblock : braced ⟨o, block ++ s⟩ = .ok (block, ⟨o + size block, s⟩) := by
    have h := braced_accessorsText hbefore has o s
    simpa [block] using h
  have hproperty := propertyDeclaration_eq h type name (c := ⟨o, block ++ s⟩) rfl hblock
  refine ⟨hproperty, isAutoAccessors_iff hbefore has h.modifiers, fun m c' handleTypes hread => ?_⟩
  rw [hproperty] at hread
  obtain ⟨decl, rfl, htype, hinterface, hidentifier, hauto⟩ :=
    yields_propertyRest _ _ _ _ _ _ _ hread
  have hhandles : (Member.ofProperty decl).handles handleTypes =
      if isAuto && name.explicitInterface.isNone && type.isHandle handleTypes
        then [name.identifier] else [] := by
    rw [Member.handles, htype, hinterface, hidentifier, hauto]
  refine ⟨hhandles, fun site hmem hauto hnone hhandle => ?_⟩
  refine List.mem_flatMap.mpr ⟨_, hmem, ?_⟩
  rw [hhandles, hauto, hnone, hhandle]
  exact List.mem_singleton.mpr rfl

/-- Accessors of which the second one has an attribute list, a modifier and comments. -/
def commentedAccessors : List WrittenAccessor :=
  [⟨[], [], .get, [], "/* = > */".toList⟩,
    ⟨[("[A (\"]=\")]".toList, "// ;\n".toList)], [(.privateMod, " ".toList)], .set, [], []⟩]

theorem wellFormed_commentedAccessors : ∀ a ∈ commentedAccessors, a.WellFormed := by
  have hlist : IsAttributeList "[A (\"]=\")]".toList :=
    isAttributeList_of_items [.run ['A'] (List.all_eq_true.mp (by decide)), .group .round 0 0
      [.string [.char ']' (by decide), .char '=' (by decide)]]]
  have hline : IsGap "// ;\n".toList := .lineComment (y := " ;".toList) (by decide) .nil
  have hblock : IsGap "/* = > */".toList := .blockComment (y := " = > ".toList) (by decide) .nil
  have hblank : IsGap " ".toList := .blank (by decide) .nil
  rw [commentedAccessors, List.forall_mem_cons, List.forall_mem_singleton]
  exact ⟨⟨by simp, by simp, .nil, hblock⟩, ⟨by simpa using ⟨hlist, hline⟩, by simpa using hblank,
    .nil, .nil⟩⟩

/-- Their property has storage. -/
theorem storage_of_accessors_commented :
    isAutoAccessors [] ('{' :: (accessorsText " ".toList commentedAccessors ++ ['}'])) = true := by
  have hbefore : IsGap " ".toList := .blank (by decide) .nil
  have h := storage_of_accessors hbefore wellFormed_commentedAccessors ⟨0, [], []⟩
    (.predefined "int" default) ⟨none, ⟨"P", default⟩, none⟩ 0 []
  exact h.2.1.mpr ⟨by decide, rfl, rfl⟩

/-- Of two properties without bodies, a brace in a comment hides one. -/
theorem exists_hidden_handle :
    ["NativeList<int> P \x7b get; set; \x7d",
        "NativeList<int> P \x7b get; /* \x7b */ set; \x7d"].map
      (fun text => (memberDeclaration none (.ofString text)).toOption.map fun r =>
        (r.1.handles ["NativeList"]).map (·.text)) = [some ["P"], some []] := by
  decide +kernel

end Grammar

end DeclGen
