import DeclGen.EnumNames.CanonicalPath
import DeclGen.Proofs.Grammar.MemberSpans
import DeclGen.Proofs.Grammar.WellNamed
import DeclGen.Proofs.Syntax.SiteSpans

/-!
# Sites and what stands around them

The sites of a parsed file are its types and enums, each once and in the order in which they start.
What is around a site is what its span says: the namespaces and types of the file whose spans
properly contain that of the site, the outermost first.

## Main definitions

* `CompilationUnit.declarations`: the declarations of a file at any depth
* `CompilationUnit.around`: the namespaces and types of a file whose spans properly contain a span
* `Member.Laid`: the spans of what is declared inside lie strictly inside, one behind the other

## Main statements

* `Member.Laid.of_exact`: declarations with names and spans that fit a text are laid out
* `CompilationUnit.sites_of_parse`: the sites of a file
-/

namespace DeclGen

open DeclGen.Grammar DeclGen.Text

/-- Whether `a` lies inside `b` and is not the same. -/
def Span.ProperlyInside (a b : Span) : Prop := a.Inside b ∧ a ≠ b

instance (a b : Span) : Decidable (a.ProperlyInside b) := inferInstanceAs (Decidable (_ ∧ _))

/-! ## Declarations at any depth -/

namespace Member

def inner : Member → List Member
  | ofNamespace _ members | ofType _ members => members
  | ofEnum _ | ofField _ | ofProperty _ | ofMethod _ | other _ _ => []

def enclosing? : Member → Option Enclosing
  | ofNamespace head _ => some (.ofNamespace head)
  | ofType head _ => some (.ofType head)
  | ofEnum _ | ofField _ | ofProperty _ | ofMethod _ | other _ _ => none

def isTypeOrEnum : Member → Bool
  | ofType _ _ | ofEnum _ => true
  | ofNamespace _ _ | ofField _ | ofProperty _ | ofMethod _ | other _ _ => false

/-- The site of the declaration in what is around it, if it is a type or enum. -/
def site? (chain : List Enclosing) : Member → Option Site
  | ofType head members => some (.ofType ⟨chain, head, members⟩)
  | ofEnum decl => some (.ofEnum ⟨chain, decl⟩)
  | ofNamespace _ _ | ofField _ | ofProperty _ | ofMethod _ | other _ _ => none

end Member

def Enclosing.span : Enclosing → Span
  | ofNamespace head => head.span
  | ofType head => head.span

namespace Site

def chain : Site → List Enclosing
  | ofType site => site.chain
  | ofEnum site => site.chain

def declaration : Site → Member
  | ofType site => .ofType site.head site.members
  | ofEnum site => .ofEnum site.decl

def span (s : Site) : Span := s.declaration.span

end Site

mutual

/-- The declaration and all declarations inside it, each in front of those inside it. -/
def Member.declarations : Member → List Member
  | .ofNamespace head members => .ofNamespace head members :: declarationsIn members
  | .ofType head members => .ofType head members :: declarationsIn members
  | .ofEnum decl => [.ofEnum decl]
  | .ofField decl => [.ofField decl]
  | .ofProperty decl => [.ofProperty decl]
  | .ofMethod decl => [.ofMethod decl]
  | .other kind span => [.other kind span]

def declarationsIn : List Member → List Member
  | [] => []
  | m :: ms => m.declarations ++ declarationsIn ms

end

/-- The namespaces and types among declarations whose spans properly contain a span. -/
def aroundOf (ds : List Member) (span : Span) : List Enclosing :=
  (ds.filter fun d => span.ProperlyInside d.span).filterMap (·.enclosing?)

namespace CompilationUnit

def declarations (u : CompilationUnit) : List Member := declarationsIn u.members

/-- The namespaces and types of the file whose spans properly contain a span. -/
def around (u : CompilationUnit) (span : Span) : List Enclosing := aroundOf u.declarations span

end CompilationUnit

theorem Member.declarations_eq (m : Member) : m.declarations = m :: declarationsIn m.inner := by
  cases m <;> rfl

theorem Member.sites_eq (chain : List Enclosing) (m : Member) :
    m.sites chain = (m.site? chain).toList ++ sitesIn (chain ++ m.enclosing?.toList) m.inner := by
  cases m <;> simp [Member.sites, site?, enclosing?, inner, sitesIn]

variable {chain : List Enclosing} {m n : Member} {ms : List Member} {s : Site}

theorem Member.eq_of_site? (h : s ∈ m.site? chain) : s.declaration = m ∧ s.chain = chain := by
  cases m <;> cases h <;> exact ⟨rfl, rfl⟩

mutual

theorem Member.map_declaration_sites (chain : List Enclosing) :
    ∀ m : Member, (m.sites chain).map (·.declaration) = m.declarations.filter (·.isTypeOrEnum)
  | .ofNamespace head members => map_declaration_sitesIn _ members
  | .ofType head members => by
    rw [Member.sites, Member.declarations, List.map_cons, map_declaration_sitesIn _ members]
    rfl
  | .ofEnum _ | .ofField _ | .ofProperty _ | .ofMethod _ | .other _ _ => rfl

theorem map_declaration_sitesIn (chain : List Enclosing) :
    ∀ ms : List Member,
      (sitesIn chain ms).map (·.declaration) = (declarationsIn ms).filter (·.isTypeOrEnum)
  | [] => rfl
  | m :: ms => by
    rw [sitesIn, declarationsIn, List.map_append, List.filter_append,
      m.map_declaration_sites chain, map_declaration_sitesIn chain ms]

end

theorem mem_declarations_of_mem_sites (h : s ∈ m.sites chain) :
    s.declaration ∈ m.declarations ∧ s.declaration.isTypeOrEnum = true := by
  have hmem := List.mem_map_of_mem (f := Site.declaration) h
  rw [m.map_declaration_sites chain] at hmem
  exact List.mem_filter.mp hmem

/-! ## Layout -/

/-- The spans of what is declared inside lie strictly inside that of the declaration, one behind the
other, and so on. A declaration with a body is not empty, nor is that of an enum. -/
inductive Member.Laid : Member → Prop where
  | intro {m : Member} (hle : m.span.start ≤ m.span.stop)
      (hlt : m.isTypeOrEnum = true → m.span.start < m.span.stop)
      (hinside : ∀ n ∈ m.inner, m.span.start < n.span.start ∧ n.span.stop ≤ m.span.stop)
      (hordered : m.inner.Pairwise fun n n' => n.span.stop ≤ n'.span.start)
      (hinner : ∀ n ∈ m.inner, n.Laid) : Laid m

/-- Declarations that are laid out one behind the other. -/
structure LaidOut (ms : List Member) : Prop where
  ordered : ms.Pairwise fun m n => m.span.stop ≤ n.span.start
  each : ∀ m ∈ ms, m.Laid

variable {text : List Char} {span : Span} {spelling : Option String} {front back : List SpanTree}
  {t : SpanTree}

/-- Behind a node that is not empty, every node starts further than the node around both. -/
theorem SpanTree.Exact.behind (h : (SpanTree.node span spelling (front ++ back)).Exact text)
    (ht : t ∈ front) (hlt : t.span.start < t.span.stop) :
    ∀ t' ∈ back, span.start < t'.span.start ∧ t'.span.stop ≤ span.stop := by
  intro t' ht'
  cases h with
  | node _ _ _ _ _ hinside hordered =>
    have hafter := (List.pairwise_append.mp hordered).2.2 t ht t' ht'
    have hin := (hinside t (List.mem_append_left _ ht)).1
    exact ⟨by omega, (hinside t' (List.mem_append_right _ ht')).2⟩

/-- A node around one that is not empty is not empty. -/
theorem SpanTree.Exact.start_lt_stop (h : (SpanTree.node span spelling front).Exact text)
    (ht : t ∈ front) (hlt : t.span.start < t.span.stop) : span.start < span.stop := by
  cases h with
  | node _ _ _ _ _ hinside =>
    obtain ⟨hstart, hstop⟩ := hinside t ht
    omega

theorem Grammar.IsIdentifier.size_pos {x : List Char} (h : IsIdentifier x) : 0 < size x := by
  cases x with
  | nil =>
    rcases h with ⟨h, -⟩ | ⟨y, h, -⟩
    · exact absurd h.length_pos (by simp)
    · cases h
  | cons c x =>
    rw [size_cons]
    have := c.utf8Size_pos
    omega

theorem Identifier.span_lt {i : Identifier} (h : i.spanTree.Exact text) (hname : i.WellNamed) :
    i.span.start < i.span.stop := by
  obtain ⟨-, -, -, -, hstop⟩ := Identifier.standsIn_of_exact h
  have := IsIdentifier.size_pos hname
  omega

/-- The first part of a dotted name is not empty. -/
theorem exists_segment_of_isDottedName {n : DottedName} (h : IsDottedName n.text.toList) :
    ∃ i ∈ n.segments, 0 < size i.text.toList := by
  obtain ⟨y, ys, htext, hy, -⟩ := h
  have hdot : (n.text.toList).head? ≠ some '.' := by
    rw [htext]
    exact hy.head?_ne (by decide) (by decide)
  have hne : n.text.toList ≠ [] := by
    intro hnil
    rw [hnil] at htext
    obtain ⟨rfl, -⟩ := List.append_eq_nil_iff.mp htext.symm
    exact absurd hy.size_pos (by simp)
  clear htext
  rw [DottedName.text] at hdot hne
  cases hsegments : n.segments with
  | nil => simp [hsegments] at hne
  | cons i is =>
    refine ⟨i, List.mem_cons_self, ?_⟩
    cases hi : i.text.toList with
    | cons c x =>
      rw [size_cons]
      have := c.utf8Size_pos
      omega
    | nil =>
      cases is with
      | nil => simp [hsegments, hi] at hne
      | cons j js => simp [hsegments, String.intercalate_cons_cons, hi] at hdot

theorem DottedName.span_lt {n : DottedName} (h : n.spanTree.Exact text)
    (hname : IsDottedName n.text.toList) : n.span.start < n.span.stop := by
  obtain ⟨i, hi, hpos⟩ := exists_segment_of_isDottedName hname
  have htree : i.spanTree ∈ n.segments.map (·.spanTree) := List.mem_map_of_mem hi
  refine SpanTree.Exact.start_lt_stop h htree ?_
  obtain ⟨-, -, -, -, hstop⟩ := Identifier.standsIn_of_exact (SpanTree.Exact.children h _ htree)
  change i.span.start < i.span.stop
  omega

theorem SpanTree.Exact.ordered (h : (SpanTree.node span spelling (front ++ back)).Exact text) :
    back.Pairwise fun t u => t.span.stop ≤ u.span.start := by
  cases h with
  | node _ _ _ _ _ _ hordered => exact (List.pairwise_append.mp hordered).2.1

namespace Member

theorem span_spanTree (m : Member) : m.spanTree.span = m.span := by
  cases m <;> rfl

/-- The declarations in a body stand one behind the other and strictly inside, if something in the
head is not empty. -/
theorem Laid.of_body {m : Member}
    (h : (SpanTree.node m.span none (front ++ memberTrees m.inner)).Exact text) (ht : t ∈ front)
    (hlt : t.span.start < t.span.stop) (hinner : ∀ n ∈ m.inner, n.spanTree.Exact text → n.Laid) :
    m.Laid := by
  have hbehind := h.behind ht hlt
  have hordered := h.ordered
  have hstart := h.start_lt_stop (List.mem_append_left _ ht) hlt
  rw [memberTrees_eq, ← List.map_eq_flatMap, List.pairwise_map] at hordered
  refine .intro (Nat.le_of_lt hstart) (fun _ => hstart) (fun n hn => ?_) ?_ fun n hn => ?_
  · have := hbehind n.spanTree (mem_memberTrees hn)
    rwa [n.span_spanTree] at this
  · simpa only [span_spanTree] using hordered
  · exact hinner n hn (h.children _ (List.mem_append_right _ (mem_memberTrees hn)))

/-- Declarations with nothing inside are laid out. -/
theorem Laid.of_inner_eq_nil (hinner : m.inner = []) (hle : m.span.start ≤ m.span.stop)
    (hlt : m.isTypeOrEnum = true → m.span.start < m.span.stop) : m.Laid :=
  .intro hle hlt (by simp [hinner]) (by simp [hinner]) (by simp [hinner])

/-- Declarations with names, of which the spans fit a text, are laid out. -/
theorem Laid.of_exact (hname : m.WellNamed) (h : m.spanTree.Exact text) : m.Laid := by
  have hle : m.span.start ≤ m.span.stop := m.span_spanTree ▸ SpanTree.Exact.start_le_stop h
  induction hname with
  | @ofNamespace head members hname hmembers ih =>
    have hhead : head.name.spanTree ∈ head.spanTrees := List.mem_cons_self
    have hlt := DottedName.span_lt (h.children _ (List.mem_append_left _ hhead)) hname
    exact .of_body h hhead hlt fun n hn hexact =>
      ih n hn hexact (n.span_spanTree ▸ hexact.start_le_stop)
  | @ofType head members hhead hmembers ih =>
    have hid : head.identifier.spanTree ∈ head.spanTrees := by simp [TypeHead.spanTrees]
    have hlt := Identifier.span_lt (h.children _ (List.mem_append_left _ hid)) hhead.1
    exact .of_body h hid hlt fun n hn hexact =>
      ih n hn hexact (n.span_spanTree ▸ hexact.start_le_stop)
  | @ofEnum decl hdecl =>
    refine .of_inner_eq_nil rfl hle fun _ => ?_
    have hid : decl.identifier.spanTree ∈ decl.attributes.map (·.spanTree)
        ++ decl.modifiers.map (·.spanTree) ++ [decl.identifier.spanTree]
        ++ decl.base.toList.map (·.spanTree) ++ decl.members.map (·.spanTree) := by simp
    exact SpanTree.Exact.start_lt_stop h hid (Identifier.span_lt (h.children _ hid) hdecl.1)
  | ofField | ofProperty | ofMethod | other => exact .of_inner_eq_nil rfl hle nofun

end Member

/-- The declarations of a parsed file are laid out one behind the other. -/
theorem CompilationUnit.laidOut_of_parse {source : String} {u : CompilationUnit}
    (h : CompilationUnit.parse source = .ok u) : LaidOut u.members := by
  have hexact := CompilationUnit.exact_of_parse h
  have hordered := SpanTree.Exact.ordered hexact
  rw [memberTrees_eq, ← List.map_eq_flatMap, List.pairwise_map] at hordered
  refine ⟨by simpa only [Member.span_spanTree] using hordered, fun m hm => ?_⟩
  have htree := SpanTree.Exact.children hexact _ (List.mem_append_right _ (mem_memberTrees hm))
  exact .of_exact (wellNamed_of_parse h m hm) htree

/-! ## Containment -/

variable {ds es : List Member} {d : Member}

theorem mem_declarationsIn : d ∈ declarationsIn ms ↔ ∃ m ∈ ms, d ∈ m.declarations := by
  induction ms with
  | nil => simp [declarationsIn]
  | cons m ms ih => simp [declarationsIn, ih]

theorem mem_sitesIn : s ∈ sitesIn chain ms ↔ ∃ m ∈ ms, s ∈ m.sites chain := by
  induction ms with
  | nil => simp [sitesIn]
  | cons m ms ih => simp [sitesIn, ih]

/-- Of two declarations, the second stands behind the first or strictly inside. -/
def Apart (d e : Member) : Prop :=
  d.span.stop ≤ e.span.start ∨ (d.span.start < e.span.start ∧ e.span.stop ≤ d.span.stop)

namespace Member.Laid

theorem start_lt_stop (h : m.Laid) (hkind : m.isTypeOrEnum = true) :
    m.span.start < m.span.stop := by
  cases h with
  | intro _ hlt => exact hlt hkind

theorem of_mem (h : m.Laid) : ∀ d ∈ m.declarations, d.Laid := by
  induction h with
  | @intro m hle hlt hinside hordered hinner ih =>
    intro d hd
    rw [m.declarations_eq] at hd
    rcases List.mem_cons.mp hd with rfl | hd
    · exact .intro hle hlt hinside hordered hinner
    · obtain ⟨n, hn, hd⟩ := mem_declarationsIn.mp hd
      exact ih n hn d hd

/-- A declaration and all inside it lie inside its span. -/
theorem inside (h : m.Laid) : ∀ d ∈ m.declarations, d.span.Inside m.span := by
  induction h with
  | @intro m _ _ hinside _ _ ih =>
    intro d hd
    rw [m.declarations_eq] at hd
    rcases List.mem_cons.mp hd with rfl | hd
    · exact ⟨Nat.le_refl _, Nat.le_refl _⟩
    · obtain ⟨n, hn, hd⟩ := mem_declarationsIn.mp hd
      obtain ⟨hstart, hstop⟩ := ih n hn d hd
      have := hinside n hn
      exact ⟨by omega, by omega⟩

/-- What is declared inside starts further than the declaration and lies inside. -/
theorem strictly_inside (h : m.Laid) :
    ∀ d ∈ declarationsIn m.inner, m.span.start < d.span.start ∧ d.span.stop ≤ m.span.stop := by
  intro d hd
  obtain ⟨n, hn, hd⟩ := mem_declarationsIn.mp hd
  cases h with
  | intro _ _ hinside _ hinner =>
    obtain ⟨hstart, hstop⟩ := (hinner n hn).inside d hd
    have := hinside n hn
    omega

theorem laidOut_inner (h : m.Laid) : LaidOut m.inner := by
  cases h with
  | intro _ _ _ hordered hinner => exact ⟨hordered, hinner⟩

end Member.Laid

namespace LaidOut

theorem tail (h : LaidOut (m :: ms)) : LaidOut ms :=
  ⟨h.ordered.of_cons, fun n hn => h.each n (List.mem_cons_of_mem m hn)⟩

theorem head (h : LaidOut (m :: ms)) : m.Laid := h.each m List.mem_cons_self

/-- What is declared further on stands behind. -/
theorem behind (h : LaidOut (m :: ms)) : ∀ d ∈ declarationsIn ms, m.span.stop ≤ d.span.start := by
  intro d hd
  obtain ⟨n, hn, hd⟩ := mem_declarationsIn.mp hd
  have hlater := List.rel_of_pairwise_cons h.ordered hn
  have := ((h.tail.each n hn).inside d hd).1
  omega

theorem of_mem (h : LaidOut ms) : ∀ d ∈ declarationsIn ms, d.Laid := by
  intro d hd
  obtain ⟨n, hn, hd⟩ := mem_declarationsIn.mp hd
  exact (h.each n hn).of_mem d hd

/-- What is inside one declaration stands behind whatever is inside an earlier one. -/
theorem apart_of (h : LaidOut ms) (each : ∀ m ∈ ms, m.declarations.Pairwise Apart) :
    (declarationsIn ms).Pairwise Apart := by
  induction ms with
  | nil => exact .nil
  | cons m ms ih =>
    rw [declarationsIn, List.pairwise_append]
    refine ⟨each m List.mem_cons_self, ih h.tail fun n hn => each n (List.mem_cons_of_mem m hn),
      fun d hd e he => .inl ?_⟩
    have hin := (h.head.inside d hd).2
    have := h.behind e he
    omega

end LaidOut

theorem Member.Laid.apart (h : m.Laid) : m.declarations.Pairwise Apart := by
  induction h with
  | @intro m hle hlt hinside hordered hinner ih =>
    rw [m.declarations_eq, List.pairwise_cons]
    have hm : m.Laid := .intro hle hlt hinside hordered hinner
    exact ⟨fun d hd => .inr (hm.strictly_inside d hd), hm.laidOut_inner.apart_of ih⟩

/-- Of two declarations of a file, the one that is found later stands behind the other or strictly
inside. -/
theorem LaidOut.apart (h : LaidOut ms) : (declarationsIn ms).Pairwise Apart :=
  h.apart_of fun m hm => (h.each m hm).apart

/-! ## What is around a site -/

theorem aroundOf_append (span : Span) :
    aroundOf (ds ++ es) span = aroundOf ds span ++ aroundOf es span := by
  rw [aroundOf, List.filter_append, List.filterMap_append, aroundOf, aroundOf]

theorem aroundOf_eq_nil {span : Span} (h : ∀ d ∈ ds, ¬ span.ProperlyInside d.span) :
    aroundOf ds span = [] := by
  rw [aroundOf, List.filter_eq_nil_iff.mpr (by simpa using h), List.filterMap_nil]

theorem aroundOf_cons {span : Span} (h : span.ProperlyInside d.span) :
    aroundOf (d :: ds) span = d.enclosing?.toList ++ aroundOf ds span := by
  rw [aroundOf, List.filter_cons_of_pos (by simpa using h), List.filterMap_cons, aroundOf]
  cases d.enclosing? <;> rfl

/-- A site is around nothing that stands in front of it or behind it. -/
theorem chain_of_mem_sitesIn (h : LaidOut ms)
    (each : ∀ m ∈ ms, ∀ chain, ∀ s ∈ m.sites chain,
      s.chain = chain ++ aroundOf m.declarations s.span) :
    ∀ chain, ∀ s ∈ sitesIn chain ms, s.chain = chain ++ aroundOf (declarationsIn ms) s.span := by
  induction ms with
  | nil =>
    rintro chain s ⟨⟩
  | cons m ms ih =>
    intro chain s hs
    rw [sitesIn] at hs
    rw [declarationsIn, aroundOf_append]
    rcases List.mem_append.mp hs with hs | hs
    · obtain ⟨hmem, hkind⟩ := mem_declarations_of_mem_sites hs
      have hlt := (h.head.of_mem _ hmem).start_lt_stop hkind
      have hstop := (h.head.inside _ hmem).2
      have hnone : aroundOf (declarationsIn ms) s.span = [] := by
        refine aroundOf_eq_nil ?_
        rintro d hd ⟨⟨hstart, -⟩, -⟩
        have := h.behind d hd
        rw [Site.span] at hstart
        omega
      rw [each m List.mem_cons_self chain s hs, hnone, List.append_nil]
    · obtain ⟨n, hn, hsn⟩ := mem_sitesIn.mp hs
      obtain ⟨hmem, hkind⟩ := mem_declarations_of_mem_sites hsn
      have hlt := (((h.tail.each n hn)).of_mem _ hmem).start_lt_stop hkind
      have hbehind := h.behind _ (mem_declarationsIn.mpr ⟨n, hn, hmem⟩)
      have hnone : aroundOf m.declarations s.span = [] := by
        refine aroundOf_eq_nil ?_
        rintro d hd ⟨⟨-, hstop⟩, -⟩
        have := (h.head.inside d hd).2
        rw [Site.span] at hstop
        omega
      rw [ih h.tail (fun n hn => each n (List.mem_cons_of_mem m hn)) chain s hs, hnone,
        List.nil_append]

/-- What is around a site, besides what is around the declaration that it is found in. -/
theorem Member.Laid.chain_of_mem_sites (h : m.Laid) :
    ∀ chain, ∀ s ∈ m.sites chain, s.chain = chain ++ aroundOf m.declarations s.span := by
  induction h with
  | @intro m hle hlt hinside hordered hinner ih =>
    have hm : m.Laid := .intro hle hlt hinside hordered hinner
    intro chain s hs
    rw [m.sites_eq] at hs
    rw [m.declarations_eq]
    rcases List.mem_append.mp hs with hs | hs
    · obtain ⟨hdecl, hchain⟩ := Member.eq_of_site? (Option.mem_toList.mp hs)
      rw [hchain, aroundOf_eq_nil, List.append_nil]
      rw [Site.span, hdecl]
      intro d hd hproper
      rcases List.mem_cons.mp hd with rfl | hd
      · exact hproper.2 rfl
      · have := (hm.strictly_inside d hd).1
        have := hproper.1.1
        omega
    · obtain ⟨n, hn, hsn⟩ := mem_sitesIn.mp hs
      have hdecl := mem_declarationsIn.mpr ⟨n, hn, (mem_declarations_of_mem_sites hsn).1⟩
      obtain ⟨hstart, hstop⟩ := hm.strictly_inside _ hdecl
      have hproper : s.span.ProperlyInside m.span := by
        refine ⟨⟨Nat.le_of_lt hstart, hstop⟩, fun heq => ?_⟩
        rw [← heq, Site.span] at hstart
        omega
      rw [chain_of_mem_sitesIn hm.laidOut_inner ih _ s hs, aroundOf_cons hproper, List.append_assoc]

theorem Member.span_of_enclosing? {e : Enclosing} (h : e ∈ d.enclosing?) : e.span = d.span := by
  cases d <;> cases h <;> rfl

/-- What is around something is found from the outside to the inside. -/
theorem pairwise_aroundOf {span : Span} (hlt : span.start < span.stop) (h : ds.Pairwise Apart) :
    (aroundOf ds span).Pairwise fun outer inner => inner.span.ProperlyInside outer.span := by
  rw [aroundOf, List.pairwise_filterMap]
  refine (h.filter _).imp_of_mem fun {d e} hd he hapart outer houter inner hinner => ?_
  rw [Member.span_of_enclosing? houter, Member.span_of_enclosing? hinner]
  have hd := (of_decide_eq_true (List.mem_filter.mp hd).2).1
  have he := (of_decide_eq_true (List.mem_filter.mp he).2).1
  rcases hapart with hbehind | ⟨hstart, hstop⟩
  · have := hd.2
    have := he.1
    omega
  · refine ⟨⟨Nat.le_of_lt hstart, hstop⟩, fun heq => ?_⟩
    rw [heq] at hstart
    omega

/-- A file that is read, from a check of its tree. -/
theorem CompilationUnit.exists_of_any_parse {source : String} {p : CompilationUnit → Bool}
    (h : (CompilationUnit.parse source).toOption.any p = true) :
    ∃ u, CompilationUnit.parse source = .ok u ∧ p u = true := by
  cases hread : CompilationUnit.parse source with
  | error e => simp [hread, Except.toOption] at h
  | ok u => exact ⟨u, rfl, by simpa [hread, Except.toOption] using h⟩

/-- A file in which an enum stands behind a field, inside a type and a namespace. -/
def nestedFile : String :=
  "namespace A \x7b class B \x7b int x; enum E \x7b F \x7d \x7d \x7d " ++
    "namespace C \x7b enum G \x7b \x7d \x7d"

end DeclGen
