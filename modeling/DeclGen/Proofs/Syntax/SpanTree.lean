import DeclGen.Syntax.Member
import DeclGen.Text.Blank
import DeclGen.Text.Size

/-!
# Trees of spans

A syntax tree without anything but its spans: every node with a span is a node here, with the nodes
right below it in the order of the source. Nodes of which the text is kept carry that text.

## Main definitions

* `SpanTree`: a tree of spans
* `Member.spanTree`, `CompilationUnit.spanTree`: the spans of a syntax tree
* `SpanTree.Exact`: the spans fit a text
* `Stand`: trees that stand one behind the other between two offsets

## Main statements

* `Stand.node`: trees that stand between two offsets are the children of a node
-/

namespace DeclGen

open DeclGen.Text

/-- A span with the text that it has to cover, if there is one, and the spans below it. -/
inductive SpanTree where
  | node (span : Span) (spelling : Option String) (children : List SpanTree)

def SpanTree.span : SpanTree → Span
  | node span _ _ => span

/-! ## The spans of a syntax tree -/

def Identifier.spanTree (i : Identifier) : SpanTree := .node i.span (some i.text) []

def DottedName.spanTree (n : DottedName) : SpanTree :=
  .node n.span none (n.segments.map (·.spanTree))

def AttributeList.spanTree (a : AttributeList) : SpanTree := .node a.span (some a.text) []

def Modifier.spanTree (m : Modifier) : SpanTree := .node m.span (some m.kind.text) []

def UsingDirective.spanTree (u : UsingDirective) : SpanTree :=
  .node u.span none (u.aliasName.toList.map (·.spanTree))

def TypeParameters.spanTree (ps : TypeParameters) : SpanTree :=
  .node ps.span none (ps.parameters.map (·.identifier.spanTree))

namespace TypeExpr

mutual

def spanTree : TypeExpr → SpanTree
  | predefined name span => .node span (some name) []
  | named qualifier segments span =>
    .node span none (qualifier.toList.map (·.spanTree) ++ segmentTrees segments)
  | nullable inner span => .node span none [inner.spanTree]
  | array element _ span => .node span none [element.spanTree]
  | pointer inner span => .node span none [inner.spanTree]
  | tuple elements span => .node span none (spanTrees elements)

def spanTrees : List TypeExpr → List SpanTree
  | [] => []
  | t :: ts => t.spanTree :: spanTrees ts

def segmentTree : NameSegment → List SpanTree
  | .mk i arguments => i.spanTree :: spanTrees arguments

def segmentTrees : List NameSegment → List SpanTree
  | [] => []
  | s :: ss => segmentTree s ++ segmentTrees ss

end

theorem spanTrees_eq (ts : List TypeExpr) : spanTrees ts = ts.flatMap fun t => [t.spanTree] := by
  induction ts with
  | nil => rfl
  | cons t ts ih => rw [spanTrees, ih, List.flatMap_cons, List.singleton_append]

theorem segmentTrees_eq (ss : List NameSegment) : segmentTrees ss = ss.flatMap segmentTree := by
  induction ss with
  | nil => rfl
  | cons s ss ih => rw [segmentTrees, ih, List.flatMap_cons]

end TypeExpr

namespace Expr

def spanTree : Expr → SpanTree
  | integer text span => .node span (some text) []
  | character _ span => .node span none []
  | name segments span => .node span none (segments.map (·.spanTree))
  | unary _ operand span => .node span none [operand.spanTree]
  | binary _ left right span => .node span none [left.spanTree, right.spanTree]
  | parenthesized inner span => .node span none [inner.spanTree]
  | cast type operand span => .node span none [type.spanTree, operand.spanTree]
  | overflowContext _ inner span => .node span none [inner.spanTree]
  | unsupported text span => .node span (some text) []

theorem span_spanTree (e : Expr) : e.spanTree.span = e.span := by
  cases e with
  | integer | character | name | unary | binary | parenthesized | cast | overflowContext
  | unsupported => rfl

end Expr

def EnumMember.spanTree (m : EnumMember) : SpanTree :=
  .node m.span none
    (m.attributes.map (·.spanTree) ++ [m.identifier.spanTree]
      ++ m.initializer.toList.map (·.spanTree))

def EnumDecl.spanTree (d : EnumDecl) : SpanTree :=
  .node d.span none
    (d.attributes.map (·.spanTree) ++ d.modifiers.map (·.spanTree) ++ [d.identifier.spanTree]
      ++ d.base.toList.map (·.spanTree) ++ d.members.map (·.spanTree))

def Declarator.spanTree (d : Declarator) : SpanTree :=
  .node d.span none
    (d.identifier.spanTree :: d.initializer.toList.map fun span => .node span none [])

def FieldDecl.spanTree (d : FieldDecl) : SpanTree :=
  .node d.span none
    (d.attributes.map (·.spanTree) ++ d.modifiers.map (·.spanTree) ++ [d.type.spanTree]
      ++ d.declarators.map (·.spanTree))

def PropertyDecl.spanTree (d : PropertyDecl) : SpanTree :=
  .node d.span none
    (d.attributes.map (·.spanTree) ++ d.modifiers.map (·.spanTree)
      ++ [d.type.spanTree, d.identifier.spanTree])

def MethodDecl.spanTree (d : MethodDecl) : SpanTree :=
  .node d.span none
    (d.attributes.map (·.spanTree) ++ d.modifiers.map (·.spanTree)
      ++ [d.returnType.spanTree, d.identifier.spanTree]
      ++ d.typeParameters.toList.map (·.spanTree))

def TypeHead.spanTrees (h : TypeHead) : List SpanTree :=
  h.attributes.map (·.spanTree) ++ h.modifiers.map (·.spanTree) ++ [h.identifier.spanTree]
    ++ h.typeParameters.toList.map (·.spanTree) ++ h.bases.map (·.spanTree)

def NamespaceHead.spanTrees (h : NamespaceHead) : List SpanTree :=
  h.name.spanTree :: h.usings.map (·.spanTree)

mutual

def Member.spanTree : Member → SpanTree
  | .ofNamespace head members => .node head.span none (head.spanTrees ++ memberTrees members)
  | .ofType head members => .node head.span none (head.spanTrees ++ memberTrees members)
  | .ofEnum decl => decl.spanTree
  | .ofField decl => decl.spanTree
  | .ofProperty decl => decl.spanTree
  | .ofMethod decl => decl.spanTree
  | .other _ span => .node span none []

def memberTrees : List Member → List SpanTree
  | [] => []
  | m :: ms => m.spanTree :: memberTrees ms

end

theorem memberTrees_eq (ms : List Member) : memberTrees ms = ms.flatMap fun m => [m.spanTree] := by
  induction ms with
  | nil => rfl
  | cons m ms ih => rw [memberTrees, ih, List.flatMap_cons, List.singleton_append]

def CompilationUnit.spanTree (u : CompilationUnit) : SpanTree :=
  .node u.span none (u.usings.map (·.spanTree) ++ memberTrees u.members)

/-! ## Spans in a text -/

/-- A character of the text starts at the offset, or the text ends there. -/
def IsBoundary (text : List Char) (o : Nat) : Prop :=
  ∃ front back, text = front ++ back ∧ size front = o

/-- The characters `x` stand in the text from one offset to another. -/
def Spells (text : List Char) (start stop : Nat) (x : List Char) : Prop :=
  ∃ front back, text = front ++ x ++ back ∧ size front = start ∧ stop = start + size x

/-- The spans of the tree fit the text: each starts and ends between two of its characters and
covers the text that is kept, and the spans below it lie inside it, one behind the other. -/
inductive SpanTree.Exact (text : List Char) : SpanTree → Prop where
  | node {span : Span} {spelling : Option String} {children : List SpanTree}
      (hle : span.start ≤ span.stop) (hsize : span.stop ≤ size text)
      (hstart : IsBoundary text span.start) (hstop : IsBoundary text span.stop)
      (hspelling : ∀ s ∈ spelling, slice? span.start span.stop text = some s.toList)
      (hinside : ∀ t ∈ children, t.span.Inside span)
      (hordered : children.Pairwise fun t u => t.span.stop ≤ u.span.start)
      (hchildren : ∀ t ∈ children, t.Exact text) : Exact text (.node span spelling children)

variable {text : List Char} {lo mid hi : Nat} {t : SpanTree} {ts us : List SpanTree}

theorem IsBoundary.le_size {o : Nat} (h : IsBoundary text o) : o ≤ size text := by
  obtain ⟨front, back, rfl, rfl⟩ := h
  rw [size_append]
  omega

theorem SpanTree.Exact.start_le_stop (h : t.Exact text) : t.span.start ≤ t.span.stop := by
  cases h with
  | node hle => exact hle

theorem SpanTree.Exact.isBoundary_start (h : t.Exact text) : IsBoundary text t.span.start := by
  cases h with
  | node _ _ hstart => exact hstart

theorem SpanTree.Exact.isBoundary_stop (h : t.Exact text) : IsBoundary text t.span.stop := by
  cases h with
  | node _ _ _ hstop => exact hstop

namespace Spells

variable {x : List Char}

theorem isBoundary_start (h : Spells text lo hi x) : IsBoundary text lo := by
  obtain ⟨front, back, rfl, hfront, -⟩ := h
  exact ⟨front, x ++ back, List.append_assoc .., hfront⟩

theorem isBoundary_stop (h : Spells text lo hi x) : IsBoundary text hi := by
  obtain ⟨front, back, rfl, rfl, rfl⟩ := h
  exact ⟨front ++ x, back, rfl, size_append ..⟩

theorem slice?_eq (h : Spells text lo hi x) : slice? lo hi text = some x := by
  obtain ⟨front, back, rfl, rfl, rfl⟩ := h
  exact slice?_append front x back

theorem le (h : Spells text lo hi x) : lo ≤ hi := by
  obtain ⟨front, back, -, -, rfl⟩ := h
  omega

theorem append {y : List Char} (hx : Spells text lo mid x) (hy : Spells text mid hi y) :
    Spells text lo hi (x ++ y) := by
  obtain ⟨front, back, htext, rfl, rfl⟩ := hx
  obtain ⟨front', back', htext', hfront', rfl⟩ := hy
  -- Both say what stands behind the same number of bytes.
  have hdrop := dropBytes?_size_append (front ++ x) back
  have hdrop' := dropBytes?_size_append front' (y ++ back')
  rw [← htext, size_append] at hdrop
  rw [← List.append_assoc, ← htext', hfront', hdrop] at hdrop'
  cases hdrop'
  refine ⟨front, back', by rw [htext]; simp, rfl, ?_⟩
  rw [size_append]
  omega

/-- What is left of a text without the blanks at its end stands at its start. -/
theorem trimEnd (h : Spells text lo hi x) :
    Spells text lo (lo + size (Text.trimEnd x)) (Text.trimEnd x) ∧
      lo + size (Text.trimEnd x) ≤ hi := by
  obtain ⟨y, hy, -⟩ := dropTrailing_append isBlank x
  obtain ⟨front, back, htext, hfront, rfl⟩ := h
  have hx : x = Text.trimEnd x ++ y := hy
  refine ⟨⟨front, y ++ back, ?_, hfront, rfl⟩, ?_⟩
  · rw [htext, List.append_assoc, List.append_assoc, ← List.append_assoc _ y, ← hx]
  · have hsize := congrArg size hx
    rw [size_append] at hsize
    omega

/-- A node without children that covers what is written. -/
theorem exact {s : String} (h : Spells text lo hi s.toList) :
    (SpanTree.node ⟨lo, hi⟩ (some s) []).Exact text := by
  refine .node h.le h.isBoundary_stop.le_size h.isBoundary_start h.isBoundary_stop ?_ ?_ .nil ?_
  · rintro _ ⟨⟩
    exact h.slice?_eq
  · rintro t ⟨⟩
  · rintro t ⟨⟩

end Spells

/-! ## Trees one behind the other -/

/-- The trees are exact and stand one behind the other, none before `lo` and none behind `hi`. -/
inductive Stand (text : List Char) : Nat → List SpanTree → Nat → Prop where
  | nil {lo hi : Nat} (h : lo ≤ hi) : Stand text lo [] hi
  | cons {lo hi : Nat} {t : SpanTree} {ts : List SpanTree} (h : lo ≤ t.span.start)
      (ht : t.Exact text) (hts : Stand text t.span.stop ts hi) : Stand text lo (t :: ts) hi

namespace Stand

theorem le (h : Stand text lo ts hi) : lo ≤ hi := by
  induction h with
  | nil h => exact h
  | cons h ht hts ih =>
    have := ht.start_le_stop
    omega

theorem mono {lo' hi' : Nat} (h : Stand text lo ts hi) (hlo : lo' ≤ lo) (hhi : hi ≤ hi') :
    Stand text lo' ts hi' := by
  induction h generalizing lo' with
  | nil h => exact .nil (by omega)
  | cons h ht hts ih => exact .cons (by omega) ht (ih (Nat.le_refl _) hhi)

theorem append (hts : Stand text lo ts mid) (hus : Stand text mid us hi) :
    Stand text lo (ts ++ us) hi := by
  induction hts with
  | nil h => exact hus.mono h (Nat.le_refl _)
  | cons h ht _ ih => exact .cons h ht (ih hus)

theorem singleton (ht : t.Exact text) (hlo : lo ≤ t.span.start) (hhi : t.span.stop ≤ hi) :
    Stand text lo [t] hi :=
  .cons hlo ht (.nil hhi)

theorem of_append_right (h : Stand text lo (ts ++ us) hi) : Stand text lo us hi := by
  induction ts generalizing lo with
  | nil => exact h
  | cons t ts ih =>
    cases h with
    | cons hle ht hrest =>
      have := ht.start_le_stop
      exact (ih hrest).mono (by omega) (Nat.le_refl _)

theorem of_append_left (h : Stand text lo (ts ++ us) hi) : Stand text lo ts hi := by
  induction ts generalizing lo with
  | nil => exact .nil h.le
  | cons t ts ih =>
    cases h with
    | cons hle ht hrest => exact .cons hle ht (ih hrest)

theorem exact (h : Stand text lo ts hi) : ∀ t ∈ ts, t.Exact text := by
  induction h with
  | nil => rintro t ⟨⟩
  | cons _ ht _ ih =>
    rintro u hu
    rcases List.mem_cons.mp hu with rfl | hu
    · exact ht
    · exact ih u hu

theorem inside (h : Stand text lo ts hi) : ∀ t ∈ ts, t.span.Inside ⟨lo, hi⟩ := by
  induction h with
  | nil => rintro t ⟨⟩
  | cons hle ht hts ih =>
    intro u hu
    rcases List.mem_cons.mp hu with rfl | hu
    · exact ⟨hle, hts.le⟩
    · obtain ⟨hstart, hstop⟩ := ih u hu
      have := ht.start_le_stop
      exact ⟨by grind, hstop⟩

theorem pairwise (h : Stand text lo ts hi) :
    ts.Pairwise fun t u => t.span.stop ≤ u.span.start := by
  induction h with
  | nil => exact .nil
  | cons _ _ hts ih => exact .cons (fun u hu => (hts.inside u hu).1) ih

/-- Trees that stand between two characters are the children of a node from one to the other. -/
theorem node (h : Stand text lo ts hi) (hlo : IsBoundary text lo) (hhi : IsBoundary text hi) :
    (SpanTree.node ⟨lo, hi⟩ none ts).Exact text :=
  .node h.le hhi.le_size hlo hhi (by rintro _ ⟨⟩) h.inside h.pairwise h.exact

/-- Trees that start with one and end with one stand between the start and the end of these. -/
theorem tighten_left (h : Stand text lo (t :: ts) hi) : Stand text t.span.start (t :: ts) hi := by
  cases h with
  | cons _ ht hts => exact .cons (Nat.le_refl _) ht hts

theorem tighten_right (h : Stand text lo (ts ++ [t]) hi) :
    Stand text lo (ts ++ [t]) t.span.stop := by
  induction ts generalizing lo with
  | nil =>
    cases h with
    | cons hle ht _ => exact .cons hle ht (.nil (Nat.le_refl _))
  | cons u us ih =>
    cases h with
    | cons hle hu hus => exact .cons hle hu (ih hus)

/-- Trees that stand one behind the other, from the start of the first to the end of the last. -/
theorem exact_of_ends {α : Type} {tree : α → SpanTree} {first : α} {others : List α}
    {lo hi : Nat} (h : Stand text lo ((first :: others).map tree) hi) :
    Stand text lo [.node ⟨(tree first).span.start, (tree (others.getLast?.getD first)).span.stop⟩
      none ((first :: others).map tree)] hi := by
  obtain ⟨front, hfront⟩ : ∃ front, (first :: others).map tree =
      front ++ [tree (others.getLast?.getD first)] := by
    refine ⟨((first :: others).dropLast).map tree, ?_⟩
    have hlast : (first :: others).getLast (by simp) = others.getLast?.getD first := by
      cases others with
      | nil => rfl
      | cons a as => simp [List.getLast?_eq_some_getLast]
    rw [← hlast, ← List.map_singleton, ← List.map_append, List.dropLast_concat_getLast]
  have hinside := h.inside
  have hexact := h.exact
  have hlast : tree (others.getLast?.getD first) ∈ (first :: others).map tree := by simp [hfront]
  have hright := (hfront ▸ h).tighten_right
  rw [← hfront, List.map_cons] at hright
  have hnode := hright.tighten_left.node (hexact (tree first) (by simp)).isBoundary_start
    (hexact _ hlast).isBoundary_stop
  exact .singleton hnode (hinside (tree first) (by simp)).1 (hinside _ hlast).2

end Stand

end DeclGen
