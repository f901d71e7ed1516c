import DeclGen.Code
import DeclGen.Proofs.Grammar.Declarations

/-!
# Reading generated code

What steps of writing code put down is known line by line, and it can be read again: lines and
blocks are balanced if what is in them is, and a block is a declaration with the declarations in it.

## Main definitions

* `joinLines`, `nestedLines`: a text given by its lines, each with its level
* `CodeStep.Settled`: the steps leave the level as it was
* `CodeStep.Declare`: the steps write declarations, whatever the level

## Main statements

* `CodeStep.renderAt_block`, `CodeStep.renderAt_foldr_block`: the lines of blocks
* `CodeStep.Declare.ofMethod`, `CodeStep.Declare.ofType`, `CodeStep.Declare.ofNamespace`: what
  blocks declare
-/

namespace DeclGen

open DeclGen.Grammar

/-- The text of lines, each with the level that it is indented to. -/
def joinLines (lines : List (Nat × String)) : String :=
  String.join (lines.map fun line =>
    String.ofList (List.replicate (4 * line.1) ' ') ++ line.2 ++ "\n")

theorem joinLines_cons (line : Nat × String) (lines : List (Nat × String)) :
    joinLines (line :: lines) =
      CodeStep.indentation line.1 ++ line.2 ++ "\n" ++ joinLines lines := by
  simp [joinLines, CodeStep.indentation]

theorem joinLines_append (xs ys : List (Nat × String)) :
    joinLines (xs ++ ys) = joinLines xs ++ joinLines ys := by
  rw [joinLines, List.map_append, String.join_append, joinLines, joinLines]

/-- The lines of blocks inside each other, with the level of each line. -/
def nestedLines (body : List String) (level : Nat) : (headers : List String) → List (Nat × String)
  | [] => body.map fun line => (level, line)
  | header :: headers =>
    (level, header) :: (level, "\x7b") :: nestedLines body (level + 1) headers ++ [(level, "\x7d")]

namespace CodeStep

variable {level : Nat} {header text : String} {ss ts body : List CodeStep}

def blanks (level : Nat) : List Char := List.replicate (4 * level) ' '

@[simp] theorem toList_indentation (level : Nat) : (indentation level).toList = blanks level := by
  simp [indentation, blanks]

theorem trivia_blanks (level : Nat) : Trivia (blanks level) := by
  refine .of_all (List.all_eq_true.mpr fun c hc => ?_)
  rw [(List.mem_replicate.mp hc).2]
  decide

theorem balanced_blanks (level : Nat) : Balanced (blanks level) := by
  refine .of_all (List.all_eq_true.mpr fun c hc => ?_)
  rw [(List.mem_replicate.mp hc).2]
  decide

/-- The steps leave the level as it was. -/
def Settled (ss : List CodeStep) : Prop := ∀ level, levelAfterAll level ss = level

theorem Settled.nil : Settled [] := fun _ => rfl

theorem Settled.append (hs : Settled ss) (ht : Settled ts) : Settled (ss ++ ts) := by
  intro level
  have h : levelAfterAll level (ss ++ ts) = levelAfterAll (levelAfterAll level ss) ts :=
    List.foldl_append
  rw [h, hs, ht]

theorem Settled.line_cons (hs : Settled ss) : Settled (.line text :: ss) := fun level => hs level

theorem Settled.blank_cons (hs : Settled ss) : Settled (.blank :: ss) := fun level => hs level

theorem Settled.block (hbody : Settled body) : Settled (block header body) := by
  intro level
  have h : levelAfterAll level (CodeStep.block header body) =
      levelAfterAll (levelAfterAll (level + 1) body) [.closeBlock ""] :=
    List.foldl_append
  rw [h, hbody]
  rfl

theorem settled_lines (texts : List String) : Settled (texts.map .line) := by
  induction texts with
  | nil => exact .nil
  | cons text texts ih => exact ih.line_cons

/-! ## Lines -/

theorem lineAt_eq (h : text ≠ "") (level : Nat) :
    lineAt level text = indentation level ++ text ++ "\n" := by
  simp [lineAt, h]

theorem renderAt_lines {texts : List String} (h : ∀ text ∈ texts, text ≠ "") (level : Nat) :
    renderAt level (texts.map .line) = joinLines (texts.map fun text => (level, text)) := by
  induction texts with
  | nil => rfl
  | cons text texts ih =>
    have hrest := ih fun t ht => h t (List.mem_cons_of_mem text ht)
    rw [List.map_cons, List.map_cons, renderAt, textAt, levelAfter, joinLines_cons, hrest,
      lineAt_eq (h text List.mem_cons_self)]

/-- A block has its header, an opening brace, the lines of its body and a closing brace. -/
theorem renderAt_block {lines : List (Nat × String)} (hheader : header ≠ "") (hbody : Settled body)
    (hlines : renderAt (level + 1) body = joinLines lines) :
    renderAt level (block header body) =
      joinLines ((level, header) :: (level, "\x7b") :: lines ++ [(level, "\x7d")]) := by
  have hbrace : lineAt level "\x7b" = indentation level ++ "\x7b" ++ "\n" :=
    lineAt_eq (by decide) level
  rw [block, List.cons_append, renderAt, textAt, levelAfter, renderAt_append, hbody, hlines,
    List.cons_append, List.cons_append, joinLines_cons, joinLines_cons, joinLines_append,
    joinLines_cons, lineAt_eq hheader, hbrace]
  simp [renderAt, textAt, joinLines, String.append_assoc]

/-- Blocks inside each other are written as their lines. -/
theorem renderAt_foldr_block {headers body : List String} (hheaders : ∀ s ∈ headers, s ≠ "")
    (hbody : ∀ s ∈ body, s ≠ "") (level : Nat) :
    Settled (headers.foldr block (body.map .line)) ∧
      renderAt level (headers.foldr block (body.map .line)) =
        joinLines (nestedLines body level headers) := by
  induction headers generalizing level with
  | nil => exact ⟨settled_lines body, renderAt_lines hbody level⟩
  | cons header headers ih =>
    obtain ⟨hsettled, hinner⟩ :=
      ih (fun s hs => hheaders s (List.mem_cons_of_mem header hs)) (level + 1)
    exact ⟨hsettled.block, renderAt_block (hheaders header List.mem_cons_self) hsettled hinner⟩

/-! ## Texts -/

theorem toList_renderAt_append (hs : Settled ss) :
    (renderAt level (ss ++ ts)).toList =
      (renderAt level ss).toList ++ (renderAt level ts).toList := by
  rw [renderAt_append, hs, String.toList_append]

theorem toList_lineAt (htext : text ≠ "") :
    (lineAt level text).toList = blanks level ++ (text.toList ++ ['\n']) := by
  simp [lineAt, htext]

theorem toList_renderAt_line_cons (htext : text ≠ "") :
    (renderAt level (.line text :: ss)).toList =
      blanks level ++ (text.toList ++ '\n' :: (renderAt level ss).toList) := by
  rw [renderAt, textAt, String.toList_append, toList_lineAt htext]
  simp [levelAfter]

/-- The text of a block is its header, and a body in braces on lines of their own. -/
theorem toList_renderAt_block (hheader : header ≠ "") (hbody : Settled body) :
    (renderAt level (block header body)).toList =
      blanks level ++ (header.toList ++ ('\n' :: blanks level ++ '{' ::
        ('\n' :: (renderAt (level + 1) body).toList ++ blanks level ++ ['}']))) ++ ['\n'] := by
  rw [block, List.cons_append, renderAt, textAt, levelAfter, renderAt_append, hbody]
  have hbrace : (lineAt level "\x7b").toList = blanks level ++ ['{', '\n'] :=
    toList_lineAt (by decide)
  simp [renderAt, textAt, toList_lineAt hheader, hbrace]

/-- Lines of balanced text are balanced. -/
theorem balanced_renderAt_line_cons (htext : text ≠ "") (hline : Balanced text.toList)
    (hs : Balanced (renderAt level ss).toList) :
    Balanced (renderAt level (.line text :: ss)).toList := by
  rw [toList_renderAt_line_cons htext]
  exact (balanced_blanks level).append (hline.append (.plain (by decide) hs))

/-! ## Declarations -/

/-- The steps leave the level as it was and write declarations at any level. What each of them
declares satisfies the predicate in its place. -/
structure Declare (ss : List CodeStep) (Ps : List (Member → Prop)) : Prop where
  settled : Settled ss
  declarations : ∀ level, AreDeclarations (renderAt level ss).toList Ps

namespace Declare

variable {Ps Qs : List (Member → Prop)}

theorem nil : Declare [] [] := ⟨.nil, fun _ => .nil .nil⟩

theorem mono {P Q : Member → Prop} (h : Declare ss [P]) (hPQ : ∀ m, P m → Q m) :
    Declare ss [Q] :=
  ⟨h.settled, fun level => (h.declarations level).mono (.cons hPQ .nil)⟩

theorem append (hs : Declare ss Ps) (ht : Declare ts Qs) : Declare (ss ++ ts) (Ps ++ Qs) := by
  refine ⟨hs.settled.append ht.settled, fun level => ?_⟩
  rw [toList_renderAt_append hs.settled]
  exact (hs.declarations level).append (ht.declarations level)

theorem blank_cons (hs : Declare ss Ps) : Declare (.blank :: ss) Ps := by
  refine ⟨hs.settled.blank_cons, fun level => ?_⟩
  have htext : (renderAt level (.blank :: ss)).toList = ['\n'] ++ (renderAt level ss).toList := by
    simp [renderAt, textAt, levelAfter]
  rw [htext]
  exact (hs.declarations level).trivia_append (.of_all (by decide))

/-- The line feed and the indentation around a body. -/
theorem declarations_body (h : Declare body Ps) (level : Nat) :
    AreDeclarations ('\n' :: (renderAt (level + 1) body).toList ++ blanks level) Ps :=
  ((h.declarations (level + 1)).trivia_append (v := ['\n']) (.of_all (by decide))).append_trivia
    (trivia_blanks level)

theorem trivia_break (level : Nat) : Trivia ('\n' :: blanks level) :=
  .cons (by decide) (trivia_blanks level)

/-- A block is a declaration if its header and its body make one. -/
theorem of_block {P : Member → Prop} (hheader : header ≠ "") (hbody : Settled body)
    (h : ∀ level, IsDeclaration (header.toList ++ ('\n' :: blanks level ++
      '{' :: ('\n' :: (renderAt (level + 1) body).toList ++ blanks level ++ ['}']))) P) :
    Declare (block header body) [P] := by
  refine ⟨hbody.block, fun level => ?_⟩
  rw [toList_renderAt_block hheader hbody, List.append_assoc]
  exact .cons (trivia_blanks level) (h level) (.nil (.of_all (by decide)))

/-- A block that reads as a namespace. -/
theorem ofNamespace {name : List Char} (hheader : header.toList = "namespace".toList ++ ' ' :: name)
    (hname : IsDottedName name) (hbody : Declare body Ps) :
    Declare (block header body) [fun m => ∃ head members, m = .ofNamespace head members ∧
      head.name.text = String.ofList name ∧ head.isFileScoped = false ∧ Each Ps members] := by
  refine of_block ?_ hbody.settled fun level => ?_
  · rintro rfl
    cases hheader
  · rw [hheader]
    have h := IsDeclaration.ofNamespace hname (trivia_break level) (hbody.declarations_body level)
    simpa using h

/-- A block that reads as a type. -/
theorem ofType {ks : List ModifierKind} {kind : TypeKind} {name : List Char}
    {ps : Option TypeParameters}
    (hheader : header.toList =
      modifierText ks ++ (kind.keyword.toList ++ ' ' :: (name ++ parametersText ps)))
    (hks : .externMod ∉ ks) (hname : IsIdentifier name) (hps : ∀ qs ∈ ps, IsParameterList qs)
    (hbody : Declare body Ps) :
    Declare (block header body) [fun m => ∃ head members, m = .ofType head members ∧
      head.modifiers.map (·.kind) = ks ∧ head.kind = kind ∧
      head.identifier.text = String.ofList name ∧
      declared? head.typeParameters = declared? ps ∧ Each Ps members] := by
  refine of_block ?_ hbody.settled fun level => ?_
  · rintro rfl
    have := congrArg List.length hheader
    simp at this
  · rw [hheader]
    have h := IsDeclaration.ofType kind hks hname hps (trivia_break level)
      (hbody.declarations_body level)
    simpa using h

/-- A block that reads as a method with a body. -/
theorem ofMethod {r : String} {ks : List ModifierKind} {name parameters : List Char}
    {ps : Option TypeParameters}
    (hheader : header.toList = modifierText ks ++ (r.toList ++ ' ' ::
      (name ++ (parametersText ps ++ '(' :: (parameters ++ [')'])))))
    (hks : .externMod ∉ ks) (hr : r = "string" ∨ r = "void") (hname : IsIdentifier name)
    (hps : ∀ qs ∈ ps, IsParameterList qs) (hparameters : Balanced parameters)
    (hsettled : Settled body) (hbody : ∀ level, Balanced (renderAt level body).toList) :
    Declare (block header body) [fun m => ∃ decl, m = .ofMethod decl ∧
      decl.modifiers.map (·.kind) = ks ∧ decl.explicitInterface = none ∧
      decl.identifier.text = String.ofList name ∧
      declared? decl.typeParameters = declared? ps ∧ decl.hasBody = true] := by
  refine of_block ?_ hsettled fun level => ?_
  · rintro rfl
    have := congrArg List.length hheader
    simp at this
  · rw [hheader]
    have hinside : Balanced ('\n' :: (renderAt (level + 1) body).toList ++ blanks level) :=
      (Balanced.plain (by decide) (hbody (level + 1))).append (balanced_blanks level)
    have h := IsDeclaration.ofMethod hks hr hname hps hparameters (trivia_break level) hinside
    simpa using h

end Declare

/-- A comment line and declarations below it make a text that has a tree. -/
theorem exists_parse_render {Ps : List (Member → Prop)} (h : Declare ss Ps) :
    ∃ tree, CompilationUnit.parse (render (.line generatedHeader :: ss)) = .ok tree ∧
      Each Ps tree.members := by
  refine exists_parse_eq_ok ?_
  have hcomment : Trivia ('/' :: '/' :: " <auto-generated/>".toList ++ ['\n']) :=
    .lineComment (by decide)
  have htext : (render (.line generatedHeader :: ss)).toList =
      '/' :: '/' :: " <auto-generated/>".toList ++ ['\n'] ++ (renderAt 0 ss).toList := by
    rw [render, toList_renderAt_line_cons (by decide)]
    rfl
  rw [htext]
  exact (h.declarations 0).trivia_append hcomment

end CodeStep

end DeclGen
