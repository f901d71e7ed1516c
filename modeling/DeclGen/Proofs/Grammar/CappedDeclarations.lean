import DeclGen.Proofs.Grammar.CappedMembers
import DeclGen.Proofs.Grammar.Carries
import DeclGen.Proofs.Grammar.Totality
import DeclGen.Proofs.Syntax.Walk

/-!
# Declarations in front of a closing brace

Two kinds of declarations that are read up to the end of a text are not read in front of a closing
brace. A file-scoped namespace extends to the end of the text. And of an enum member whose
initializer is kept as text, everything from the initializer to the end of the text may be an
expression and trivia; in front of a brace it is the initializer, and the brace is that of the enum.

All other declarations are carried over.

## Main definitions

* `RunsToEnd`: from a place to the end of the text there is nothing but an expression
* `Member.OpenEnded`: declarations that are read only at the end of a text

## Main statements

* `carries_initializerExpr`: initializers
* `carries_membersIn`: declarations
-/

namespace DeclGen.Grammar

open DeclGen.Grammar.Parser DeclGen.Text

/-- Up to the end of the text there is a constant expression with trivia behind it. -/
def RunsToEnd (c : Cursor) : Prop :=
  ∃ e c', constantExpr c = .ok (e, c') ∧ c'.rest.drop (triviaLength c'.rest) = []

end DeclGen.Grammar

namespace DeclGen

open DeclGen.Grammar

/-- The initializer is kept as text, although from its start to the end of the text there is a
constant expression with trivia behind it. -/
def Expr.RunsToEnd (text : List Char) : Expr → Prop
  | unsupported _ span => ∃ s, Rest text span.start s ∧ Grammar.RunsToEnd ⟨span.start, s⟩
  | integer .. | character .. | name .. | unary .. | binary .. | parenthesized .. | cast ..
  | overflowContext .. => False

/-- The initializer of the member runs to the end of the text. -/
def EnumMember.RunsToEnd (text : List Char) (m : EnumMember) : Prop :=
  ∃ e ∈ m.initializer, e.RunsToEnd text

/-- The declaration is read at the end of a text only: a file-scoped namespace, or an enum with an
initializer that runs to the end of the text. -/
def Member.OpenEnded (text : List Char) : Member → Prop
  | ofNamespace head _ => head.isFileScoped = true
  | ofEnum decl => ∃ m ∈ decl.members, m.RunsToEnd text
  | ofType .. | ofField _ | ofProperty _ | ofMethod _ | other .. => False

def Expr.isKept : Expr → Bool
  | unsupported .. => true
  | integer .. | character .. | name .. | unary .. | binary .. | parenthesized .. | cast ..
  | overflowContext .. => false

/-- Whether the declaration is neither a file-scoped namespace nor an enum with an initializer that
is kept as text. -/
def Member.isClosed : Member → Bool
  | ofNamespace head _ => !head.isFileScoped
  | ofEnum decl => decl.members.all fun m => !m.initializer.any (·.isKept)
  | ofType .. | ofField _ | ofProperty _ | ofMethod _ | other .. => true

theorem Member.not_openEnded_of_isClosed {text : List Char} {d : Member} (h : d.isClosed = true) :
    ¬ d.OpenEnded text := by
  cases d with
  | ofNamespace head _ => simpa [isClosed, OpenEnded] using h
  | ofEnum decl =>
    rintro ⟨m, hm, e, he, hruns⟩
    have hkept : e.isKept = false := by
      have hall := List.all_eq_true.mp h m hm
      rw [Option.mem_def.mp he] at hall
      simpa using hall
    cases e with
    | unsupported => cases hkept
    | _ => exact hruns
  | _ => exact id

end DeclGen

namespace DeclGen.Grammar

open DeclGen.Grammar.Parser DeclGen.Text

variable {text s t : List Char} {o o' : Nat}

/-! ## Initializers -/

/-- Behind trivia only a closing brace is left. -/
def BraceLeft (s : List Char) : Prop := s.drop (triviaLength s) = ['}']

def closes : List Char → Bool
  | ',' :: _ | '}' :: _ => true
  | _ => false

theorem closes_cons (x : Char) (s t : List Char) : closes (x :: t) = closes (x :: s) := by
  unfold closes
  split <;> simp_all

theorem closedExpr_of_error {c : Cursor} {x : SyntaxError} (h : constantExpr c = .error x) :
    closedExpr c = .error x := by
  rw [closedExpr, bind_apply, h]

/-- Behind an expression, what comes next decides whether it is the whole value. -/
theorem closedExpr_of_ok {c c' : Cursor} {e : Expr} (h : constantExpr c = .ok (e, c')) :
    closedExpr c = if closes (c'.rest.drop (triviaLength c'.rest)) then .ok (e, c')
      else .error ⟨c'.offset, []⟩ := by
  have hahead : lookahead (do trivia; ahead) c' =
      .ok (some (c'.rest.drop (triviaLength c'.rest)), c') := rfl
  rw [closedExpr, bind_apply, h]
  dsimp only
  rw [bind_apply, hahead]
  dsimp only
  rcases c'.rest.drop (triviaLength c'.rest) with _ | ⟨x, u⟩
  · rfl
  by_cases hcomma : x = ','
  · subst hcomma
    rfl
  by_cases hbrace : x = '}'
  · subst hbrace
    rfl
  · simp [closes, hcomma, hbrace, fail]

/-- Where the expression does not run to the end of the text, it is closed in both texts or in
none. -/
theorem matches_closedExpr (o' : Nat) (hst : Capped s t) (h : ¬ RunsToEnd ⟨o, s⟩) :
    Matches False (·.bare = ·.bare) (closedExpr ⟨o, s⟩) (closedExpr ⟨o', t⟩) := by
  have hexpr : Matches False (·.bare = ·.bare) (constantExpr ⟨o, s⟩) (constantExpr ⟨o', t⟩) :=
    alike_constantExpr s t hst o o'
  generalize hr : constantExpr ⟨o, s⟩ = r at hexpr
  generalize hr' : constantExpr ⟨o', t⟩ = r' at hexpr
  cases hexpr with
  | late h => exact h.elim
  | error =>
    rw [closedExpr_of_error hr, closedExpr_of_error hr']
    exact .error
  | @ok e e' c d hbare hcd =>
    rw [closedExpr_of_ok hr, closedExpr_of_ok hr']
    rcases hcd.trivia.cases_head with ⟨x, u, hu, hv⟩ | ⟨hu, -⟩
    · rw [hu, hv, closes_cons x u (u ++ ['\n', '}'])]
      cases closes (x :: u) with
      | true => exact .ok hbare hcd
      | false => exact .error
    · exact absurd ⟨e, c, hr, hu⟩ h

/-- Where the expression runs to the end of the text, the brace behind the second text closes it. -/
theorem closedExpr_of_runsToEnd (o' : Nat) (hst : Capped s t) (h : RunsToEnd ⟨o, s⟩) :
    (∃ x, closedExpr ⟨o, s⟩ = .error x) ∧
      ∃ e d, closedExpr ⟨o', t⟩ = .ok (e, d) ∧ BraceLeft d.rest := by
  obtain ⟨e, c, hr, hend⟩ := h
  have hexpr : Matches False (·.bare = ·.bare) (constantExpr ⟨o, s⟩) (constantExpr ⟨o', t⟩) :=
    alike_constantExpr s t hst o o'
  obtain ⟨e', d, hr', -, hcd⟩ := hexpr.exists_of_ok hr
  have hbrace : BraceLeft d.rest := by
    have htrivia := hcd.trivia
    rw [hend] at htrivia
    rcases htrivia.eq_of_nil with hfeed | hbrace
    · have hzero := triviaLength_drop d.rest
      rw [hfeed] at hzero
      simp [triviaLength, triviaTail, isSpace] at hzero
    · exact hbrace
  rw [closedExpr_of_ok hr, closedExpr_of_ok hr', hend, hbrace]
  exact ⟨⟨_, rfl⟩, e', d, rfl, hbrace⟩

/-- Trivia in front of an expression makes no difference. -/
theorem constantExpr_of_trivia (c : Cursor) :
    constantExpr (c.skip (triviaLength c.rest)) = constantExpr c := by
  have hbinary (c : Cursor) : constantExpr c = binaryExprOf binaryExpr 0 c :=
    (descends_binaryExpr c binaryExpr (fun _ _ _ => rfl) 0).symm
  have hunary (c : Cursor) :
      unaryExpr constantExpr c = unaryExprOf constantExpr (unaryExpr constantExpr) c :=
    (descends_unaryExpr c (fun _ => unaryExpr constantExpr) (fun _ _ _ => rfl) ()).symm
  have htrivia (c : Cursor) : trivia c = .ok ((), c.skip (triviaLength c.rest)) := rfl
  have hskip : (c.skip (triviaLength c.rest)).skip
      (triviaLength (c.skip (triviaLength c.rest)).rest) = c.skip (triviaLength c.rest) := by
    rw [show (c.skip (triviaLength c.rest)).rest = c.rest.drop (triviaLength c.rest) from rfl,
      triviaLength_drop, Cursor.skip_zero]
  have hfirst : unaryExpr constantExpr (c.skip (triviaLength c.rest)) =
      unaryExpr constantExpr c := by
    rw [hunary, hunary, unaryExprOf, bind_apply, bind_apply, htrivia, htrivia, hskip]
  rw [hbinary, hbinary]
  change (unaryExpr constantExpr >>= _) _ = (unaryExpr constantExpr >>= _) _
  rw [bind_apply, bind_apply, hfirst]

def keptInitializer : Parser Expr := do
  trivia
  let start ← offset
  let text := trimEnd (← label "enum member value" (takeUntil fun c => c == ',' || c == '}'))
  if text.isEmpty then failAt start "enum member value"
  else return .unsupported (String.ofList text) ⟨start, start + size text⟩

/-- An initializer is an expression if one is closed there. -/
theorem initializerExpr_of_ok {c : Cursor} {r : Expr × Cursor} (h : closedExpr c = .ok r) :
    initializerExpr c = .ok r := by
  rw [initializerExpr, bind_apply, attempt, h]
  rfl

/-- Otherwise it is kept as text. -/
theorem initializerExpr_of_error {c : Cursor} {x : SyntaxError} (h : closedExpr c = .error x) :
    initializerExpr c = keptInitializer c := by
  rw [initializerExpr, bind_apply, attempt, h]
  rfl

theorem alike_keptInitializer :
    Alike True keptInitializer keptInitializer (·.bare = ·.bare) := by
  refine alike_trivia.bind fun _ _ _ => .offset_bind fun o o' => ?_
  refine (alike_takeUntil (by decide) fun h => absurd trivial h).label.bind ?_
  rintro text _ rfl
  exact .ite (fun _ => .failAt) fun _ => .pure rfl

/-- The text that is kept starts behind the trivia. -/
theorem eq_of_keptInitializer {c c' : Cursor} {e : Expr} (h : keptInitializer c = .ok (e, c')) :
    ∃ x n, e = .unsupported x ⟨(c.skip (triviaLength c.rest)).offset, n⟩ := by
  have hyields (start : Nat) : Yields
      (do
        let text := trimEnd (← label "enum member value" (takeUntil fun c => c == ',' || c == '}'))
        if text.isEmpty then failAt start "enum member value"
        else return Expr.unsupported (String.ofList text) ⟨start, start + size text⟩)
      fun e => ∃ x n, e = .unsupported x ⟨start, n⟩ := by
    refine .bind_right fun text => ?_
    dsimp only
    split
    · exact .failAt _ _
    · exact .pure ⟨_, _, rfl⟩
  exact hyields _ _ _ _ h

theorem runsToEnd_iff_of_keptInitializer (hs : Rest text o s) {e : Expr} {c : Cursor}
    (h : keptInitializer ⟨o, s⟩ = .ok (e, c)) :
    e.RunsToEnd text ↔ RunsToEnd ⟨o, s⟩ := by
  obtain ⟨x, n, rfl⟩ := eq_of_keptInitializer h
  have hrest := hs.take (triviaLength s)
  have hsame : RunsToEnd ⟨o + size (s.take (triviaLength s)), s.drop (triviaLength s)⟩ ↔
      RunsToEnd ⟨o, s⟩ := by
    have hexpr := constantExpr_of_trivia ⟨o, s⟩
    simp only [Cursor.skip] at hexpr
    rw [RunsToEnd, RunsToEnd, hexpr]
  refine ⟨?_, fun h => ⟨_, hrest, hsame.mpr h⟩⟩
  rintro ⟨s', hs', hruns⟩
  obtain rfl := hs'.eq_of_eq hrest
  exact hsame.mp hruns

/-- The expression is not kept as text. -/
def IsRead (e : Expr) : Prop := ∀ x span, e ≠ .unsupported x span

theorem yields_primaryExpr (expr : Parser Expr) : Yields (primaryExpr expr) IsRead := by
  have hname : Yields nameExpr IsRead := by
    refine .bind_right fun _ => .bind_right fun _ => .bind_right fun isAliased => ?_
    dsimp only
    split <;> exact .bind_right fun _ => .bind_right fun _ => .bind_right fun _ => .pure nofun
  refine .bind_right fun start => .bind_right fun s => ?_
  split
  next => exact .bind_right fun _ => .bind_right fun _ => .pure nofun
  next =>
    split
    next => exact .bind_right fun _ => .bind_right fun _ => .pure nofun
    next =>
      refine .bind_right fun found => ?_
      split
      next => exact .bind_right fun _ => .bind_right fun _ => .bind_right fun _ => .pure nofun
      next => exact .bind_right fun _ => .bind_right fun _ => .bind_right fun _ => .pure nofun
      next => exact hname
  next => exact hname

theorem yields_unaryExprOf (expr self : Parser Expr) : Yields (unaryExprOf expr self) IsRead := by
  have hcast : Yields (castExpr self) IsRead :=
    .bind_right fun _ => .bind_right fun _ => .bind_right fun _ => .bind_right fun _ => .pure nofun
  refine .bind_right fun _ => .bind_right fun start => .bind_right fun s => ?_
  split
  next => exact .bind_right fun _ => .bind_right fun _ => .bind_right fun _ => .pure nofun
  next =>
    split
    next =>
      refine hcast.attempt.bind fun r hr => ?_
      split
      next e => exact .pure (hr e rfl)
      next => exact .bind_right fun _ => .bind_right fun _ => .pure nofun
    next => exact yields_primaryExpr expr

theorem yields_constantExpr : Yields constantExpr IsRead := by
  have hcombine (xs : List (BinaryOperator × Expr)) : ∀ first, IsRead first →
      IsRead (xs.foldl Expr.combine first) := by
    induction xs with
    | nil => exact fun _ => id
    | cons x xs ih => exact fun first _ => ih _ nofun
  refine .fix (P := fun _ => IsRead) (fun self _ least => ?_) 0
  have hunary : Yields (unaryExpr (self 0)) IsRead :=
    .fix (P := fun _ => IsRead) (fun _ _ _ => yields_unaryExprOf _ _) ()
  exact hunary.bind fun first hfirst => .bind_right fun others => .pure (hcombine _ _ hfirst)

/-- Constant expressions are not kept as text. -/
theorem yields_closedExpr : Yields closedExpr (¬ ·.RunsToEnd text) := by
  refine yields_constantExpr.bind fun e he => .bind_right fun next => ?_
  have hgood : ¬ e.RunsToEnd text := by
    cases e with
    | unsupported x span => exact absurd rfl (he x span)
    | _ => exact id
  split
  next => exact .pure hgood
  next => exact .pure hgood
  next => exact .fail

/-- Initializers that do not run to the end of the text are carried over. -/
theorem carries_initializerExpr :
    Carries text (·.RunsToEnd text) BraceLeft initializerExpr initializerExpr
      (·.bare = ·.bare) := by
  intro o s t hrest hst o' a c hp
  have hout := (moves_initializerExpr s hrest).2
  rw [hp] at hout
  by_cases hruns : RunsToEnd ⟨o, s⟩
  · obtain ⟨⟨x, hx⟩, e, d, hd, hbrace⟩ := closedExpr_of_runsToEnd o' hst hruns
    rw [initializerExpr_of_error hx] at hp
    refine ⟨fun hgood => ?_, fun _ b d' hd' => ?_⟩
    · exact absurd ((runsToEnd_iff_of_keptInitializer hrest hp).mpr hruns) hgood
    · cases (initializerExpr_of_ok hd).symm.trans hd'
      exact hbrace
  · have hclosed := matches_closedExpr o' hst hruns
    generalize hr : closedExpr ⟨o, s⟩ = r at hclosed
    generalize hr' : closedExpr ⟨o', t⟩ = r' at hclosed
    cases hclosed with
    | late h => exact h.elim
    | @ok e e' c' d hV hcd =>
      cases (initializerExpr_of_ok hr).symm.trans hp
      exact ⟨fun _ => ⟨hout.1, e', d, initializerExpr_of_ok hr', hV, hcd⟩,
        fun h => absurd h (yields_closedExpr _ _ _ hr)⟩
    | error =>
      rw [initializerExpr_of_error hr] at hp
      rw [initializerExpr_of_error hr']
      exact ⟨fun _ => ⟨hout.1, (alike_keptInitializer s t hst o o').exists_of_ok hp⟩, fun h =>
        absurd ((runsToEnd_iff_of_keptInitializer hrest hp).mp h) hruns⟩

/-! ## Enums -/

/-- Only a member whose initializer runs to the end of the text may come out in another way. -/
theorem carries_enumMember :
    Carries text (·.RunsToEnd text) BraceLeft enumMember enumMember (·.bare = ·.bare) := by
  refine .skip alike_trivia (fun _ => moves_trivia) fun _ _ _ => .offset_bind fun start start' => ?_
  refine .skip alike_attributeLists (fun _ => moves_attributeLists) fun as as' has => ?_
  refine .skip alike_identifier (fun _ => moves_identifier) fun name name' hname => ?_
  refine .skip (alike_accept (by decide)) (fun _ => moves_accept (by decide)) ?_
  rintro isInitialized _ rfl
  have hend {start start' : Nat} {e e' : Option Expr} (hgood : ¬ ∃ x ∈ e, x.RunsToEnd text)
      (he : e.map (·.bare) = e'.map (·.bare)) :
      Carries text (·.RunsToEnd text) BraceLeft
        (do return (⟨as, name, e, ← spanFrom start⟩ : EnumMember))
        (do return (⟨as', name', e', ← spanFrom start'⟩ : EnumMember)) (·.bare = ·.bare) := by
    refine .skip alike_spanFrom (fun _ => moves_spanFrom _) fun _ _ _ => .pure hgood ?_
    simp only [EnumMember.bare, has, hname, he]
  have hinitializer : Carries text (fun r => ∃ e ∈ r, e.RunsToEnd text) BraceLeft
      (some <$> initializerExpr) (some <$> initializerExpr)
      fun r r' => r.map (·.bare) = r'.map (·.bare) := by
    refine carries_initializerExpr.bind (fun e he => .pure ⟨e, rfl, he⟩) (fun _ => .pure) ?_
    exact fun e e' hgood h => .pure (by simpa using hgood) (congrArg some h)
  refine .ite (fun _ => ?_) fun _ => ?_
  · refine hinitializer.bind (fun r hr => .bind_right fun _ => .pure hr)
      (fun _ => .bind (.spanFrom _) fun _ => .pure) fun e e' hgood h => hend hgood h
  · exact hend (by simp) rfl

/-- Where a character is left of the first text, a closing brace comes next in both texts or in
none. -/
theorem alikeAt_acceptBrace {lax : Prop} (c : Char) (u : List Char) :
    AlikeAt lax (c :: u) (c :: (u ++ ['\n', '}'])) (acceptHere "\x7d") (acceptHere "\x7d")
      (· = ·) := by
  have hliteral : AlikeAt False (c :: u) (c :: (u ++ ['\n', '}'])) (literal "\x7d")
      (literal "\x7d") fun _ _ => True := by
    have hstarts (v : List Char) : "\x7d".toList.isPrefixOf (c :: v) = ('}' == c) := by
      simp [List.isPrefixOf]
    change AlikeAt False _ _ (if "\x7d".toList.isPrefixOf (c :: u) then _ else _)
      (if "\x7d".toList.isPrefixOf (c :: (u ++ ['\n', '}'])) then _ else _) _
    rw [hstarts, hstarts]
    cases '}' == c with
    | true => exact .take_bind (.inside (c :: u)) (Nat.succ_le_succ (Nat.zero_le _)) (.pure trivial)
    | false => exact .fail
  exact (hliteral.attempt (.inside (c :: u))).bind fun _ _ hr => .pure (isSome_eq hr)

def memberEnd (member : EnumMember) : Parser (Round EnumMember) := do
  if ← accept "," then return .more member
  else
    label "',' or '\x7d' after the enum member" (symbol "\x7d")
    return .last member

theorem yields_memberEnd {P : EnumMember → Prop} {member : EnumMember} (h : P member) :
    Yields (memberEnd member) (Carries.GivesBad P) := by
  refine .bind_right fun isMore => ?_
  split
  · exact .pure h
  · exact .bind_right fun _ => .pure h

/-- The closing brace behind the text ends the enum. -/
theorem keeps_memberEnd (member : EnumMember) : Keeps BraceLeft Ended (memberEnd member) := by
  intro c r c' hc h
  have hsymbol (x : String) : symbol x c =
      (if x.toList.isPrefixOf ['}'] then (do let _ ← take x.length)
        else fail : Parser Unit) (c.skip (triviaLength c.rest)) := by
    rw [← hc]
    rfl
  have hcomma : accept "," c = .ok (false, c) := by
    rw [accept, bind_apply, attempt, hsymbol]
    rfl
  have hbrace : symbol "\x7d" c = .ok ((), (c.skip (triviaLength c.rest)).skip 1) := by
    rw [hsymbol]
    rfl
  change (accept "," >>= _) c = _ at h
  rw [bind_apply, hcomma] at h
  change (label "',' or '\x7d' after the enum member" (symbol "\x7d") >>= _) c = _ at h
  rw [bind_apply, label, hbrace] at h
  cases h
  change (c.rest.drop (triviaLength c.rest)).drop 1 = []
  rw [hc]
  rfl

theorem carries_memberEnd {member member' : EnumMember} (hgood : ¬ member.RunsToEnd text)
    (h : member.bare = member'.bare) :
    Carries text (Carries.GivesBad (·.RunsToEnd text)) Ended (memberEnd member)
      (memberEnd member') (Round.Rel (·.bare = ·.bare)) := by
  refine .skip (alike_accept (by decide)) (fun _ => moves_accept (by decide)) ?_
  rintro isMore _ rfl
  refine .ite (fun _ => .pure hgood (.more h)) fun _ => ?_
  refine .skip (alike_symbol_lax _).label (fun _ => (moves_symbol (by decide)).label) ?_
  exact fun _ _ _ => .pure hgood (.last h)

theorem carries_enumMemberRound :
    Carries text (Carries.GivesBad (·.RunsToEnd text)) Ended enumMemberRound enumMemberRound
      (Round.Rel (·.bare = ·.bare)) := by
  have hmember : Carries text (Carries.GivesBad (·.RunsToEnd text)) Ended
      (label "enum member" enumMember >>= memberEnd)
      (label "enum member" enumMember >>= memberEnd) (Round.Rel (·.bare = ·.bare)) :=
    carries_enumMember.label.bind (fun _ => yields_memberEnd) keeps_memberEnd
      fun _ _ => carries_memberEnd
  refine .skip alike_trivia (fun _ => moves_trivia) fun _ _ _ o s t hrest hst => ?_
  rcases hst.cases_head with ⟨c, u, rfl, rfl⟩ | ⟨rfl, -⟩
  · refine .skip hrest (alikeAt_acceptBrace c u) (moves_acceptHere (by decide)) ?_
    rintro isClosed _ rfl
    exact .ite (fun _ => .pure id .stop) fun _ => hmember
  · -- At the end of the text there is neither a member nor a brace.
    intro o' r c' h
    have hend : (label "enum member" enumMember >>= memberEnd) ⟨o, []⟩ = .ok (r, c') := h
    exact absurd hend (bind_ne_ok_at_end (not_ok_at_end fun _ _ _ => moves_enumMember.label) o _)

theorem carries_enumMembers :
    Carries text (fun ms => ∃ m ∈ ms, m.RunsToEnd text) Ended enumMembers enumMembers
      (List.Forall₂ (·.bare = ·.bare)) :=
  carries_enumMemberRound.rounds (.of_moves fun _ _ _ => moves_enumMemberRound)

/-- The declaration is read at the end of a text only, or one inside it. -/
def HoldsOpenEnded (text : List Char) (m : Member) : Prop := ∃ d ∈ m.declarations, d.OpenEnded text

theorem holdsOpenEnded_iff {m : Member} :
    HoldsOpenEnded text m ↔ m.OpenEnded text ∨ ∃ n ∈ m.inner, HoldsOpenEnded text n := by
  rw [HoldsOpenEnded, m.declarations_eq, List.exists_mem_cons_iff]
  refine or_congr_right ⟨?_, ?_⟩
  · rintro ⟨d, hd, hopen⟩
    obtain ⟨n, hn, hd⟩ := mem_declarationsIn.mp hd
    exact ⟨n, hn, d, hd, hopen⟩
  · rintro ⟨n, hn, d, hd, hopen⟩
    exact ⟨d, mem_declarationsIn.mpr ⟨n, hn, hd⟩, hopen⟩

/-- A declaration with nothing inside it is decided on its own. -/
theorem not_holdsOpenEnded {m : Member} (hinner : m.inner = []) (h : ¬ m.OpenEnded text) :
    ¬ HoldsOpenEnded text m := by
  rw [holdsOpenEnded_iff, hinner]
  simpa using h

theorem not_holdsOpenEnded_of_isSimple {m : Member} (h : m.IsSimple) : ¬ HoldsOpenEnded text m := by
  cases m with
  | ofNamespace | ofType | ofEnum => exact h.elim
  | ofField | ofProperty | ofMethod | other => exact not_holdsOpenEnded rfl id

section

variable {h h' : DeclHeader} (hh : h.Same h')

include hh in
theorem carries_enumDeclaration :
    Carries text (HoldsOpenEnded text) Ended (enumDeclaration h) (enumDeclaration h')
      (·.bare = ·.bare) := by
  refine .skip (alike_keyword _) (fun _ => moves_keyword _) fun _ _ _ => ?_
  refine .skip alike_identifier.label (fun _ => moves_identifier.label) fun name name' hname => ?_
  refine .skip alike_trivia (fun _ => moves_trivia) fun _ _ _ => ?_
  refine .skip (alike_acceptHere (by decide)) (fun _ => moves_acceptHere (by decide)) ?_
  rintro hasBase _ rfl
  have hend {base base' : Option TypeExpr} (hbase : base.map (·.bare) = base'.map (·.bare)) :
      Carries text (HoldsOpenEnded text) Ended
        (do
          label "'\x7b' opening the enum body" (symbol "\x7b")
          let members ← enumMembers
          let _ ← accept ";"
          return Member.ofEnum ⟨h.attributes, h.modifiers, name, base, members, ← spanFrom h.start⟩)
        (do
          label "'\x7b' opening the enum body" (symbol "\x7b")
          let members ← enumMembers
          let _ ← accept ";"
          return Member.ofEnum
            ⟨h'.attributes, h'.modifiers, name', base', members, ← spanFrom h'.start⟩)
        (·.bare = ·.bare) := by
    refine .skip (alike_symbol (by decide)).label (fun _ => (moves_symbol (by decide)).label) ?_
    refine fun _ _ _ => carries_enumMembers.bind ?_ ?_ fun ms ms' hgood hms => ?_
    · intro ms hms
      exact .bind_right fun _ => .bind_right fun _ => .pure (holdsOpenEnded_iff.mpr (.inl hms))
    · refine fun ms => .bind (.of_moves fun _ _ _ => moves_accept (by decide)) fun _ => ?_
      exact .bind (.spanFrom _) fun _ => .pure
    · refine .skip (alike_accept (by decide)) (fun _ => moves_accept (by decide)) fun _ _ _ => ?_
      refine .skip alike_spanFrom (fun _ => moves_spanFrom _) fun _ _ _ => .pure ?_ ?_
      · exact not_holdsOpenEnded rfl hgood
      · simp only [Member.bare, EnumDecl.bare, hh.1, hh.2, hname, hbase, map_eq_of_forall₂ hms]
  refine .ite (fun _ => ?_) fun _ => hend rfl
  refine .skip (R := fun _ _ _ => True) (V := fun r r' => r.map (·.bare) = r'.map (·.bare))
    (alike_typeExpr.label.bind fun _ _ hbase => .pure (congrArg some hbase)) (fun _ => ?_)
    fun _ _ => hend
  exact moves_typeExpr.label.bind fun _ _ _ _ => .pure trivial

/-! ## Types -/

variable {self self' : Option String → Parser (List Member)}
  (hself : ∀ container, Carries text (fun ms => ∃ m ∈ ms, HoldsOpenEnded text m) Ended
    (self container) (self' container) (List.Forall₂ (·.bare = ·.bare)))

include hself in
theorem carries_typeBody {name name' : Identifier} (hname : name.bare = name'.bare) :
    Carries text (fun ms => ∃ m ∈ ms, HoldsOpenEnded text m) Ended (typeBody self name)
      (typeBody self' name') (List.Forall₂ (·.bare = ·.bare)) := by
  have hsame : name.bare.name = name'.bare.name := by rw [hname]
  change name.name = name'.name at hsame
  refine .skip (alike_acceptHere (by decide)) (fun _ => moves_acceptHere (by decide)) ?_
  rintro isEmpty _ rfl
  refine .ite (fun _ => .pure (by simp) .nil) fun _ => ?_
  refine .skip (alike_symbol (by decide)).label (fun _ => (moves_symbol (by decide)).label) ?_
  rw [hsame]
  refine fun _ _ _ => (hself _).bind ?_ ?_ fun ms ms' hgood hms => ?_
  · exact fun ms hms => .bind_right fun _ => .pure hms
  · refine fun ms => .of_fails (bind_ne_ok_at_end (not_ok_at_end fun _ _ _ => ?_))
    exact (moves_symbol (by decide)).label
  · refine .skip (alike_symbol_lax _).label (fun _ => (moves_symbol (by decide)).label) ?_
    exact fun _ _ _ => .pure hgood hms

include hh hself in
theorem carries_typeDeclaration :
    Carries text (HoldsOpenEnded text) Ended (typeDeclaration self h) (typeDeclaration self' h')
      (·.bare = ·.bare) := by
  refine .skip alike_typeKind (fun _ => moves_typeKind) ?_
  rintro kind _ rfl
  refine .skip alike_identifier.label (fun _ => moves_identifier.label) fun name name' hname => ?_
  refine .skip alike_typeParameters? (fun _ => moves_typeParameters?) fun ps ps' hps => ?_
  refine .skip alike_trivia (fun _ => moves_trivia) fun _ _ _ => ?_
  refine .skip alike_primaryConstructor (fun _ => moves_primaryConstructor) ?_
  rintro constructor _ rfl
  refine .skip alike_baseList (fun _ => moves_baseList) fun bases bases' hbases => ?_
  refine .skip alike_constraintClauses (fun _ => moves_constraintClauses) fun _ _ _ => ?_
  refine .skip alike_trivia (fun _ => moves_trivia) fun _ _ _ => ?_
  refine (carries_typeBody hself hname).bind ?_ ?_ fun ms ms' hgood hms => ?_
  · exact fun ms hms => .bind_right fun _ => .pure (holdsOpenEnded_iff.mpr (.inr hms))
  · exact fun ms => .bind (.spanFrom _) fun _ => .pure
  · refine .skip alike_spanFrom (fun _ => moves_spanFrom _) fun _ _ _ => .pure ?_ ?_
    · exact fun h => (holdsOpenEnded_iff.mp h).elim id hgood
    · simp only [Member.bare, TypeHead.bare, bareMembers_eq, hh.1, hh.2, hname, hbases,
        map_eq_of_rel hps, map_eq_of_forall₂ hms]

/-! ## Namespaces -/

theorem leaves_endOfText : Leaves endOfText Ended := by
  rintro ⟨o, s⟩ _ c' h
  cases s with
  | nil =>
    cases h
    rfl
  | cons c s => cases h

/-- What a namespace that extends to the end of the text holds is not carried over. -/
theorem carries_fileScopedBody :
    Carries text (fun _ => True) Ended (fileScopedBody self) (fileScopedBody self')
      fun _ _ => True := by
  have hend (usings : List UsingDirective) (members : List Member) :
      Leaves (do label "a declaration" endOfText; return (usings, members)) Ended := by
    intro c r c' h
    rw [bind_apply] at h
    split at h
    next _ c₁ hr =>
      cases h
      exact leaves_endOfText.label _ _ _ hr
    next => cases h
  refine .of_leaves (.of_forall fun _ => trivial) fun c r c' h => ?_
  change (usingDirectives >>= fun usings => self' none >>= fun members => _) c = _ at h
  rw [bind_apply] at h
  split at h
  next usings c₁ _ =>
    rw [bind_apply] at h
    split at h
    next members c₂ _ => exact hend usings members _ _ _ h
    next => cases h
  next => cases h

include hself in
theorem carries_blockBody :
    Carries text (fun r => ∃ m ∈ r.2, HoldsOpenEnded text m) Ended (blockBody self)
      (blockBody self') fun r r' =>
        r.1.map (·.bare) = r'.1.map (·.bare) ∧ List.Forall₂ (·.bare = ·.bare) r.2 r'.2 := by
  refine .skip (alike_symbol (by decide)).label (fun _ => (moves_symbol (by decide)).label) ?_
  refine fun _ _ _ => .skip alike_usingDirectives (fun _ => moves_usingDirectives) ?_
  refine fun usings usings' husings => (hself none).bind ?_ ?_ fun ms ms' hgood hms => ?_
  · exact fun ms hms => .bind_right fun _ => .bind_right fun _ => .pure hms
  · refine fun ms => .of_fails (bind_ne_ok_at_end (not_ok_at_end fun _ _ _ => ?_))
    exact (moves_symbol (by decide)).label
  · refine .skip (alike_symbol_lax _).label (fun _ => (moves_symbol (by decide)).label) ?_
    refine fun _ _ _ => .skip (alike_accept (by decide)) (fun _ => moves_accept (by decide)) ?_
    exact fun _ _ _ => .pure hgood ⟨husings, hms⟩

include hself in
theorem carries_namespaceDeclaration {start start' : Nat} :
    Carries text (HoldsOpenEnded text) Ended (namespaceDeclaration self start)
      (namespaceDeclaration self' start') (·.bare = ·.bare) := by
  refine .skip (alike_keyword _) (fun _ => moves_keyword _) fun _ _ _ => ?_
  refine .skip alike_dottedName.label (fun _ => moves_dottedName.label) fun name name' hname => ?_
  refine .skip alike_trivia (fun _ => moves_trivia) fun _ _ _ => ?_
  refine .skip (alike_acceptHere (by decide)) (fun _ => moves_acceptHere (by decide)) ?_
  rintro isFileScoped _ rfl
  cases isFileScoped with
  | true =>
    refine carries_fileScopedBody.bind ?_ ?_ fun _ _ h => absurd trivial h
    · exact fun r _ => .bind_right fun _ => .pure (holdsOpenEnded_iff.mpr (.inl rfl))
    · exact fun r => .bind (.spanFrom _) fun _ => .pure
  | false =>
    refine (carries_blockBody hself).bind ?_ ?_ fun r r' hgood hr => ?_
    · exact fun r hr => .bind_right fun _ => .pure (holdsOpenEnded_iff.mpr (.inr hr))
    · exact fun r => .bind (.spanFrom _) fun _ => .pure
    · refine .skip alike_spanFrom (fun _ => moves_spanFrom _) fun _ _ _ => .pure ?_ ?_
      · exact fun h => (holdsOpenEnded_iff.mp h).elim Bool.false_ne_true hgood
      · simp only [Member.bare, NamespaceHead.bare, bareMembers_eq, hname, hr.1,
          map_eq_of_forall₂ hr.2]

/-! ## All declarations -/

theorem closed_otherMember (start : Nat) (kind : OtherKind) :
    Yields (otherMember start kind) (¬ HoldsOpenEnded text ·) :=
  (simple_otherMember start kind).mono fun _ => not_holdsOpenEnded_of_isSimple

theorem closed_typedMember (h : DeclHeader) :
    Yields (typedMember h) (¬ HoldsOpenEnded text ·) :=
  (simple_typedMember h).mono fun _ => not_holdsOpenEnded_of_isSimple

include hself in
theorem carries_memberDeclarationOf (container : Option String) :
    Carries text (HoldsOpenEnded text) Ended (memberDeclarationOf self container)
      (memberDeclarationOf self' container) (·.bare = ·.bare) := by
  refine .skip alike_trivia (fun _ => moves_trivia) fun _ _ _ => .offset_bind fun start start' => ?_
  refine .skip alike_attributeLists (fun _ => moves_attributeLists) fun as as' has => ?_
  refine .skip alike_modifiers (fun _ => moves_modifiers) fun ms ms' hms => ?_
  have hh : DeclHeader.Same ⟨start, as, ms⟩ ⟨start', as', ms'⟩ := ⟨has, hms⟩
  refine .skip alike_peekWord (fun _ => moves_peekWord) ?_
  rintro found _ rfl
  have hother (kind : OtherKind) : Carries text (HoldsOpenEnded text) Ended
      (otherMember start kind) (otherMember start' kind) (·.bare = ·.bare) :=
    .of_alike (alike_otherMember kind) (fun _ => moves_otherMember _) (closed_otherMember _ _)
  split
  · exact carries_namespaceDeclaration hself
  · exact carries_typeDeclaration hh hself
  · exact carries_typeDeclaration hh hself
  · exact carries_typeDeclaration hh hself
  · exact carries_typeDeclaration hh hself
  · exact carries_enumDeclaration hh
  · exact hother .delegate
  · exact hother .event
  · exact .skip alike_throughParameters (fun _ => moves_throughParameters) fun _ _ _ => hother _
  · exact .skip alike_throughParameters (fun _ => moves_throughParameters) fun _ _ _ => hother _
  have hnext (o : Nat) : Moves text o (nextIs '~') fun _ _ => True :=
    Moves.ahead.bind fun _ _ _ _ => .pure trivial
  refine .skip (alike_nextIs (by decide)) hnext ?_
  rintro isDestructor _ rfl
  refine .ite (fun _ => ?_) fun _ => ?_
  · refine .skip (alike_takeUntil (by decide) fun _ => by decide).label
      (fun _ => (moves_takeUntil _).label) fun _ _ _ => ?_
    exact .skip alike_parenthesized (fun _ => moves_delimited _ _) fun _ _ _ => hother _
  refine .skip (alike_acceptConstructor _) (fun _ => moves_acceptConstructor _) ?_
  rintro isConstructor _ rfl
  refine .ite (fun _ => ?_) fun _ => ?_
  · exact .skip alike_parenthesized (fun _ => moves_delimited _ _) fun _ _ _ => hother _
  · exact .of_alike (alike_typedMember hh) (fun _ => moves_typedMember) (closed_typedMember _)

theorem leaves_straySemicolons : Leaves straySemicolons fun s => triviaLength s = 0 := by
  have hmany : Leaves (many straySemicolon?) fun s => triviaLength s = 0 := by
    refine .many fun c c' h => ?_
    change attempt (literal ";") (c.skip (triviaLength c.rest)) = _ at h
    rw [attempt] at h
    split at h
    · cases h
    · cases h
      exact triviaLength_drop c.rest
  intro c r c' h
  change (many straySemicolon? >>= fun _ => pure ()) c = _ at h
  rw [bind_apply] at h
  split at h
  next _ c₁ hr =>
    cases h
    exact hmany _ _ _ hr
  next => cases h

include hself in
/-- A declaration is carried over unless it, or one inside it, is read at the end of a text only. -/
theorem carries_member? (container : Option String) :
    Carries text (fun r => ∃ m ∈ r, HoldsOpenEnded text m) Ended (member? self container)
      (member? self' container) (Option.Rel (·.bare = ·.bare)) := by
  have hmember : Carries text (fun r => ∃ m ∈ r, HoldsOpenEnded text m) Ended
      (do return some (← memberDeclarationOf self container))
      (do return some (← memberDeclarationOf self' container)) (Option.Rel (·.bare = ·.bare)) := by
    refine (carries_memberDeclarationOf hself container).bind ?_ (fun _ => .pure) ?_
    · exact fun m hm => .pure ⟨m, rfl, hm⟩
    · exact fun m m' hgood h => .pure (by simpa using hgood) (.some h)
  refine .skip_leaves alike_straySemicolons (fun _ => moves_straySemicolons)
    leaves_straySemicolons fun _ _ _ o s t htrivia hrest hst => ?_
  have hstop : CarriesAt text (fun r => ∃ m ∈ r, HoldsOpenEnded text m) Ended o s t
      (pure none) (pure none) (Option.Rel (·.bare = ·.bare)) :=
    Carries.pure (by simp) .none o s t hrest hst
  refine .ahead_bind ?_
  rcases hst.cases_head with ⟨c, u, rfl, rfl⟩ | ⟨rfl, rfl | rfl⟩
  · by_cases hbrace : c = '}'
    · subst hbrace
      exact hstop
    · simp only
      exact hmember o _ _ hrest hst
  · simp [triviaLength, triviaTail, isSpace] at htrivia
  · exact hstop

include hself in
theorem carries_membersOf (container : Option String) :
    Carries text (fun ms => ∃ m ∈ ms, HoldsOpenEnded text m) Ended (membersOf self container)
      (membersOf self' container) (List.Forall₂ (·.bare = ·.bare)) :=
  (carries_member? hself container).many
    (.of_moves fun _ _ h =>
      agree_member? (fun _ o₁ hlt => (further_at_end h o₁ hlt).trivial) container)

end

/-- What is read up to the end of a text is carried over, if nothing of it is read there only. -/
theorem carries_membersIn (container : Option String) :
    Carries text (fun ms => ∃ m ∈ ms, HoldsOpenEnded text m) Ended (membersIn container)
      (membersIn container) (List.Forall₂ (·.bare = ·.bare)) :=
  .fix (fun _ _ hself => carries_membersOf hself) container

end DeclGen.Grammar
