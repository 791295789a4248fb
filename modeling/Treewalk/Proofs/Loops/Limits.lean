import Treewalk.Proofs.Grammar.Reading
import Treewalk.Proofs.Scopes.Reports
import Treewalk.Proofs.Run.Events
import Treewalk.Proofs.Run.Objects

/-!
# More nesting levels

Code that nests deeper needs more levels. Where the limit does not stop the reading or the resolution
of a text, more levels make no difference; where it does, that is the last thing reported.
-/
namespace Treewalk

section
variable {ε σ α β : Type} {C : ε → Prop}

/-- The second computation does what the first one does, unless this is cut short. -/
def Outlasts (C : ε → Prop) (p q : EStateM ε σ α) : Prop :=
  ∀ s, (∃ e t, C e ∧ p s = .error e t) ∨ p s = q s

namespace Outlasts

theorem refl (p : EStateM ε σ α) : Outlasts C p p := fun _ => .inr rfl

theorem throw {e : ε} (he : C e) (q : EStateM ε σ α) :
    Outlasts C (MonadExcept.throw e) q := fun s => .inl ⟨e, s, he, rfl⟩

theorem bind {p q : EStateM ε σ α} {f g : α → EStateM ε σ β} (hp : Outlasts C p q)
    (hf : ∀ a, Outlasts C (f a) (g a)) : Outlasts C (p >>= f) (q >>= g) := by
  intro s
  change (∃ e t, C e ∧ EStateM.bind p f s = .error e t) ∨
    EStateM.bind p f s = EStateM.bind q g s
  unfold EStateM.bind
  rcases hp s with ⟨e, t, he, hr⟩ | hr
  · rw [hr]
    exact .inl ⟨e, t, he, rfl⟩
  · rw [← hr]
    cases p s with
    | ok a t => exact hf a t
    | error e t => exact .inr rfl

theorem map {p q : EStateM ε σ α} (hp : Outlasts C p q) (f : α → β) :
    Outlasts C (f <$> p) (f <$> q) := hp.bind fun _ => .refl _

/-- The same before something. -/
theorem after (p : EStateM ε σ α) {f g : α → EStateM ε σ β} (hf : ∀ a, Outlasts C (f a) (g a)) :
    Outlasts C (p >>= f) (p >>= g) := (refl p).bind hf

theorem mapM {f g : α → EStateM ε σ β} (h : ∀ a, Outlasts C (f a) (g a)) (as : List α) :
    Outlasts C (as.mapM f) (as.mapM g) := by
  induction as with
  | nil => exact .refl _
  | cons a as ih =>
      rw [List.mapM_cons, List.mapM_cons]
      exact (h a).bind fun _ => ih.bind fun _ => .refl _

theorem optional {f g : α → EStateM ε σ β} (h : ∀ a, Outlasts C (f a) (g a)) (o : Option α) :
    Outlasts C (o.mapM f) (o.mapM g) := by
  cases o with
  | none => exact .refl _
  | some a => exact (h a).map some

end Outlasts
end

/-! ### Reading -/

namespace Parser
variable {α : Type}

/-- Reading goes on in the second parser where the limit stops the first one. -/
abbrev ReadsOn (p q : Parser α) : Prop := Outlasts (· = .tooDeep) p q

namespace ReadsOn

theorem recovering {p q : Parser α} (h : p.ReadsOn q) :
    (Parser.recovering p).ReadsOn (Parser.recovering q) := by
  intro c
  unfold Parser.recovering
  rcases h c with ⟨e, c', rfl, hr⟩ | hr
  · rw [hr]
    exact .inl ⟨_, _, rfl, rfl⟩
  · rw [hr]
    exact .inr rfl

theorem perToken {p q : Nat → Parser α} (h : ∀ fuel, (p fuel).ReadsOn (q fuel)) :
    (Parser.perToken p).ReadsOn (Parser.perToken q) := .after _ fun _ => h _

theorem untilBrace {p q : Parser (List α)} (h : p.ReadsOn q) (fuel : Nat) :
    (Parser.untilBrace p fuel).ReadsOn (Parser.untilBrace q fuel) := by
  induction fuel with
  | zero => exact .refl _
  | succ fuel ih =>
      refine .after _ fun c => ?_
      cases c.rest with
      | nil => exact .refl _
      | cons t rest =>
          by_cases hbrace : t.kind = .rightBrace
          · simp only [hbrace, if_true]
            exact .refl _
          · simp only [hbrace, if_false]
            exact h.bind fun _ => ih.map _

theorem commaSeparated {p q : Parser α} (h : p.ReadsOn q) (surplus : StaticError)
    (fuel count : Nat) : (Parser.commaSeparated p surplus fuel count).ReadsOn
      (Parser.commaSeparated q surplus fuel count) := by
  induction fuel generalizing count with
  | zero => exact .refl _
  | succ fuel ih =>
      have hothers : ∀ first, (otherItems p surplus fuel (count + 1) first).ReadsOn
          (otherItems q surplus fuel (count + 1) first) := by
        refine fun first => .after _ fun o => ?_
        cases o with
        | none => exact .refl _
        | some _ => exact (ih (count + 1)).map _
      rw [commaSeparated_succ, commaSeparated_succ]
      by_cases hc : maxArguments ≤ count
      · simp only [hc, if_true]
        exact .after _ fun _ => h.bind hothers
      · simp only [hc, if_false]
        exact h.bind hothers

theorem leftward (operator : Token → Option (α → α → α)) {p q : Parser α} (h : p.ReadsOn q)
    (fuel : Nat) (left : α) : (Parser.leftward operator p fuel left).ReadsOn
      (Parser.leftward operator q fuel left) := by
  induction fuel generalizing left with
  | zero => exact .refl _
  | succ fuel ih =>
      refine .after _ fun o => ?_
      cases o with
      | none => exact .refl _
      | some join => exact h.bind fun right => ih _

theorem program {p q : Parser (List Stmt)} (h : p.ReadsOn q) (fuel : Nat) :
    (Parser.program p fuel).ReadsOn (Parser.program q fuel) := by
  induction fuel with
  | zero => exact .refl _
  | succ fuel ih =>
      refine .after _ fun c => ?_
      cases c.rest with
      | nil => exact .refl _
      | cons t rest => exact h.bind fun _ => ih.map _

/-- One construct or another, depending on what is read first. -/
theorem choice {β : Type} (o : Parser (Option β)) {f f' : Option β → Parser α}
    (hsome : ∀ b, (f (some b)).ReadsOn (f' (some b))) (hnone : (f none).ReadsOn (f' none)) :
    Parser.ReadsOn (o >>= f) (o >>= f') := by
  refine .after _ fun b => ?_
  cases b with
  | some b => exact hsome b
  | none => exact hnone

/-! ### Constructs -/

section
variable {expression expression' : Parser Expr} {block block' : Parser (List Stmt)}
  {statement statement' : Parser Stmt}

theorem unlessNext (he : expression.ReadsOn expression') (kind : TokenKind) :
    (Parser.unlessNext kind expression).ReadsOn (Parser.unlessNext kind expression') := by
  refine .after _ fun next => ?_
  cases next with
  | true => exact .refl _
  | false => exact he.map _

theorem functionRest (hb : block.ReadsOn block') (label : FunctionLabel) (name : Option Token) :
    (Parser.functionRest block label name).ReadsOn (Parser.functionRest block' label name) := by
  refine .after _ fun _ => .after _ fun none => ?_
  have hbody : ∀ parameters : List Token, Parser.ReadsOn
      (do
        let _ ← expect .rightParen .parametersEnd
        let _ ← expect .leftBrace (.functionBodyStart label)
        return .mk name parameters (← block))
      (do
        let _ ← expect .rightParen .parametersEnd
        let _ ← expect .leftBrace (.functionBodyStart label)
        return FunctionDecl.mk name parameters (← block')) :=
    fun parameters => .after _ fun _ => .after _ fun _ => hb.map _
  cases none with
  | true => exact hbody []
  | false => exact .after _ hbody

theorem namedFunction (hb : block.ReadsOn block') (label : FunctionLabel) :
    (Parser.namedFunction block label).ReadsOn (Parser.namedFunction block' label) :=
  .after _ fun name => functionRest hb label (some name)

theorem classDeclaration (hb : block.ReadsOn block') :
    (Parser.classDeclaration block).ReadsOn (Parser.classDeclaration block') := by
  refine .after _ fun name => .after _ fun superclass => .after _ fun _ => ?_
  have hmethods := untilBrace ((namedFunction hb .method).bind fun method => .refl (pure [method]))
  exact (perToken hmethods).bind fun _ => .refl _

theorem variableDeclaration (he : expression.ReadsOn expression') (mutability : Mutability) :
    (Parser.variableDeclaration expression mutability).ReadsOn
      (Parser.variableDeclaration expression' mutability) := by
  refine .after _ fun name => .after _ fun o => ?_
  cases o with
  | none => exact .refl _
  | some _ => exact (he.map some).bind fun _ => .refl _

theorem expressionStatement (he : expression.ReadsOn expression') :
    (Parser.expressionStatement expression).ReadsOn (Parser.expressionStatement expression') :=
  he.bind fun _ => .refl _

theorem forInitial (he : expression.ReadsOn expression') :
    (Parser.forInitial expression).ReadsOn (Parser.forInitial expression') := by
  refine .after _ fun o => ?_
  cases o with
  | some _ => exact .refl _
  | none =>
      refine .after _ fun m => ?_
      cases m with
      | some mutability => exact (variableDeclaration he mutability).map some
      | none => exact (expressionStatement he).map some

theorem forStatement (he : expression.ReadsOn expression') (hs : statement.ReadsOn statement') :
    (Parser.forStatement expression statement).ReadsOn
      (Parser.forStatement expression' statement') := by
  refine .after _ fun _ => (forInitial he).bind fun initial => ?_
  refine (unlessNext he .semicolon).bind fun condition => .after _ fun _ => ?_
  refine (unlessNext he .rightParen).bind fun increment => .after _ fun _ => ?_
  exact hs.bind fun _ => .refl _

theorem ifStatement (he : expression.ReadsOn expression') (hs : statement.ReadsOn statement') :
    (Parser.ifStatement expression statement).ReadsOn
      (Parser.ifStatement expression' statement') := by
  refine .after _ fun _ => he.bind fun condition => .after _ fun _ => hs.bind fun thenBranch => ?_
  refine .after _ fun o => ?_
  cases o with
  | some _ => exact (hs.map some).bind fun _ => .refl _
  | none => exact .refl _

theorem whileStatement (he : expression.ReadsOn expression') (hs : statement.ReadsOn statement') :
    (Parser.whileStatement expression statement).ReadsOn
      (Parser.whileStatement expression' statement') :=
  .after _ fun _ => he.bind fun _ => .after _ fun _ => hs.bind fun _ => .refl _

theorem printStatement (he : expression.ReadsOn expression') :
    (Parser.printStatement expression).ReadsOn (Parser.printStatement expression') :=
  he.bind fun _ => .refl _

theorem returnStatement (he : expression.ReadsOn expression') (keyword : Token) :
    (Parser.returnStatement expression keyword).ReadsOn
      (Parser.returnStatement expression' keyword) :=
  (unlessNext he .semicolon).bind fun _ => .refl _

theorem callRest (he : expression.ReadsOn expression') (fuel : Nat) (callee : Expr) :
    (Parser.callRest expression fuel callee).ReadsOn (Parser.callRest expression' fuel callee) := by
  induction fuel generalizing callee with
  | zero => exact .refl _
  | succ fuel ih =>
      refine .after _ fun o => ?_
      cases o with
      | some _ =>
          have hrest : ∀ arguments : List Expr, Parser.ReadsOn
              (do
                let paren ← expect .rightParen .argumentsEnd
                Parser.callRest expression fuel (.call callee paren arguments))
              (do
                let paren ← expect .rightParen .argumentsEnd
                Parser.callRest expression' fuel (.call callee paren arguments)) :=
            fun arguments => .after _ fun paren => ih _
          refine .after _ fun none => ?_
          cases none with
          | true => exact hrest []
          | false => exact (perToken fun fuel => commaSeparated he _ fuel 0).bind hrest
      | none =>
          refine .after _ fun dot => ?_
          cases dot with
          | some _ => exact .after _ fun name => ih _
          | none => exact .refl _

theorem primary (he : expression.ReadsOn expression') (hb : block.ReadsOn block') :
    (Parser.primary expression block).ReadsOn (Parser.primary expression' block') := by
  unfold Parser.primary
  refine choice _ (fun _ => .refl _) ?_
  refine choice _ (fun _ => .refl _) ?_
  refine choice _ (fun _ => .refl _) ?_
  refine choice _ (fun _ => .refl _) ?_
  refine choice _ (fun _ => (functionRest hb _ _).map _) ?_
  exact choice _ (fun _ => he.bind fun _ => .refl _) (.refl _)

theorem statementForms (he : expression.ReadsOn expression') (hb : block.ReadsOn block')
    (hs : statement.ReadsOn statement') :
    (Parser.statementForms expression block statement).ReadsOn
      (Parser.statementForms expression' block' statement') := by
  unfold Parser.statementForms
  refine choice _ (fun _ => forStatement he hs) ?_
  refine choice _ (fun _ => ifStatement he hs) ?_
  refine choice _ (fun _ => printStatement he) ?_
  refine choice _ (fun _ => returnStatement he _) ?_
  refine choice _ (fun _ => whileStatement he hs) ?_
  refine choice _ (fun _ => .refl _) ?_
  refine choice _ (fun _ => .refl _) ?_
  exact choice _ (fun _ => hb.map _) (expressionStatement he)

theorem declarationForms (he : expression.ReadsOn expression') (hb : block.ReadsOn block')
    (hs : statement.ReadsOn statement') :
    (Parser.declarationForms expression block statement).ReadsOn
      (Parser.declarationForms expression' block' statement') := by
  refine choice _ (fun _ => classDeclaration hb) (.after _ fun follows => ?_)
  cases follows with
  | true => exact .after _ fun _ => (namedFunction hb .function).map _
  | false =>
      refine choice _ (fun _ => variableDeclaration he _) ?_
      exact choice _ (fun _ => .refl _) hs

end
end ReadsOn

/-- Reading at a nesting level and at another one. -/
structure LevelReadsOn (n m : Nat) : Prop where
  declaration : (declaration n).ReadsOn (declaration m)
  statement : (statement n).ReadsOn (statement m)
  block : (block n).ReadsOn (block m)
  expression : (expression n).ReadsOn (expression m)
  assignment : (assignment n).ReadsOn (assignment m)
  chain : ∀ tier, (chain n tier).ReadsOn (chain m tier)
  unary : (unary n).ReadsOn (unary m)
  call : (call n).ReadsOn (call m)

theorem LevelReadsOn.succ {n m : Nat} (ih : LevelReadsOn n m) : LevelReadsOn (n + 1) (m + 1) := by
  constructor
  case declaration =>
    exact .recovering (.declarationForms ih.expression ih.block ih.statement)
  case statement => exact .statementForms ih.expression ih.block ih.statement
  case block => exact (ReadsOn.perToken (.untilBrace ih.declaration)).bind fun _ => .refl _
  case expression => exact ih.assignment
  case assignment =>
    refine (ih.chain .or).bind fun target => ReadsOn.choice _ (fun equals => ?_) (.refl _)
    exact ih.assignment.bind fun _ => .refl _
  case chain =>
    intro tier
    have hjoined : ∀ {p q : Parser Expr}, p.ReadsOn q → ReadsOn
        (p >>= fun first => perToken fun fuel => leftward tier.join? p fuel first)
        (q >>= fun first => perToken fun fuel => leftward tier.join? q fuel first) :=
      fun h => h.bind fun first => ReadsOn.perToken fun fuel => .leftward _ h fuel first
    unfold Parser.chain
    cases tier.tighter? with
    | some next => exact hjoined (ih.chain next)
    | none => exact hjoined ih.unary
  case unary => exact .choice _ (fun _ => ih.unary.map _) ih.call
  case call =>
    refine (ReadsOn.primary ih.expression ih.block).bind fun first => ?_
    exact ReadsOn.perToken fun fuel => .callRest ih.expression fuel first

theorem levelReadsOn {n m : Nat} (h : n ≤ m) : LevelReadsOn n m := by
  induction n generalizing m with
  | zero =>
      have hdeep : ∀ {α : Type} (q : Parser α), (tooDeep : Parser α).ReadsOn q :=
        fun q => Outlasts.throw (C := (· = .tooDeep)) rfl q
      constructor
      case chain => exact fun _ => hdeep _
      all_goals exact hdeep _
  | succ n ih =>
      cases m with
      | zero => exact absurd h (Nat.not_succ_le_zero n)
      | succ m => exact (ih (Nat.le_of_succ_le_succ h)).succ

end Parser

/-! ### Resolving -/

namespace Resolve
variable {α : Type}

/-- Resolution goes on in the second case where the limit stops it in the first one. -/
abbrev GoesOn (p q : Resolve α) : Prop := Outlasts (fun _ => True) p q

namespace GoesOn

theorem inScope {p q : Resolve α} (h : p.GoesOn q) (names : List String) :
    (Resolve.inScope names p).GoesOn (Resolve.inScope names q) :=
  .after _ fun _ => h.bind fun _ => .refl _

theorem inFunction {p q : Resolve α} (h : p.GoesOn q) (context : FunctionContext) :
    (Resolve.inFunction context p).GoesOn (Resolve.inFunction context q) :=
  .after _ fun _ => .after _ fun _ => h.bind fun _ => .refl _

theorem inLoop {p q : Resolve α} (h : p.GoesOn q) :
    (Resolve.inLoop p).GoesOn (Resolve.inLoop q) :=
  .after _ fun _ => .after _ fun _ => h.bind fun _ => .refl _

theorem inClass {p q : Resolve α} (h : p.GoesOn q) (context : ClassContext) :
    (Resolve.inClass context p).GoesOn (Resolve.inClass context q) :=
  .after _ fun _ => .after _ fun _ => h.bind fun _ => .refl _

theorem initializing {p q : Resolve α} (h : p.GoesOn q) (name : String) :
    (Resolve.initializing name p).GoesOn (Resolve.initializing name q) := by
  rw [Visiting.initializing_eq, Visiting.initializing_eq]
  exact .after _ fun _ => .after _ fun _ => h.bind fun _ => .refl _

/-- The same after an error that is reported if a condition holds. -/
theorem checking {c : Scoping → Prop} [DecidablePred c] {r : Resolve Unit} {p q : Resolve α}
    (h : p.GoesOn q) :
    GoesOn (get >>= fun s => if c s then r >>= fun _ => p else p)
      (get >>= fun s => if c s then r >>= fun _ => q else q) := by
  refine .after _ fun s => ?_
  by_cases hc : c s
  · simp only [hc, if_true]
    exact .after _ fun _ => h
  · simp only [hc, if_false]
    exact h

end GoesOn

/-- Resolution at a nesting level and at another one. -/
structure LevelGoesOn (n m : Nat) : Prop where
  expression : ∀ e, (expression n e).GoesOn (expression m e)
  statement : ∀ s, (statement n s).GoesOn (statement m s)
  method : ∀ f, (method n f).GoesOn (method m f)
  functionBody : ∀ context f, (functionBody n context f).GoesOn (functionBody m context f)

namespace LevelGoesOn
variable {n m : Nat}

theorem expression_succ (ih : LevelGoesOn n m) (e : Expr) :
    (Resolve.expression (n + 1) e).GoesOn (Resolve.expression (m + 1) e) := by
  unfold Resolve.expression
  cases e with
  | literal | name | super => exact .refl _
  | grouping inner => exact (ih.expression inner).bind fun _ => .refl _
  | assign use value => exact (ih.expression value).bind fun _ => .refl _
  | unary op token operand => exact (ih.expression operand).bind fun _ => .refl _
  | binary left op token right =>
      exact (ih.expression left).bind fun _ => (ih.expression right).bind fun _ => .refl _
  | logical left op token right =>
      exact (ih.expression left).bind fun _ => (ih.expression right).bind fun _ => .refl _
  | call callee paren arguments =>
      refine (ih.expression callee).bind fun _ => ?_
      exact (Outlasts.mapM ih.expression arguments).bind fun _ => .refl _
  | get object name => exact (ih.expression object).bind fun _ => .refl _
  | set object name value =>
      refine (ih.expression value).bind fun _ => .after _ fun _ => ?_
      exact (ih.expression object).bind fun _ => .refl _
  | this use => exact .refl _
  | lambda function => exact (ih.functionBody _ function).bind fun _ => .refl _

theorem statement_succ (ih : LevelGoesOn n m) (s : Stmt) :
    (Resolve.statement (n + 1) s).GoesOn (Resolve.statement (m + 1) s) := by
  unfold Resolve.statement
  cases s with
  | expression e | print e => exact (ih.expression e).bind fun _ => .refl _
  | var mutability name initial =>
      have hinitial := Outlasts.optional (fun e => (ih.expression e).initializing name.lexeme) initial
      exact .after _ fun _ => hinitial.bind fun _ => .refl _
  | block body => exact (GoesOn.inScope (.mapM ih.statement body) []).bind fun _ => .refl _
  | «if» condition thenBranch elseBranch =>
      refine (ih.expression condition).bind fun _ => (ih.statement thenBranch).bind fun _ => ?_
      exact (Outlasts.optional ih.statement elseBranch).bind fun _ => .refl _
  | «while» condition body increment =>
      refine GoesOn.inLoop ((ih.expression condition).bind fun _ => ?_)
      refine (ih.statement body).bind fun _ => ?_
      exact (Outlasts.optional ih.expression increment).bind fun _ => .refl _
  | «break» | «continue» | importModule => exact .refl _
  | «return» keyword value =>
      have hvalue := (Outlasts.optional ih.expression value).bind fun value =>
        .refl (pure (Stmt.return keyword value))
      exact .after _ fun _ => GoesOn.checking hvalue
  | function declaration =>
      have hbody := (ih.functionBody .function declaration).bind fun f =>
        .refl (pure (Stmt.function f))
      cases hname : declaration.name with
      | some name =>
          simp only [hname]
          exact .after _ fun _ => hbody
      | none =>
          simp only [hname]
          exact hbody
  | «class» name superclass methods =>
      have hmethods := GoesOn.inScope (.mapM ih.method methods) ["this"]
      cases superclass with
      | none =>
          exact GoesOn.inClass (.after _ fun _ => hmethods.bind fun _ => .refl _) _
      | some use =>
          refine GoesOn.inClass (.after _ fun _ => ?_) _
          have hrest := Outlasts.after (C := fun _ => True) (Resolve.read use) fun superclass =>
            (hmethods.inScope ["super"]).bind fun methods =>
              .refl (pure (Stmt.class name (some superclass) methods))
          by_cases h : use.name.lexeme = name.lexeme
          · simp only [h, if_true]
            exact .after _ fun _ => hrest
          · simp only [h, if_false]
            exact hrest

theorem succ (ih : LevelGoesOn n m) : LevelGoesOn (n + 1) (m + 1) := by
  constructor
  case expression => exact ih.expression_succ
  case statement => exact ih.statement_succ
  case method => exact fun f => ih.functionBody _ f
  case functionBody =>
    rintro context ⟨name, parameters, body⟩
    refine GoesOn.inFunction (GoesOn.inScope (.after _ fun _ => ?_) []) context
    exact (Outlasts.mapM ih.statement body).bind fun _ => .refl _

end LevelGoesOn

theorem levelGoesOn {n m : Nat} (h : n ≤ m) : LevelGoesOn n m := by
  induction n generalizing m with
  | zero =>
      constructor
      case functionBody => exact fun _ _ => .throw trivial _
      all_goals exact fun _ => .throw trivial _
  | succ n ih =>
      cases m with
      | zero => exact absurd h (Nat.not_succ_le_zero n)
      | succ m => exact (ih (Nat.le_of_succ_le_succ h)).succ

end Resolve

/-! ### Preparing -/

/-- Reading or resolving stopped where nesting goes beyond the limit. -/
def Notice.TooDeep (notices : List Notice) : Prop :=
  ∃ place, .error ⟨place, .tooMuchNesting⟩ ∈ notices

theorem parseTokens_levels {n m : Nat} (h : n ≤ m) (tokens : List Token) (endLine : Nat) :
    (∃ place, ⟨place, .tooMuchNesting⟩ ∈ (parseTokens n tokens endLine).reports) ∨
      parseTokens n tokens endLine = parseTokens m tokens endLine := by
  have hprogram := Parser.ReadsOn.perToken
    fun fuel => Parser.ReadsOn.program (Parser.levelReadsOn h).declaration fuel
  unfold parseTokens
  rcases hprogram { rest := tokens, endLine := endLine } with ⟨e, c, -, hr⟩ | hr
  · rw [hr]
    exact .inl ⟨c.place, by simp [Cursor.report]⟩
  · rw [hr]
    exact .inr rfl

/-- More levels make no difference to a unit, unless its nesting goes beyond the limit. -/
theorem CompiledUnit.ofSource_levels {n m : Nat} (h : n ≤ m) (file source : String)
    (globals constants : List String) :
    Notice.TooDeep (ofSource n file source globals constants).2 ∨
      ofSource n file source globals constants = ofSource m file source globals constants := by
  unfold ofSource
  dsimp only
  rcases parseTokens_levels h (scan source).tokens (scan source).endLine with ⟨place, hp⟩ | hp
  · have hsome : ((scan source).faults ++
        (parseTokens n (scan source).tokens (scan source).endLine).reports).isEmpty = false := by
      rw [List.isEmpty_eq_false_iff]
      exact List.append_ne_nil_of_right_ne_nil _ (List.ne_nil_of_mem hp)
    simp only [hsome, Bool.false_eq_true, if_false]
    refine .inl ⟨place, List.mem_append_left _ (List.mem_map.mpr ⟨_, ?_, rfl⟩)⟩
    exact List.mem_append_right _ hp
  · rw [← hp]
    split
    · unfold resolve
      have hlevels := Outlasts.mapM (Resolve.levelGoesOn (Nat.div_le_div_right (c := 2) h)).statement
        (parseTokens n (scan source).tokens (scan source).endLine).statements
      rcases hlevels { globals := globals, globalConstants := constants } with ⟨e, s, -, hr⟩ | hr
      · simp only [hr]
        exact .inl ⟨_, List.mem_append_right _ (List.mem_singleton.mpr rfl)⟩
      · simp only [hr]
        exact .inr trivial
    · exact .inr rfl

/-! ### Running -/

mutual

/-- A run that the limit cut short: it stopped beyond the limit, or the innermost call turned this
into a runtime error, or the unit of a module was cut short. -/
inductive CutShort : Interrupt → World → Prop
  | overflow (w : World) : CutShort .overflow w
  | call (token : Token) (w : World) : CutShort (.error ⟨token, .stackOverflow⟩) w
  | failed {e : RuntimeError} {w : World} (token : Token) (name : String) (loader : Ref .loader)
      (place : RealPath) : UnitCutShort (.failed e) w →
      CutShort (.error ⟨token, .moduleFailed name⟩) (w.updateLoader loader fun l => l.forget place)
  | rejected {w : World} (token : Token) (name : String) (loader : Ref .loader) (place : RealPath) :
      UnitCutShort .rejected w →
      CutShort (.error ⟨token, .moduleRejected name⟩)
        (w.updateLoader loader fun l => l.forget place)

/-- A unit that the limit cut short, while it was prepared or while it ran. -/
inductive UnitCutShort : Eval.Completion → World → Prop
  | failed {e : RuntimeError} {w : World} (home : Ref .interpreter) : CutShort (.error e) w →
      UnitCutShort (.failed e) (w.reportRuntime home e)
  | rejected {w : World} {levels : Nat} {home : Ref .interpreter} {file source : String}
      (line : LogLine) : Notice.TooDeep (w.text levels home file source).notices →
      UnitCutShort .rejected ((w.compile levels home file source).2.log line)

end

/-- How a run ends. -/
abbrev Ending (α : Type) := EStateM.Result Interrupt World α

namespace Ending
variable {α β : Type}

/-- A run with something behind it. -/
def andThen (r : Ending α) (f : α → Eval β) : Ending β :=
  match r with
  | .ok a w => f a w
  | .error i w => .error i w

/-- The end of a round, given the end of the body. -/
def round : Ending Unit → Ending Bool
  | .ok _ w => .ok true w
  | .error (.signal .break) w => .ok false w
  | .error (.signal .continue) w => .ok true w
  | .error i w => .error i w

/-- The end of a call, given the end of the body. -/
def returned : Ending Unit → Ending Value
  | .ok _ w => .ok .nil w
  | .error (.signal (.return v)) w => .ok v w
  | .error i w => .error i w

/-- The end of a call where it stands. -/
def atCall (paren : Token) : Ending α → Ending α
  | .error .overflow w => .error (.error ⟨paren, .stackOverflow⟩) w
  | r => r

/-- The end of a unit, given the end of its statements. -/
def reported (home : Ref .interpreter) : Ending Unit → Ending Eval.Completion
  | .ok _ w => .ok .completed w
  | .error (.error e) w => .ok (.failed e) (w.reportRuntime home e)
  | .error i w => .error i w

/-- The end of the import that loads a module, given the end of its unit. -/
def loaded (loader : Ref .loader) (token : Token) (name : String) (place : RealPath)
    (m : Ref .module) : Ending Eval.Completion → Ending (Ref .module)
  | .ok .completed w => .ok m w
  | .ok .rejected w => .error (.error ⟨token, .moduleRejected name⟩)
      (w.updateLoader loader fun l => l.forget place)
  | .ok (.failed _) w => .error (.error ⟨token, .moduleFailed name⟩)
      (w.updateLoader loader fun l => l.forget place)
  | .error i w => .error i w

/-- The limit cut the run short. -/
def Short : Ending α → Prop
  | .ok _ _ => False
  | .error i w => CutShort i w

/-- The limit cut short the run of a unit. -/
def UnitShort : Ending Eval.Completion → Prop
  | .ok completion w => UnitCutShort completion w
  | .error i w => CutShort i w

namespace Short

theorem andThen {r : Ending α} (h : Short r) (f : α → Eval β) : Short (r.andThen f) := by
  cases r with
  | ok a w => exact h.elim
  | error i w => exact h

theorem round {r : Ending Unit} (h : Short r) : Short r.round := by
  cases r with
  | ok a w => exact h.elim
  | error i w => cases h <;> constructor <;> assumption

theorem returned {r : Ending Unit} (h : Short r) : Short r.returned := by
  cases r with
  | ok a w => exact h.elim
  | error i w => cases h <;> constructor <;> assumption

theorem atCall {r : Ending α} (h : Short r) (paren : Token) : Short (r.atCall paren) := by
  cases r with
  | ok a w => exact h.elim
  | error i w => cases h <;> constructor <;> assumption

theorem reported {r : Ending Unit} (h : Short r) (home : Ref .interpreter) :
    UnitShort (r.reported home) := by
  cases r with
  | ok a w => exact h.elim
  | error i w =>
      have hshort := h
      cases h <;> first | exact .failed home hshort | exact hshort

end Short

theorem UnitShort.loaded {r : Ending Eval.Completion} (h : UnitShort r) (loader : Ref .loader)
    (token : Token) (name : String) (place : RealPath) (m : Ref .module) :
    Short (r.loaded loader token name place m) := by
  cases r with
  | error i w => exact h
  | ok completion w =>
      cases completion with
      | completed => cases h
      | rejected => exact .rejected token name loader place h
      | failed e => exact .failed token name loader place h

end Ending

theorem Eval.bind_ending {α β : Type} (p : Eval α) (f : α → Eval β) (w : World) :
    (p >>= f) w = Ending.andThen (p w) f := Eval.bind_run p f w

/-! ### Two runs -/

/-- The run of which it is said that the limit did not cut it short. -/
inductive Side
  | first | second

namespace Side
variable {side : Side} {α β : Type} {n m : Nat}

/-- The levels that the other run needs to have at least: code that is written out nests up to four
times as deep, and the code it came from no deeper. -/
def Fits : Side → Nat → Nat → Prop
  | .first, n, m => 4 * n ≤ m
  | .second, n, m => m ≤ n

/-- Code inside a written out loop runs at least two levels further down. -/
def Inside : Side → Nat → Nat → Prop
  | .first, n, m => 4 * n + 2 ≤ m
  | .second, n, m => m ≤ n + 1

/-- Nothing of the second run is cut short where the first one is looked at. -/
theorem Fits.pos (h : side.Fits (n + 1) (m + 1)) : side = .first → 0 < m := by
  rintro rfl
  have h : 4 * (n + 1) ≤ m + 1 := h
  omega

theorem Fits.pred (h : side.Fits (n + 1) (m + 1)) : side.Fits n m := by
  cases side <;> simp only [Fits] at * <;> omega

theorem Fits.fits_twice (h : side.Fits (n + 1) (m + 2)) : side.Fits n m := by
  cases side <;> simp only [Fits] at * <;> omega

theorem Fits.inside (h : side.Fits (n + 1) (m + 1)) : side.Inside n m := by
  cases side <;> simp only [Fits, Inside] at * <;> omega

theorem Fits.inside_twice (h : side.Fits (n + 1) (m + 2)) : side.Inside n m := by
  cases side <;> simp only [Fits, Inside] at * <;> omega

namespace Inside

theorem pos (h : side.Inside n m) : side = .first → 0 < m := by
  rintro rfl
  have h : 4 * n + 2 ≤ m := h
  omega

theorem pos_pred (h : side.Inside n (m + 1)) : side = .first → 0 < m := by
  rintro rfl
  have h : 4 * n + 2 ≤ m + 1 := h
  omega

theorem fits (h : side.Inside n (m + 1)) : side.Fits n m := by
  cases side <;> simp only [Fits, Inside] at * <;> omega

theorem fits_pred (h : side.Inside n (m + 2)) : side.Fits n m := by
  cases side <;> simp only [Fits, Inside] at * <;> omega

end Inside

/-- The limit cut short the run on this side. -/
def Cut (side : Side) (r : Ending α) (r' : Ending β) : Prop :=
  match side with
  | .first => r.Short
  | .second => r'.Short

/-- What is done to both runs keeps them cut short. -/
theorem Cut.imp {γ δ : Type} {r : Ending α} {r' : Ending β} {t : Ending γ}
    {t' : Ending δ} (h : side.Cut r r') (hr : r.Short → t.Short) (hr' : r'.Short → t'.Short) :
    side.Cut t t' := by
  cases side with
  | first => exact hr h
  | second => exact hr' h

end Side

end Treewalk
